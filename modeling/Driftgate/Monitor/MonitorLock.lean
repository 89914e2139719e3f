import Driftgate.Monitor.MonitorRun
import Mathlib.Data.Finset.Card

/-!
# The monitor lock

The lock is taken before the first statement of a run and given back after its last commit or
rollback. It belongs to a connection, and by then the session may have another one. A release on
another connection, or one that fails, leaves the lock taken for good: the number of times it is
taken exceeds the number of calls that have it, and no later step makes up for that.
-/

namespace Driftgate.Monitor

open Driftgate.Lib Driftgate.Transition Driftgate.AdvisoryLock

/-! ### The calls that have the lock -/

/-- The call has obtained the lock and has not come to the end of its release. -/
def RunPc.Guarded : RunPc → Bool
  | .idle | .enter | .refuse | .done _ _ _ => false
  | _ => true

/-- The call has begun and has not ended. -/
def RunPc.InProgress : RunPc → Bool
  | .idle | .done _ _ _ => false
  | _ => true

/-- A step of `finally` gives back the lock: it goes through, on the connection that has it. -/
def Call.Releases (call : Call) (p : Pool) (a : Act) : Prop :=
  match call.pc, a with
  | .unlock _ _, .go c => p.lock.Holds (call.session.conn.getD c)
  | .unlock _ _, _ => False
  | _, _ => True

instance (call : Call) (p : Pool) (a : Act) : Decidable (call.Releases p a) := by
  unfold Call.Releases
  split <;> infer_instance

theorem QuietMove.guarded {pending pending' : List RunWrite} {pc pc' : RunPc} {a : Act}
    (h : QuietMove pending pc a pc' pending') :
    pc'.Guarded = pc.Guarded ∧ ∀ run outcome, pc ≠ .unlock run outcome := by
  cases h with
  | work c h => exact ⟨rfl, by rintro run outcome rfl; cases h⟩
  | raiseGuarded h caught breaks e =>
    cases pc <;> cases h <;> cases caught <;> simp [RunPc.handler, RunPc.Guarded]
  | _ => simp [RunPc.Guarded]

/-- **One step of a call.** The lock is taken once more or less often as the call obtains it or
ends, up to a release that did not count. -/
theorem CallMove.tally {call : Call} {p q : Pool} {a : Act} {pc : RunPc} {pending : List RunWrite}
    (h : CallMove call p a q pc pending) : ∃ lost : ℕ,
      q.lock.count + call.pc.Guarded.toNat = p.lock.count + pc.Guarded.toNat + lost ∧
        (lost = 0 ↔ call.Releases p a) := by
  cases h with
  | quiet hlock _ _ h =>
    obtain ⟨hguarded, hne⟩ := h.guarded
    refine ⟨0, by rw [hlock, hguarded, Nat.add_zero], iff_of_true rfl ?_⟩
    unfold Call.Releases
    split
    · exact absurd ‹_› (hne _ _)
    · exact absurd ‹_› (hne _ _)
    · trivial
  | @enter c d hpc ha hlock =>
    refine ⟨0, ?_, iff_of_true rfl (by simp [Call.Releases, hpc])⟩
    rw [hlock, Lock.count_tryLock, hpc]
    cases (p.lock.tryLock d).1 <;> simp [RunPc.Guarded]
  | insert hpc ha hlock =>
    exact ⟨0, by rw [hlock, hpc]; rfl, iff_of_true rfl (by simp [Call.Releases, hpc])⟩
  | commit hpc ha hlock =>
    exact ⟨0, by rw [hlock, hpc]; rfl, iff_of_true rfl (by simp [Call.Releases, hpc])⟩
  | commitMark hpc ha hlock =>
    exact ⟨0, by rw [hlock, hpc]; rfl, iff_of_true rfl (by simp [Call.Releases, hpc])⟩
  | @unlock c run outcome hpc ha hlock =>
    have hreleases : call.Releases p a ↔ p.lock.Holds (call.session.conn.getD c) := by
      simp only [Call.Releases, hpc, ha]
    rw [hreleases, hlock, hpc]
    by_cases hholds : p.lock.Holds (call.session.conn.getD c)
    · have hcount := Lock.count_unlock_of_holds hholds
      refine ⟨0, ?_, iff_of_true rfl hholds⟩
      simp only [RunPc.Guarded, Bool.toNat_true, Bool.toNat_false]
      omega
    · refine ⟨1, ?_, iff_of_false Nat.one_ne_zero hholds⟩
      rw [Lock.unlock_of_not_holds hholds]
      rfl
  | raiseUnlock hpc ha hlock =>
    refine ⟨1, by rw [hlock, hpc]; rfl, iff_of_false Nat.one_ne_zero ?_⟩
    simp [Call.Releases, hpc, ha]

/-! ### All calls -/

variable {ι : Type*} [DecidableEq ι]

/-- Every step of `finally` gives back the lock. -/
def ReleasesOwn (s : RunState ι) (a : ι × Act) : Prop := (s.call a.1).Releases s.pool a.2

instance (s : RunState ι) (a : ι × Act) : Decidable (ReleasesOwn s a) :=
  inferInstanceAs (Decidable (Call.Releases ..))

/-- The lock has been taken `lost` times more often than there are calls that have it. -/
def Tally (s : RunState ι) (lost : ℕ) : Prop :=
  ∃ F : Finset ι, (∀ i, i ∈ F ↔ (s.call i).pc.Guarded = true) ∧ s.pool.lock.count = F.card + lost

/-- A finite set of calls after one of them has moved. -/
theorem exists_finset_update {f g : ι → Bool} {F : Finset ι} {i : ι} (hF : ∀ j, j ∈ F ↔ f j = true)
    (hfg : ∀ j, j ≠ i → g j = f j) :
    ∃ G : Finset ι, (∀ j, j ∈ G ↔ g j = true) ∧ G.card + (f i).toNat = F.card + (g i).toNat := by
  have hmem : ∀ j, j ≠ i → (j ∈ F ↔ g j = true) := fun j hj => by rw [hF, hfg j hj]
  cases hgi : g i with
  | true =>
    refine ⟨insert i F, fun j => ?_, ?_⟩
    · by_cases hj : j = i
      · subst hj; simp [hgi]
      · rw [Finset.mem_insert, hmem j hj]
        simp [hj]
    · cases hfi : f i with
      | true => rw [Finset.insert_eq_of_mem ((hF i).mpr hfi)]
      | false =>
        rw [Finset.card_insert_of_notMem (by rw [hF, hfi]; decide)]
        rfl
  | false =>
    refine ⟨F.erase i, fun j => ?_, ?_⟩
    · by_cases hj : j = i
      · subst hj; simp [hgi]
      · rw [Finset.mem_erase, hmem j hj]
        simp [hj]
    · cases hfi : f i with
      | true => exact Finset.card_erase_add_one ((hF i).mpr hfi)
      | false => rw [Finset.erase_eq_of_notMem (by rw [hF, hfi]; decide)]

theorem Tally.step {s t : RunState ι} {a : ι × Act} {lost : ℕ} (h : Tally s lost)
    (hs : runStep s a = some t) :
    ∃ lost', Tally t lost' ∧ lost ≤ lost' ∧ (lost' = lost ↔ ReleasesOwn s a) := by
  obtain ⟨F, hF, hcount⟩ := h
  obtain ⟨hmove, hothers⟩ := runStep_cases hs
  obtain ⟨k, hk, hreleases⟩ := hmove.tally
  obtain ⟨G, hG, hcard⟩ := exists_finset_update
    (i := a.1) (g := fun j => (t.call j).pc.Guarded) hF (fun j hj => by simp only [hothers j hj])
  refine ⟨lost + k, ⟨G, hG, ?_⟩, Nat.le_add_right lost k, ?_⟩
  · omega
  · rw [ReleasesOwn, ← hreleases]
    omega

theorem Tally.exec {s t : RunState ι} {as : List (ι × Act)} {lost : ℕ} (h : Tally s lost)
    (he : exec runStep s as = some t) :
    ∃ lost', Tally t lost' ∧ lost ≤ lost' ∧ (lost' = lost ↔ Along runStep ReleasesOwn s as) := by
  induction as generalizing s lost with
  | nil =>
    cases he
    exact ⟨lost, h, le_rfl, iff_of_true rfl trivial⟩
  | cons a as ih =>
    obtain ⟨u, hu, he⟩ := Option.bind_eq_some_iff.mp he
    obtain ⟨k, hk, hle, hstep⟩ := h.step hu
    obtain ⟨m, hm, hle', hrest⟩ := ih hk he
    refine ⟨m, hm, hle.trans hle', ?_⟩
    have halong : Along runStep ReleasesOwn s (a :: as) ↔ k = lost ∧ m = k := by
      rw [hstep, hrest]
      show ReleasesOwn s a ∧ (∀ t ∈ runStep s a, Along runStep ReleasesOwn t as) ↔ _
      rw [Option.mem_def.mp hu]
      simp
    rw [halong]
    omega

/-- **When the lock is free again.** Whenever no call is in progress, no connection has the lock
and the next call obtains it, if and only if every release of the run so far has gone through on
the connection that had the lock. -/
theorem lock_free_iff {s t : RunState ι} {as : List (ι × Act)} (hs : s.Initial)
    (he : exec runStep s as = some t) (hquiet : ∀ i, (t.call i).pc.InProgress = false) :
    ((∀ c, ¬t.pool.lock.Holds c) ∧ ∀ c, (t.pool.lock.tryLock c).1 = true) ↔
      Along runStep ReleasesOwn s as := by
  have hstart : Tally s 0 := by
    refine ⟨∅, fun i => ?_, by rw [hs.free]; rfl⟩
    rw [hs.idle i]
    simp [RunPc.Guarded]
  obtain ⟨lost, ⟨F, hF, hcount⟩, -, hiff⟩ := hstart.exec he
  -- the calls that have the lock are in progress
  have hempty : F = ∅ := by
    refine Finset.eq_empty_of_forall_notMem fun i hi => ?_
    have hguarded := (hF i).mp hi
    have hq := hquiet i
    cases hpc : (t.call i).pc <;> simp_all [RunPc.Guarded, RunPc.InProgress]
  rw [← hiff]
  rw [hempty, Finset.card_empty, Nat.zero_add] at hcount
  rw [← hcount, Lock.count_eq_zero]
  constructor
  · rintro ⟨hfree, -⟩
    cases hl : t.pool.lock with
    | none => rfl
    | some l => exact absurd ⟨l.2, by rw [hl]⟩ (hfree l.1)
  · intro hl
    rw [hl]
    exact ⟨Lock.not_holds_none, fun c => rfl⟩

/-! ### Samples -/

/-- A call that succeeds: it takes the lock on connection 0 and releases it on connection `c`. -/
def sampleCall (i c : ℕ) : List (ℕ × Act) :=
  [.go 0, .go 0, .go 0, .upserted 0 0, .gathered [], .go 0, .go 0, .go c].map fun a => (i, a)

/-- The sample call ends, with the lock as the connection of its release leaves it. -/
theorem sampleRun_ends {c : ℕ} {l : Lock ℕ} (h : (exec runStep sampleRun (sampleCall 0 c)).map
    (fun t => ((t.call 0).pc.InProgress, t.pool.lock)) = some (false, l)) :
    ∃ t, exec runStep sampleRun (sampleCall 0 c) = some t ∧
      (∀ i, (t.call i).pc.InProgress = false) ∧ t.pool.lock = l := by
  obtain ⟨t, he, ht⟩ := Option.map_eq_some_iff.mp h
  obtain ⟨hpc, hlock⟩ := Prod.mk.inj ht
  refine ⟨t, he, fun i => ?_, hlock⟩
  by_cases hi : i = 0
  · exact hi ▸ hpc
  · have hmem : ∀ a ∈ sampleCall 0 c, a.1 ≠ i := by
      intro a ha
      obtain ⟨b, -, rfl⟩ := List.mem_map.mp ha
      exact Ne.symm hi
    rw [exec_call_of_not_mem he hmem]
    rfl

/-- With the connection of the lock at hand again for its release, the lock is free. -/
theorem lock_free_same_connection : ∃ t, exec runStep sampleRun (sampleCall 0 0) = some t ∧
    (∀ c, ¬t.pool.lock.Holds c) ∧ ∀ c, (t.pool.lock.tryLock c).1 = true := by
  obtain ⟨t, he, hquiet, -⟩ := sampleRun_ends (c := 0) (l := none) (by decide)
  exact ⟨t, he, (lock_free_iff sampleRun_initial he hquiet).mpr (by decide)⟩

/-- On another connection the release does nothing, and the lock stays taken. -/
theorem lock_left_taken : ¬∀ (s t : RunState ℕ) (as : List (ℕ × Act)), s.Initial →
    exec runStep s as = some t → (∀ i, (t.call i).pc.InProgress = false) →
    ∀ c, ¬t.pool.lock.Holds c := by
  intro h
  obtain ⟨t, he, hquiet, hlock⟩ := sampleRun_ends (c := 1) (l := some (0, 0)) (by decide)
  exact h _ t _ sampleRun_initial he hquiet 0 ⟨0, hlock⟩

end Driftgate.Monitor
