import Driftgate.Lib.LockOrder
import Mathlib.Data.Set.Card

/-!
# Work that can be brought to an end

Without deadlock somebody can go on, but perhaps never those that one waits for. More can be said
when every process has an input that suits it: one with which each of its steps takes it nearer to
its end, or ends its transaction. Then the holder of the highest lock can be brought to the end of
its transaction without anybody else taking a step (`Closes.release`), so all locks can be given
back (`Closes.drain`), and any processes whose every step takes them nearer can be brought to their
ends (`Closes.all_end`).
-/

namespace Driftgate.ReadCommitted

open Driftgate.Transition

variable {σ ω κ ε ℓ ι χ : Type*}

/-- The operation ends the transaction. -/
def Op.Ends : Op ω κ ε ℓ → Prop
  | .commit _ => True
  | .rollback _ => True
  | _ => False

/-- An operation that does not end the transaction takes no lock away. -/
theorem Op.heldAfter_of_not_ends {op : Op ω κ ε ℓ} (h : ¬op.Ends) (held : Set κ) :
    held ⊆ op.heldAfter held := by
  cases op with
  | exec ks ws l => exact Set.subset_union_left
  | emit e l => exact Set.Subset.rfl
  | commit l => exact absurd trivial h
  | rollback l => exact absurd trivial h

theorem Op.heldAfter_of_ends {op : Op ω κ ε ℓ} (h : op.Ends) (held : Set κ) :
    op.heldAfter held = ∅ := by
  cases op with
  | commit l => rfl
  | rollback l => rfl
  | _ => exact h.elim

theorem Op.ends_map {ε' ℓ' : Type*} {f : ℓ → ℓ'} {g : ε → ε'} {op : Op ω κ ε ℓ} (h : op.Ends) :
    (op.map f g).Ends := by
  cases op <;> exact h

/-- The processes that hold a lock. -/
def State.holders (s : State σ ω κ ε ℓ ι) : Set ι := {i | ∃ k, s.lock k = some i}

/-- Every process gets the input that suits it where it is. -/
def Suited (input : ℓ → χ) (s : State σ ω κ ε ℓ ι) (a : ι × χ) : Prop := a.2 = input (s.loc a.1)

/-- Where a process gets with the input that suits it. -/
def Program.Goes (P : Program σ ω κ ε ℓ χ) (input : ℓ → χ) (l l' : ℓ) : Prop :=
  ∃ v op, P.next l v (input l) = some op ∧ op.next = l'

variable [DecidableEq ι] [DecidableEq κ]

/-- What takes transactions to their ends: locks are taken in order, whoever holds one has something
to do, and every step takes a process nearer to its end or ends its transaction. -/
structure Closes (P : Program σ ω κ ε ℓ χ) (I : State σ ω κ ε ℓ ι → Prop) (rank : κ → ℕ) (n : ℕ)
    (input : ℓ → χ) (nearer : ℓ → ℓ → Prop) : Prop where
  keep : ∀ s i t, I s → P.step s (i, input (s.loc i)) = some t → I t
  ordered : ∀ s, I s → Ordered P rank s
  bounded : ∀ k, rank k < n
  goes : ∀ s, I s → ∀ i ∈ s.holders, ∃ op, P.next (s.loc i) (s.view P i) (input (s.loc i)) = some op
  approaches : ∀ l v op, P.next l v (input l) = some op → op.Ends ∨ nearer op.next l
  wf : WellFounded nearer

section Holders

variable {P : Program σ ω κ ε ℓ χ} {s t : State σ ω κ ε ℓ ι}

theorem holders_step {a : ι × χ} (h : P.step s a = some t) : t.holders ⊆ insert a.1 s.holders := by
  obtain ⟨op, -, hst⟩ := step_cases h
  rintro i ⟨k, hk⟩
  by_cases hi : i = a.1
  · exact .inl hi
  · have hheld : k ∈ (t.own i).held := hk
    rw [hst.other i hi] at hheld
    exact .inr ⟨k, hheld⟩

/-- At any time only finitely many processes hold a lock. -/
theorem Run.finite_holders {good : State σ ω κ ε ℓ ι → ι × χ → Prop}
    {init : State σ ω κ ε ℓ ι → Prop} (hinit : ∀ s, init s → s.holders.Finite)
    (h : Run P.step good init s) : s.holders.Finite :=
  Run.invariant hinit (fun _ _ _ _ hfin _ hstep => (hfin.insert _).subset (holders_step hstep)) h

/-- A step with the input that suits the process. -/
theorem run_suited {input : ℓ → χ} {i : ι} (h : P.step s (i, input (s.loc i)) = some t) :
    Run P.step (Suited input) (· = s) t :=
  have hsuited : Suited input s (i, input (s.loc i)) := rfl
  .next (.start rfl) hsuited h

end Holders

section Closes

variable {P : Program σ ω κ ε ℓ χ} {I : State σ ω κ ε ℓ ι → Prop} {rank : κ → ℕ} {n : ℕ}
  {input : ℓ → χ} {nearer : ℓ → ℓ → Prop} {s : State σ ω κ ε ℓ ι}

/-- A process that holds a lock above all that others hold does not wait. -/
theorem Closes.step (h : Closes P I rank n input nearer) (hs : I s) {j : ι} {k : κ}
    (hk : s.lock k = some j) (hmax : ∀ k' i, s.lock k' = some i → i ≠ j → rank k' ≤ rank k) :
    ∃ op t, P.next (s.loc j) (s.view P j) (input (s.loc j)) = some op ∧
      P.step s (j, input (s.loc j)) = some t ∧ Stepped P s j op t := by
  obtain ⟨op, hop⟩ := h.goes s hs j ⟨k, hk⟩
  have hfree : ∀ k' ∈ op.locks, ∀ i, s.lock k' = some i → i = j := by
    intro k' hk' i hi
    by_contra hne
    have hlt := h.ordered s hs j _ op k' i hop hk' hi hne k hk
    exact absurd (hmax k' i hi hne) (Nat.not_le.mpr hlt)
  obtain ⟨t, ht⟩ := step_enabled hop hfree
  obtain ⟨op', hop', hst⟩ := step_cases ht
  obtain rfl := Option.some.inj (hop.symm.trans hop')
  exact ⟨op, t, hop, ht, hst⟩

/-- **The highest lock is given back**, and nobody but its holder takes a step. -/
theorem Closes.release (h : Closes P I rank n input nearer) (hs : I s) {j : ι} {k : κ}
    (hk : s.lock k = some j) (hmax : ∀ k' i, s.lock k' = some i → i ≠ j → rank k' ≤ rank k) :
    ∃ t, Run P.step (Suited input) (· = s) t ∧ I t ∧ (t.own j).held = ∅ ∧
      (∀ i, i ≠ j → t.own i = s.own i) ∧
      Relation.TransGen (P.Goes input) (s.loc j) (t.loc j) := by
  -- by induction on how near the holder is to its end
  induction hl : s.loc j using h.wf.induction generalizing s with
  | h l ih =>
    obtain ⟨op, t, hop, ht, hst⟩ := h.step hs hk hmax
    have hIt := h.keep s j t hs ht
    have hrun : Run P.step (Suited input) (· = s) t := run_suited ht
    have hgoes : P.Goes input l (t.loc j) := ⟨_, op, hl ▸ hop, hst.loc.symm⟩
    by_cases hends : op.Ends
    · refine ⟨t, hrun, hIt, ?_, hst.other, .single hgoes⟩
      rw [hst.held, Op.heldAfter_of_ends hends]
    · have hnear : nearer (t.loc j) l := by
        rw [hst.loc]
        exact (h.approaches _ _ _ (hl ▸ hop)).resolve_left hends
      have hheld : k ∈ (t.own j).held := by
        rw [hst.held]
        exact Op.heldAfter_of_not_ends hends _ hk
      have hmax' : ∀ k' i, t.lock k' = some i → i ≠ j → rank k' ≤ rank k := by
        intro k' i hk' hne
        have hmem : k' ∈ (t.own i).held := hk'
        rw [hst.other i hne] at hmem
        exact hmax k' i hmem hne
      obtain ⟨u, hu, hIu, hfree, hother, hpath⟩ := ih _ hnear hIt hheld hmax' rfl
      exact ⟨u, hrun.trans hu, hIu, hfree, fun i hi => (hother i hi).trans (hst.other i hi),
        .head hgoes hpath⟩

/-- **All locks are given back.** Only those that hold one take steps. -/
theorem Closes.drain (h : Closes P I rank n input nearer) (hs : I s) (hfin : s.holders.Finite) :
    ∃ t, Run P.step (Suited input) (· = s) t ∧ I t ∧ t.holders = ∅ ∧
      ∀ i, t.loc i = s.loc i ∨ Relation.TransGen (P.Goes input) (s.loc i) (t.loc i) := by
  -- by induction on the number of holders
  induction hcard : s.holders.ncard using Nat.strong_induction_on generalizing s with
  | h m ih =>
    by_cases hnone : s.holders = ∅
    · exact ⟨s, .start rfl, hs, hnone, fun i => .inl rfl⟩
    · obtain ⟨i₀, k₀, hk₀⟩ := Set.nonempty_iff_ne_empty.mpr hnone
      obtain ⟨k, ⟨j, hk⟩, htop⟩ := (measure fun k => n - rank k).wf.has_min
        {k | ∃ j, s.lock k = some j} ⟨k₀, i₀, hk₀⟩
      have hmax : ∀ k' i, s.lock k' = some i → i ≠ j → rank k' ≤ rank k := by
        intro k' i hk' _
        have hle : ¬n - rank k' < n - rank k := htop k' ⟨i, hk'⟩
        have hlt := h.bounded k'
        omega
      obtain ⟨t, ht, hIt, hfree, hother, hpath⟩ := h.release hs hk hmax
      have hsub : t.holders ⊆ s.holders \ {j} := by
        rintro i ⟨k', hk'⟩
        have hmem : k' ∈ (t.own i).held := hk'
        have hne : i ≠ j := by
          rintro rfl
          rw [hfree] at hmem
          exact hmem.elim
        rw [hother i hne] at hmem
        exact ⟨⟨k', hmem⟩, hne⟩
      have hlt : t.holders.ncard < s.holders.ncard :=
        lt_of_le_of_lt (Set.ncard_le_ncard hsub (hfin.subset Set.sdiff_subset))
          (Set.ncard_sdiff_singleton_lt_of_mem ⟨k, hk⟩ hfin)
      obtain ⟨u, hu, hIu, hempty, hmoved⟩ :=
        ih _ (hcard ▸ hlt) hIt (hfin.subset (hsub.trans Set.sdiff_subset)) rfl
      refine ⟨u, ht.trans hu, hIu, hempty, fun i => ?_⟩
      by_cases hi : i = j
      · subst hi
        rcases hmoved i with hsame | hmore
        · exact .inr (hsame ▸ hpath)
        · exact .inr (hpath.trans hmore)
      · have hsame : t.loc i = s.loc i := congrArg Own.loc (hother i hi)
        exact hsame ▸ hmoved i

end Closes

/-! ### Processes that end -/

section Ending

variable {P : Program σ ω κ ε ℓ χ} {I : State σ ω κ ε ℓ ι → Prop} {rank : κ → ℕ} {n : ℕ}
  {input : ℓ → χ} {nearer : ℓ → ℓ → Prop} {mortal ended : ℓ → Prop}

/-- Processes of a kind that come nearer to their ends with every step, have something to do until
then, and nothing afterwards. -/
structure Mortal (P : Program σ ω κ ε ℓ χ) (input : ℓ → χ) (nearer : ℓ → ℓ → Prop)
    (mortal ended : ℓ → Prop) : Prop where
  stays : ∀ l l', mortal l → P.Goes input l l' → mortal l' ∧ nearer l' l
  goes : ∀ l v, mortal l → ¬ended l → ∃ op, P.next l v (input l) = some op
  rests : ∀ l v, ended l → P.next l v (input l) = none

omit [DecidableEq ι] [DecidableEq κ] in
theorem Mortal.path (hm : Mortal P input nearer mortal ended) {l l' : ℓ} (hl : mortal l)
    (h : Relation.TransGen (P.Goes input) l l') :
    mortal l' ∧ Relation.TransGen nearer l' l := by
  induction h with
  | single h => exact ⟨(hm.stays _ _ hl h).1, .single (hm.stays _ _ hl h).2⟩
  | tail _ h ih => exact ⟨(hm.stays _ _ ih.1 h).1, .head (hm.stays _ _ ih.1 h).2 ih.2⟩

/-- Who has ended stays where he is. -/
theorem Mortal.run_ended (hm : Mortal P input nearer mortal ended) {s t : State σ ω κ ε ℓ ι}
    (h : Run P.step (Suited input) (· = s) t) {i : ι} (hi : ended (s.loc i)) :
    t.loc i = s.loc i := by
  refine Run.invariant (I := fun t => t.loc i = s.loc i) (fun t ht => by rw [ht]) ?_ h
  rintro u ⟨j, x⟩ v - hsame hsuited hstep
  obtain ⟨op, hop, hst⟩ := step_cases hstep
  have hne : i ≠ j := by
    rintro rfl
    rw [show x = input (u.loc i) from hsuited, hm.rests _ _ (hsame ▸ hi)] at hop
    cases hop
  exact (hst.loc_other hne).trans hsame

theorem Mortal.run_mortal (hm : Mortal P input nearer mortal ended) {s t : State σ ω κ ε ℓ ι}
    (h : Run P.step (Suited input) (· = s) t) {i : ι} (hi : mortal (s.loc i)) :
    mortal (t.loc i) := by
  refine Run.invariant (I := fun t => mortal (t.loc i)) (fun t ht => ht ▸ hi) ?_ h
  rintro u ⟨j, x⟩ v - hmortal hsuited hstep
  obtain ⟨op, hop, hst⟩ := step_cases hstep
  by_cases hij : i = j
  · subst hij
    rw [show x = input (u.loc i) from hsuited] at hop
    exact (hm.stays _ _ hmortal ⟨_, op, hop, hst.loc.symm⟩).1
  · rw [hst.loc_other hij]
    exact hmortal

/-- **One process is brought to its end.** -/
theorem Closes.ends (h : Closes P I rank n input nearer)
    (hm : Mortal P input nearer mortal ended) {s : State σ ω κ ε ℓ ι} (hs : I s)
    (hfin : s.holders.Finite) {i : ι} (hi : mortal (s.loc i)) :
    ∃ t, Run P.step (Suited input) (· = s) t ∧ I t ∧ mortal (t.loc i) ∧ ended (t.loc i) := by
  induction hl : s.loc i using h.wf.transGen.induction generalizing s with
  | h l ih =>
    obtain ⟨t, ht, hIt, hempty, hmoved⟩ := h.drain hs hfin
    have hnobody : ∀ k j, t.lock k ≠ some j := by
      intro k j hk
      have hmem : j ∈ t.holders := ⟨k, hk⟩
      rw [hempty] at hmem
      exact hmem
    rcases hmoved i with hsame | hpath
    · by_cases hend : ended (t.loc i)
      · exact ⟨t, ht, hIt, hsame ▸ hi, hend⟩
      · -- nobody holds a lock, so the process takes its step
        obtain ⟨op, hop⟩ := hm.goes (t.loc i) (t.view P i) (hsame ▸ hi) hend
        obtain ⟨u, hu⟩ := step_enabled hop fun k _ j hk => absurd hk (hnobody k j)
        obtain ⟨op', hop', hst⟩ := step_cases hu
        have hgoes : P.Goes input l (u.loc i) := by
          rw [← hl, ← hsame]
          exact ⟨_, op', hop', hst.loc.symm⟩
        obtain ⟨hmortal, hnear⟩ := hm.stays _ _ (hl ▸ hi) hgoes
        have hrun : Run P.step (Suited input) (· = s) u := ht.trans (run_suited hu)
        have hfinu : u.holders.Finite := by
          refine Set.Finite.subset ?_ (holders_step hu)
          rw [hempty]
          exact (Set.finite_empty).insert _
        obtain ⟨w, hw, hIw, hend⟩ :=
          ih _ (.single hnear) (h.keep t i u hIt hu) hfinu hmortal rfl
        exact ⟨w, hrun.trans hw, hIw, hend⟩
    · obtain ⟨hmortal, hnear⟩ := hm.path hi hpath
      have hfint : t.holders.Finite := hempty ▸ Set.finite_empty
      obtain ⟨w, hw, hIw, hend⟩ := ih _ (hl ▸ hnear) hIt hfint hmortal rfl
      exact ⟨w, ht.trans hw, hIw, hend⟩

/-- **All of them are.** -/
theorem Closes.all_end (h : Closes P I rank n input nearer)
    (hm : Mortal P input nearer mortal ended) {s : State σ ω κ ε ℓ ι} (hs : I s)
    (hfin : s.holders.Finite) (is : List ι) (his : ∀ i ∈ is, mortal (s.loc i)) :
    ∃ t, Run P.step (Suited input) (· = s) t ∧ I t ∧ ∀ i ∈ is, ended (t.loc i) := by
  induction is with
  | nil => exact ⟨s, .start rfl, hs, fun i hi => absurd hi List.not_mem_nil⟩
  | cons i is ih =>
    obtain ⟨hi, hrest⟩ := List.forall_mem_cons.mp his
    obtain ⟨t, ht, hIt, hended⟩ := ih hrest
    have hfint : t.holders.Finite := Run.finite_holders (fun u (hu : u = s) => hu ▸ hfin) ht
    obtain ⟨u, hu, hIu, -, hend⟩ := h.ends hm hIt hfint (hm.run_mortal ht hi)
    refine ⟨u, ht.trans hu, hIu, List.forall_mem_cons.mpr ⟨hend, fun j hj => ?_⟩⟩
    rw [hm.run_ended hu (hended j hj)]
    exact hended j hj

end Ending

end Driftgate.ReadCommitted
