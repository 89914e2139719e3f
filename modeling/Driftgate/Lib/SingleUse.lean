import Driftgate.Lib.Whereabouts
import Mathlib.Data.List.Nodup
import Mathlib.Data.List.Perm.Subperm

/-!
# Keys that are used once

Rows of the store have keys, and no two rows should have the same one. A process may be obliged to
add rows for keys that it has chosen before: it owes them. The keys of its open transaction and
those it owes are reserved for it.

`Run.keys_nodup` asks for one fact about a step: the keys it writes and those it owes afterwards are
among those it owed, and new ones that are neither in sight nor reserved for others. Then the store
never gets two rows with one key, whatever is rolled back. A key that comes from the counter of
names is always new (`Run.names_nodup`).
-/

namespace Driftgate.ReadCommitted

open Driftgate.Transition

variable {σ ω κ ε ℓ ι χ K : Type*}

/-- The keys of the rows in the store, those a write adds, and those a process owes. -/
structure Keyed (P : Program σ ω κ ε ℓ χ) (K : Type*) where
  stored : σ → List K
  written : ω → List K
  owed : ℓ → List K
  apply_eq : ∀ w d, stored (P.apply w d) = stored d ++ written w

namespace Keyed

variable {P : Program σ ω κ ε ℓ χ} (Q : Keyed P K)

/-- The keys that a process has written or owes. -/
def reserved (o : Own ω κ ℓ) : List K := o.pending.flatMap Q.written ++ Q.owed o.loc

/-- No key is stored twice, even when a process adds all that is reserved for it, and nothing is
reserved twice. -/
structure Unique (s : State σ ω κ ε ℓ ι) : Prop where
  stored : (Q.stored s.db).Nodup
  nodup : ∀ i, (Q.stored s.db ++ Q.reserved (s.own i)).Nodup
  exclusive : ∀ i j, i ≠ j → ∀ k ∈ Q.reserved (s.own i), k ∉ Q.reserved (s.own j)

/-- What a step does with keys: what it writes and owes afterwards it owed before, or it is new. -/
def Spends (s : State σ ω κ ε ℓ ι) (i : ι) (op : Op ω κ ε ℓ) : Prop :=
  ∃ new : List K, (op.writes.flatMap Q.written ++ Q.owed op.next).Subperm
      (new ++ Q.owed (s.loc i)) ∧ new.Nodup ∧
    ∀ k ∈ new, k ∉ Q.stored s.db ∧ ∀ j, k ∉ Q.reserved (s.own j)

variable {Q}

theorem stored_applyAll (ws : List ω) (d : σ) :
    Q.stored (P.applyAll ws d) = Q.stored d ++ ws.flatMap Q.written := by
  induction ws generalizing d with
  | nil => simp
  | cons w ws ih => simp [ih, Q.apply_eq]

section Step

variable {s t : State σ ω κ ε ℓ ι} {i : ι} {op : Op ω κ ε ℓ} {new : List K}

/-- The store and what is reserved for the process, after its step. -/
theorem subperm_step (h : Stepped P s i op t)
    (hnew : (op.writes.flatMap Q.written ++ Q.owed op.next).Subperm (new ++ Q.owed (s.loc i))) :
    (Q.stored t.db ++ Q.reserved (t.own i)).Subperm
      (new ++ (Q.stored s.db ++ Q.reserved (s.own i))) := by
  have hreserved : Q.reserved (t.own i) =
      (op.pendingAfter (s.pending i)).flatMap Q.written ++ Q.owed op.next := by
    rw [h.self]
    rfl
  have hbefore : (Q.stored s.db ++ (s.pending i).flatMap Q.written ++
      (new ++ Q.owed (s.loc i))).Perm (new ++ (Q.stored s.db ++ Q.reserved (s.own i))) := by
    rw [reserved, ← List.append_assoc (Q.stored s.db)]
    exact List.perm_append_comm_assoc ..
  refine List.Subperm.trans ?_ hbefore.subperm
  rw [hreserved, h.db]
  cases op with
  | exec ks ws l =>
    simp only [Op.dbAfter, Op.pendingAfter, List.flatMap_append, List.append_assoc]
    exact (List.subperm_append_left _).mpr ((List.subperm_append_left _).mpr hnew)
  | emit e l =>
    simp only [Op.dbAfter, Op.pendingAfter, List.append_assoc]
    exact (List.subperm_append_left _).mpr ((List.subperm_append_left _).mpr hnew)
  | commit l =>
    rw [show Q.stored (Op.dbAfter P.apply (s.pending i) s.db (.commit l : Op ω κ ε ℓ)) =
      Q.stored s.db ++ (s.pending i).flatMap Q.written from stored_applyAll ..]
    exact (List.subperm_append_left _).mpr hnew
  | rollback l =>
    simp only [Op.dbAfter, Op.pendingAfter, List.flatMap_nil, List.nil_append, List.append_assoc]
    exact (List.subperm_append_left _).mpr
      (hnew.trans (List.sublist_append_right _ _).subperm)

/-- What is reserved for the process after its step was reserved before or is new. -/
theorem mem_reserved_step (h : Stepped P s i op t)
    (hnew : (op.writes.flatMap Q.written ++ Q.owed op.next).Subperm (new ++ Q.owed (s.loc i)))
    {k : K} (hk : k ∈ Q.reserved (t.own i)) : k ∈ new ∨ k ∈ Q.reserved (s.own i) := by
  have hnext : ∀ k ∈ op.writes.flatMap Q.written ++ Q.owed op.next,
      k ∈ new ∨ k ∈ Q.reserved (s.own i) := by
    intro k hk
    obtain hk | hk := List.mem_append.mp (hnew.subset hk)
    · exact .inl hk
    · exact .inr (List.mem_append_right _ hk)
  rw [h.self] at hk
  obtain hk | hk := List.mem_append.mp hk
  · cases op with
    | exec ks ws l =>
      rw [show (Op.own (s.own i) (.exec ks ws l : Op ω κ ε ℓ)).pending = s.pending i ++ ws from rfl,
        List.flatMap_append] at hk
      obtain hk | hk := List.mem_append.mp hk
      · exact .inr (List.mem_append_left _ hk)
      · exact hnext k (List.mem_append_left _ hk)
    | emit e l => exact .inr (List.mem_append_left _ hk)
    | commit l => cases hk
    | rollback l => cases hk
  · exact hnext k (List.mem_append_right _ hk)

/-- What is stored after a step was stored before, or the process had written it. -/
theorem mem_stored_step (h : Stepped P s i op t) {k : K} (hk : k ∈ Q.stored t.db) :
    k ∈ Q.stored s.db ∨ k ∈ (s.pending i).flatMap Q.written := by
  rw [h.db] at hk
  cases op with
  | commit l =>
    have hall : Q.stored (P.applyAll (s.pending i) s.db) =
        Q.stored s.db ++ (s.pending i).flatMap Q.written := stored_applyAll ..
    exact List.mem_append.mp (hall.subst hk)
  | _ => exact .inl hk

/-- **Step.** -/
theorem Unique.step (hu : Q.Unique s) (h : Stepped P s i op t) (hs : Q.Spends s i op) :
    Q.Unique t := by
  obtain ⟨new, hnew, hnodup, hfresh⟩ := hs
  have hself : (Q.stored t.db ++ Q.reserved (t.own i)).Nodup := by
    obtain ⟨l, hperm, hsub⟩ := subperm_step h hnew
    refine hperm.nodup_iff.mp (.sublist hsub (List.nodup_append.mpr ⟨hnodup, hu.nodup i, ?_⟩))
    rintro k hk k' hk' rfl
    obtain hk' | hk' := List.mem_append.mp hk'
    · exact (hfresh k hk).1 hk'
    · exact (hfresh k hk).2 i hk'
  -- what the process has afterwards is not reserved for anybody else
  have halone : ∀ j, j ≠ i → ∀ k ∈ Q.reserved (t.own i), k ∉ Q.reserved (s.own j) := by
    intro j hj k hk
    obtain hk | hk := mem_reserved_step h hnew hk
    · exact (hfresh k hk).2 j
    · exact hu.exclusive i j hj.symm k hk
  have hstored := (List.nodup_append.mp hself).1
  refine ⟨hstored, fun j => ?_, fun j j' hne k hk hk' => ?_⟩
  · by_cases hj : j = i
    · exact hj ▸ hself
    · rw [h.other j hj]
      have hother := List.nodup_append.mp (hu.nodup j)
      refine List.nodup_append.mpr ⟨hstored, hother.2.1, ?_⟩
      rintro k hk k' hk' rfl
      obtain hk | hk := mem_stored_step h hk
      · exact hother.2.2 k hk k hk' rfl
      · exact hu.exclusive i j (Ne.symm hj) k (List.mem_append_left _ hk) hk'
  · by_cases hj : j = i
    · subst hj
      rw [h.other j' hne.symm] at hk'
      exact halone j' hne.symm k hk hk'
    · rw [h.other j hj] at hk
      by_cases hj' : j' = i
      · subst hj'
        exact halone j hj k hk' hk
      · rw [h.other j' hj'] at hk'
        exact hu.exclusive j j' hne k hk hk'

end Step

end Keyed

section Runs

variable [DecidableEq ι] [DecidableEq κ] {P : Program σ ω κ ε ℓ χ} {Q : Keyed P K}
  {good : State σ ω κ ε ℓ ι → ι × χ → Prop} {init : State σ ω κ ε ℓ ι → Prop}

/-- **Keys are used once** along every run whose steps spend only what is reserved or new. -/
theorem Run.keys_nodup (hinit : ∀ s, init s → Q.Unique s)
    (hstep : ∀ s i x op, Run P.step good init s → good s (i, x) → Q.Unique s →
      P.next (s.loc i) (s.view P i) x = some op →
      (∀ k ∈ op.locks, ∀ j, j ≠ i → k ∉ (s.own j).held) → Q.Spends s i op)
    {s : State σ ω κ ε ℓ ι} (h : Run P.step good init s) : Q.Unique s := by
  refine Run.invariant (I := Q.Unique) hinit ?_ h
  rintro s ⟨i, x⟩ t hr hI hg hs
  obtain ⟨op, hop, hst⟩ := step_cases hs
  exact hI.step hst (hstep s i x op hr hg hI hop hst.free)

/-- The places where a numeric key can be found. -/
def Keyed.whereabouts (Q : Keyed P ℕ) : Whereabouts P where
  stored d n := n ∈ Q.stored d
  written w n := n ∈ Q.written w
  known l n := n ∈ Q.owed l
  apply_iff w d n := by rw [Q.apply_eq, List.mem_append]

omit [DecidableEq ι] [DecidableEq κ] in
theorem Keyed.present_of_reserved {Q : Keyed P ℕ} {s : State σ ω κ ε ℓ ι} {i : ι} {n : ℕ}
    (h : n ∈ Q.reserved (s.own i)) : Q.whereabouts.Present s n := by
  obtain h | h := List.mem_append.mp h
  · exact .inr ⟨i, .inl (List.mem_flatMap.mp h)⟩
  · exact .inr ⟨i, .inr h⟩

/-- **Names are used once.** When a step brings no key but the name that the counter gives it, no
two rows get one key. -/
theorem Run.names_nodup {Q : Keyed P ℕ} (hinit : ∀ s, init s → Q.Unique s ∧
      ∀ n, Q.whereabouts.Present s n → n < s.fresh)
    (hstep : ∀ (s : State σ ω κ ε ℓ ι) i x op, P.next (s.loc i) (s.view P i) x = some op →
      (op.writes.flatMap Q.written ++ Q.owed op.next).Subperm (s.fresh :: Q.owed (s.loc i)))
    {s : State σ ω κ ε ℓ ι} (h : Run P.step good init s) : Q.Unique s := by
  refine Run.keys_nodup (fun s hs => (hinit s hs).1) ?_ h
  intro s i x op hr _ _ hop _
  have hbelow := Whereabouts.below (W := Q.whereabouts) (fun s hs => (hinit s hs).2)
    (fun s i x op hop n hn => ?_) hr
  · refine ⟨[s.fresh], hstep s i x op hop, List.nodup_singleton _, fun k hk => ?_⟩
    rw [List.mem_singleton.mp hk]
    exact ⟨fun hstored => Nat.lt_irrefl _ (hbelow _ (.inl hstored)),
      fun j hj => Nat.lt_irrefl _ (hbelow _ (Keyed.present_of_reserved hj))⟩
  · have hmem : n ∈ op.writes.flatMap Q.written ++ Q.owed op.next := by
      obtain hn | hn := hn
      · exact List.mem_append_left _ (List.mem_flatMap.mpr hn)
      · exact List.mem_append_right _ hn
    obtain rfl | hn := List.mem_cons.mp ((hstep s i x op hop).subset hmem)
    · exact .inr rfl
    · exact .inl (.inr ⟨i, .inr hn⟩)

end Runs

end Driftgate.ReadCommitted
