import Driftgate.Lib.ReadCommitted

/-!
# Ownership over a read-committed store

Processes often work on one thing at a time: a row, a job, a key. `Ownership` says which things a
process has in hand, read off what the process owns, and what holds of a thing that nobody has in
hand and of one that some process has. `Run.ownership` keeps three facts along every run: no two
processes have one thing in hand, and both predicates hold where they should.

A step has to be checked against the things its process has in hand before or after it
(`Ownership.Steps`). Everything else it must leave alone, which is asked for as a frame condition.

`Run.pending_locked` is strict locking: what a transaction has written it has locked.
-/

namespace Driftgate.ReadCommitted

open Driftgate.Transition

variable {σ ω κ ε ℓ ι χ ρ : Type*}

/-- The store as a process sees it. -/
def Own.view (P : Program σ ω κ ε ℓ χ) (w : Shared σ ε ι) (o : Own ω κ ℓ) : σ :=
  P.applyAll o.pending w.db

/-- Unless it rolls back, an operation changes what its process sees by its own writes. -/
theorem Op.view_own (P : Program σ ω κ ε ℓ χ) (w : Shared σ ε ι) (o : Own ω κ ℓ) (i : ι)
    {op : Op ω κ ε ℓ} (h : ∀ l, op ≠ .rollback l) :
    (op.own o).view P (op.shared P i o.pending w) = P.applyAll op.writes (o.view P w) := by
  cases op with
  | exec ks ws l => exact P.applyAll_append ..
  | emit e l => rfl
  | commit l => rfl
  | rollback l => exact absurd rfl (h l)

/-- Unless it commits, an operation leaves the store alone. -/
theorem Op.db_shared (P : Program σ ω κ ε ℓ χ) (w : Shared σ ε ι) (p : List ω) (i : ι)
    {op : Op ω κ ε ℓ} (h : ∀ l, op ≠ .commit l) : (op.shared P i p w).db = w.db := by
  cases op with
  | commit l => exact absurd rfl (h l)
  | _ => rfl

/-- Names are used up. -/
@[simp] theorem Op.fresh_shared (P : Program σ ω κ ε ℓ χ) (w : Shared σ ε ι) (p : List ω) (i : ι)
    (op : Op ω κ ε ℓ) : (op.shared P i p w).fresh = w.fresh + 1 := by
  cases op <;> rfl

/-- What a process has in hand, and what is known of things in hand and of the others. -/
structure Ownership (σ ω κ ε ℓ ι ρ : Type*) where
  inHand : Own ω κ ℓ → Set ρ
  Free : ρ → Shared σ ε ι → Prop
  Busy : ρ → Shared σ ε ι → Own ω κ ℓ → Prop

section Rule

variable [DecidableEq ι] [DecidableEq κ]

namespace Ownership

/-- The invariant of an ownership. -/
structure Holds (O : Ownership σ ω κ ε ℓ ι ρ) (s : State σ ω κ ε ℓ ι) : Prop where
  exclusive : ∀ i j r, r ∈ O.inHand (s.own i) → r ∈ O.inHand (s.own j) → i = j
  free : ∀ r, (∀ i, r ∉ O.inHand (s.own i)) → O.Free r s.toShared
  busy : ∀ i r, r ∈ O.inHand (s.own i) → O.Busy r s.toShared (s.own i)

/-- What has to be checked of an operation of process `i` that leads to the shared state `w`. -/
structure Steps (O : Ownership σ ω κ ε ℓ ι ρ) (s : State σ ω κ ε ℓ ι) (i : ι) (op : Op ω κ ε ℓ)
    (w : Shared σ ε ι) : Prop where
  /-- The process takes only what nobody else has. -/
  take : ∀ r ∈ O.inHand (op.own (s.own i)), r ∉ O.inHand (s.own i) →
    ∀ j, j ≠ i → r ∉ O.inHand (s.own j)
  busy : ∀ r ∈ O.inHand (op.own (s.own i)), O.Busy r w (op.own (s.own i))
  give : ∀ r ∈ O.inHand (s.own i), r ∉ O.inHand (op.own (s.own i)) → O.Free r w
  /-- What is not in the hand of the process stays as it is. -/
  frame : ∀ r, r ∉ O.inHand (s.own i) → r ∉ O.inHand (op.own (s.own i)) →
    (O.Free r s.toShared → O.Free r w) ∧ ∀ o, O.Busy r s.toShared o → O.Busy r w o

omit [DecidableEq κ] in
/-- What one step preserves. -/
theorem Steps.holds {O : Ownership σ ω κ ε ℓ ι ρ} {P : Program σ ω κ ε ℓ χ}
    {s t : State σ ω κ ε ℓ ι} {i : ι} {op : Op ω κ ε ℓ} (h : O.Holds s) (hst : Stepped P s i op t)
    (hs : O.Steps s i op (op.shared P i (s.pending i) s.toShared)) : O.Holds t := by
  have hown : ∀ j, (j = i ∧ t.own j = op.own (s.own i)) ∨ (j ≠ i ∧ t.own j = s.own j) := by
    intro j
    by_cases hj : j = i
    · exact .inl ⟨hj, hj ▸ hst.self⟩
    · exact .inr ⟨hj, hst.other j hj⟩
  -- what the process has after the step, no other process has
  have halone : ∀ j r, j ≠ i → r ∈ O.inHand (op.own (s.own i)) → r ∉ O.inHand (s.own j) := by
    intro j r hj hr hrj
    by_cases hbefore : r ∈ O.inHand (s.own i)
    · exact hj (h.exclusive j i r hrj hbefore)
    · exact hs.take r hr hbefore j hj hrj
  constructor
  · intro j j' r hr hr'
    obtain ⟨hj, hmine⟩ | ⟨hj, hsame⟩ := hown j <;> obtain ⟨hj', hmine'⟩ | ⟨hj', hsame'⟩ := hown j'
    · rw [hj, hj']
    · rw [hmine] at hr
      rw [hsame'] at hr'
      exact absurd hr' (halone j' r hj' hr)
    · rw [hsame] at hr
      rw [hmine'] at hr'
      exact absurd hr (halone j r hj hr')
    · rw [hsame] at hr
      rw [hsame'] at hr'
      exact h.exclusive j j' r hr hr'
  · intro r hr
    rw [hst.shared]
    have hafter : r ∉ O.inHand (op.own (s.own i)) := hst.self ▸ hr i
    by_cases hbefore : r ∈ O.inHand (s.own i)
    · exact hs.give r hbefore hafter
    · refine (hs.frame r hbefore hafter).1 (h.free r fun j => ?_)
      by_cases hj : j = i
      · exact hj ▸ hbefore
      · rw [← hst.other j hj]
        exact hr j
  · intro j r hr
    rw [hst.shared]
    obtain ⟨hj, hmine⟩ | ⟨hj, hsame⟩ := hown j
    · rw [hmine] at hr ⊢
      exact hs.busy r hr
    · rw [hsame] at hr ⊢
      have hbefore : r ∉ O.inHand (s.own i) := fun hi => hj (h.exclusive j i r hr hi)
      have hafter : r ∉ O.inHand (op.own (s.own i)) := fun hi => halone j r hj hi hr
      exact (hs.frame r hbefore hafter).2 _ (h.busy j r hr)

end Ownership

variable {P : Program σ ω κ ε ℓ χ} {good : State σ ω κ ε ℓ ι → ι × χ → Prop}
  {init : State σ ω κ ε ℓ ι → Prop}

/-- **Ownership.** An ownership holds along every run when it holds initially and every good step
has been checked. -/
theorem Run.ownership {O : Ownership σ ω κ ε ℓ ι ρ} (hinit : ∀ s, init s → O.Holds s)
    (hstep : ∀ s i x op, Run P.step good init s → O.Holds s → good s (i, x) →
      P.next (s.loc i) (s.view P i) x = some op →
      (∀ k ∈ op.locks, ∀ j, j ≠ i → k ∉ (s.own j).held) →
      O.Steps s i op (op.shared P i (s.pending i) s.toShared))
    {s : State σ ω κ ε ℓ ι} (h : Run P.step good init s) : O.Holds s := by
  refine Run.invariant (I := O.Holds) hinit ?_ h
  intro s a t hr hI hg hs
  obtain ⟨op, hop, hst⟩ := step_cases hs
  exact (hstep s a.1 a.2 op hr hI hg hop hst.free).holds hI hst

/-- **Strict locking.** When every statement takes the locks of what it writes, a process holds the
locks of everything in its open transaction. -/
theorem Run.pending_locked {guards : ω → κ → Prop}
    (hexec : ∀ s i x op, good s (i, x) → P.next (s.loc i) (s.view P i) x = some op →
      ∀ w ∈ op.writes, ∀ k, guards w k → k ∈ op.locks)
    (hinit : ∀ s, init s → ∀ i, s.pending i = [])
    {s : State σ ω κ ε ℓ ι} (h : Run P.step good init s) (i : ι) :
    ∀ w ∈ s.pending i, ∀ k, guards w k → k ∈ (s.own i).held := by
  refine Run.process_invariant (A := fun _ o => ∀ w ∈ o.pending, ∀ k, guards w k → k ∈ o.held)
    ?_ ?_ h i
  · intro s hs i w hw
    rw [show (s.own i).pending = s.pending i from rfl, hinit s hs i] at hw
    cases hw
  · intro s i x op hg hA hop w hw k hk
    cases op with
    | exec ks ws l =>
      obtain hw | hw := List.mem_append.mp hw
      · exact .inl (hA w hw k hk)
      · exact .inr (hexec s i x _ hg hop w hw k hk)
    | emit e l => exact hA w hw k hk
    | commit l => cases hw
    | rollback l => cases hw

end Rule

end Driftgate.ReadCommitted
