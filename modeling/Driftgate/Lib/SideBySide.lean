import Driftgate.Lib.ReadCommitted
import Mathlib.Data.List.Basic

/-!
# Two stores side by side

A process may work on one store for a while and on another one afterwards, in transactions of one
database. The database is then a pair of stores, a write or a lock belongs to one of the two, and
what is seen from the second store alone is again a state of processes: `State.right`. An operation
on the first store looks from there like a statement that does nothing, and a commit carries out
just the writes to the second store, whatever else the transaction has done.

`Run.right_noninterference` is the rule for invariants of the second store.
-/

namespace Driftgate.ReadCommitted

open Driftgate.Transition

variable {σ₁ σ₂ ω₁ ω₂ κ₁ κ₂ ε ℓ ι χ : Type*}

/-- How the writes to two stores act on the pair. -/
def applyBoth (f₁ : ω₁ → σ₁ → σ₁) (f₂ : ω₂ → σ₂ → σ₂) : ω₁ ⊕ ω₂ → σ₁ × σ₂ → σ₁ × σ₂
  | .inl w, d => (f₁ w d.1, d.2)
  | .inr w, d => (d.1, f₂ w d.2)

/-- The writes to the second store. -/
def rightWrites (ws : List (ω₁ ⊕ ω₂)) : List ω₂ := ws.filterMap Sum.getRight?

theorem rightWrites_append (ws ws' : List (ω₁ ⊕ ω₂)) :
    rightWrites (ws ++ ws') = rightWrites ws ++ rightWrites ws' :=
  List.filterMap_append

theorem mem_filterMap_getRight {α β : Type*} {l : List (α ⊕ β)} {b : β} :
    b ∈ l.filterMap Sum.getRight? ↔ .inr b ∈ l := by
  rw [List.mem_filterMap]
  constructor
  · rintro ⟨a, ha, hb⟩
    rwa [← Sum.getRight?_eq_some_iff.mp hb]
  · exact fun h => ⟨.inr b, h, rfl⟩

/-! ### What is seen from one of them -/

def View.left (v : View (σ₁ × σ₂) (κ₁ ⊕ κ₂)) : View σ₁ κ₁ :=
  ⟨v.db.1, fun k => v.busy (.inl k), v.fresh⟩

def View.right (v : View (σ₁ × σ₂) (κ₁ ⊕ κ₂)) : View σ₂ κ₂ :=
  ⟨v.db.2, fun k => v.busy (.inr k), v.fresh⟩

namespace Op

/-- An operation on the first store. -/
def inLeft : Op ω₁ κ₁ ε ℓ → Op (ω₁ ⊕ ω₂) (κ₁ ⊕ κ₂) ε ℓ
  | exec ks ws l => exec (ks.map .inl) (ws.map .inl) l
  | emit e l => emit e l
  | commit l => commit l
  | rollback l => rollback l

/-- An operation on the second store. -/
def inRight : Op ω₂ κ₂ ε ℓ → Op (ω₁ ⊕ ω₂) (κ₁ ⊕ κ₂) ε ℓ
  | exec ks ws l => exec (ks.map .inr) (ws.map .inr) l
  | emit e l => emit e l
  | commit l => commit l
  | rollback l => rollback l

/-- What the second store sees of an operation. -/
def right : Op (ω₁ ⊕ ω₂) (κ₁ ⊕ κ₂) ε ℓ → Op ω₂ κ₂ ε ℓ
  | exec ks ws l => exec (ks.filterMap Sum.getRight?) (rightWrites ws) l
  | emit e l => emit e l
  | commit l => commit l
  | rollback l => rollback l

/-- The operation without its locks and writes. -/
def bare : Op ω₁ κ₁ ε ℓ → Op ω₂ κ₂ ε ℓ
  | exec _ _ l => exec [] [] l
  | emit e l => emit e l
  | commit l => commit l
  | rollback l => rollback l

@[simp] theorem right_inRight (op : Op ω₂ κ₂ ε ℓ) :
    (op.inRight : Op (ω₁ ⊕ ω₂) (κ₁ ⊕ κ₂) ε ℓ).right = op := by
  cases op with
  | exec ks ws l => simp [inRight, right, rightWrites, List.filterMap_map, Function.comp_def]
  | _ => rfl

@[simp] theorem right_inLeft (op : Op ω₁ κ₁ ε ℓ) :
    (op.inLeft : Op (ω₁ ⊕ ω₂) (κ₁ ⊕ κ₂) ε ℓ).right = op.bare := by
  cases op with
  | exec ks ws l =>
    simp [inLeft, right, bare, rightWrites, List.filterMap_map, Function.comp_def]
  | _ => rfl

@[simp] theorem next_inLeft (op : Op ω₁ κ₁ ε ℓ) :
    (op.inLeft : Op (ω₁ ⊕ ω₂) (κ₁ ⊕ κ₂) ε ℓ).next = op.next := by
  cases op <;> rfl

@[simp] theorem next_inRight (op : Op ω₂ κ₂ ε ℓ) :
    (op.inRight : Op (ω₁ ⊕ ω₂) (κ₁ ⊕ κ₂) ε ℓ).next = op.next := by
  cases op <;> rfl

@[simp] theorem writes_inLeft (op : Op ω₁ κ₁ ε ℓ) :
    (op.inLeft : Op (ω₁ ⊕ ω₂) (κ₁ ⊕ κ₂) ε ℓ).writes = op.writes.map .inl := by
  cases op <;> rfl

@[simp] theorem writes_inRight (op : Op ω₂ κ₂ ε ℓ) :
    (op.inRight : Op (ω₁ ⊕ ω₂) (κ₁ ⊕ κ₂) ε ℓ).writes = op.writes.map .inr := by
  cases op <;> rfl

@[simp] theorem next_bare (op : Op ω₁ κ₁ ε ℓ) : (op.bare : Op ω₂ κ₂ ε ℓ).next = op.next := by
  cases op <;> rfl

@[simp] theorem bare_map {ℓ' : Type*} (f : ℓ → ℓ') (op : Op ω₁ κ₁ ε ℓ) :
    (op.map f id).bare = (op.bare : Op ω₂ κ₂ ε ℓ).map f id := by
  cases op <;> rfl

end Op

/-- The part of a process that belongs to the second store. -/
def Own.right (o : Own (ω₁ ⊕ ω₂) (κ₁ ⊕ κ₂) ℓ) : Own ω₂ κ₂ ℓ :=
  ⟨o.loc, rightWrites o.pending, {k | .inr k ∈ o.held}⟩

def Shared.right (w : Shared (σ₁ × σ₂) ε ι) : Shared σ₂ ε ι := { w with db := w.db.2 }

/-- The state of the second store. -/
def State.right (s : State (σ₁ × σ₂) (ω₁ ⊕ ω₂) (κ₁ ⊕ κ₂) ε ℓ ι) : State σ₂ ω₂ κ₂ ε ℓ ι where
  toShared := s.toShared.right
  loc := s.loc
  pending := fun i => rightWrites (s.pending i)
  lock := fun k => s.lock (.inr k)

@[simp] theorem State.right_own (s : State (σ₁ × σ₂) (ω₁ ⊕ ω₂) (κ₁ ⊕ κ₂) ε ℓ ι) (i : ι) :
    s.right.own i = (s.own i).right := rfl

/-- An operation does to the part of the process what is seen of it. -/
theorem Op.own_right (o : Own (ω₁ ⊕ ω₂) (κ₁ ⊕ κ₂) ℓ) (op : Op (ω₁ ⊕ ω₂) (κ₁ ⊕ κ₂) ε ℓ) :
    (op.own o).right = op.right.own o.right := by
  cases op with
  | exec ks ws l =>
    show (⟨l, rightWrites (o.pending ++ ws), {k | .inr k ∈ o.held ∪ {k | k ∈ ks}}⟩ : Own ω₂ κ₂ ℓ) = _
    have hheld : {k | .inr k ∈ o.held ∪ {k | k ∈ ks}} =
        {k | .inr k ∈ o.held} ∪ {k : κ₂ | k ∈ ks.filterMap Sum.getRight?} := by
      ext k
      simp only [Set.mem_ofPred_eq, Set.mem_union, mem_filterMap_getRight]
    rw [rightWrites_append, hheld]
    rfl
  | emit e l => rfl
  | commit l => rfl
  | rollback l => rfl

/-! ### Programs -/

section Program

variable {P : Program (σ₁ × σ₂) (ω₁ ⊕ ω₂) (κ₁ ⊕ κ₂) ε ℓ χ} {Q : Program σ₂ ω₂ κ₂ ε ℓ χ}
  {f₁ : ω₁ → σ₁ → σ₁} (hP : P.apply = applyBoth f₁ Q.apply)

include hP

theorem Program.applyAll_snd (ws : List (ω₁ ⊕ ω₂)) (d : σ₁ × σ₂) :
    (P.applyAll ws d).2 = Q.applyAll (rightWrites ws) d.2 := by
  induction ws generalizing d with
  | nil => rfl
  | cons w ws ih =>
    rw [Program.applyAll_cons, ih, hP]
    cases w <;> rfl

theorem Op.shared_right (i : ι) (p : List (ω₁ ⊕ ω₂)) (w : Shared (σ₁ × σ₂) ε ι)
    (op : Op (ω₁ ⊕ ω₂) (κ₁ ⊕ κ₂) ε ℓ) :
    (op.shared P i p w).right = op.right.shared Q i (rightWrites p) w.right := by
  cases op with
  | commit l =>
    show ({ db := (P.applyAll p w.db).2, trace := w.trace, fresh := w.fresh + 1 } : Shared σ₂ ε ι) = _
    rw [Program.applyAll_snd hP]
    rfl
  | _ => rfl

/-- A step of the pair is a step of the second store. -/
theorem Stepped.right {s t : State (σ₁ × σ₂) (ω₁ ⊕ ω₂) (κ₁ ⊕ κ₂) ε ℓ ι} {i : ι}
    {op : Op (ω₁ ⊕ ω₂) (κ₁ ⊕ κ₂) ε ℓ} (h : Stepped P s i op t) :
    Stepped Q s.right i op.right t.right where
  free k hk j hj hheld := by
    refine h.free (.inr k) ?_ j hj hheld
    cases op with
    | exec ks ws l => exact mem_filterMap_getRight.mp hk
    | _ => cases hk
  shared := by
    show t.toShared.right = _
    rw [h.shared, Op.shared_right hP]
    rfl
  self := by
    rw [State.right_own, h.self, Op.own_right]
    rfl
  other j hj := by rw [State.right_own, h.other j hj, State.right_own]

variable [DecidableEq ι]

theorem State.view_right (s : State (σ₁ × σ₂) (ω₁ ⊕ ω₂) (κ₁ ⊕ κ₂) ε ℓ ι) (i : ι) :
    (s.view P i).right = s.right.view Q i := by
  show (⟨(P.applyAll (s.pending i) s.db).2, _, _⟩ : View σ₂ κ₂) = _
  rw [Program.applyAll_snd hP]
  rfl

variable [DecidableEq κ₁] [DecidableEq κ₂]

/-- **Noninterference in the second store.** -/
theorem Run.right_noninterference
    {good : State (σ₁ × σ₂) (ω₁ ⊕ ω₂) (κ₁ ⊕ κ₂) ε ℓ ι → ι × χ → Prop}
    {init : State (σ₁ × σ₂) (ω₁ ⊕ ω₂) (κ₁ ⊕ κ₂) ε ℓ ι → Prop}
    {G : Shared σ₂ ε ι → Prop} {A : ι → Shared σ₂ ε ι → Own ω₂ κ₂ ℓ → Prop}
    (hinit : ∀ s, init s → G s.right.toShared ∧ ∀ i, A i s.right.toShared (s.right.own i))
    (hself : ∀ s i x op, good s (i, x) → G s.right.toShared →
      (∀ j, A j s.right.toShared (s.right.own j)) → P.next (s.loc i) (s.view P i) x = some op →
      (∀ k ∈ op.right.locks, ∀ j, j ≠ i → k ∉ (s.right.own j).held) →
      G (op.right.shared Q i (s.right.pending i) s.right.toShared) ∧
        A i (op.right.shared Q i (s.right.pending i) s.right.toShared)
          (op.right.own (s.right.own i)))
    (hother : ∀ s i j x op, j ≠ i → good s (i, x) → G s.right.toShared →
      (∀ j, A j s.right.toShared (s.right.own j)) → P.next (s.loc i) (s.view P i) x = some op →
      A j (op.right.shared Q i (s.right.pending i) s.right.toShared) (s.right.own j))
    {s : State (σ₁ × σ₂) (ω₁ ⊕ ω₂) (κ₁ ⊕ κ₂) ε ℓ ι} (h : Run P.step good init s) :
    G s.right.toShared ∧ ∀ i, A i s.right.toShared (s.right.own i) := by
  refine Run.invariant
    (I := fun s => G s.right.toShared ∧ ∀ i, A i s.right.toShared (s.right.own i)) hinit ?_ h
  rintro s ⟨i, x⟩ t _ ⟨hG, hA⟩ hg hs
  obtain ⟨op, hop, hst⟩ := step_cases hs
  have hst := hst.right hP
  obtain ⟨hG', hA'⟩ := hself s i x op hg hG hA hop hst.free
  rw [hst.shared]
  refine ⟨hG', fun j => ?_⟩
  by_cases hj : j = i
  · subst hj
    rw [hst.self]
    exact hA'
  · rw [hst.other j hj]
    exact hother s i j x op hj hg hG hA hop

end Program

end Driftgate.ReadCommitted
