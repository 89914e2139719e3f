import Driftgate.Lib.Transition
import Mathlib.Logic.Function.Basic
import Mathlib.Data.Set.Basic

/-!
# Processes over a read-committed store

Any number of processes share one committed store. Each runs one statement at a time inside its
open transaction: a statement reads the committed store with the process's own writes on top, takes
locks that last until the transaction ends, and adds writes that nobody else sees before the
commit. A statement whose locks another process holds is not enabled. A process may also act
outside the store; such effects are recorded in a common trace and are never undone.

Nothing is fixed about the store, its writes, the locks or the programs. The one rule of the
module, `Run.noninterference`, splits an invariant into a part about the shared state and a part
about each process, and asks for three facts about a single step: what it does to the shared part,
to the process that takes it, and to the others.
-/

namespace Driftgate.ReadCommitted

open Driftgate.Transition

/-- What a process does when it is scheduled, and where it continues. -/
inductive Op (ω κ ε ℓ : Type*)
  /-- A statement takes `locks`, then adds `writes` to the open transaction. -/
  | exec (locks : List κ) (writes : List ω) (next : ℓ)
  /-- An effect outside the store. -/
  | emit (effect : ε) (next : ℓ)
  | commit (next : ℓ)
  | rollback (next : ℓ)

/-- What a statement sees: the store with the process's own writes, which locks others hold, and a
name that no row has been given so far. -/
structure View (σ κ : Type*) where
  db : σ
  busy : κ → Bool
  fresh : ℕ

/-- How writes act on the store, and what a process does next on an input from outside. -/
structure Program (σ ω κ ε ℓ χ : Type*) where
  apply : ω → σ → σ
  next : ℓ → View σ κ → χ → Option (Op ω κ ε ℓ)

/-- The part of the state that every process can observe or affect. -/
structure Shared (σ ε ι : Type*) where
  db : σ
  trace : List (ι × ε) := []
  fresh : ℕ := 0

/-- The whole state. `lock k` is the process that holds `k`. -/
structure State (σ ω κ ε ℓ ι : Type*) extends Shared σ ε ι where
  loc : ι → ℓ
  pending : ι → List ω
  lock : κ → Option ι

/-- The part of the state that belongs to one process. -/
structure Own (ω κ ℓ : Type*) where
  loc : ℓ
  pending : List ω
  held : Set κ

variable {σ ω κ ε ε' ℓ ℓ' ι χ : Type*}

namespace Op

/-- Translate the continuation and the effects. -/
def map (f : ℓ → ℓ') (g : ε → ε') : Op ω κ ε ℓ → Op ω κ ε' ℓ'
  | exec ks ws l => exec ks ws (f l)
  | emit e l => emit (g e) (f l)
  | commit l => commit (f l)
  | rollback l => rollback (f l)

def next : Op ω κ ε ℓ → ℓ
  | exec _ _ l => l
  | emit _ l => l
  | commit l => l
  | rollback l => l

def writes : Op ω κ ε ℓ → List ω
  | exec _ ws _ => ws
  | _ => []

def locks : Op ω κ ε ℓ → List κ
  | exec ks _ _ => ks
  | _ => []

/-- The open transaction after the operation. -/
def pendingAfter (p : List ω) : Op ω κ ε ℓ → List ω
  | exec _ ws _ => p ++ ws
  | emit _ _ => p
  | commit _ => []
  | rollback _ => []

/-- The locks held after the operation. -/
def heldAfter (h : Set κ) : Op ω κ ε ℓ → Set κ
  | exec ks _ _ => h ∪ {k | k ∈ ks}
  | emit _ _ => h
  | commit _ => ∅
  | rollback _ => ∅

@[simp] theorem writes_map (f : ℓ → ℓ') (g : ε → ε') (op : Op ω κ ε ℓ) :
    (op.map f g).writes = op.writes := by
  cases op <;> rfl

@[simp] theorem locks_map (f : ℓ → ℓ') (g : ε → ε') (op : Op ω κ ε ℓ) :
    (op.map f g).locks = op.locks := by
  cases op <;> rfl

@[simp] theorem next_map (f : ℓ → ℓ') (g : ε → ε') (op : Op ω κ ε ℓ) :
    (op.map f g).next = f op.next := by
  cases op <;> rfl

@[simp] theorem heldAfter_map (f : ℓ → ℓ') (g : ε → ε') (op : Op ω κ ε ℓ) (h : Set κ) :
    (op.map f g).heldAfter h = op.heldAfter h := by
  cases op <;> rfl

@[simp] theorem pendingAfter_map (f : ℓ → ℓ') (g : ε → ε') (op : Op ω κ ε ℓ) (p : List ω) :
    (op.map f g).pendingAfter p = op.pendingAfter p := by
  cases op <;> rfl

/-- The process after the operation. -/
def own (o : Own ω κ ℓ) (op : Op ω κ ε ℓ) : Own ω κ ℓ :=
  ⟨op.next, op.pendingAfter o.pending, op.heldAfter o.held⟩

end Op

/-- The store after a list of writes. -/
def Program.applyAll (P : Program σ ω κ ε ℓ χ) (ws : List ω) (d : σ) : σ :=
  ws.foldl (fun d w => P.apply w d) d

@[simp] theorem Program.applyAll_nil (P : Program σ ω κ ε ℓ χ) (d : σ) : P.applyAll [] d = d := rfl

@[simp] theorem Program.applyAll_cons (P : Program σ ω κ ε ℓ χ) (w : ω) (ws : List ω) (d : σ) :
    P.applyAll (w :: ws) d = P.applyAll ws (P.apply w d) := rfl

@[simp] theorem Program.applyAll_append (P : Program σ ω κ ε ℓ χ) (ws ws' : List ω) (d : σ) :
    P.applyAll (ws ++ ws') d = P.applyAll ws' (P.applyAll ws d) := by
  simp only [Program.applyAll, List.foldl_append]

/-- What survives every single write survives a list of writes. -/
theorem Program.applyAll_induction (P : Program σ ω κ ε ℓ χ) {I : σ → Prop} {ws : List ω} {d : σ}
    (hd : I d) (hw : ∀ w ∈ ws, ∀ d, I d → I (P.apply w d)) : I (P.applyAll ws d) := by
  induction ws generalizing d with
  | nil => exact hd
  | cons w ws ih =>
    exact ih (hw w List.mem_cons_self d hd) fun w' h' => hw w' (List.mem_cons_of_mem w h')

/-- What no single write changes, a list of writes does not change. -/
theorem Program.applyAll_keep (P : Program σ ω κ ε ℓ χ) {α : Type*} (read : σ → α) {ws : List ω}
    (hw : ∀ w ∈ ws, ∀ d, read (P.apply w d) = read d) (d : σ) :
    read (P.applyAll ws d) = read d :=
  P.applyAll_induction (I := fun d' => read d' = read d) rfl
    fun w hm d' hd' => (hw w hm d').trans hd'

/-- A part of the store that every write changes by itself is changed so by a list of writes. -/
theorem Program.applyAll_project (P : Program σ ω κ ε ℓ χ) {α : Type*} (read : σ → α)
    (write : α → ω → α) (h : ∀ w d, read (P.apply w d) = write (read d) w) (ws : List ω) (d : σ) :
    read (P.applyAll ws d) = ws.foldl write (read d) := by
  induction ws generalizing d with
  | nil => rfl
  | cons w ws ih => rw [Program.applyAll_cons, ih, h, List.foldl_cons]

/-- What only some writes give and no write takes away, a list of writes gives when one of them
does. -/
theorem Program.applyAll_gain (P : Program σ ω κ ε ℓ χ) (has : σ → Prop) {gives : ω → Prop}
    (h : ∀ w d, has (P.apply w d) ↔ has d ∨ gives w) (ws : List ω) (d : σ) :
    has (P.applyAll ws d) ↔ has d ∨ ∃ w ∈ ws, gives w := by
  induction ws generalizing d with
  | nil => simp
  | cons w ws ih =>
    simp only [Program.applyAll_cons, ih, h, List.mem_cons, exists_eq_or_imp, or_assoc]

/-- The shared state after an operation of process `i` with open transaction `p`. -/
def Op.shared (P : Program σ ω κ ε ℓ χ) (i : ι) (p : List ω) (w : Shared σ ε ι) :
    Op ω κ ε ℓ → Shared σ ε ι
  | .exec _ _ _ => { w with fresh := w.fresh + 1 }
  | .emit e _ => { w with trace := w.trace ++ [(i, e)], fresh := w.fresh + 1 }
  | .commit _ => { w with db := P.applyAll p w.db, fresh := w.fresh + 1 }
  | .rollback _ => { w with fresh := w.fresh + 1 }

/-- The store after an operation of a process with open transaction `p`. -/
def Op.dbAfter (apply : ω → σ → σ) (p : List ω) (d : σ) : Op ω κ ε ℓ → σ
  | .commit _ => p.foldl (fun d w => apply w d) d
  | _ => d

theorem Op.shared_db (P : Program σ ω κ ε ℓ χ) (i : ι) (p : List ω) (w : Shared σ ε ι)
    (op : Op ω κ ε ℓ) : (op.shared P i p w).db = op.dbAfter P.apply p w.db := by
  cases op <;> rfl

@[simp] theorem Op.dbAfter_map (apply : ω → σ → σ) (p : List ω) (d : σ) (f : ℓ → ℓ') (g : ε → ε')
    (op : Op ω κ ε ℓ) : (op.map f g).dbAfter apply p d = op.dbAfter apply p d := by
  cases op <;> rfl

section Step

variable [DecidableEq ι] [DecidableEq κ]

namespace State

/-- What process `i` owns. -/
def own (s : State σ ω κ ε ℓ ι) (i : ι) : Own ω κ ℓ :=
  ⟨s.loc i, s.pending i, {k | s.lock k = some i}⟩

/-- What the next statement of process `i` sees. -/
def view (P : Program σ ω κ ε ℓ χ) (s : State σ ω κ ε ℓ ι) (i : ι) : View σ κ where
  db := P.applyAll (s.pending i) s.db
  busy := fun k => (s.lock k).any (· ≠ i)
  fresh := s.fresh

/-- The locks after process `i` takes `ks`. -/
def acquire (s : State σ ω κ ε ℓ ι) (i : ι) (ks : List κ) : κ → Option ι :=
  fun k => if k ∈ ks then some i else s.lock k

/-- The locks after process `i` gives all of its own back. -/
def release (s : State σ ω κ ε ℓ ι) (i : ι) : κ → Option ι :=
  fun k => if s.lock k = some i then none else s.lock k

/-- Carry out an operation of process `i`, unless it has to wait for a lock. -/
def perform (P : Program σ ω κ ε ℓ χ) (s : State σ ω κ ε ℓ ι) (i : ι) (op : Op ω κ ε ℓ) :
    Option (State σ ω κ ε ℓ ι) :=
  let sh := op.shared P i (s.pending i) s.toShared
  let loc := Function.update s.loc i op.next
  let pending := Function.update s.pending i (op.pendingAfter (s.pending i))
  match op with
  | .exec ks _ _ =>
    if ks.all fun k => (s.lock k).all (· = i) then
      some { toShared := sh, loc, pending, lock := s.acquire i ks }
    else none
  | .emit _ _ => some { toShared := sh, loc, pending, lock := s.lock }
  | .commit _ => some { toShared := sh, loc, pending, lock := s.release i }
  | .rollback _ => some { toShared := sh, loc, pending, lock := s.release i }

end State

/-- One step: process `i` is scheduled with input `x`. -/
def Program.step (P : Program σ ω κ ε ℓ χ) (s : State σ ω κ ε ℓ ι) (a : ι × χ) :
    Option (State σ ω κ ε ℓ ι) :=
  (P.next (s.loc a.1) (s.view P a.1) a.2).bind (s.perform P a.1)

/-! ### What a step does -/

/-- The effect of a step, split into the shared state, the process that took it, and the others. -/
structure Stepped (P : Program σ ω κ ε ℓ χ) (s : State σ ω κ ε ℓ ι) (i : ι) (op : Op ω κ ε ℓ)
    (t : State σ ω κ ε ℓ ι) : Prop where
  free : ∀ k ∈ op.locks, ∀ j, j ≠ i → k ∉ (s.own j).held
  shared : t.toShared = op.shared P i (s.pending i) s.toShared
  self : t.own i = op.own (s.own i)
  other : ∀ j, j ≠ i → t.own j = s.own j

omit [DecidableEq ι] [DecidableEq κ] in
theorem Stepped.db {P : Program σ ω κ ε ℓ χ} {s t : State σ ω κ ε ℓ ι} {i : ι} {op : Op ω κ ε ℓ}
    (h : Stepped P s i op t) : t.db = op.dbAfter P.apply (s.pending i) s.db := by
  rw [h.shared, Op.shared_db]

section Stepped

variable {P : Program σ ω κ ε ℓ χ} {s t : State σ ω κ ε ℓ ι} {i j : ι} {op : Op ω κ ε ℓ}

omit [DecidableEq ι] [DecidableEq κ] in
/-- The process that took the step is at the end of its operation. -/
theorem Stepped.loc (h : Stepped P s i op t) : t.loc i = op.next := congrArg Own.loc h.self

omit [DecidableEq ι] [DecidableEq κ] in
theorem Stepped.pending (h : Stepped P s i op t) : t.pending i = op.pendingAfter (s.pending i) :=
  congrArg Own.pending h.self

omit [DecidableEq ι] [DecidableEq κ] in
theorem Stepped.held (h : Stepped P s i op t) : (t.own i).held = op.heldAfter (s.own i).held :=
  congrArg Own.held h.self

omit [DecidableEq ι] [DecidableEq κ] in
/-- The others are where they were. -/
theorem Stepped.loc_other (h : Stepped P s i op t) (hj : j ≠ i) : t.loc j = s.loc j :=
  congrArg Own.loc (h.other j hj)

omit [DecidableEq ι] [DecidableEq κ] in
theorem Stepped.pending_other (h : Stepped P s i op t) (hj : j ≠ i) : t.pending j = s.pending j :=
  congrArg Own.pending (h.other j hj)

end Stepped

theorem perform_stepped {P : Program σ ω κ ε ℓ χ} {s t : State σ ω κ ε ℓ ι} {i : ι}
    {op : Op ω κ ε ℓ} (h : s.perform P i op = some t) : Stepped P s i op t := by
  have hrel : ∀ j, j ≠ i → {k | s.release i k = some j} = {k | s.lock k = some j} := by
    intro j hj
    ext k
    simp only [State.release, Set.mem_ofPred_eq]
    by_cases hk : s.lock k = some i
    · simp [hk, Ne.symm hj]
    · simp [hk]
  have hself : {k | s.release i k = some i} = (∅ : Set κ) := by
    ext k
    simp only [State.release, Set.mem_ofPred_eq, Set.mem_empty_iff_false, iff_false]
    by_cases hk : s.lock k = some i <;> simp [hk]
  cases op with
  | exec ks ws l =>
    simp only [State.perform, Option.ite_none_right_eq_some, Option.some.injEq] at h
    obtain ⟨hfree, rfl⟩ := h
    have hfree : ∀ k ∈ ks, ∀ j, s.lock k = some j → j = i := by
      intro k hk j hj
      have h := List.all_eq_true.mp hfree k hk
      simpa [hj] using h
    refine ⟨fun k hk j hj hh => hj (hfree k hk j hh), rfl, ?_, fun j hj => ?_⟩
    · simp only [State.own, Op.own, Op.next, Op.pendingAfter, Op.heldAfter, Function.update_self,
        Own.mk.injEq, true_and]
      ext k
      by_cases hk : k ∈ ks <;> simp [State.acquire, hk]
    · simp only [State.own, Function.update_of_ne hj, Own.mk.injEq, true_and]
      ext k
      simp only [State.acquire, Set.mem_ofPred_eq]
      by_cases hk : k ∈ ks
      · simp only [hk, ↓reduceIte, Option.some.injEq]
        exact ⟨fun e => absurd e.symm hj, fun e => absurd (hfree k hk j e) hj⟩
      · simp [hk]
  | emit e l =>
    simp only [State.perform, Option.some.injEq] at h
    subst h
    refine ⟨by simp [Op.locks], rfl, ?_, fun j hj => ?_⟩
    · simp [State.own, Op.own, Op.next, Op.pendingAfter, Op.heldAfter]
    · simp [State.own, Function.update_of_ne hj]
  | commit l =>
    simp only [State.perform, Option.some.injEq] at h
    subst h
    refine ⟨by simp [Op.locks], rfl, ?_, fun j hj => ?_⟩
    · simp [State.own, Op.own, Op.next, Op.pendingAfter, Op.heldAfter, hself]
    · simp [State.own, Function.update_of_ne hj, hrel j hj]
  | rollback l =>
    simp only [State.perform, Option.some.injEq] at h
    subst h
    refine ⟨by simp [Op.locks], rfl, ?_, fun j hj => ?_⟩
    · simp [State.own, Op.own, Op.next, Op.pendingAfter, Op.heldAfter, hself]
    · simp [State.own, Function.update_of_ne hj, hrel j hj]

/-- **Step inversion.** Every step carries out one operation of one process. -/
theorem step_cases {P : Program σ ω κ ε ℓ χ} {s t : State σ ω κ ε ℓ ι} {i : ι} {x : χ}
    (h : P.step s (i, x) = some t) :
    ∃ op, P.next (s.loc i) (s.view P i) x = some op ∧ Stepped P s i op t := by
  obtain ⟨op, hop, hp⟩ := Option.bind_eq_some_iff.mp h
  exact ⟨op, hop, perform_stepped hp⟩

/-- An operation whose locks nobody else holds is carried out. -/
theorem step_enabled {P : Program σ ω κ ε ℓ χ} {s : State σ ω κ ε ℓ ι} {i : ι} {x : χ}
    {op : Op ω κ ε ℓ} (hop : P.next (s.loc i) (s.view P i) x = some op)
    (hfree : ∀ k ∈ op.locks, ∀ j, s.lock k = some j → j = i) : ∃ t, P.step s (i, x) = some t := by
  rw [Program.step, hop, Option.bind_some]
  cases op with
  | exec ks ws l =>
    have hall : (ks.all fun k => (s.lock k).all (· = i)) = true := by
      rw [List.all_eq_true]
      intro k hk
      cases hlock : s.lock k with
      | none => rfl
      | some j => simpa using hfree k hk j hlock
    exact ⟨_, if_pos hall⟩
  | _ => exact ⟨_, rfl⟩

omit [DecidableEq ι] [DecidableEq κ] in
/-- Two processes never hold one lock. -/
theorem State.held_unique {s : State σ ω κ ε ℓ ι} {i j : ι} {k : κ}
    (hi : k ∈ (s.own i).held) (hj : k ∈ (s.own j).held) : i = j :=
  Option.some.inj ((show s.lock k = some i from hi).symm.trans hj)

/-- A process that takes no step in an execution keeps what it owns. -/
theorem exec_own {P : Program σ ω κ ε ℓ χ} {as : List (ι × χ)} {s t : State σ ω κ ε ℓ ι} {j : ι}
    (h : ∀ a ∈ as, a.1 ≠ j) (he : exec P.step s as = some t) : t.own j = s.own j := by
  induction as generalizing s with
  | nil => rw [Option.some.inj he]
  | cons a as ih =>
    rw [List.forall_mem_cons] at h
    obtain ⟨u, hu, he⟩ := Option.bind_eq_some_iff.mp he
    obtain ⟨op, -, hst⟩ := step_cases hu
    rw [ih h.2 he, hst.other j (Ne.symm h.1)]

/-! ### Invariants of concurrent processes -/

variable {P : Program σ ω κ ε ℓ χ} {good : State σ ω κ ε ℓ ι → ι × χ → Prop}
  {init : State σ ω κ ε ℓ ι → Prop}

/-- A fact about one process that its own steps keep. Steps of the others cannot disturb it. -/
theorem Run.process_invariant {A : ι → Own ω κ ℓ → Prop}
    (hinit : ∀ s, init s → ∀ i, A i (s.own i))
    (hown : ∀ s i x op, good s (i, x) → A i (s.own i) →
      P.next (s.loc i) (s.view P i) x = some op → A i (op.own (s.own i)))
    {s : State σ ω κ ε ℓ ι} (h : Run P.step good init s) : ∀ i, A i (s.own i) := by
  refine Run.invariant (I := fun s => ∀ i, A i (s.own i)) hinit ?_ h
  intro s a t _ hI hg hs j
  obtain ⟨op, hop, hst⟩ := step_cases hs
  by_cases hj : j = a.1
  · subst hj
    rw [hst.self]
    exact hown s _ _ op hg (hI _) hop
  · rw [hst.other j hj]
    exact hI j

/-- **Noninterference.** An invariant made of a shared part `G` and one assertion `A` for each
process is kept by every run, provided a step keeps `G`, re-establishes the assertion of the
process that takes it, and does not disturb the assertion of any other process. -/
theorem Run.noninterference {G : Shared σ ε ι → Prop} {A : ι → Shared σ ε ι → Own ω κ ℓ → Prop}
    (hinit : ∀ s, init s → G s.toShared ∧ ∀ i, A i s.toShared (s.own i))
    (hself : ∀ s i x op, good s (i, x) → G s.toShared → (∀ j, A j s.toShared (s.own j)) →
      P.next (s.loc i) (s.view P i) x = some op →
      (∀ k ∈ op.locks, ∀ j, j ≠ i → k ∉ (s.own j).held) →
      G (op.shared P i (s.pending i) s.toShared) ∧
        A i (op.shared P i (s.pending i) s.toShared) (op.own (s.own i)))
    (hother : ∀ s i j x op, j ≠ i → good s (i, x) → G s.toShared →
      (∀ j, A j s.toShared (s.own j)) → P.next (s.loc i) (s.view P i) x = some op →
      A j (op.shared P i (s.pending i) s.toShared) (s.own j))
    {s : State σ ω κ ε ℓ ι} (h : Run P.step good init s) :
    G s.toShared ∧ ∀ i, A i s.toShared (s.own i) := by
  refine Run.invariant (I := fun s => G s.toShared ∧ ∀ i, A i s.toShared (s.own i)) hinit ?_ h
  rintro s ⟨i, x⟩ t _ ⟨hG, hA⟩ hg hs
  obtain ⟨op, hop, hst⟩ := step_cases hs
  obtain ⟨hG', hA'⟩ := hself s i x op hg hG hA hop hst.free
  rw [hst.shared]
  refine ⟨hG', fun j => ?_⟩
  by_cases hj : j = i
  · subst hj
    rw [hst.self]
    exact hA'
  · rw [hst.other j hj]
    exact hother s i j x op hj hg hG hA hop

end Step

end Driftgate.ReadCommitted
