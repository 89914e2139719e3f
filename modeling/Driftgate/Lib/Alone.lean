import Driftgate.Lib.ReadCommitted

/-!
# A process that runs alone

While one process takes all the steps and nobody else holds a lock, the rest of the system does not
matter: no lock is busy and the store changes by the process's own commits. `Alone` is what is left
of the state then. `map_alone_exec` says that nothing else is: the steps of the system by that
process and the steps of `Alone` are the same.

`finish` lets the process run as long as it is inside a piece of its code, with inputs chosen by
where it is.
-/

namespace Driftgate.ReadCommitted

open Driftgate.Transition

/-- A process and the store. -/
structure Alone (σ ω ℓ : Type*) where
  db : σ
  pending : List ω
  fresh : ℕ
  loc : ℓ

variable {σ ω κ ε ℓ ι χ : Type*} (P : Program σ ω κ ε ℓ χ)

namespace Alone

/-- The store as the process sees it. -/
def seen (a : Alone σ ω ℓ) : σ := P.applyAll a.pending a.db

def view (a : Alone σ ω ℓ) : View σ κ := ⟨a.seen P, fun _ => false, a.fresh⟩

/-- The process and the store after an operation. -/
def after (a : Alone σ ω ℓ) (op : Op ω κ ε ℓ) : Alone σ ω ℓ :=
  ⟨op.dbAfter P.apply a.pending a.db, op.pendingAfter a.pending, a.fresh + 1, op.next⟩

def step (a : Alone σ ω ℓ) (x : χ) : Option (Alone σ ω ℓ) :=
  (P.next a.loc (a.view P) x).map (a.after P)

theorem step_of_next {a : Alone σ ω ℓ} {x : χ} {op : Op ω κ ε ℓ}
    (hop : P.next a.loc (a.view P) x = some op) : a.step P x = some (a.after P op) := by
  rw [step, hop]
  rfl

/-- The process runs, with the input chosen by where it is and by how many steps were taken, until
it leaves a piece of code. -/
def finish (choose : ℓ → ℕ → χ) (inside : ℓ → Bool) : ℕ → Alone σ ω ℓ → Option (Alone σ ω ℓ)
  | 0, a => if inside a.loc then none else some a
  | n + 1, a =>
    if inside a.loc then (a.step P (choose a.loc a.fresh)).bind (finish choose inside n)
    else some a

variable {P} {choose : ℓ → ℕ → χ} {inside : ℓ → Bool} {n : ℕ} {a b : Alone σ ω ℓ}

theorem finish_outside (h : inside a.loc = false) : finish P choose inside n a = some a := by
  cases n <;> simp [finish, h]

/-- Inside the piece of code it carries out one operation after the other. -/
theorem finish_next {op : Op ω κ ε ℓ} (h : inside a.loc = true)
    (hop : P.next a.loc (a.view P) (choose a.loc a.fresh) = some op) :
    finish P choose inside (n + 1) a = finish P choose inside n (a.after P op) := by
  rw [finish, if_pos h, step_of_next P hop]
  rfl

/-- It has taken steps with some inputs. -/
theorem exec_of_finish (h : finish P choose inside n a = some b) :
    ∃ xs, exec (Alone.step P) a xs = some b := by
  induction n generalizing a with
  | zero =>
    rw [finish] at h
    split at h
    · cases h
    · exact ⟨[], h⟩
  | succ n ih =>
    rw [finish] at h
    split at h
    · obtain ⟨u, hu, h⟩ := Option.bind_eq_some_iff.mp h
      obtain ⟨xs, hxs⟩ := ih h
      refine ⟨choose a.loc a.fresh :: xs, ?_⟩
      rw [exec, hu, Option.bind_some, hxs]
    · exact ⟨[], h⟩

end Alone

/-! ### The rest of the system -/

section Rest

variable [DecidableEq ι] [DecidableEq κ]

/-- A process of the system, and nothing of the others. -/
def State.alone (s : State σ ω κ ε ℓ ι) (i : ι) : Alone σ ω ℓ :=
  ⟨s.db, s.pending i, s.fresh, s.loc i⟩

/-- Nobody but process `i` holds a lock. -/
def State.OnlyHolder (s : State σ ω κ ε ℓ ι) (i : ι) : Prop :=
  ∀ k j, s.lock k = some j → j = i

variable {P} {s t : State σ ω κ ε ℓ ι} {i : ι}

omit [DecidableEq κ] in
theorem State.OnlyHolder.view (h : s.OnlyHolder i) : s.view P i = (s.alone i).view P := by
  have hbusy : (fun k => (s.lock k).any (· ≠ i)) = fun _ => false := by
    funext k
    cases hk : s.lock k with
    | none => rfl
    | some j => simp [h k j hk]
  show (⟨_, fun k => (s.lock k).any (· ≠ i), _⟩ : View σ κ) = _
  rw [hbusy]
  rfl

omit [DecidableEq ι] [DecidableEq κ] in
theorem Stepped.alone {op : Op ω κ ε ℓ} (h : Stepped P s i op t) :
    t.alone i = (s.alone i).after P op := by
  have hloc : t.loc i = op.next := h.loc
  have hpending : t.pending i = op.pendingAfter (s.pending i) := h.pending
  have hfresh : t.fresh = s.fresh + 1 := by
    rw [h.shared]
    cases op <;> rfl
  rw [State.alone, h.db, hpending, hfresh, hloc]
  rfl

omit [DecidableEq κ] in
theorem State.OnlyHolder.step {op : Op ω κ ε ℓ} (h : s.OnlyHolder i) (hst : Stepped P s i op t) :
    t.OnlyHolder i := by
  intro k j hk
  by_contra hj
  have hheld : k ∈ (t.own j).held := hk
  rw [hst.other j hj] at hheld
  exact hj (h k j hheld)

/-- **Nothing else matters.** A step of a process while nobody else holds a lock. -/
theorem map_alone_step (h : s.OnlyHolder i) (x : χ) :
    (P.step s (i, x)).map (·.alone i) = Alone.step P (s.alone i) x := by
  have hview : s.view P i = (s.alone i).view P := h.view
  cases hop : P.next (s.loc i) (s.view P i) x with
  | none =>
    have hnone : P.next (s.alone i).loc ((s.alone i).view P) x = none := by rw [← hview]; exact hop
    rw [Program.step, hop, Alone.step, hnone]
    rfl
  | some op =>
    have hsome : P.next (s.alone i).loc ((s.alone i).view P) x = some op := by
      rw [← hview]
      exact hop
    obtain ⟨t, ht⟩ := step_enabled hop fun k _ j hk => h k j hk
    obtain ⟨op', hop', hst⟩ := step_cases ht
    obtain rfl : op' = op := Option.some.inj (hop'.symm.trans hop)
    rw [ht, Alone.step, hsome, Option.map_some, Option.map_some, hst.alone]

theorem map_alone_exec (h : s.OnlyHolder i) (xs : List χ) :
    (exec P.step s (xs.map fun x => (i, x))).map (·.alone i) =
      exec (Alone.step P) (s.alone i) xs := by
  induction xs generalizing s with
  | nil => rfl
  | cons x xs ih =>
    have hstep := map_alone_step (P := P) h x
    rw [List.map_cons, exec, exec, ← hstep]
    cases ht : P.step s (i, x) with
    | none => rfl
    | some t =>
      obtain ⟨op, -, hst⟩ := step_cases ht
      exact ih (h.step hst)

/-- A step and what follows it until the process leaves a piece of its code are steps of the
system. -/
theorem exec_of_step_finish (h : s.OnlyHolder i) {x : χ} {choose : ℓ → ℕ → χ} {inside : ℓ → Bool}
    {n : ℕ} {b : Alone σ ω ℓ}
    (hb : ((s.alone i).step P x).bind (Alone.finish P choose inside n) = some b) :
    ∃ (xs : List χ) (t : _), exec P.step s (xs.map fun x => (i, x)) = some t ∧ t.alone i = b := by
  obtain ⟨a, ha, hfinish⟩ := Option.bind_eq_some_iff.mp hb
  obtain ⟨xs, hxs⟩ := Alone.exec_of_finish hfinish
  have hrun : exec (Alone.step P) (s.alone i) (x :: xs) = some b := by
    rw [exec, ha]
    exact hxs
  rw [← map_alone_exec h] at hrun
  obtain ⟨t, ht, htb⟩ := Option.map_eq_some_iff.mp hrun
  exact ⟨x :: xs, t, ht, htb⟩

end Rest

end Driftgate.ReadCommitted
