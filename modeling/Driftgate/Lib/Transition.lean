import Mathlib.Logic.Relation

/-!
# Runs of a labelled system

A system is a partial step function on states: `step s a` is the state after label `a`, when `a`
is enabled in `s`. `Run step good init` collects the states reached from an initial state through
steps that meet a condition `good` on the state before the step and its label. With the condition
that always holds these are the reachable states.

Every safety argument of the development is an instance of `Run.invariant`.
-/

namespace Driftgate.Transition

variable {S L : Type*}

/-- The states reached from `init` by steps that all meet `good`. -/
inductive Run (step : S → L → Option S) (good : S → L → Prop) (init : S → Prop) : S → Prop
  | start {s : S} : init s → Run step good init s
  | next {s t : S} {a : L} : Run step good init s → good s a → step s a = some t →
      Run step good init t

/-- The states reached from `init`, with no condition on the steps. -/
abbrev Reachable (step : S → L → Option S) (init : S → Prop) : S → Prop :=
  Run step (fun _ _ => True) init

variable {step : S → L → Option S} {good : S → L → Prop} {init : S → Prop}

/-- **Invariant rule.** What holds initially and survives every good step holds along every run.
The step case may use that its source is itself reached. -/
theorem Run.invariant {I : S → Prop} (hinit : ∀ s, init s → I s)
    (hstep : ∀ s a t, Run step good init s → I s → good s a → step s a = some t → I t)
    {s : S} (h : Run step good init s) : I s := by
  induction h with
  | start h => exact hinit _ h
  | next hr hg hs ih => exact hstep _ _ _ hr ih hg hs

/-- A run under a condition is a run under any other one that its steps meet as well. -/
theorem Run.mono {good' : S → L → Prop}
    (hw : ∀ s a, Run step good init s → good s a → good' s a) {s : S}
    (h : Run step good init s) : Run step good' init s := by
  induction h with
  | start h => exact .start h
  | next hr hg hs ih => exact .next ih (hw _ _ hr hg) hs

/-- A run from an initial state is a run from any larger set of initial states. -/
theorem Run.of_init {init' : S → Prop} (hw : ∀ s, init s → init' s) {s : S}
    (h : Run step good init s) : Run step good init' s := by
  induction h with
  | start h => exact .start (hw _ h)
  | next _ hg hs ih => exact .next ih hg hs

/-- A run from a state of a run is a run. -/
theorem Run.trans {s t : S} (h : Run step good init s) (h' : Run step good (· = s) t) :
    Run step good init t := by
  induction h' with
  | start h' => exact h' ▸ h
  | next _ hg hs ih => exact .next ih hg hs

/-! ### Executing a list of labels -/

/-- For runs of two processes, whose indices are the literals of `Fin 2`. -/
instance neZero_two : @NeZero Nat Zero.ofOfNat0 2 := ⟨Nat.succ_ne_zero 1⟩

/-- The state after a list of labels, when each is enabled in turn. -/
def exec (step : S → L → Option S) : S → List L → Option S
  | s, [] => some s
  | s, a :: as => (step s a).bind fun t => exec step t as

/-- Whether a condition holds at every step of an execution. -/
def Along (step : S → L → Option S) (good : S → L → Prop) : S → List L → Prop
  | _, [] => True
  | s, a :: as => good s a ∧ ∀ t ∈ step s a, Along step good t as

instance Along.decidable [∀ s a, Decidable (good s a)] :
    (s : S) → (as : List L) → Decidable (Along step good s as)
  | _, [] => isTrue trivial
  | s, a :: as =>
    have := fun t => Along.decidable t as
    inferInstanceAs (Decidable (good s a ∧ ∀ t ∈ step s a, Along step good t as))

/-- The second half of an execution whose steps meet the condition. -/
theorem Along.of_append {as bs : List L} {s t : S} (h : Along step good s (as ++ bs))
    (he : exec step s as = some t) : Along step good t bs := by
  induction as generalizing s with
  | nil => exact Option.some.inj he ▸ h
  | cons a as ih =>
    obtain ⟨u, hu, he⟩ := Option.bind_eq_some_iff.mp he
    exact ih (h.2 u hu) he

theorem Along.left {as bs : List L} {s : S} (h : Along step good s (as ++ bs)) :
    Along step good s as := by
  induction as generalizing s with
  | nil => trivial
  | cons a as ih => exact ⟨h.1, fun t ht => ih (h.2 t ht)⟩

/-- An execution whose steps meet the condition is a run. -/
theorem Run.of_exec {as : List L} {s t : S} (hs : Run step good init s)
    (hg : Along step good s as) (he : exec step s as = some t) : Run step good init t := by
  induction as generalizing s with
  | nil => exact Option.some.inj he ▸ hs
  | cons a as ih =>
    obtain ⟨u, hu, he⟩ := Option.bind_eq_some_iff.mp he
    exact ih (.next hs hg.1 hu) (hg.2 u hu) he

/-- A condition on labels alone holds along an execution when it holds of its labels. -/
theorem Along.of_labels {ok : L → Prop} {as : List L} (h : ∀ a ∈ as, ok a) (s : S) :
    Along step (fun _ a => ok a) s as := by
  induction as generalizing s with
  | nil => trivial
  | cons a as ih =>
    rw [List.forall_mem_cons] at h
    exact ⟨h.1, fun t _ => ih h.2 t⟩

/-- A condition that holds of every step from a reached state holds along every execution. -/
theorem Along.of_run {good' : S → L → Prop} (hw : ∀ s a, Run step good init s → good' s a)
    {as : List L} {s : S} (hs : Run step good init s) (hg : Along step good s as) :
    Along step good' s as := by
  induction as generalizing s with
  | nil => trivial
  | cons a as ih => exact ⟨hw s a hs, fun t ht => ih (hs.next hg.1 ht) (hg.2 t ht)⟩

/-- Every execution is a run when nothing is asked of its steps. -/
theorem reachable_of_exec {as : List L} {s t : S} (hs : init s)
    (he : exec step s as = some t) : Reachable step init t :=
  Run.of_exec (.start hs) (Along.of_labels (fun _ _ => trivial) s) he

end Driftgate.Transition
