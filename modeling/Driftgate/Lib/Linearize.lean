import Driftgate.Lib.Transition
import Mathlib.Data.List.Nodup
import Mathlib.Logic.Function.Basic

/-!
# Operations that take effect at one moment

An object carries out an operation at once: it gives the object afterwards and an answer. In an
implementation an operation takes many steps, and the steps of other operations come in between.
A history is a list of operations with their answers in which each follows from carrying out the
ones before it, one after the other. An execution is linearizable when it has a history that
explains it: no process has more than one operation in it, and the operation of a process stands
where the process took one of its own steps. So an operation that had ended before another one began
comes before it (`Linearization.before`).

`linearization_of_exec` is the rule: it suffices to say of every single step that it carries out the
operation of the process that takes it, or none.

The last section is the object both registries of this development refine: for every key a log of
marks, to which an operation appends its mark unless it is there.
-/

namespace Driftgate.Linearize

open Driftgate.Transition

variable {S σ ω ρ ι χ : Type*}

/-- An operation that took effect: who asked for it and what the answer was. -/
structure Event (ι ω ρ : Type*) where
  process : ι
  operation : ω
  answer : ρ

/-- Carrying out the operations of the history one after the other leads from one object to the
other and gives the recorded answers. -/
def Replays (apply : ω → σ → σ × ρ) : σ → List (Event ι ω ρ) → σ → Prop
  | s, [], t => s = t
  | s, e :: h, t => (apply e.operation s).2 = e.answer ∧ Replays apply (apply e.operation s).1 h t

/-- The history `h` explains an execution in which `schedule` says who took each step. -/
structure Linearization (apply : ω → σ → σ × ρ) (s : σ) (schedule : List ι)
    (h : List (Event ι ω ρ)) (t : σ) : Prop where
  once : (h.map Event.process).Nodup
  within : (h.map Event.process).Sublist schedule
  replays : Replays apply s h t

variable {apply : ω → σ → σ × ρ} {s t u : σ} {h : List (Event ι ω ρ)}

theorem Replays.concat (hr : Replays apply s h t) (i : ι) (op : ω) :
    Replays apply s (h ++ [⟨i, op, (apply op t).2⟩]) (apply op t).1 := by
  induction h generalizing s with
  | nil => exact ⟨by rw [show s = t from hr], by rw [show s = t from hr]; rfl⟩
  | cons e h ih => exact ⟨hr.1, ih hr.2⟩

theorem Replays.append_iff {h' : List (Event ι ω ρ)} :
    Replays apply s (h ++ h') u ↔ ∃ t, Replays apply s h t ∧ Replays apply t h' u := by
  induction h generalizing s with
  | nil => exact ⟨fun hr => ⟨s, rfl, hr⟩, by rintro ⟨t, rfl, hr⟩; exact hr⟩
  | cons e h ih =>
    constructor
    · rintro ⟨ha, hr⟩
      obtain ⟨t, hr, hr'⟩ := ih.mp hr
      exact ⟨t, ⟨ha, hr⟩, hr'⟩
    · rintro ⟨t, ⟨ha, hr⟩, hr'⟩
      exact ⟨ha, ih.mpr ⟨t, hr, hr'⟩⟩

theorem Linearization.nil (apply : ω → σ → σ × ρ) (s : σ) :
    Linearization apply s ([] : List ι) [] s :=
  ⟨List.nodup_nil, List.Sublist.slnil, rfl⟩

/-- A step that carries out nothing. -/
theorem Linearization.skip {schedule : List ι} (hl : Linearization apply s schedule h t) (i : ι) :
    Linearization apply s (schedule ++ [i]) h t :=
  { hl with within := hl.within.trans (List.sublist_append_left _ _) }

/-- A step that carries out the operation of its process. -/
theorem Linearization.take {schedule : List ι} (hl : Linearization apply s schedule h t) {i : ι}
    (hi : i ∉ h.map Event.process) (op : ω) :
    Linearization apply s (schedule ++ [i]) (h ++ [⟨i, op, (apply op t).2⟩]) (apply op t).1 where
  once := by
    rw [List.map_append, List.map_singleton]
    refine List.nodup_append.mpr ⟨hl.once, List.nodup_singleton _, ?_⟩
    rintro j hj k hk rfl
    rw [List.mem_singleton.mp hk] at hj
    exact hi hj
  within := by
    rw [List.map_append, List.map_singleton]
    exact hl.within.append (List.Sublist.refl _)
  replays := hl.replays.concat i op

/-- **Real time.** A process that takes all its steps before another one takes its first comes
before it in every history that explains the execution. -/
theorem Linearization.before {as bs : List ι} (hl : Linearization apply s (as ++ bs) h t)
    {e e' : Event ι ω ρ} (he : e ∈ h) (he' : e' ∈ h) (hold : e.process ∉ bs)
    (hnew : e'.process ∉ as) : ∃ h₁ h₂, h = h₁ ++ h₂ ∧ e ∈ h₁ ∧ e' ∈ h₂ := by
  obtain ⟨ps, qs, hsplit, hps, hqs⟩ := List.sublist_append_iff.mp hl.within
  obtain ⟨h₁, h₂, rfl, rfl, rfl⟩ := List.map_eq_append_iff.mp hsplit
  refine ⟨h₁, h₂, rfl, ?_, ?_⟩
  · refine (List.mem_append.mp he).resolve_right fun hin => ?_
    exact hold (hqs.subset (List.mem_map_of_mem hin))
  · refine (List.mem_append.mp he').resolve_left fun hin => ?_
    exact hnew (hps.subset (List.mem_map_of_mem hin))

/-! ### The rule -/

section Rule

variable {step : S → ι × χ → Option S} {good : S → ι × χ → Prop} {init : S → Prop}
  {Explains : S → σ → List (Event ι ω ρ) → Prop}

/-- **Linearization rule.** If every step of a run leaves the object alone or carries out one
operation of its process, which has none in the history, then every execution has a history. -/
theorem linearization_of_exec
    (hstep : ∀ c d i x o h, Run step good init c → Explains c o h → good c (i, x) →
      step c (i, x) = some d → Explains d o h ∨
        ∃ op, i ∉ h.map Event.process ∧
          Explains d (apply op o).1 (h ++ [⟨i, op, (apply op o).2⟩]))
    {as : List (ι × χ)} {c d : S} (hc : Run step good init c) {s : σ} (hs : Explains c s [])
    (hg : Along step good c as) (he : exec step c as = some d) :
    ∃ t h, Linearization apply s (as.map Prod.fst) h t ∧ Explains d t h := by
  have hgen : ∀ {as : List (ι × χ)} {ps : List ι} {c : S} {o h}, Run step good init c →
      Linearization apply s ps h o → Explains c o h → Along step good c as →
      exec step c as = some d → ∃ t h, Linearization apply s (ps ++ as.map Prod.fst) h t ∧
        Explains d t h := by
    intro as
    induction as with
    | nil =>
      intro ps c o h _ hl hex _ he
      rw [← Option.some.inj he, List.map_nil, List.append_nil]
      exact ⟨o, h, hl, hex⟩
    | cons a as ih =>
      intro ps c o h hc hl hex hg he
      obtain ⟨c', hc', he⟩ := Option.bind_eq_some_iff.mp he
      rw [List.map_cons, List.append_cons]
      rcases hstep c c' a.1 a.2 o h hc hex hg.1 hc' with hsame | ⟨op, hi, hop⟩
      · exact ih (hc.next hg.1 hc') (hl.skip a.1) hsame (hg.2 c' hc') he
      · exact ih (hc.next hg.1 hc') (hl.take hi op) hop (hg.2 c' hc') he
  exact hgen hc (Linearization.nil apply s) hs hg he

end Rule

/-! ### Logs of marks -/

section Logs

variable {κ β : Type*} [DecidableEq κ] [DecidableEq β]

/-- Register a mark under a key: its number in the log of the key, and whether it is new. -/
def register (op : κ × β) (logs : κ → List β) : (κ → List β) × (ℕ × Bool) :=
  if op.2 ∈ logs op.1 then (logs, ((logs op.1).idxOf op.2 + 1, false))
  else (Function.update logs op.1 (logs op.1 ++ [op.2]), ((logs op.1).length + 1, true))

theorem register_of_mem {op : κ × β} {logs : κ → List β} (h : op.2 ∈ logs op.1) :
    register op logs = (logs, ((logs op.1).idxOf op.2 + 1, false)) := if_pos h

theorem register_of_not_mem {op : κ × β} {logs : κ → List β} (h : op.2 ∉ logs op.1) :
    register op logs = (Function.update logs op.1 (logs op.1 ++ [op.2]),
      ((logs op.1).length + 1, true)) := if_neg h

/-- A registration keeps every log as a prefix, and its mark is in its log, at its number. -/
theorem register_log (op : κ × β) (logs : κ → List β) :
    (∀ k, logs k <+: (register op logs).1 k) ∧
      ((register op logs).1 op.1)[(register op logs).2.1 - 1]? = some op.2 := by
  by_cases h : op.2 ∈ logs op.1
  · rw [register_of_mem h]
    exact ⟨fun k => List.prefix_rfl, by simp [List.getElem?_idxOf h]⟩
  · rw [register_of_not_mem h]
    refine ⟨fun k => ?_, by simp⟩
    dsimp only
    by_cases hk : k = op.1
    · rw [hk, Function.update_self]
      exact List.prefix_append _ _
    · have hsame := Function.update_of_ne hk (logs op.1 ++ [op.2]) logs
      exact hsame.symm ▸ List.prefix_rfl

/-- The logs of a replayed history only grow. -/
theorem Replays.log_prefix {s t : κ → List β} {h : List (Event ι (κ × β) (ℕ × Bool))}
    (hr : Replays register s h t) (k : κ) : s k <+: t k := by
  induction h generalizing s with
  | nil =>
    obtain rfl : s = t := hr
    exact List.prefix_rfl
  | cons e h ih => exact ((register_log e.operation s).1 k).trans (ih hr.2)

/-- Every answer is the number of its mark in the final log, and a mark is in its log from its
first registration on. -/
theorem Replays.answer_number {s t : κ → List β} {h : List (Event ι (κ × β) (ℕ × Bool))}
    (hr : Replays register s h t) {e : Event ι (κ × β) (ℕ × Bool)} (he : e ∈ h) :
    (t e.operation.1)[e.answer.1 - 1]? = some e.operation.2 := by
  obtain ⟨h₁, h₂, rfl⟩ := List.append_of_mem he
  obtain ⟨u, -, hans, hr⟩ := Replays.append_iff.mp hr
  have hlog := (register_log e.operation u).2
  rw [hans] at hlog
  obtain ⟨rest, hrest⟩ := hr.log_prefix e.operation.1
  rw [← hrest, List.getElem?_append_left (List.getElem?_eq_some_iff.mp hlog).1]
  exact hlog

/-- The number of a mark that a log has is not given again. -/
theorem Replays.not_new {s t : κ → List β} {h : List (Event ι (κ × β) (ℕ × Bool))}
    (hr : Replays register s h t) {e : Event ι (κ × β) (ℕ × Bool)} (he : e ∈ h)
    (hm : e.operation.2 ∈ s e.operation.1) : e.answer.2 = false := by
  obtain ⟨h₁, h₂, rfl⟩ := List.append_of_mem he
  obtain ⟨u, hr, hans, -⟩ := Replays.append_iff.mp hr
  rw [← hans, register_of_mem ((hr.log_prefix e.operation.1).subset hm)]

/-- **One registration for each mark.** Of the operations with one key and one mark, all but the
first are told that the mark is there. -/
theorem Replays.new_once {s t : κ → List β} {h : List (Event ι (κ × β) (ℕ × Bool))}
    (hr : Replays register s h t) :
    h.Pairwise fun e e' => e'.operation = e.operation → e'.answer.2 = false := by
  induction h generalizing s with
  | nil => exact List.Pairwise.nil
  | cons e h ih =>
    refine List.pairwise_cons.mpr ⟨fun e' he' hop => hr.2.not_new he' ?_, ih hr.2⟩
    rw [hop]
    exact List.mem_of_getElem? (register_log e.operation s).2

/-- A new mark gets a number that no earlier operation on its log was given. -/
theorem Replays.number_lt {s t : κ → List β} {h₁ h₂ : List (Event ι (κ × β) (ℕ × Bool))}
    (hr : Replays register s (h₁ ++ h₂) t) {e e' : Event ι (κ × β) (ℕ × Bool)} (he : e ∈ h₁)
    (he' : e' ∈ h₂) (hkey : e.operation.1 = e'.operation.1) (hnew : e'.answer.2 = true) :
    e.answer.1 < e'.answer.1 := by
  obtain ⟨u, hr₁, hr₂⟩ := Replays.append_iff.mp hr
  obtain ⟨g₁, g₂, rfl⟩ := List.append_of_mem he'
  obtain ⟨w, hr₂, hans, -⟩ := Replays.append_iff.mp hr₂
  have hlen := (hr₂.log_prefix e'.operation.1).length_le
  have hlt := (List.getElem?_eq_some_iff.mp (hr₁.answer_number he)).1
  rw [hkey] at hlt
  by_cases hm : e'.operation.2 ∈ w e'.operation.1
  · rw [← hans, register_of_mem hm] at hnew
    cases hnew
  · rw [← hans, register_of_not_mem hm]
    show e.answer.1 < (w e'.operation.1).length + 1
    omega

/-- Numbers start at 1. -/
theorem Replays.answer_pos {s t : κ → List β} {h : List (Event ι (κ × β) (ℕ × Bool))}
    (hr : Replays register s h t) {e : Event ι (κ × β) (ℕ × Bool)} (he : e ∈ h) :
    0 < e.answer.1 := by
  obtain ⟨h₁, h₂, rfl⟩ := List.append_of_mem he
  obtain ⟨u, -, hans, -⟩ := Replays.append_iff.mp hr
  rw [← hans, register]
  split <;> exact Nat.succ_pos _

end Logs

end Driftgate.Linearize
