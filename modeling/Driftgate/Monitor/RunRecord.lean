import Driftgate.Monitor.MonitorRun

/-!
# The record of a run

The row of a run is inserted in the transaction that the handler of an exception rolls back, and
the handler then updates it by its id. By then there is no such row. So a run has its row exactly
when no exception leaves a step of its call.

`Fits` says what a call finds in the table under the id of its run, and what its open transaction
will do there.
-/

namespace Driftgate.Monitor

open Driftgate.Lib Driftgate.Transition Driftgate.AdvisoryLock

/-! ### The rows of one run -/

/-- The rows with the id of a run. -/
def rowsOfRun (r : ℕ) (rows : List MonitorRunRow) : List MonitorRunRow :=
  rows.filter fun row => row.id = r

@[simp] theorem RunWrite.values_id (w : RunWrite) (row : MonitorRunRow) :
    (w.values row).id = row.id := by
  cases w <;> rfl

/-- An update keeps the ids. -/
@[simp] theorem RunWrite.update_id (w : RunWrite) (row : MonitorRunRow) :
    (w.update row).id = row.id := by
  rw [update]
  split
  · exact w.values_id row
  · rfl

theorem rowsOfRun_update (w : RunWrite) (r : ℕ) (rows : List MonitorRunRow) :
    rowsOfRun r (rows.map w.update) = (rowsOfRun r rows).map w.update := by
  rw [rowsOfRun, List.filter_map, rowsOfRun]
  simp only [Function.comp_def, RunWrite.update_id]

/-- A write of the run acts on its rows alone. -/
theorem rowsOfRun_apply (w : RunWrite) (rows : List MonitorRunRow) :
    rowsOfRun w.id (w.apply rows) = w.apply (rowsOfRun w.id rows) := by
  cases w with
  | insert id => simp [RunWrite.apply, RunWrite.id, rowsOfRun]
  | finish | fail => exact rowsOfRun_update ..

/-- A write of another run leaves them as they are. -/
theorem rowsOfRun_apply_of_ne {w : RunWrite} {r : ℕ} (h : w.id ≠ r) (rows : List MonitorRunRow) :
    rowsOfRun r (w.apply rows) = rowsOfRun r rows := by
  have hupdate : (rowsOfRun r rows).map w.update = rowsOfRun r rows := by
    refine (List.map_congr_left fun row hrow => ?_).trans (List.map_id _)
    have hid : row.id = r := of_decide_eq_true (List.mem_filter.mp hrow).2
    exact if_neg fun he => h (he.symm.trans hid)
  cases w with
  | insert id =>
    have hid : id ≠ r := h
    simp [RunWrite.apply, rowsOfRun, hid]
  | finish | fail => exact (rowsOfRun_update ..).trans hupdate

theorem rowsOfRun_applyAll {ws : List RunWrite} {r : ℕ} (h : ∀ w ∈ ws, w.id = r)
    (rows : List MonitorRunRow) : rowsOfRun r (applyAll ws rows) = applyAll ws (rowsOfRun r rows) := by
  induction ws generalizing rows with
  | nil => rfl
  | cons w ws ih =>
    rw [List.forall_mem_cons] at h
    show rowsOfRun r (applyAll ws (w.apply rows)) = applyAll ws (w.apply (rowsOfRun r rows))
    rw [ih h.2, ← h.1, rowsOfRun_apply]

theorem rowsOfRun_applyAll_of_ne {ws : List RunWrite} {r : ℕ} (h : ∀ w ∈ ws, w.id ≠ r)
    (rows : List MonitorRunRow) : rowsOfRun r (applyAll ws rows) = rowsOfRun r rows := by
  induction ws generalizing rows with
  | nil => rfl
  | cons w ws ih =>
    rw [List.forall_mem_cons] at h
    exact (ih h.2 _).trans (rowsOfRun_apply_of_ne h.1 rows)

/-- The one row of a run that went through. -/
def FinishedRun (rows : List MonitorRunRow) : Prop :=
  ∃ row, rows = [row] ∧ row.finished = true ∧
    (row.status = .success ∨ row.status = .partialFailure)

theorem runStatus_eq (results : List Gathered) :
    runStatus results = .success ∨ runStatus results = .partialFailure := by
  rw [runStatus]
  split
  · exact .inr rfl
  · exact .inl rfl

/-- A run inserts its row and finishes it. -/
theorem finishedRun_applyAll (r n : ℕ) (results : List Gathered) :
    FinishedRun (applyAll [.insert r, finishRun r n results] []) := by
  have hrow : (finishRun r n results).update { id := r } =
      (finishRun r n results).values { id := r } := if_pos rfl
  refine ⟨_, rfl, ?_⟩
  rw [hrow]
  exact ⟨rfl, runStatus_eq results⟩

/-! ### What a call finds -/

/-- The id of the run of a call. -/
def RunPc.run : RunPc → Option ℕ
  | .upsert r | .process r _ | .sweep r _ _ | .commit r | .recover r _ | .mark r _
  | .commitMark r _ => some r
  | .unlock run _ | .done _ run _ => run
  | _ => none

/-- What a call finds under the id of its run, and the writes of its open transaction. -/
def Fits (rows : List MonitorRunRow) (pending : List RunWrite) : RunPc → Prop
  | .start => pending = []
  | .upsert r | .process r _ | .sweep r _ _ => pending = [.insert r] ∧ rowsOfRun r rows = []
  | .commit r =>
      (∃ n results, pending = [.insert r, finishRun r n results]) ∧ rowsOfRun r rows = []
  | .recover r _ => rowsOfRun r rows = []
  | .mark r _ => pending = [] ∧ rowsOfRun r rows = []
  | .commitMark r _ => (∃ e, pending = [.fail r e]) ∧ rowsOfRun r rows = []
  | .unlock run (.ok _) => ∃ r, run = some r ∧ FinishedRun (rowsOfRun r rows)
  | .unlock run (.error _) => ∀ r, run = some r → rowsOfRun r rows = []
  | .done true run (.ok _) => ∃ r, run = some r ∧ FinishedRun (rowsOfRun r rows)
  | .done true run (.error _) =>
      ∀ r, run = some r → rowsOfRun r rows = [] ∨ FinishedRun (rowsOfRun r rows)
  | .enter => pending = []
  | .idle | .refuse | .done false _ _ => True

/-- The table matters to a call under the id of its run alone. -/
theorem Fits.congr {rows rows' : List MonitorRunRow} {pending : List RunWrite} {pc : RunPc}
    (h : Fits rows pending pc) (hrows : ∀ r, pc.run = some r → rowsOfRun r rows' = rowsOfRun r rows) :
    Fits rows' pending pc := by
  cases pc with
  | idle | enter | refuse | start => exact h
  | upsert r | process r | sweep r | commit r | mark r | commitMark r =>
    exact ⟨h.1, (hrows r rfl).trans h.2⟩
  | recover r => exact (hrows r rfl).trans h
  | unlock run outcome =>
    cases outcome with
    | error e => exact fun r hr => (hrows r hr).trans (h r hr)
    | ok v =>
      obtain ⟨r, hr, hfinished⟩ := h
      exact ⟨r, hr, by rwa [hrows r hr]⟩
  | done acquired run outcome =>
    cases acquired with
    | false => exact h
    | true =>
      cases outcome with
      | error e =>
        intro r hr
        rw [hrows r hr]
        exact h r hr
      | ok v =>
        obtain ⟨r, hr, hfinished⟩ := h
        exact ⟨r, hr, by rwa [hrows r hr]⟩

theorem QuietMove.fits {rows : List MonitorRunRow} {pending pending' : List RunWrite}
    {pc pc' : RunPc} {a : Act} (h : QuietMove pending pc a pc' pending')
    (hfits : Fits rows pending pc) : Fits rows pending' pc' := by
  cases h with
  | begin => rfl
  | refuse | raiseEnter | raiseRefuse => trivial
  | upserted | gathered | work | swallow => exact hfits
  | finish r n results => exact ⟨⟨n, results, by rw [hfits.1]; rfl⟩, hfits.2⟩
  | recover => exact ⟨rfl, hfits⟩
  | mark r e => exact ⟨⟨e, by rw [hfits.1]; rfl⟩, hfits.2⟩
  | raiseStart => intro r hr; cases hr
  | @raiseGuarded pc r hr caught =>
    have hrows : rowsOfRun r rows = [] := by
      cases pc <;> cases hr <;> exact hfits.2
    cases caught with
    | true => exact hrows
    | false => rintro _ ⟨⟩; exact hrows
  | raiseRecover => rintro _ ⟨⟩; exact hfits
  | raiseMark => rintro _ ⟨⟩; exact hfits.2
  | raiseCommitMark => rintro _ ⟨⟩; exact hfits.2
  | close acquired run outcome => cases acquired <;> cases outcome <;> exact hfits

/-- **One step of a call** keeps what it finds, when the rows have ids below the next one. -/
theorem CallMove.fits {call : Call} {p q : Pool} {a : Act} {pc : RunPc} {pending : List RunWrite}
    (h : CallMove call p a q pc pending) (hnamed : ∀ row ∈ p.rows, row.id < p.nextId)
    (hfits : Fits p.rows call.session.pending call.pc) : Fits q.rows pending pc := by
  cases h with
  | quiet _ hrows _ h => exact hrows ▸ h.fits hfits
  | @enter c d hpc =>
    rw [hpc] at hfits
    split
    · exact hfits
    · trivial
  | insert hpc ha _ hrows =>
    rw [hpc] at hfits
    have hpending : call.session.pending = [] := hfits
    refine ⟨by rw [hpending]; rfl, List.filter_eq_nil_iff.mpr fun row hrow => ?_⟩
    rw [hrows] at hrow
    simpa using Nat.ne_of_lt (hnamed row hrow)
  | @commit c r hpc ha _ hrows =>
    rw [hpc] at hfits
    obtain ⟨⟨n, results, hpending⟩, hnone⟩ := hfits
    refine ⟨r, rfl, ?_⟩
    rw [hrows, hpending, rowsOfRun_applyAll (by simp [RunWrite.id, finishRun]), hnone]
    exact finishedRun_applyAll r n results
  | @commitMark c r e hpc ha _ hrows =>
    rw [hpc] at hfits
    obtain ⟨⟨e', hpending⟩, hnone⟩ := hfits
    rintro _ ⟨⟩
    rw [hrows, hpending, rowsOfRun_applyAll (by simp [RunWrite.id]), hnone]
    rfl
  | @unlock c run outcome hpc ha _ hrows =>
    rw [hpc] at hfits
    rw [hrows]
    cases outcome with
    | ok v => exact hfits
    | error e => exact fun r hr => .inl (hfits r hr)
  | @raiseUnlock caught breaks e run outcome hpc ha _ hrows =>
    rw [hpc] at hfits
    rw [hrows]
    intro r hr
    cases outcome with
    | ok v =>
      obtain ⟨r', hr', hfinished⟩ := hfits
      rw [hr'] at hr
      cases hr
      exact .inr hfinished
    | error e => exact .inl (hfits r hr)

/-! ### Names -/

theorem QuietMove.run {pending pending' : List RunWrite} {pc pc' : RunPc} {a : Act}
    (h : QuietMove pending pc a pc' pending') : pc'.run = pc.run := by
  cases h with
  | @raiseGuarded pc r hr caught => cases pc <;> cases hr <;> cases caught <;> rfl
  | _ => rfl

/-- What a step does to the table and to the ids: its writes are about the run of the call, which
keeps its id or takes the next one. -/
theorem CallMove.writes {call : Call} {p q : Pool} {a : Act} {pc : RunPc} {pending : List RunWrite}
    (h : CallMove call p a q pc pending) (hfits : Fits p.rows call.session.pending call.pc) :
    (∃ ws, q.rows = applyAll ws p.rows ∧ ∀ w ∈ ws, call.pc.run = some w.id) ∧
      (q.nextId = p.nextId ∧ pc.run = call.pc.run ∨
        q.nextId = p.nextId + 1 ∧ pc.run = some p.nextId) := by
  cases h with
  | quiet _ hrows hnext h => exact ⟨⟨[], hrows, by simp⟩, .inl ⟨hnext, h.run⟩⟩
  | enter hpc ha _ hrows hnext =>
    refine ⟨⟨[], hrows, by simp⟩, .inl ⟨hnext, ?_⟩⟩
    rw [hpc]
    split <;> rfl
  | insert hpc ha _ hrows hnext => exact ⟨⟨[], hrows, by simp⟩, .inr ⟨hnext, rfl⟩⟩
  | commit hpc ha _ hrows hnext =>
    rw [hpc] at hfits ⊢
    obtain ⟨⟨n, results, hpending⟩, -⟩ := hfits
    exact ⟨⟨_, hrows, by simp [hpending, RunPc.run, RunWrite.id, finishRun]⟩, .inl ⟨hnext, rfl⟩⟩
  | commitMark hpc ha _ hrows hnext =>
    rw [hpc] at hfits ⊢
    obtain ⟨⟨e', hpending⟩, -⟩ := hfits
    exact ⟨⟨_, hrows, by simp [hpending, RunPc.run, RunWrite.id]⟩, .inl ⟨hnext, rfl⟩⟩
  | unlock hpc ha _ hrows hnext =>
    exact ⟨⟨[], hrows, by simp⟩, .inl ⟨hnext, by rw [hpc]; rfl⟩⟩
  | raiseUnlock hpc ha _ hrows hnext =>
    exact ⟨⟨[], hrows, by simp⟩, .inl ⟨hnext, by rw [hpc]; rfl⟩⟩

theorem RunWrite.mem_ids {w : RunWrite} {rows : List MonitorRunRow} {row : MonitorRunRow}
    (h : row ∈ w.apply rows) : row.id = w.id ∨ ∃ row' ∈ rows, row'.id = row.id := by
  cases w with
  | insert id =>
    obtain h | h := List.mem_append.mp h
    · exact .inr ⟨row, h, rfl⟩
    · exact .inl (by rw [List.mem_singleton.mp h]; rfl)
  | finish | fail =>
    obtain ⟨row', hrow', rfl⟩ := List.mem_map.mp h
    exact .inr ⟨row', hrow', (RunWrite.update_id ..).symm⟩

theorem mem_applyAll_ids {ws : List RunWrite} {rows : List MonitorRunRow} {row : MonitorRunRow}
    (h : row ∈ applyAll ws rows) :
    (∃ w ∈ ws, row.id = w.id) ∨ ∃ row' ∈ rows, row'.id = row.id := by
  induction ws generalizing rows with
  | nil => exact .inr ⟨row, h, rfl⟩
  | cons w ws ih =>
    have h : row ∈ applyAll ws (w.apply rows) := h
    obtain ⟨w', hw', hid⟩ | ⟨row', hrow', hid⟩ := ih h
    · exact .inl ⟨w', List.mem_cons_of_mem w hw', hid⟩
    · obtain hw | ⟨row'', hrow'', hid'⟩ := RunWrite.mem_ids hrow'
      · exact .inl ⟨w, List.mem_cons_self, hid.symm.trans hw⟩
      · exact .inr ⟨row'', hrow'', hid'.trans hid⟩

variable {ι : Type*} [DecidableEq ι]

/-- Every call finds what it expects, its run has an id of its own, and every id has been given
out. -/
structure RecordInv (s : RunState ι) : Prop where
  fits : ∀ i, Fits s.pool.rows (s.call i).session.pending (s.call i).pc
  distinct : ∀ i j r, (s.call i).pc.run = some r → (s.call j).pc.run = some r → i = j
  below : ∀ i r, (s.call i).pc.run = some r → r < s.pool.nextId
  named : ∀ row ∈ s.pool.rows, row.id < s.pool.nextId

theorem RecordInv.step {s t : RunState ι} {a : ι × Act} (h : RecordInv s)
    (hs : runStep s a = some t) : RecordInv t := by
  obtain ⟨hmove, hothers⟩ := runStep_cases hs
  obtain ⟨⟨ws, hrows, hws⟩, hnext⟩ := hmove.writes (h.fits a.1)
  have hle : s.pool.nextId ≤ t.pool.nextId := by omega
  have hrun : ∀ i r, (t.call i).pc.run = some r →
      (s.call i).pc.run = some r ∨ i = a.1 ∧ r = s.pool.nextId ∧ r < t.pool.nextId := by
    intro i r hr
    by_cases hi : i = a.1
    · subst hi
      obtain ⟨-, hsame⟩ | ⟨hsucc, hnew⟩ := hnext
      · exact .inl (hsame ▸ hr)
      · have hrn : s.pool.nextId = r := Option.some.inj (hnew.symm.trans hr)
        exact .inr ⟨rfl, hrn.symm, by omega⟩
    · exact .inl (hothers i hi ▸ hr)
  constructor
  case fits =>
    intro i
    by_cases hi : i = a.1
    · subst hi
      exact hmove.fits h.named (h.fits a.1)
    · rw [hothers i hi]
      refine (h.fits i).congr fun r hr => ?_
      rw [hrows]
      refine rowsOfRun_applyAll_of_ne (fun w hw hid => hi ?_) _
      exact h.distinct i a.1 r hr (hid ▸ hws w hw)
  case distinct =>
    intro i j r hi hj
    obtain hi | ⟨rfl, hir, -⟩ := hrun i r hi <;> obtain hj | ⟨rfl, hjr, -⟩ := hrun j r hj
    · exact h.distinct i j r hi hj
    · exact absurd (h.below i r hi) (by omega)
    · exact absurd (h.below j r hj) (by omega)
    · rfl
  case below =>
    intro i r hr
    obtain hr | ⟨-, -, hr⟩ := hrun i r hr
    · exact (h.below i r hr).trans_le hle
    · exact hr
  case named =>
    intro row hrow
    rw [hrows] at hrow
    obtain ⟨w, hw, hid⟩ | ⟨row', hrow', hid⟩ := mem_applyAll_ids hrow
    · exact hid ▸ (h.below a.1 _ (hws w hw)).trans_le hle
    · exact hid ▸ (h.named row' hrow').trans_le hle

omit [DecidableEq ι] in
theorem RunState.Initial.recordInv {s : RunState ι} (h : s.Initial) : RecordInv s where
  fits i := by
    rw [h.idle i]
    trivial
  distinct i j r hi := by
    rw [h.idle i] at hi
    cases hi
  below i r hi := by
    rw [h.idle i] at hi
    cases hi
  named := h.named

/-! ### Exceptions -/

/-- An exception leaves a step. -/
def Act.raises : Act → Bool
  | .raise _ _ _ => true
  | _ => false

/-- The call has obtained the lock and an exception is on its way out. -/
def RunPc.raised : RunPc → Bool
  | .recover _ _ | .mark _ _ | .commitMark _ _ | .unlock _ (.error _) | .done true _ (.error _) => true
  | _ => false

/-- The call has ended without the lock. -/
def RunPc.refused : RunPc → Bool
  | .done false _ _ => true
  | _ => false

theorem QuietMove.raised {pending pending' : List RunWrite} {pc pc' : RunPc} {a : Act}
    (h : QuietMove pending pc a pc' pending') :
    (pc.refused = true → pc'.refused = true) ∧
      (pc'.refused = false → pc'.raised = (pc.raised || a.raises)) := by
  cases h with
  | work c h => simp [Act.raises]
  | @raiseGuarded pc r hr caught =>
    cases pc <;> cases hr <;> cases caught <;>
      simp [RunPc.handler, RunPc.refused, RunPc.raised, Act.raises]
  | close acquired run outcome => simp [Act.raises]
  | _ => simp [RunPc.refused, RunPc.raised, Act.raises]

theorem CallMove.raised {call : Call} {p q : Pool} {a : Act} {pc : RunPc} {pending : List RunWrite}
    (h : CallMove call p a q pc pending) :
    (call.pc.refused = true → pc.refused = true) ∧
      (pc.refused = false → pc.raised = (call.pc.raised || a.raises)) := by
  cases h with
  | quiet _ _ _ h => exact h.raised
  | enter hpc ha =>
    rw [hpc, ha]
    split <;> simp [RunPc.refused, RunPc.raised, Act.raises]
  | insert hpc ha => simp [hpc, ha, RunPc.refused, RunPc.raised, Act.raises]
  | commit hpc ha => simp [hpc, ha, RunPc.refused, RunPc.raised, Act.raises]
  | commitMark hpc ha => simp [hpc, ha, RunPc.refused, RunPc.raised, Act.raises]
  | @unlock c run outcome hpc ha =>
    cases outcome <;> simp [hpc, ha, RunPc.refused, RunPc.raised, Act.raises]
  | raiseUnlock hpc ha => simp [hpc, ha, RunPc.refused, RunPc.raised, Act.raises]

theorem runStep_raised {s t : RunState ι} {a : ι × Act} (hs : runStep s a = some t) (i : ι) :
    ((s.call i).pc.refused = true → (t.call i).pc.refused = true) ∧
      ((t.call i).pc.refused = false →
        (t.call i).pc.raised = ((s.call i).pc.raised || decide (a.1 = i) && a.2.raises)) := by
  obtain ⟨hmove, hothers⟩ := runStep_cases hs
  by_cases hi : i = a.1
  · subst hi
    simpa using hmove.raised
  · simp [hothers i hi, Ne.symm hi]

theorem exec_refused {s t : RunState ι} {as : List (ι × Act)} {i : ι}
    (he : exec runStep s as = some t) (hi : (s.call i).pc.refused = true) :
    (t.call i).pc.refused = true := by
  induction as generalizing s with
  | nil => cases he; exact hi
  | cons a as ih =>
    obtain ⟨u, hu, he⟩ := Option.bind_eq_some_iff.mp he
    exact ih he ((runStep_raised hu i).1 hi)

/-- A call with the lock is raising exactly when an exception has left one of its steps. -/
theorem exec_raised {s t : RunState ι} {as : List (ι × Act)} {i : ι}
    (he : exec runStep s as = some t) (hi : (t.call i).pc.refused = false) :
    (t.call i).pc.raised =
      ((s.call i).pc.raised || as.any fun a => decide (a.1 = i) && a.2.raises) := by
  induction as generalizing s with
  | nil => cases he; simp
  | cons a as ih =>
    obtain ⟨u, hu, he⟩ := Option.bind_eq_some_iff.mp he
    have hui : (u.call i).pc.refused = false := by
      by_contra hne
      rw [exec_refused he (by simpa using hne)] at hi
      cases hi
    rw [ih he, (runStep_raised hu i).2 hui, List.any_cons, Bool.or_assoc]

/-! ### The record -/

/-- What the table should hold for a call that has ended: the row of its run, finished, with the
status that belongs to the outcome. -/
def Recorded (rows : List MonitorRunRow) (run : Option ℕ) : Outcome → Prop
  | .ok _ => ∃ row ∈ rows, run = some row.id ∧ row.finished = true ∧
      (row.status = .success ∨ row.status = .partialFailure)
  | .error e => ∃ row ∈ rows, run = some row.id ∧ row.finished = true ∧ row.status = .failed ∧
      row.errorMessage = some e

theorem mem_rowsOfRun {r : ℕ} {rows : List MonitorRunRow} {row : MonitorRunRow} :
    row ∈ rowsOfRun r rows ↔ row ∈ rows ∧ row.id = r := by
  simp [rowsOfRun]

/-- A call that ends with the lock is recorded when it returns, and never when it raises. -/
theorem Fits.recorded_iff {rows : List MonitorRunRow} {pending : List RunWrite} {run : Option ℕ}
    {outcome : Outcome} (h : Fits rows pending (.done true run outcome)) :
    Recorded rows run outcome ↔ (RunPc.done true run outcome).raised = false := by
  cases outcome with
  | ok v =>
    obtain ⟨r, rfl, row, hrow, hfinished, hstatus⟩ := h
    have hmem : row ∈ rowsOfRun r rows := by rw [hrow]; exact List.mem_singleton_self row
    obtain ⟨hmem, hid⟩ := mem_rowsOfRun.mp hmem
    exact iff_of_true ⟨row, hmem, by rw [hid], hfinished, hstatus⟩ rfl
  | error e =>
    refine iff_of_false ?_ (by simp [RunPc.raised])
    rintro ⟨row, hmem, rfl, -, hfailed, -⟩
    have hrow : row ∈ rowsOfRun row.id rows := mem_rowsOfRun.mpr ⟨hmem, rfl⟩
    obtain hnone | ⟨row', hone, -, hstatus⟩ := h row.id rfl
    · rw [hnone] at hrow
      exact absurd hrow List.not_mem_nil
    · rw [hone, List.mem_singleton] at hrow
      rw [← hrow, hfailed] at hstatus
      simp at hstatus

/-- **When a run is recorded.** After a call that obtained the lock has ended, the table holds the
row of its run with the status of its outcome if and only if no exception has left any of its
steps. -/
theorem run_recorded_iff {s t : RunState ι} {as : List (ι × Act)} (hs : s.Initial)
    (he : exec runStep s as = some t) {i : ι} {run : Option ℕ} {outcome : Outcome}
    (hdone : (t.call i).pc = .done true run outcome) :
    Recorded t.pool.rows run outcome ↔ ∀ a ∈ as, a.1 = i → a.2.raises = false := by
  have hinv : RecordInv t :=
    Run.invariant (fun s (h : RunState.Initial s) => h.recordInv)
      (fun _ _ _ _ h _ hs => h.step hs) (reachable_of_exec hs he)
  have hfits := hinv.fits i
  rw [hdone] at hfits
  have hraised := exec_raised he (i := i) (by rw [hdone]; rfl)
  rw [hs.idle i, hdone] at hraised
  rw [hfits.recorded_iff, hraised]
  simp [RunPc.raised]

/-! ### Samples -/

/-- A call that takes the lock, inserts its row, and goes through the given steps. -/
def sampleSteps (acts : List Act) : List (ℕ × Act) :=
  (.go 0 :: .go 0 :: .go 0 :: acts).map fun a => (0, a)

/-- A run without an exception has its row. -/
theorem run_recorded_plain : ∃ t, exec runStep sampleRun (sampleSteps
      [.upserted 0 1, .work 0, .gathered [.result ⟨7, true, 0, some "HTTP 500"⟩], .go 0, .go 0, .go 0]) =
        some t ∧ Recorded t.pool.rows (some 0) (.ok 0) := by
  have hrun : (exec runStep sampleRun (sampleSteps
      [.upserted 0 1, .work 0, .gathered [.result ⟨7, true, 0, some "HTTP 500"⟩], .go 0, .go 0,
        .go 0])).map (fun t => (t.call 0).pc) = some (.done true (some 0) (.ok 0)) := rfl
  obtain ⟨t, he, hdone⟩ := Option.map_eq_some_iff.mp hrun
  refine ⟨t, he, (run_recorded_iff sampleRun_initial he hdone).mpr ?_⟩
  simp [sampleSteps, Act.raises]

/-- An exception while the endpoints are loaded leaves no row at all. -/
theorem run_not_recorded : ¬∀ (s t : RunState ℕ) (as : List (ℕ × Act)), s.Initial →
    exec runStep s as = some t → ∀ (i : ℕ) (run : Option ℕ) (outcome : Outcome),
      (t.call i).pc = .done true run outcome → Recorded t.pool.rows run outcome := by
  intro h
  have hrun : (exec runStep sampleRun (sampleSteps
      [.raise true false "apis.yaml", .go 0, .go 0, .go 0, .go 0])).map
        (fun t => ((t.call 0).pc, t.pool.rows)) =
      some (.done true (some 0) (.error "apis.yaml"), []) := rfl
  obtain ⟨t, he, ht⟩ := Option.map_eq_some_iff.mp hrun
  obtain ⟨hdone, hrows⟩ := Prod.mk.inj ht
  obtain ⟨row, hrow, -⟩ := h _ t _ sampleRun_initial he 0 _ _ hdone
  rw [hrows] at hrow
  exact absurd hrow List.not_mem_nil

end Driftgate.Monitor
