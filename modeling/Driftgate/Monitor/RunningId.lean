import Driftgate.Monitor.RunRecord
import Driftgate.Runtime.Tables
import Mathlib.Data.List.Sort

/-!
# The id in the response 409

A call that does not obtain the lock looks for the newest row of `monitor_runs` with the status
"running" and puts its id into the detail of the response. The row of a run is inserted with that
status in the transaction that finishes it, and is committed with another one: nobody but the run
itself ever sees it running. So the lookup finds only rows that were left running before any of the
calls, and never the run that has the lock.
-/

namespace Driftgate.Monitor

open Driftgate.Lib Driftgate.Transition Driftgate.AdvisoryLock
open Driftgate.Runtime (Time)

/-! ### The lookup -/

/-- `detail` of the `HTTPException(409, ..)`. -/
structure ConflictDetail where
  message : String
  monitorRunId : Option ℕ
  deriving DecidableEq

/-- The rows that a statement of the session sees: those that are committed, and its own writes. -/
def Session.view (x : Session) (p : Pool) : List MonitorRunRow := applyAll x.pending p.rows

/-- The query for the run in flight: `status == "running"`, the latest `started_at` first, one row.
The column is read by the id of the row; it is set when the row is inserted. -/
def inFlight (startedAt : ℕ → Time) (rows : List MonitorRunRow) : Option MonitorRunRow :=
  ((rows.filter fun row => row.status = .running).insertionSort
    fun a b => startedAt b.id ≤ startedAt a.id).head?

/-- What a call that was refused raises. -/
def conflictDetail (startedAt : ℕ → Time) (call : Call) (p : Pool) : ConflictDetail where
  message := alreadyRunning
  monitorRunId := (inFlight startedAt (call.session.view p)).map (·.id)

theorem mem_of_inFlight {startedAt : ℕ → Time} {rows : List MonitorRunRow} {row : MonitorRunRow}
    (h : inFlight startedAt rows = some row) : row ∈ rows ∧ row.status = .running := by
  have hmem := List.mem_of_head? h
  rw [List.mem_insertionSort, List.mem_filter] at hmem
  exact ⟨hmem.1, of_decide_eq_true hmem.2⟩

/-! ### One step -/

/-- A step leaves the table as it is, unless it is the last commit of a call. -/
theorem CallMove.rows_eq_or {call : Call} {p q : Pool} {a : Act} {pc : RunPc}
    {pending : List RunWrite} (h : CallMove call p a q pc pending) :
    q.rows = p.rows ∨ ∃ r outcome, call.pc.run = some r ∧ pc = .unlock (some r) outcome := by
  cases h with
  | quiet _ hrows => exact .inl hrows
  | enter _ _ _ hrows => exact .inl hrows
  | insert _ _ _ hrows => exact .inl hrows
  | unlock _ _ _ hrows => exact .inl hrows
  | raiseUnlock _ _ _ hrows => exact .inl hrows
  | @commit c r hpc => exact .inr ⟨r, _, by rw [hpc]; rfl, rfl⟩
  | @commitMark c r e hpc => exact .inr ⟨r, _, by rw [hpc]; rfl, rfl⟩

/-- Behind its last commit a call finds no running row of its run. -/
theorem Fits.not_running {rows : List MonitorRunRow} {pending : List RunWrite} {r : ℕ}
    {outcome : Outcome} (h : Fits rows pending (.unlock (some r) outcome)) {row : MonitorRunRow}
    (hrow : row ∈ rowsOfRun r rows) : row.status ≠ .running := by
  cases outcome with
  | error e =>
    rw [h r rfl] at hrow
    exact absurd hrow List.not_mem_nil
  | ok v =>
    obtain ⟨_, ⟨⟩, row', hone, -, hstatus⟩ := h
    rw [hone, List.mem_singleton] at hrow
    rw [hrow]
    obtain hstatus | hstatus := hstatus <;> rw [hstatus] <;> decide

/-- **A step commits no running row.** -/
theorem CallMove.running {call : Call} {p q : Pool} {a : Act} {pc : RunPc}
    {pending : List RunWrite} (h : CallMove call p a q pc pending)
    (hnamed : ∀ row ∈ p.rows, row.id < p.nextId) (hfits : Fits p.rows call.session.pending call.pc)
    {row : MonitorRunRow} (hrow : row ∈ q.rows) (hrunning : row.status = .running) :
    row ∈ p.rows := by
  have hfits' := h.fits hnamed hfits
  obtain ⟨⟨ws, hwrites, hws⟩, -⟩ := h.writes hfits
  obtain hrows | ⟨r, outcome, hr, hpc⟩ := h.rows_eq_or
  · exact hrows ▸ hrow
  · rw [hpc] at hfits'
    by_cases hid : row.id = r
    · exact absurd hrunning (hfits'.not_running (mem_rowsOfRun.mpr ⟨hrow, hid⟩))
    · -- the row of another run is as it was
      have hothers : rowsOfRun row.id q.rows = rowsOfRun row.id p.rows := by
        rw [hwrites]
        refine rowsOfRun_applyAll_of_ne (fun w hw hw' => hid ?_) _
        have hwr := hws w hw
        rw [hr, hw'] at hwr
        exact (Option.some.inj hwr).symm
      have hmem : row ∈ rowsOfRun row.id q.rows := mem_rowsOfRun.mpr ⟨hrow, rfl⟩
      rw [hothers] at hmem
      exact (mem_rowsOfRun.mp hmem).1

/-- A call that was refused has written nothing. -/
def Clean (call : Call) : Prop := call.pc = .refuse → call.session.pending = []

theorem QuietMove.ne_refuse {pending pending' : List RunWrite} {pc pc' : RunPc} {a : Act}
    (h : QuietMove pending pc a pc' pending') : pc' ≠ .refuse := by
  cases h with
  | work c hguarded =>
    intro hpc
    rw [hpc] at hguarded
    cases hguarded
  | @raiseGuarded pc r hr caught => cases caught <;> exact RunPc.noConfusion
  | _ => exact RunPc.noConfusion

theorem CallMove.clean {call : Call} {p q : Pool} {a : Act} {pc : RunPc}
    {pending : List RunWrite} (h : CallMove call p a q pc pending)
    (hfits : Fits p.rows call.session.pending call.pc) (hpc' : pc = .refuse) : pending = [] := by
  cases h with
  | quiet _ _ _ h => exact absurd hpc' h.ne_refuse
  | enter hpc =>
    rw [hpc] at hfits
    exact hfits
  | _ => cases hpc'

/-! ### Runs -/

variable {ι : Type*} [DecidableEq ι]

/-- What holds along every run from `s₀`: whatever is committed as running was so at the beginning,
a refused call has written nothing, and the runs have new ids. -/
structure SeenFrom (s₀ s : RunState ι) : Prop where
  record : RecordInv s
  running : ∀ row ∈ s.pool.rows, row.status = .running → row ∈ s₀.pool.rows
  clean : ∀ i, Clean (s.call i)
  later : s₀.pool.nextId ≤ s.pool.nextId
  fresh : ∀ i r, (s.call i).pc.run = some r → s₀.pool.nextId ≤ r

omit [DecidableEq ι] in
theorem RunState.Initial.seenFrom {s : RunState ι} (h : s.Initial) : SeenFrom s s where
  record := h.recordInv
  running row hrow _ := hrow
  clean i hpc := by
    rw [h.idle i] at hpc
    cases hpc
  later := le_rfl
  fresh i r hr := by
    rw [h.idle i] at hr
    cases hr

theorem SeenFrom.step {s₀ s t : RunState ι} {a : ι × Act} (h : SeenFrom s₀ s)
    (hs : runStep s a = some t) : SeenFrom s₀ t := by
  obtain ⟨hmove, hothers⟩ := runStep_cases hs
  have hfits := h.record.fits a.1
  obtain ⟨-, hnext⟩ := hmove.writes hfits
  have hlater := h.later
  constructor
  case record => exact h.record.step hs
  case running =>
    intro row hrow hrunning
    exact h.running row (hmove.running h.record.named hfits hrow hrunning) hrunning
  case clean =>
    intro i hpc
    by_cases hi : i = a.1
    · subst hi
      exact hmove.clean hfits hpc
    · rw [hothers i hi] at hpc ⊢
      exact h.clean i hpc
  case later => omega
  case fresh =>
    intro i r hr
    by_cases hi : i = a.1
    · subst hi
      obtain ⟨-, hsame⟩ | ⟨-, hnew⟩ := hnext
      · exact h.fresh a.1 r (hsame ▸ hr)
      · have hrn : s.pool.nextId = r := Option.some.inj (hnew.symm.trans hr)
        omega
    · exact h.fresh i r (hothers i hi ▸ hr)

theorem SeenFrom.exec {s₀ s t : RunState ι} {as : List (ι × Act)} (h : SeenFrom s₀ s)
    (he : exec runStep s as = some t) : SeenFrom s₀ t := by
  induction as generalizing s with
  | nil => cases he; exact h
  | cons a as ih =>
    obtain ⟨u, hu, he⟩ := Option.bind_eq_some_iff.mp he
    exact ih (h.step hu) he

omit [DecidableEq ι] in
/-- What a refused call finds was running before any of the calls. -/
theorem SeenFrom.mem_of_conflictDetail {s₀ s : RunState ι} (h : SeenFrom s₀ s)
    {startedAt : ℕ → Time} {i : ι} (hpc : (s.call i).pc = .refuse) {r : ℕ}
    (hdetail : (conflictDetail startedAt (s.call i) s.pool).monitorRunId = some r) :
    ∃ row ∈ s₀.pool.rows, row.status = .running ∧ row.id = r := by
  obtain ⟨row, hrow, hid⟩ := Option.map_eq_some_iff.mp hdetail
  obtain ⟨hmem, hrunning⟩ := mem_of_inFlight hrow
  rw [Session.view, h.clean i hpc] at hmem
  exact ⟨row, h.running row hmem hrunning, hrunning, hid⟩

/-- **The response 409 never carries the id of the run in flight.** Whenever a call is refused, the
id in its detail is that of no run of any call, at this moment or later; it is `None` unless a row
was left running before all of the calls. -/
theorem refused_call_never_learns_run {s t : RunState ι} {as : List (ι × Act)} (hs : s.Initial)
    (he : exec runStep s as = some t) (startedAt : ℕ → Time) {i : ι}
    (hrefused : (t.call i).pc = .refuse) :
    (∀ (u : RunState ι) (bs : List (ι × Act)), exec runStep t bs = some u →
      ∀ (j : ι) (r : ℕ), (u.call j).pc.run = some r →
        (conflictDetail startedAt (t.call i) t.pool).monitorRunId ≠ some r) ∧
      ((∀ row ∈ s.pool.rows, row.status ≠ .running) →
        (conflictDetail startedAt (t.call i) t.pool).monitorRunId = none) := by
  have hseen : SeenFrom s t := hs.seenFrom.exec he
  constructor
  · intro u bs hu j r hr hdetail
    obtain ⟨row, hrow, -, hid⟩ := hseen.mem_of_conflictDetail hrefused hdetail
    have hfresh := (hseen.exec hu).fresh j r hr
    have hold := hs.named row hrow
    omega
  · intro hnone
    rw [Option.eq_none_iff_forall_not_mem]
    intro r hdetail
    obtain ⟨row, hrow, hrunning, -⟩ :=
      hseen.mem_of_conflictDetail hrefused (Option.mem_def.mp hdetail)
    exact hnone row hrow hrunning

/-! ### Two calls -/

/-- The call 0 takes the lock on the connection 0 and inserts its row; the call 1 is refused on the
connection 1 while the endpoints of the call 0 are processed. -/
def overlap : List (ℕ × Act) :=
  [(0, .go 0), (0, .go 0), (0, .go 0), (0, .upserted 0 1), (1, .go 1), (1, .go 1)]

theorem overlap_refused : ∃ t, exec runStep sampleRun overlap = some t ∧
    (t.call 1).pc = .refuse ∧ (t.call 0).pc = .process 0 1 := by
  have hrun : (exec runStep sampleRun overlap).map (fun t => ((t.call 1).pc, (t.call 0).pc)) =
      some (.refuse, .process 0 1) := rfl
  obtain ⟨t, he, ht⟩ := Option.map_eq_some_iff.mp hrun
  obtain ⟨hrefused, hprocess⟩ := Prod.mk.inj ht
  exact ⟨t, he, hrefused, hprocess⟩

theorem refused_call_never_learns_run_overlap : ∃ t, exec runStep sampleRun overlap = some t ∧
    (conflictDetail id (t.call 1) t.pool).monitorRunId ≠ some 0 := by
  obtain ⟨t, he, hrefused, hprocess⟩ := overlap_refused
  refine ⟨t, he, ?_⟩
  exact (refused_call_never_learns_run sampleRun_initial he id hrefused).1 t [] rfl 0 0
    (by rw [hprocess]; rfl)

/-- The second call is not told the id of the first. -/
theorem refused_call_learns_no_id : ¬∀ (s t : RunState ℕ) (as : List (ℕ × Act))
    (startedAt : ℕ → Time), s.Initial → exec runStep s as = some t →
      ∀ (i j : ℕ) (r : ℕ), (t.call i).pc = .refuse → (t.call j).pc.guarded = some r →
        (conflictDetail startedAt (t.call i) t.pool).monitorRunId = some r := by
  intro h
  have hrun : (exec runStep sampleRun overlap).map
      (fun t => ((t.call 1).pc, (t.call 0).pc, conflictDetail id (t.call 1) t.pool)) =
        some (.refuse, .process 0 1, ⟨alreadyRunning, none⟩) := rfl
  obtain ⟨t, he, ht⟩ := Option.map_eq_some_iff.mp hrun
  obtain ⟨hrefused, ht⟩ := Prod.mk.inj ht
  obtain ⟨hprocess, hdetail⟩ := Prod.mk.inj ht
  have hid := h _ t _ id sampleRun_initial he 1 0 0 hrefused (by rw [hprocess]; rfl)
  rw [hdetail] at hid
  cases hid

end Driftgate.Monitor
