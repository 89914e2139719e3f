import Driftgate.Lib.AdvisoryLock
import Driftgate.Lib.Transition
import Driftgate.Monitor.Runner
import Mathlib.Algebra.GroupWithZero.Nat

/-!
# Calls of the monitor

`run_monitor` takes the advisory lock, inserts its row of `monitor_runs`, checks the endpoints, and
finishes the row; all of this is one transaction. An exception rolls the transaction back and
updates the row in a second one. The lock is released at the end, whatever happened.

Any number of calls run at once, each with its own session. A session has a connection from its
first statement to its next commit or rollback, and then takes any idle one of the pool. A failing
statement may leave the session unusable until it is rolled back. Connections do not break.

A call is a program counter with a session. At each point it may go on or raise; in the second
case it says whether the exception is an `Exception`, which `run_monitor` catches.
-/

namespace Driftgate.Monitor

open Driftgate.Lib Driftgate.Transition Driftgate.AdvisoryLock

/-! ### The table -/

inductive RunStatus
  | running
  | success
  | partialFailure
  | failed
  deriving DecidableEq

/-- A row of `monitor_runs`; `finished` says that `finished_at` is not null. -/
structure MonitorRunRow where
  id : ℕ
  finished : Bool := false
  status : RunStatus := .running
  endpointsChecked : ℕ := 0
  snapshotsCreated : ℕ := 0
  diffsDetected : ℕ := 0
  errorMessage : Option String := none
  deriving DecidableEq

/-- The statements that write `monitor_runs`. -/
inductive RunWrite
  | insert (id : ℕ)
  | finish (id : ℕ) (status : RunStatus) (endpoints snapshots diffs : ℕ)
  | fail (id : ℕ) (error : String)

/-- The row a write is about. -/
def RunWrite.id : RunWrite → ℕ
  | insert id => id
  | finish id _ _ _ _ => id
  | fail id _ => id

/-- `values(..)` of an update. -/
def RunWrite.values : RunWrite → MonitorRunRow → MonitorRunRow
  | insert _, row => row
  | finish _ status endpoints snapshots diffs, row =>
    { row with finished := true, status := status, endpointsChecked := endpoints,
               snapshotsCreated := snapshots, diffsDetected := diffs }
  | fail _ error, row =>
    { row with finished := true, status := .failed, errorMessage := some error }

/-- An update of the row with its id. -/
def RunWrite.update (w : RunWrite) (row : MonitorRunRow) : MonitorRunRow :=
  if row.id = w.id then w.values row else row

def RunWrite.apply : RunWrite → List MonitorRunRow → List MonitorRunRow
  | insert id, rows => rows ++ [{ id := id }]
  | w, rows => rows.map w.update

def applyAll (ws : List RunWrite) (rows : List MonitorRunRow) : List MonitorRunRow :=
  ws.foldl (fun rows w => w.apply rows) rows

/-- An element of the list `asyncio.gather` returns. A cancelled endpoint is neither an
`_EndpointResult` nor an `Exception`. -/
inductive Gathered
  | result (r : EndpointResult)
  | exception
  | cancelled

/-- `isinstance(r, Exception)`, or `r.error` of a result: an empty text is no error. -/
def Gathered.failed : Gathered → Bool
  | result r => r.error.any fun e => e ≠ ""
  | exception => true
  | cancelled => false

def Gathered.snapshots : Gathered → ℕ
  | result r => if r.snapshotCreated then 1 else 0
  | _ => 0

def Gathered.diffs : Gathered → ℕ
  | result r => r.diffsDetected
  | _ => 0

def runStatus (results : List Gathered) : RunStatus :=
  if results.any Gathered.failed then .partialFailure else .success

/-- The last statement of a run that goes through. -/
def finishRun (runId endpoints : ℕ) (results : List Gathered) : RunWrite :=
  .finish runId (runStatus results) endpoints (results.map Gathered.snapshots).sum
    (results.map Gathered.diffs).sum

/-! ### Sessions and connections -/

/-- What the calls share: the lock, the connections that sessions have, the committed rows, and an
id that no row has been given. -/
structure Pool where
  lock : Lock ℕ := none
  inUse : List ℕ := []
  rows : List MonitorRunRow := []
  nextId : ℕ := 0

/-- `broken`: the session must be rolled back before it is used again. -/
structure Session where
  conn : Option ℕ := none
  broken : Bool := false
  pending : List RunWrite := []

/-- The connection of a statement: that of the session, or an idle one. -/
def Session.checkout (x : Session) (p : Pool) (c : ℕ) : Option (Pool × Session × ℕ) :=
  match x.conn with
  | some d => if x.broken then none else some (p, x, d)
  | none =>
    if x.broken ∨ c ∈ p.inUse then none
    else some ({ p with inUse := c :: p.inUse }, { x with conn := some c }, c)

/-- The connection goes back to the pool. -/
def Session.giveBack (x : Session) (p : Pool) : Pool :=
  match x.conn with
  | some d => { p with inUse := p.inUse.erase d }
  | none => p

/-- `session.commit()` -/
def Session.commit (x : Session) (p : Pool) : Pool :=
  { x.giveBack p with rows := applyAll x.pending p.rows }

/-! ### The calls -/

/-- How a call ends: with the id of its run or with an exception. -/
abbrev Outcome := Except String ℕ

/-- The next thing a call does. -/
inductive RunPc
  | idle
  /-- `SELECT pg_try_advisory_lock` -/
  | enter
  /-- The lock was not obtained: the running run is looked up for the response 409. -/
  | refuse
  /-- The row is inserted. -/
  | start
  | upsert (runId : ℕ)
  /-- The endpoints are processed. -/
  | process (runId endpoints : ℕ)
  /-- The retention sweep, then the row is finished. -/
  | sweep (runId endpoints : ℕ) (results : List Gathered)
  | commit (runId : ℕ)
  /-- The handler: the transaction is rolled back. -/
  | recover (runId : ℕ) (error : String)
  /-- The row is updated in a transaction of its own. -/
  | mark (runId : ℕ) (error : String)
  | commitMark (runId : ℕ) (error : String)
  /-- `finally`, with the id of the run when it has one. -/
  | unlock (run : Option ℕ) (outcome : Outcome)
  | done (acquired : Bool) (run : Option ℕ) (outcome : Outcome)

/-- What a call does when it is scheduled. `go c` is the statement it is at, on `c` if the session
has no connection. -/
inductive Act
  | go (c : ℕ)
  /-- `upsert_endpoints` returns. -/
  | upserted (c endpoints : ℕ)
  /-- Some other statement of the guarded block. -/
  | work (c : ℕ)
  /-- An exception of an endpoint, which `gather` keeps. -/
  | swallow (breaks : Bool)
  | gathered (results : List Gathered)
  /-- An exception leaves what the call is at. -/
  | raise (caught breaks : Bool) (error : String)
  /-- The session is closed. -/
  | close

structure Call where
  pc : RunPc := .idle
  session : Session := {}

def alreadyRunning : String := "monitor already running"

/-- An exception in the guarded block. -/
def RunPc.handler (runId : ℕ) (caught : Bool) (error : String) : RunPc :=
  if caught then .recover runId error else .unlock (some runId) (.error error)

/-- A statement that goes through. -/
def Call.statement (call : Call) (p : Pool) (c : ℕ) (ws : List RunWrite) (pc : RunPc) :
    Option (Pool × Call) :=
  (call.session.checkout p c).map fun r =>
    (r.1, ⟨pc, { r.2.1 with pending := r.2.1.pending ++ ws }⟩)

/-- A failure that leaves the session as it is or unusable. -/
def Call.failAt (call : Call) (breaks : Bool) (pc : RunPc) : Call :=
  ⟨pc, { call.session with broken := call.session.broken || breaks }⟩

/-- One step of a call. -/
def Call.step (call : Call) (p : Pool) : Act → Option (Pool × Call)
  | .go c =>
    match call.pc with
    | .idle => some (p, ⟨.enter, {}⟩)
    | .enter => (call.session.checkout p c).map fun r =>
        ({ r.1 with lock := (r.1.lock.tryLock r.2.2).2 },
          ⟨if (r.1.lock.tryLock r.2.2).1 then .start else .refuse, r.2.1⟩)
    | .refuse => call.statement p c [] (.done false none (.error alreadyRunning))
    | .start => (call.statement p c [.insert p.nextId] (.upsert p.nextId)).map fun r =>
        ({ r.1 with nextId := p.nextId + 1 }, r.2)
    | .sweep runId endpoints results =>
        call.statement p c [finishRun runId endpoints results] (.commit runId)
    | .commit runId => some (call.session.commit p, ⟨.unlock (some runId) (.ok runId), {}⟩)
    | .recover runId error => some (call.session.giveBack p, ⟨.mark runId error, {}⟩)
    | .mark runId error => call.statement p c [.fail runId error] (.commitMark runId error)
    | .commitMark runId error =>
        some (call.session.commit p, ⟨.unlock (some runId) (.error error), {}⟩)
    | .unlock run outcome => (call.session.checkout p c).map fun r =>
        ({ r.1 with lock := r.1.lock.unlock r.2.2 }, ⟨.done true run outcome, r.2.1⟩)
    | _ => none
  | .upserted c endpoints =>
    match call.pc with
    | .upsert runId => call.statement p c [] (.process runId endpoints)
    | _ => none
  | .work c =>
    match call.pc with
    | .upsert _ | .process _ _ | .sweep _ _ _ => call.statement p c [] call.pc
    | _ => none
  | .swallow breaks =>
    match call.pc with
    | .process _ _ => some (p, call.failAt breaks call.pc)
    | _ => none
  | .gathered results =>
    match call.pc with
    | .process runId endpoints =>
      if results.length = endpoints then
        some (p, { call with pc := .sweep runId endpoints results })
      else none
    | _ => none
  | .raise caught breaks error =>
    match call.pc with
    | .enter | .refuse => some (p, call.failAt breaks (.done false none (.error error)))
    | .start => some (p, call.failAt breaks (.unlock none (.error error)))
    | .upsert runId | .process runId _ | .sweep runId _ _ | .commit runId =>
        some (p, call.failAt breaks (RunPc.handler runId caught error))
    | .recover runId _ => some (p, call.failAt breaks (.unlock (some runId) (.error error)))
    -- leaving `session.begin()` with an exception rolls its transaction back
    | .mark runId _ | .commitMark runId _ =>
        some (call.session.giveBack p, ⟨.unlock (some runId) (.error error), {}⟩)
    | .unlock run _ => some (p, call.failAt breaks (.done true run (.error error)))
    | _ => none
  | .close =>
    match call.pc with
    | .done _ _ _ => some (call.session.giveBack p, ⟨call.pc, {}⟩)
    | _ => none

variable {ι : Type*} [DecidableEq ι]

structure RunState (ι : Type*) where
  pool : Pool
  call : ι → Call

/-- One step of one of the calls. -/
def runStep (s : RunState ι) (a : ι × Act) : Option (RunState ι) :=
  ((s.call a.1).step s.pool a.2).map fun r => ⟨r.1, Function.update s.call a.1 r.2⟩

/-- No call has begun, nobody has the lock, and the ids of the rows have been given out. -/
structure RunState.Initial (s : RunState ι) : Prop where
  idle : ∀ i, (s.call i).pc = .idle
  free : s.pool.lock = none
  named : ∀ row ∈ s.pool.rows, row.id < s.pool.nextId

/-- The system before the first call. -/
def sampleRun : RunState ℕ := ⟨{}, fun _ => {}⟩

theorem sampleRun_initial : sampleRun.Initial where
  idle _ := rfl
  free := rfl
  named := by simp [sampleRun]

/-! ### One step -/

/-- A connection taken for a statement changes neither the lock nor the rows. -/
theorem checkout_eq_some {x y : Session} {p q : Pool} {c d : ℕ}
    (h : x.checkout p c = some (q, y, d)) :
    q.lock = p.lock ∧ q.rows = p.rows ∧ q.nextId = p.nextId ∧ y.pending = x.pending ∧
      d = x.conn.getD c := by
  rw [Session.checkout] at h
  split at h
  next hconn =>
    split at h
    · cases h
    · cases h
      simp [hconn]
  next hconn =>
    split at h
    · cases h
    · cases h
      simp [hconn]

theorem statement_eq_some {call call' : Call} {p q : Pool} {c : ℕ} {ws : List RunWrite} {pc : RunPc}
    (h : call.statement p c ws pc = some (q, call')) :
    q.lock = p.lock ∧ q.rows = p.rows ∧ q.nextId = p.nextId ∧ call'.pc = pc ∧
      call'.session.pending = call.session.pending ++ ws := by
  obtain ⟨⟨q, y, d⟩, hr, h⟩ := Option.map_eq_some_iff.mp h
  obtain ⟨hlock, hrows, hnext, hpending, -⟩ := checkout_eq_some hr
  cases h
  exact ⟨hlock, hrows, hnext, rfl, by rw [hpending]⟩

@[simp] theorem giveBack_lock (x : Session) (p : Pool) : (x.giveBack p).lock = p.lock := by
  rw [Session.giveBack]
  split <;> rfl

@[simp] theorem giveBack_rows (x : Session) (p : Pool) : (x.giveBack p).rows = p.rows := by
  rw [Session.giveBack]
  split <;> rfl

@[simp] theorem giveBack_nextId (x : Session) (p : Pool) : (x.giveBack p).nextId = p.nextId := by
  rw [Session.giveBack]
  split <;> rfl

/-- The run of a call in its guarded block. -/
def RunPc.guarded : RunPc → Option ℕ
  | upsert runId | process runId _ | sweep runId _ _ | commit runId => some runId
  | _ => none

/-- The steps that change nothing but the call: from a program counter to another, with the open
transaction after the step. -/
inductive QuietMove (pending : List RunWrite) : RunPc → Act → RunPc → List RunWrite → Prop
  | begin (c : ℕ) : QuietMove pending .idle (.go c) .enter []
  | refuse (c : ℕ) :
      QuietMove pending .refuse (.go c) (.done false none (.error alreadyRunning)) pending
  | upserted (r c n : ℕ) : QuietMove pending (.upsert r) (.upserted c n) (.process r n) pending
  | work {pc : RunPc} (c : ℕ) (h : pc.guarded.isSome) : QuietMove pending pc (.work c) pc pending
  | swallow (r n : ℕ) (breaks : Bool) :
      QuietMove pending (.process r n) (.swallow breaks) (.process r n) pending
  | gathered (r n : ℕ) (results : List Gathered) :
      QuietMove pending (.process r n) (.gathered results) (.sweep r n results) pending
  | finish (r n : ℕ) (results : List Gathered) (c : ℕ) :
      QuietMove pending (.sweep r n results) (.go c) (.commit r)
        (pending ++ [finishRun r n results])
  | recover (r : ℕ) (e : String) (c : ℕ) : QuietMove pending (.recover r e) (.go c) (.mark r e) []
  | mark (r : ℕ) (e : String) (c : ℕ) :
      QuietMove pending (.mark r e) (.go c) (.commitMark r e) (pending ++ [.fail r e])
  | raiseEnter (caught breaks : Bool) (e : String) :
      QuietMove pending .enter (.raise caught breaks e) (.done false none (.error e)) pending
  | raiseRefuse (caught breaks : Bool) (e : String) :
      QuietMove pending .refuse (.raise caught breaks e) (.done false none (.error e)) pending
  | raiseStart (caught breaks : Bool) (e : String) :
      QuietMove pending .start (.raise caught breaks e) (.unlock none (.error e)) pending
  | raiseGuarded {pc : RunPc} {r : ℕ} (h : pc.guarded = some r) (caught breaks : Bool)
      (e : String) : QuietMove pending pc (.raise caught breaks e) (RunPc.handler r caught e) pending
  | raiseRecover (r : ℕ) (e₀ : String) (caught breaks : Bool) (e : String) :
      QuietMove pending (.recover r e₀) (.raise caught breaks e) (.unlock (some r) (.error e)) pending
  | raiseMark (r : ℕ) (e₀ : String) (caught breaks : Bool) (e : String) :
      QuietMove pending (.mark r e₀) (.raise caught breaks e) (.unlock (some r) (.error e)) []
  | raiseCommitMark (r : ℕ) (e₀ : String) (caught breaks : Bool) (e : String) :
      QuietMove pending (.commitMark r e₀) (.raise caught breaks e) (.unlock (some r) (.error e)) []
  | close (acquired : Bool) (run : Option ℕ) (outcome : Outcome) :
      QuietMove pending (.done acquired run outcome) .close (.done acquired run outcome) []

/-- The steps of a call, apart from the connections: from the call to its program counter, its open
transaction, and the pool after the step. -/
inductive CallMove (call : Call) (p : Pool) (a : Act) (q : Pool) : RunPc → List RunWrite → Prop
  | quiet {pc : RunPc} {pending : List RunWrite} (hlock : q.lock = p.lock) (hrows : q.rows = p.rows)
      (hnext : q.nextId = p.nextId) (h : QuietMove call.session.pending call.pc a pc pending) :
      CallMove call p a q pc pending
  | enter {c d : ℕ} (hpc : call.pc = .enter) (ha : a = .go c) (hlock : q.lock = (p.lock.tryLock d).2)
      (hrows : q.rows = p.rows) (hnext : q.nextId = p.nextId) :
      CallMove call p a q (if (p.lock.tryLock d).1 then .start else .refuse) call.session.pending
  | insert {c : ℕ} (hpc : call.pc = .start) (ha : a = .go c) (hlock : q.lock = p.lock)
      (hrows : q.rows = p.rows) (hnext : q.nextId = p.nextId + 1) :
      CallMove call p a q (.upsert p.nextId) (call.session.pending ++ [.insert p.nextId])
  | commit {c r : ℕ} (hpc : call.pc = .commit r) (ha : a = .go c) (hlock : q.lock = p.lock)
      (hrows : q.rows = applyAll call.session.pending p.rows) (hnext : q.nextId = p.nextId) :
      CallMove call p a q (.unlock (some r) (.ok r)) []
  | commitMark {c r : ℕ} {e : String} (hpc : call.pc = .commitMark r e) (ha : a = .go c)
      (hlock : q.lock = p.lock) (hrows : q.rows = applyAll call.session.pending p.rows)
      (hnext : q.nextId = p.nextId) : CallMove call p a q (.unlock (some r) (.error e)) []
  | unlock {c : ℕ} {run : Option ℕ} {outcome : Outcome} (hpc : call.pc = .unlock run outcome)
      (ha : a = .go c) (hlock : q.lock = p.lock.unlock (call.session.conn.getD c))
      (hrows : q.rows = p.rows) (hnext : q.nextId = p.nextId) :
      CallMove call p a q (.done true run outcome) call.session.pending
  | raiseUnlock {caught breaks : Bool} {e : String} {run : Option ℕ} {outcome : Outcome}
      (hpc : call.pc = .unlock run outcome) (ha : a = .raise caught breaks e)
      (hlock : q.lock = p.lock) (hrows : q.rows = p.rows) (hnext : q.nextId = p.nextId) :
      CallMove call p a q (.done true run (.error e)) call.session.pending

/-- A statement that goes through and changes nothing but the call. -/
theorem CallMove.of_statement {call call' : Call} {p q : Pool} {a : Act} {c : ℕ}
    {ws : List RunWrite} {pc : RunPc} (h : call.statement p c ws pc = some (q, call'))
    (hmove : QuietMove call.session.pending call.pc a pc (call.session.pending ++ ws)) :
    CallMove call p a q call'.pc call'.session.pending := by
  obtain ⟨hlock, hrows, hnext, hpc, hpending⟩ := statement_eq_some h
  rw [hpc, hpending]
  exact .quiet hlock hrows hnext hmove

theorem Call.step_cases {call call' : Call} {p q : Pool} {a : Act}
    (h : call.step p a = some (q, call')) : CallMove call p a q call'.pc call'.session.pending := by
  obtain ⟨pc, x⟩ := call
  cases a with
  | go c =>
    cases pc with
    | idle => cases h; exact .quiet rfl rfl rfl (.begin c)
    | enter =>
      obtain ⟨⟨q, y, d⟩, hr, h⟩ := Option.map_eq_some_iff.mp h
      obtain ⟨hlock, hrows, hnext, hpending, -⟩ := checkout_eq_some hr
      cases h
      rw [hpending, hlock]
      exact .enter rfl rfl rfl hrows hnext
    | refuse => exact .of_statement h (by rw [List.append_nil]; exact .refuse c)
    | start =>
      obtain ⟨⟨q, y⟩, hr, h⟩ := Option.map_eq_some_iff.mp h
      obtain ⟨hlock, hrows, -, hpc, hpending⟩ := statement_eq_some hr
      cases h
      rw [hpc, hpending]
      exact .insert rfl rfl hlock hrows rfl
    | sweep r n results => exact .of_statement h (.finish r n results c)
    | commit r =>
      cases h
      exact .commit rfl rfl (giveBack_lock ..) rfl (giveBack_nextId ..)
    | recover r e =>
      cases h
      exact .quiet (giveBack_lock ..) (giveBack_rows ..) (giveBack_nextId ..) (.recover r e c)
    | mark r e => exact .of_statement h (.mark r e c)
    | commitMark r e =>
      cases h
      exact .commitMark rfl rfl (giveBack_lock ..) rfl (giveBack_nextId ..)
    | unlock run outcome =>
      obtain ⟨⟨q, y, d⟩, hr, h⟩ := Option.map_eq_some_iff.mp h
      obtain ⟨hlock, hrows, hnext, hpending, hd⟩ := checkout_eq_some hr
      cases h
      rw [hpending]
      exact .unlock rfl rfl (by rw [hlock, hd]) hrows hnext
    | upsert | process | done => cases h
  | upserted c n =>
    cases pc with
    | upsert r => exact .of_statement h (by rw [List.append_nil]; exact .upserted r c n)
    | _ => cases h
  | work c =>
    cases pc with
    | upsert | process | sweep =>
      exact .of_statement h (by rw [List.append_nil]; exact .work c rfl)
    | _ => cases h
  | swallow breaks =>
    cases pc with
    | process r n => cases h; exact .quiet rfl rfl rfl (.swallow r n breaks)
    | _ => cases h
  | gathered results =>
    cases pc with
    | process r n =>
      obtain ⟨-, h⟩ := Option.ite_none_right_eq_some.mp h
      cases h
      exact .quiet rfl rfl rfl (.gathered r n results)
    | _ => cases h
  | raise caught breaks e =>
    cases pc with
    | idle | done => cases h
    | enter => cases h; exact .quiet rfl rfl rfl (.raiseEnter caught breaks e)
    | refuse => cases h; exact .quiet rfl rfl rfl (.raiseRefuse caught breaks e)
    | start => cases h; exact .quiet rfl rfl rfl (.raiseStart caught breaks e)
    | upsert | process | sweep | commit =>
      cases h; exact .quiet rfl rfl rfl (.raiseGuarded rfl caught breaks e)
    | recover r e₀ => cases h; exact .quiet rfl rfl rfl (.raiseRecover r e₀ caught breaks e)
    | mark r e₀ =>
      cases h
      exact .quiet (giveBack_lock ..) (giveBack_rows ..) (giveBack_nextId ..)
        (.raiseMark r e₀ caught breaks e)
    | commitMark r e₀ =>
      cases h
      exact .quiet (giveBack_lock ..) (giveBack_rows ..) (giveBack_nextId ..)
        (.raiseCommitMark r e₀ caught breaks e)
    | unlock run outcome => cases h; exact .raiseUnlock rfl rfl rfl rfl rfl
  | close =>
    cases pc with
    | done acquired run outcome =>
      cases h
      exact .quiet (giveBack_lock ..) (giveBack_rows ..) (giveBack_nextId ..)
        (.close acquired run outcome)
    | _ => cases h

/-- A step of the system is a move of one call; the others stay as they are. -/
theorem runStep_cases {s t : RunState ι} {a : ι × Act} (h : runStep s a = some t) :
    CallMove (s.call a.1) s.pool a.2 t.pool (t.call a.1).pc (t.call a.1).session.pending ∧
      ∀ j, j ≠ a.1 → t.call j = s.call j := by
  obtain ⟨⟨p, call⟩, hstep, rfl⟩ := Option.map_eq_some_iff.mp h
  refine ⟨?_, fun j hj => Function.update_of_ne hj ..⟩
  show CallMove (s.call a.1) s.pool a.2 p (Function.update s.call a.1 call a.1).pc
    (Function.update s.call a.1 call a.1).session.pending
  rw [Function.update_self]
  exact Call.step_cases hstep

/-- A call that takes no step stays as it is. -/
theorem exec_call_of_not_mem {s t : RunState ι} {as : List (ι × Act)} {j : ι}
    (he : exec runStep s as = some t) (hj : ∀ a ∈ as, a.1 ≠ j) : t.call j = s.call j := by
  induction as generalizing s with
  | nil => cases he; rfl
  | cons a as ih =>
    obtain ⟨u, hu, he⟩ := Option.bind_eq_some_iff.mp he
    rw [List.forall_mem_cons] at hj
    rw [ih he hj.2]
    exact (runStep_cases hu).2 j hj.1.symm

end Driftgate.Monitor
