import Driftgate.Runtime.Service

/-!
# Replaying drift events

`replay_event_dlq` reads a row of `drift_event_dlq`, hands its event to the publisher, and writes
the outcome into the row. The update has no condition on the status that was read before the await
of the publisher, and whether the gauge goes down is decided by reading the row once more.

The payload of a row is what `record_event_failure` has written, so the event that is rebuilt from
it is the event that failed. Any number of requests run concurrently, on any rows.
-/

namespace Driftgate.Runtime

open Driftgate.ReadCommitted Driftgate.Transition

/-! ### The table -/

inductive EventDlqStatus
  | pending
  | replayed
  deriving DecidableEq, Repr

/-- A row of `drift_event_dlq`, without its time stamps. -/
structure EventDlqRow where
  id : Uuid
  event : DriftEvent
  endpointName : String
  nameSpace : String
  failureReason : String
  publisherName : String
  attemptCount : ℕ
  status : EventDlqStatus
  replayError : Option String

abbrev EventDlq := List EventDlqRow

/-- The two updates of `replay_event_dlq`, `WHERE id = id`. -/
inductive EventDlqWrite
  | setReplayed (id : Uuid)
  | setPending (id : Uuid) (replayError : String)

def EventDlqWrite.apply : EventDlqWrite → EventDlq → EventDlq
  | .setReplayed id, rows =>
    updateWhere (·.id = id) (fun r => { r with status := .replayed, replayError := none }) rows
  | .setPending id replayError, rows =>
    updateWhere (·.id = id) (fun r => { r with
      status := .pending
      attemptCount := r.attemptCount + 1
      replayError := some replayError }) rows

/-- `get_event_row`. -/
def getEventRow (rows : EventDlq) (dlqId : Uuid) : Option EventDlqRow :=
  rows.find? (·.id = dlqId)

/-! ### A request -/

/-- The arguments of `replay_event_dlq`; `documents` says whether there is a document store. -/
structure ReplayCall where
  dlqId : Uuid
  documents : Bool

inductive ReplayEffect
  /-- An event handed to the publisher, which accepts it or raises. -/
  | published (event : DriftEvent) (ok : Bool)
  /-- `DRIFT_EVENT_DLQ_SIZE.dec()`, for a row. -/
  | gaugeDec (dlqId : Uuid)
  /-- `store_replay_artifact`. -/
  | artifactStored (dlqId : Uuid) (replayed : Bool) (replayError : Option String)

/-- How a request ends. -/
inductive ReplayResult
  | notFound
  | alreadyReplayed (row : EventDlqRow)
  | replayed (row : Option EventDlqRow)
  | failed (error : String) (row : Option EventDlqRow)
  /-- an exception of the document store -/
  | raised (error : String)

/-- Where `replay_event_dlq` is. `error` is `replay_error`. -/
inductive ReplayPc
  | read
  | publish (row : EventDlqRow)
  | setReplayed
  | commitReplayed
  | setPending (error : String)
  | commitPending (error : String)
  | readAgain (error : Option String)
  | decrement (updated : EventDlqRow) (error : Option String)
  | storeArtifact (updated : EventDlqRow) (error : Option String)
  | finished (result : ReplayResult)

structure ReplayProc where
  call : ReplayCall
  pc : ReplayPc

/-- What a request is given from outside: the publisher or the document store may raise. -/
inductive ReplayInput
  | go
  | raise (error : String)
  deriving DecidableEq, Repr

/-- The final `return`. -/
def replayResult (updated : Option EventDlqRow) : Option String → ReplayResult
  | none => .replayed updated
  | some error => .failed error updated

namespace ReplayCall

/-- After the gauge: the artifact, if there is a store and a row. -/
def afterGauge (call : ReplayCall) (updated : Option EventDlqRow) (error : Option String) :
    ReplayPc :=
  match updated with
  | some row => if call.documents then .storeArtifact row error
      else .finished (replayResult (some row) error)
  | none => .finished (replayResult none error)

/-- The statements of `replay_event_dlq`. An update takes the lock of its row. -/
def step (call : ReplayCall) (view : View EventDlq Uuid) :
    ReplayPc → ReplayInput → Option (Op EventDlqWrite Uuid ReplayEffect ReplayPc)
  | .read, .go =>
    some (.exec [] [] (match getEventRow view.db call.dlqId with
      | none => .finished .notFound
      | some row => if row.status = .replayed then .finished (.alreadyReplayed row)
          else .publish row))
  | .publish row, .go => some (.emit (.published row.event true) .setReplayed)
  | .publish row, .raise error => some (.emit (.published row.event false) (.setPending error))
  | .setReplayed, .go => some (.exec [call.dlqId] [.setReplayed call.dlqId] .commitReplayed)
  | .commitReplayed, .go => some (.commit (.readAgain none))
  | .setPending error, .go =>
    some (.exec [call.dlqId] [.setPending call.dlqId error] (.commitPending error))
  | .commitPending error, .go => some (.commit (.readAgain (some error)))
  | .readAgain error, .go =>
    some (.exec [] [] (match getEventRow view.db call.dlqId with
      | none => call.afterGauge none error
      | some row => if row.status = .replayed then .decrement row error
          else call.afterGauge (some row) error))
  | .decrement row error, .go => some (.emit (.gaugeDec call.dlqId) (call.afterGauge (some row) error))
  | .storeArtifact row error, .go =>
    some (.emit (.artifactStored call.dlqId (row.status = .replayed) error)
      (.finished (replayResult (some row) error)))
  | .storeArtifact _ _, .raise error => some (.rollback (.finished (.raised error)))
  | _, _ => none

end ReplayCall

/-- Every process is one request. -/
def replayProgram : Program EventDlq EventDlqWrite Uuid ReplayEffect ReplayProc ReplayInput where
  apply := EventDlqWrite.apply
  next p view x := (p.call.step view p.pc x).map (Op.map (fun pc => ⟨p.call, pc⟩) id)

abbrev ReplayWorld (ι : Type*) := State EventDlq EventDlqWrite Uuid ReplayEffect ReplayProc ι

abbrev replayStep {ι : Type*} [DecidableEq ι] :
    ReplayWorld ι → ι × ReplayInput → Option (ReplayWorld ι) := replayProgram.step

/-- No request has begun. -/
structure ReplayWorld.Initial {ι : Type*} (s : ReplayWorld ι) : Prop where
  loc : ∀ i, (s.loc i).pc = .read
  pending : ∀ i, s.pending i = []
  lock : ∀ k, s.lock k = none
  trace : s.trace = []

/-- The status of a row. -/
def statusOf (rows : EventDlq) (id : Uuid) : Option EventDlqStatus :=
  (getEventRow rows id).map EventDlqRow.status

/-- How often the gauge has gone down for a row. -/
def decrements {ι : Type*} (trace : List (ι × ReplayEffect)) (id : Uuid) : ℕ :=
  trace.countP fun e => match e.2 with
    | .gaugeDec id' => id' = id
    | _ => false

/-- Nobody else has replayed the row: a request that has no success of its own to confirm finds it
not REPLAYED, when it updates it and when it reads it again. -/
def ReplaysInTurn {ι : Type*} (s : ReplayWorld ι) (a : ι × ReplayInput) : Prop :=
  match (s.loc a.1).pc with
  | .setReplayed => statusOf s.db (s.loc a.1).call.dlqId ≠ some .replayed
  | .setPending _ => statusOf s.db (s.loc a.1).call.dlqId ≠ some .replayed
  | .readAgain (some _) => statusOf s.db (s.loc a.1).call.dlqId ≠ some .replayed
  | _ => True

instance {ι : Type*} (s : ReplayWorld ι) (a : ι × ReplayInput) : Decidable (ReplaysInTurn s a) := by
  unfold ReplaysInTurn
  split <;> infer_instance

end Driftgate.Runtime
