import Driftgate.Core.Parser
import Driftgate.Runtime.Tables

/-!
# The legacy tables

After its contract part a `/track` request works on three older tables. `register_payload_snapshot`
stores the shape of the payload in a transaction of its own, under an advisory lock on the route.
In the next transaction the handler reads the active baseline of the endpoint: when there is none
and the request has just stored a snapshot, it makes this snapshot the baseline, clearing the flag
of all others first; when there is one with another fingerprint, it logs the differences.

The unique columns of a snapshot are its endpoint and its fingerprint. No statement reads its id,
so a row is named by these two, and so is the lock that a writer of the row holds.
-/

namespace Driftgate.Core

open Driftgate.ReadCommitted Driftgate.Schema Driftgate.Runtime

/-! ### Rows and writes -/

/-- The unique columns of `api_endpoints`. There is no namespace among them. -/
structure LegacyKey where
  serviceName : String
  httpMethod : String
  routePath : String
  deriving DecidableEq, Repr

/-- A row of `api_endpoints`. -/
structure ApiEndpointRow where
  id : Uuid
  key : LegacyKey

/-- A row of `schema_snapshots`. -/
structure SnapshotRow where
  endpointId : Uuid
  fingerprint : String
  normalizedSchema : NormalizedSchema
  isActiveBaseline : Bool
  createdAt : Time

/-- The columns of `UNIQUE(endpoint_id, fingerprint)`. -/
def SnapshotRow.key (r : SnapshotRow) : Uuid × String := (r.endpointId, r.fingerprint)

/-- A row of `contract_drift_violations`. -/
structure ViolationRow where
  id : Uuid
  endpointId : Uuid
  observedFingerprint : String
  severity : Severity
  /-- `path`, `old` and `new` -/
  diffPayload : String × Option String × Option String
  detectedAt : Time

/-- The legacy tables. -/
structure EngineDb where
  apiEndpoints : List ApiEndpointRow := []
  snapshots : List SnapshotRow := []
  violations : List ViolationRow := []

inductive EngineWrite
  | insertEndpoint (row : ApiEndpointRow)
  | insertSnapshot (row : SnapshotRow)
  /-- `SET is_active_baseline = FALSE`, on the rows of the endpoint with these fingerprints. -/
  | clearBaselines (endpointId : Uuid) (fingerprints : List String)
  /-- `SET is_active_baseline = TRUE`. -/
  | setBaseline (endpointId : Uuid) (fingerprint : String)
  | insertViolation (row : ViolationRow)

def EngineWrite.apply (w : EngineWrite) (db : EngineDb) : EngineDb :=
  match w with
  | .insertEndpoint row => { db with apiEndpoints := db.apiEndpoints ++ [row] }
  | .insertSnapshot row => { db with snapshots := db.snapshots ++ [row] }
  | .clearBaselines e fps => { db with
      snapshots := updateWhere (fun r => r.endpointId = e && r.fingerprint ∈ fps)
        (fun r => { r with isActiveBaseline := false }) db.snapshots }
  | .setBaseline e fp => { db with
      snapshots := updateWhere (fun r => r.endpointId = e && r.fingerprint = fp)
        (fun r => { r with isActiveBaseline := true }) db.snapshots }
  | .insertViolation row => { db with violations := db.violations ++ [row] }

/-- What a legacy transaction can hold until it ends. -/
inductive EngineLock
  /-- `pg_advisory_xact_lock(id)`. -/
  | advisory (id : ℕ)
  /-- The unique entry of an endpoint. -/
  | endpointKey (key : LegacyKey)
  /-- A row of `schema_snapshots` and its unique entry. -/
  | snapshot (endpointId : Uuid) (fingerprint : String)
  deriving DecidableEq

abbrev EngineView := View EngineDb EngineLock

/-! ### Queries -/

namespace EngineDb

def endpoint? (db : EngineDb) (key : LegacyKey) : Option ApiEndpointRow :=
  db.apiEndpoints.find? (·.key = key)

/-- The snapshots of an endpoint. -/
def snapshotsOf (db : EngineDb) (e : Uuid) : List SnapshotRow :=
  db.snapshots.filter (·.endpointId = e)

/-- Their fingerprints, the oldest first. -/
def fingerprintsOf (db : EngineDb) (e : Uuid) : List String :=
  (db.snapshotsOf e).map (·.fingerprint)

def hasSnapshot (db : EngineDb) (e : Uuid) (fingerprint : String) : Bool :=
  db.snapshots.any fun r => r.endpointId = e && r.fingerprint = fingerprint

/-- The snapshots of an endpoint with `is_active_baseline = TRUE`. -/
def activeBaselines (db : EngineDb) (e : Uuid) : List SnapshotRow :=
  db.snapshots.filter fun r => r.endpointId = e && r.isActiveBaseline

/-- The later of two snapshots, the one before if they are of the same time. -/
def later (best : Option SnapshotRow) (r : SnapshotRow) : Option SnapshotRow :=
  match best with
  | none => some r
  | some b => if b.createdAt < r.createdAt then some r else some b

/-- `get_active_baseline_snapshot` -/
def activeBaseline (db : EngineDb) (e : Uuid) : Option SnapshotRow :=
  (db.activeBaselines e).foldl later none

end EngineDb

/-! ### The legacy part of a request -/

structure LegacyCall where
  key : LegacyKey
  payload : Payload

/-- What a request reports of its legacy part. The source reports how many violations it has
logged, in all and of each severity; here these are the rows. -/
structure LegacyPart where
  endpointId : Uuid
  inserted : Bool
  logged : List ViolationRow

/-- Where the legacy part is. `waitClear` is inside the `UPDATE` that clears the flags: it has
selected its rows and waits for those that another transaction has written. -/
inductive LegacyPc
  | lock
  | selectEndpoint
  | insertEndpoint
  | selectSnapshot (e : Uuid)
  | insertSnapshot (e : Uuid)
  | commitSnapshot (e : Uuid) (inserted : Bool)
  | readBaseline (e : Uuid) (inserted : Bool)
  | clearBaselines (e : Uuid)
  | waitClear (e : Uuid) (fingerprints : List String)
  | setBaseline (e : Uuid)
  | commitBaseline (e : Uuid)
  | logViolation (e : Uuid) (inserted : Bool) (v : DriftViolation) (rest : List DriftViolation)
      (logged : List ViolationRow)
  | commitViolations (e : Uuid) (inserted : Bool) (logged : List ViolationRow)

namespace LegacyCall

def fingerprint (cfg : Config) (call : LegacyCall) : String := cfg.fingerprintSchema call.payload

/-- `normalize_types(submission.payload)` -/
def normalized (call : LegacyCall) : NormalizedSchema := normalizeTypes call.payload.json

/-- The row `register_snapshot` inserts. -/
def newSnapshot (cfg : Config) (call : LegacyCall) (e : Uuid) (now : Time) : SnapshotRow where
  endpointId := e
  fingerprint := call.fingerprint cfg
  normalizedSchema := call.normalized
  isActiveBaseline := false
  createdAt := now

/-- The violations of the payload against a baseline. -/
def violations (cfg : Config) (call : LegacyCall) (e : Uuid) (baseline : SnapshotRow) :
    List DriftViolation :=
  logDriftViolations (uuidText e) (call.fingerprint cfg)
    (classifyContractDrift (structuralDiff baseline.normalizedSchema call.normalized))

/-- The row inserted for a violation; `CAST(:endpoint_id AS uuid)` reads the text of `e` back. -/
def newViolation (id e : Uuid) (now : Time) (v : DriftViolation) : ViolationRow where
  id := id
  endpointId := e
  observedFingerprint := v.observedFingerprint
  severity := v.severity
  diffPayload := v.diffPayload
  detectedAt := now

/-- The head of the loop of `log_drift_violations`. -/
def nextViolation (e : Uuid) (inserted : Bool) (logged : List ViolationRow) :
    List DriftViolation → LegacyPc
  | [] => .commitViolations e inserted logged
  | v :: rest => .logViolation e inserted v rest logged

/-- After the baseline is read. -/
def afterBaseline (cfg : Config) (call : LegacyCall) (e : Uuid) (inserted : Bool) :
    Option SnapshotRow → Flow LegacyPc LegacyPart
  | none => if inserted then .go (.clearBaselines e) else .done ⟨e, inserted, []⟩
  | some baseline =>
    if baseline.fingerprint = call.fingerprint cfg then .done ⟨e, inserted, []⟩
    else .go (nextViolation e inserted [] (call.violations cfg e baseline))

/-- The clearing `UPDATE`, once none of its rows is written by another transaction. -/
def clear (e : Uuid) (fingerprints : List String) :
    Op EngineWrite EngineLock Empty (Flow LegacyPc LegacyPart) :=
  .exec (fingerprints.map (.snapshot e)) [.clearBaselines e fingerprints] (.go (.setBaseline e))

/-- The legacy part of a request, from one `await` to the next. -/
def step (cfg : Config) (call : LegacyCall) (pc : LegacyPc) (v : EngineView) (x : Input) :
    Option (Op EngineWrite EngineLock Empty (Flow LegacyPc LegacyPart)) :=
  match pc, x with
  | .lock, .proceed _ =>
    some (.exec [.advisory (cfg.routeLockId call.key.routePath)] [] (.go .selectEndpoint))
  | .selectEndpoint, .proceed _ =>
    match v.db.endpoint? call.key with
    | some row => some (.exec [] [] (.go (.selectSnapshot row.id)))
    | none => some (.exec [] [] (.go .insertEndpoint))
  | .insertEndpoint, .proceed _ =>
    if (v.db.endpoint? call.key).isSome then some (.exec [] [] (.raised .uniqueViolation))
    else some (.exec [.endpointKey call.key] [.insertEndpoint ⟨v.fresh, call.key⟩]
      (.go (.selectSnapshot v.fresh)))
  | .selectSnapshot e, .proceed _ =>
    if v.db.hasSnapshot e (call.fingerprint cfg) then some (.exec [] [] (.go (.commitSnapshot e false)))
    else some (.exec [] [] (.go (.insertSnapshot e)))
  | .insertSnapshot e, .proceed now =>
    if v.db.hasSnapshot e (call.fingerprint cfg) then some (.exec [] [] (.raised .uniqueViolation))
    else some (.exec [.snapshot e (call.fingerprint cfg)]
      [.insertSnapshot (call.newSnapshot cfg e now)] (.go (.commitSnapshot e true)))
  | .commitSnapshot e inserted, .proceed _ => some (.commit (.go (.readBaseline e inserted)))
  | .readBaseline e inserted, .proceed _ =>
    some (.exec [] [] (call.afterBaseline cfg e inserted (v.db.activeBaseline e)))
  | .clearBaselines e, .proceed _ =>
    let fingerprints := v.db.fingerprintsOf e
    if fingerprints.any fun fp => v.busy (.snapshot e fp) then
      some (.exec [] [] (.go (.waitClear e fingerprints)))
    else some (clear e fingerprints)
  | .waitClear e fingerprints, .proceed _ => some (clear e fingerprints)
  | .setBaseline e, .proceed _ =>
    some (.exec [.snapshot e (call.fingerprint cfg)] [.setBaseline e (call.fingerprint cfg)]
      (.go (.commitBaseline e)))
  | .commitBaseline e, .proceed _ => some (.commit (.done ⟨e, true, []⟩))
  | .logViolation e inserted d rest logged, .proceed now =>
    let row := newViolation v.fresh e now d
    some (.exec [] [.insertViolation row] (.go (nextViolation e inserted (logged ++ [row]) rest)))
  | .commitViolations e inserted logged, .proceed _ =>
    some (.commit (.done ⟨e, inserted, logged⟩))
  | _, .raise reason => some (.exec [] [] (.raised (.failed reason)))
  | _, _ => none

/-! ### What a step does -/

/-- What a step from a point of the legacy part can do, on an input. -/
inductive Move (cfg : Config) (call : LegacyCall) (v : EngineView) :
    LegacyPc → Input → Op EngineWrite EngineLock Empty (Flow LegacyPc LegacyPart) → Prop
  | raises (pc : LegacyPc) (reason : String) :
    Move cfg call v pc (.raise reason) (.exec [] [] (.raised (.failed reason)))
  | lock {now : Time} : Move cfg call v .lock (.proceed now)
      (.exec [.advisory (cfg.routeLockId call.key.routePath)] [] (.go .selectEndpoint))
  | endpointFound {now : Time} {row : ApiEndpointRow} (h : v.db.endpoint? call.key = some row) :
    Move cfg call v .selectEndpoint (.proceed now) (.exec [] [] (.go (.selectSnapshot row.id)))
  | endpointMissing {now : Time} (h : v.db.endpoint? call.key = none) :
    Move cfg call v .selectEndpoint (.proceed now) (.exec [] [] (.go .insertEndpoint))
  | endpointTaken {now : Time} (h : (v.db.endpoint? call.key).isSome) :
    Move cfg call v .insertEndpoint (.proceed now) (.exec [] [] (.raised .uniqueViolation))
  | endpointInserted {now : Time} (h : v.db.endpoint? call.key = none) :
    Move cfg call v .insertEndpoint (.proceed now) (.exec [.endpointKey call.key]
      [.insertEndpoint ⟨v.fresh, call.key⟩] (.go (.selectSnapshot v.fresh)))
  | snapshotFound {now : Time} {e : Uuid} (h : v.db.hasSnapshot e (call.fingerprint cfg) = true) :
    Move cfg call v (.selectSnapshot e) (.proceed now) (.exec [] [] (.go (.commitSnapshot e false)))
  | snapshotMissing {now : Time} {e : Uuid} (h : v.db.hasSnapshot e (call.fingerprint cfg) = false) :
    Move cfg call v (.selectSnapshot e) (.proceed now) (.exec [] [] (.go (.insertSnapshot e)))
  | snapshotTaken {now : Time} {e : Uuid} (h : v.db.hasSnapshot e (call.fingerprint cfg) = true) :
    Move cfg call v (.insertSnapshot e) (.proceed now) (.exec [] [] (.raised .uniqueViolation))
  | snapshotInserted {now : Time} {e : Uuid}
      (h : v.db.hasSnapshot e (call.fingerprint cfg) = false) :
    Move cfg call v (.insertSnapshot e) (.proceed now) (.exec [.snapshot e (call.fingerprint cfg)]
      [.insertSnapshot (call.newSnapshot cfg e now)] (.go (.commitSnapshot e true)))
  | commitSnapshot {now : Time} (e : Uuid) (inserted : Bool) :
    Move cfg call v (.commitSnapshot e inserted) (.proceed now)
      (.commit (.go (.readBaseline e inserted)))
  | readBaseline {now : Time} (e : Uuid) (inserted : Bool) :
    Move cfg call v (.readBaseline e inserted) (.proceed now)
      (.exec [] [] (call.afterBaseline cfg e inserted (v.db.activeBaseline e)))
  | waits {now : Time} (e : Uuid) :
    Move cfg call v (.clearBaselines e) (.proceed now)
      (.exec [] [] (.go (.waitClear e (v.db.fingerprintsOf e))))
  | clears {now : Time} (e : Uuid) :
    Move cfg call v (.clearBaselines e) (.proceed now) (clear e (v.db.fingerprintsOf e))
  | clearsLate {now : Time} (e : Uuid) (fps : List String) :
    Move cfg call v (.waitClear e fps) (.proceed now) (clear e fps)
  | setBaseline {now : Time} (e : Uuid) :
    Move cfg call v (.setBaseline e) (.proceed now) (.exec [.snapshot e (call.fingerprint cfg)]
      [.setBaseline e (call.fingerprint cfg)] (.go (.commitBaseline e)))
  | commitBaseline {now : Time} (e : Uuid) :
    Move cfg call v (.commitBaseline e) (.proceed now) (.commit (.done ⟨e, true, []⟩))
  | logViolation {now : Time} (e : Uuid) (inserted : Bool) (d : DriftViolation)
      (rest : List DriftViolation) (logged : List ViolationRow) :
    Move cfg call v (.logViolation e inserted d rest logged) (.proceed now)
      (.exec [] [.insertViolation (newViolation v.fresh e now d)]
        (.go (nextViolation e inserted (logged ++ [newViolation v.fresh e now d]) rest)))
  | commitViolations {now : Time} (e : Uuid) (inserted : Bool) (logged : List ViolationRow) :
    Move cfg call v (.commitViolations e inserted logged) (.proceed now)
      (.commit (.done ⟨e, inserted, logged⟩))

/-- **Step inversion.** -/
theorem step_move {cfg : Config} {call : LegacyCall} {pc : LegacyPc} {v : EngineView} {x : Input}
    {op : Op EngineWrite EngineLock Empty (Flow LegacyPc LegacyPart)}
    (h : call.step cfg pc v x = some op) : Move cfg call v pc x op := by
  cases x with
  | proceed now =>
    cases pc with
    | selectEndpoint =>
      simp only [step] at h
      split at h
      next row hrow => exact Option.some.inj h ▸ .endpointFound hrow
      next hnone => exact Option.some.inj h ▸ .endpointMissing hnone
    | insertEndpoint =>
      simp only [step] at h
      split at h
      next hsome => exact Option.some.inj h ▸ .endpointTaken hsome
      next hnone => exact Option.some.inj h ▸ .endpointInserted (by simpa using hnone)
    | selectSnapshot e =>
      simp only [step] at h
      split at h
      next hfound => exact Option.some.inj h ▸ .snapshotFound hfound
      next hmissing => exact Option.some.inj h ▸ .snapshotMissing (by simpa using hmissing)
    | insertSnapshot e =>
      simp only [step] at h
      split at h
      next hfound => exact Option.some.inj h ▸ .snapshotTaken hfound
      next hmissing => exact Option.some.inj h ▸ .snapshotInserted (by simpa using hmissing)
    | clearBaselines e =>
      simp only [step] at h
      split at h
      next => exact Option.some.inj h ▸ .waits e
      next => exact Option.some.inj h ▸ .clears e
    | lock => exact Option.some.inj h ▸ .lock
    | commitSnapshot e inserted => exact Option.some.inj h ▸ .commitSnapshot e inserted
    | readBaseline e inserted => exact Option.some.inj h ▸ .readBaseline e inserted
    | waitClear e fps => exact Option.some.inj h ▸ .clearsLate e fps
    | setBaseline e => exact Option.some.inj h ▸ .setBaseline e
    | commitBaseline e => exact Option.some.inj h ▸ .commitBaseline e
    | logViolation e inserted d rest logged =>
      exact Option.some.inj h ▸ .logViolation e inserted d rest logged
    | commitViolations e inserted logged =>
      exact Option.some.inj h ▸ .commitViolations e inserted logged
  | raise reason => cases pc <;> exact Option.some.inj h ▸ .raises _ reason
  | _ => cases pc <;> cases h

end LegacyCall

end Driftgate.Core
