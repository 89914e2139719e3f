import Driftgate.Core.Snapshots

/-!
# `register_payload_snapshot`

The call finds or makes the endpoint of a route and the snapshot of a payload, each by a `SELECT`
and an `INSERT` when nothing was found. What keeps two calls from inserting the same row is the
advisory lock that each of them holds from its first statement to the end of its transaction. The
lock is derived from the route alone, so calls with one endpoint have one lock.

`step_registration` says that the legacy part of a `/track` request begins with this call. In the
system of this module such calls run side by side, and nothing else does: a call may be stopped
anywhere, and a statement or a commit may raise. `registered_once` is what comes of it.
-/

namespace Driftgate.Core

open Driftgate.ReadCommitted Driftgate.Transition Driftgate.Runtime

/-! ### The call -/

/-- The arguments of `register_payload_snapshot`. -/
structure Registration where
  key : LegacyKey
  fingerprint : String
  normalizedSchema : NormalizedSchema

/-- Where `register_payload_snapshot` is. `ensure_endpoint` is the two points after the lock,
`register_snapshot` the two after these. -/
inductive RegistrationPc
  | lock
  | selectEndpoint
  | insertEndpoint
  | selectSnapshot (e : Uuid)
  | insertSnapshot (e : Uuid)
  | commit (e : Uuid) (inserted : Bool)
  deriving DecidableEq, Repr

/-- An operation of the call, with what follows it. -/
abbrev RegistrationOp := Op EngineWrite EngineLock Empty (Flow RegistrationPc (Uuid × Bool))

namespace Registration

/-- The row `register_snapshot` inserts. -/
def newSnapshot (call : Registration) (e : Uuid) (now : Time) : SnapshotRow where
  endpointId := e
  fingerprint := call.fingerprint
  normalizedSchema := call.normalizedSchema
  isActiveBaseline := false
  createdAt := now

/-- `register_payload_snapshot`, from one `await` to the next. -/
def step (cfg : Config) (call : Registration) (pc : RegistrationPc) (v : EngineView) (x : Input) :
    Option RegistrationOp :=
  match pc, x with
  | .lock, .proceed _ =>
    some (.exec [.advisory (cfg.routeLockId call.key.routePath)] [] (.go .selectEndpoint))
  | .selectEndpoint, .proceed _ =>
    match v.db.endpoint? call.key with
    | some row => some (.exec [] [] (.go (.selectSnapshot row.id)))
    | none => some (.exec [] [] (.go .insertEndpoint))
  | .insertEndpoint, .proceed _ =>
    if (v.db.endpoint? call.key).isSome then some (.exec [] [] (.raised .uniqueViolation))
    else some (.exec [.endpointKey call.key] [.insertEndpoint ⟨v.fresh, call.key⟩]
      (.go (.selectSnapshot v.fresh)))
  | .selectSnapshot e, .proceed _ =>
    if v.db.hasSnapshot e call.fingerprint then some (.exec [] [] (.go (.commit e false)))
    else some (.exec [] [] (.go (.insertSnapshot e)))
  | .insertSnapshot e, .proceed now =>
    if v.db.hasSnapshot e call.fingerprint then some (.exec [] [] (.raised .uniqueViolation))
    else some (.exec [.snapshot e call.fingerprint] [.insertSnapshot (call.newSnapshot e now)]
      (.go (.commit e true)))
  | .commit e inserted, .proceed _ => some (.commit (.done (e, inserted)))
  | _, .raise reason => some (.exec [] [] (.raised (.failed reason)))
  | _, _ => none

end Registration

/-! ### The legacy part of a request begins with it -/

/-- The point of the legacy part. -/
def RegistrationPc.legacy : RegistrationPc → LegacyPc
  | .lock => .lock
  | .selectEndpoint => .selectEndpoint
  | .insertEndpoint => .insertEndpoint
  | .selectSnapshot e => .selectSnapshot e
  | .insertSnapshot e => .insertSnapshot e
  | .commit e inserted => .commitSnapshot e inserted

/-- What follows the call in the handler. -/
def RegistrationPc.leave : Flow RegistrationPc (Uuid × Bool) → Flow LegacyPc LegacyPart :=
  Flow.bind legacy fun r => .go (.readBaseline r.1 r.2)

/-- The call that a `/track` request makes. -/
def LegacyCall.registration (cfg : Config) (call : LegacyCall) : Registration where
  key := call.key
  fingerprint := call.fingerprint cfg
  normalizedSchema := call.normalized

/-- **The handler's call.** Up to the reading of the baseline the legacy part of a request is
`register_payload_snapshot`. -/
theorem LegacyCall.step_registration (cfg : Config) (call : LegacyCall) (pc : RegistrationPc)
    (v : EngineView) (x : Input) :
    call.step cfg pc.legacy v x =
      ((call.registration cfg).step cfg pc v x).map (Op.map RegistrationPc.leave id) := by
  cases x with
  | proceed now =>
    cases pc with
    | selectEndpoint =>
      show LegacyCall.step cfg call .selectEndpoint v (.proceed now) = _
      cases hrow : v.db.endpoint? call.key <;>
        simp only [LegacyCall.step, Registration.step, LegacyCall.registration, hrow] <;> rfl
    | insertEndpoint =>
      show LegacyCall.step cfg call .insertEndpoint v (.proceed now) = _
      cases hfound : (v.db.endpoint? call.key).isSome <;>
        simp only [LegacyCall.step, Registration.step, LegacyCall.registration, hfound] <;> rfl
    | selectSnapshot e =>
      show LegacyCall.step cfg call (.selectSnapshot e) v (.proceed now) = _
      cases hfound : v.db.hasSnapshot e (call.fingerprint cfg) <;>
        simp only [LegacyCall.step, Registration.step, LegacyCall.registration, hfound] <;> rfl
    | insertSnapshot e =>
      show LegacyCall.step cfg call (.insertSnapshot e) v (.proceed now) = _
      cases hfound : v.db.hasSnapshot e (call.fingerprint cfg) <;>
        simp only [LegacyCall.step, Registration.step, LegacyCall.registration, hfound] <;> rfl
    | _ => rfl
  | _ => cases pc <;> rfl

/-! ### Calls side by side -/

/-- What has become of a call: it is inside the transaction, leaves it by an exception, has returned
or raised, or was stopped. -/
inductive RegistrationPlace
  | running (pc : RegistrationPc)
  | closing (e : Exc)
  | returned (e : Uuid) (inserted : Bool)
  | failed (e : Exc)
  | stopped
  deriving DecidableEq, Repr

structure RegistrationProc where
  call : Registration
  place : RegistrationPlace

namespace RegistrationProc

/-- After a step of the call. An exception leaves `db.begin()`, which rolls back. -/
def after (p : RegistrationProc) : Flow RegistrationPc (Uuid × Bool) → RegistrationProc
  | .go pc => { p with place := .running pc }
  | .done r => { p with place := .returned r.1 r.2 }
  | .raised e => { p with place := .closing e }

def next (cfg : Config) (p : RegistrationProc) (v : EngineView) (x : Input) :
    Option (Op EngineWrite EngineLock Empty RegistrationProc) :=
  match p.place, x with
  | .running _, .cancel => some (.rollback { p with place := .stopped })
  | .running _, .stop => some (.rollback { p with place := .stopped })
  | .running pc, x => (p.call.step cfg pc v x).map (Op.map p.after id)
  | .closing _, .cancel => some (.rollback { p with place := .stopped })
  | .closing _, .stop => some (.rollback { p with place := .stopped })
  | .closing e, .proceed _ => some (.rollback { p with place := .failed e })
  | _, _ => none

end RegistrationProc

/-- Calls of `register_payload_snapshot` on one database. -/
def registrations (cfg : Config) :
    Program EngineDb EngineWrite EngineLock Empty RegistrationProc Input where
  apply := EngineWrite.apply
  next := RegistrationProc.next cfg

abbrev Registrations (ι : Type*) :=
  State EngineDb EngineWrite EngineLock Empty RegistrationProc ι

/-- Any calls, all of them before their first statement. -/
structure RegistrationInitial {ι : Type*} (db : EngineDb) (fresh : Uuid) (s : Registrations ι) :
    Prop where
  db : s.db = db
  fresh : s.fresh = fresh
  place : ∀ i, (s.loc i).place = .running .lock
  pending : ∀ i, s.pending i = []

/-- What the constraints of the two tables promise, and that new identifiers are new. -/
structure EngineDb.Constrained (db : EngineDb) (fresh : Uuid) : Prop where
  key : (db.apiEndpoints.map (·.key)).Nodup
  id : (db.apiEndpoints.map (·.id)).Nodup
  fresh : ∀ row ∈ db.apiEndpoints, row.id < fresh
  snapshot : (db.snapshots.map SnapshotRow.key).Nodup

/-! ### What a step does -/

namespace Registration

/-- What a step from a point of the call can do, on an input. -/
inductive Move (cfg : Config) (call : Registration) (v : EngineView) :
    RegistrationPc → RegistrationOp → Prop
  | raises (pc : RegistrationPc) (reason : String) :
    Move cfg call v pc (.exec [] [] (.raised (.failed reason)))
  | locks : Move cfg call v .lock
      (.exec [.advisory (cfg.routeLockId call.key.routePath)] [] (.go .selectEndpoint))
  | endpointFound {row : ApiEndpointRow} (h : v.db.endpoint? call.key = some row) :
    Move cfg call v .selectEndpoint (.exec [] [] (.go (.selectSnapshot row.id)))
  | endpointMissing (h : v.db.endpoint? call.key = none) :
    Move cfg call v .selectEndpoint (.exec [] [] (.go .insertEndpoint))
  | endpointTaken (h : (v.db.endpoint? call.key).isSome) :
    Move cfg call v .insertEndpoint (.exec [] [] (.raised .uniqueViolation))
  | endpointInserted : Move cfg call v .insertEndpoint (.exec [.endpointKey call.key]
      [.insertEndpoint ⟨v.fresh, call.key⟩] (.go (.selectSnapshot v.fresh)))
  | snapshotFound {e : Uuid} (h : v.db.hasSnapshot e call.fingerprint = true) :
    Move cfg call v (.selectSnapshot e) (.exec [] [] (.go (.commit e false)))
  | snapshotMissing {e : Uuid} (h : v.db.hasSnapshot e call.fingerprint = false) :
    Move cfg call v (.selectSnapshot e) (.exec [] [] (.go (.insertSnapshot e)))
  | snapshotTaken {e : Uuid} (h : v.db.hasSnapshot e call.fingerprint = true) :
    Move cfg call v (.insertSnapshot e) (.exec [] [] (.raised .uniqueViolation))
  | snapshotInserted {e : Uuid} (now : Time) :
    Move cfg call v (.insertSnapshot e) (.exec [.snapshot e call.fingerprint]
      [.insertSnapshot (call.newSnapshot e now)] (.go (.commit e true)))
  | commits (e : Uuid) (inserted : Bool) :
    Move cfg call v (.commit e inserted) (.commit (.done (e, inserted)))

/-- **Step inversion.** -/
theorem step_move {cfg : Config} {call : Registration} {pc : RegistrationPc} {v : EngineView}
    {x : Input} {op : RegistrationOp} (h : call.step cfg pc v x = some op) :
    call.Move cfg v pc op := by
  cases x with
  | proceed now =>
    cases pc with
    | lock => exact Option.some.inj h ▸ .locks
    | selectEndpoint =>
      simp only [step] at h
      split at h
      next row hrow => exact Option.some.inj h ▸ .endpointFound hrow
      next hnone => exact Option.some.inj h ▸ .endpointMissing hnone
    | insertEndpoint =>
      simp only [step] at h
      split at h
      next hsome => exact Option.some.inj h ▸ .endpointTaken hsome
      next hnone => exact Option.some.inj h ▸ .endpointInserted
    | selectSnapshot e =>
      simp only [step] at h
      split at h
      next hfound => exact Option.some.inj h ▸ .snapshotFound hfound
      next hmissing => exact Option.some.inj h ▸ .snapshotMissing (by simpa using hmissing)
    | insertSnapshot e =>
      simp only [step] at h
      split at h
      next hfound => exact Option.some.inj h ▸ .snapshotTaken hfound
      next hmissing => exact Option.some.inj h ▸ .snapshotInserted now
    | commit e inserted => exact Option.some.inj h ▸ .commits e inserted
  | raise reason => cases pc <;> exact Option.some.inj h ▸ .raises _ reason
  | _ => cases pc <;> cases h

end Registration

/-- The steps of a call and of what surrounds it. -/
inductive RegistrationProc.Move (cfg : Config) (p : RegistrationProc) (v : EngineView) :
    Op EngineWrite EngineLock Empty RegistrationProc → Prop
  | code {pc : RegistrationPc} {op : RegistrationOp} (hplace : p.place = .running pc)
      (h : p.call.Move cfg v pc op) : Move cfg p v (op.map p.after id)
  | stops (hopen : ∀ e inserted, p.place ≠ .returned e inserted) :
    Move cfg p v (.rollback { p with place := .stopped })
  | fails {e : Exc} (hplace : p.place = .closing e) :
    Move cfg p v (.rollback { p with place := .failed e })

theorem RegistrationProc.next_move {cfg : Config} {p : RegistrationProc} {v : EngineView}
    {x : Input} {op : Op EngineWrite EngineLock Empty RegistrationProc}
    (h : p.next cfg v x = some op) : p.Move cfg v op := by
  unfold next at h
  split at h
  next hplace => exact Option.some.inj h ▸ .stops (by simp [hplace])
  next hplace => exact Option.some.inj h ▸ .stops (by simp [hplace])
  next pc x hplace _ _ =>
    obtain ⟨op', hop', rfl⟩ := Option.map_eq_some_iff.mp h
    exact .code hplace (Registration.step_move hop')
  next hplace => exact Option.some.inj h ▸ .stops (by simp [hplace])
  next hplace => exact Option.some.inj h ▸ .stops (by simp [hplace])
  next e now hplace => exact Option.some.inj h ▸ .fails hplace
  next => cases h

/-- A call returns by its commit. -/
theorem RegistrationProc.Move.commit_or_not {cfg : Config} {p : RegistrationProc} {v : EngineView}
    {op : Op EngineWrite EngineLock Empty RegistrationProc} (h : p.Move cfg v op) :
    (∃ e inserted, p.place = .running (.commit e inserted) ∧
      op = .commit { p with place := .returned e inserted }) ∨
    ((∀ l, op ≠ .commit l) ∧ (∀ e inserted, p.place ≠ .returned e inserted) ∧
      ∀ e inserted, op.next.place ≠ .returned e inserted) := by
  cases h with
  | code hplace hcode =>
    cases hcode with
    | commits e inserted => exact .inl ⟨e, inserted, hplace, rfl⟩
    | _ => exact .inr ⟨nofun, by simp [hplace], nofun⟩
  | stops hopen => exact .inr ⟨nofun, hopen, nofun⟩
  | fails hplace => exact .inr ⟨nofun, by simp [hplace], nofun⟩

end Driftgate.Core
