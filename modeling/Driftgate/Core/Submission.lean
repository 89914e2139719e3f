import Driftgate.Lib.SideBySide
import Driftgate.Core.Snapshots
import Driftgate.Runtime.System

/-!
# Whole submissions

The handler of `/track` runs `track_contract`, commits, and goes on with the legacy part on the
same session, unless the namespace marks the request as benchmark traffic. The database is the pair
of the contract tables and the legacy tables; the parties of `Driftgate.Runtime.System` work on the
first half, and a request that has returned there continues on the second.

The event of a request is published by a task of its own, which may outlive both parts.
-/

namespace Driftgate.Core

open Driftgate.ReadCommitted Driftgate.Transition Driftgate.Runtime

/-- How far the legacy part of a request has got. -/
inductive LegacyStatus
  | running
  /-- An exception is on its way out; the session is about to be closed. -/
  | closing (e : Exc)
  | returned (part : LegacyPart)
  | failed (e : Exc)
  | stopped

/-- A request in its legacy part. `result` is what `track_contract` has returned. -/
structure LegacyProc where
  call : LegacyCall
  result : TrackResult
  pc : LegacyPc
  status : LegacyStatus
  task : Option PublishTask

/-- The answer to a request outside benchmark mode. -/
structure TrackResponse where
  result : TrackResult
  legacyEndpointId : Uuid
  structural : String
  severities : Severity → ℕ

namespace LegacyProc

/-- The legacy part of a request whose contract part is `p` and has returned `result`. -/
def start (p : TrackProc) (result : TrackResult) : LegacyProc where
  call := ⟨⟨p.call.key.serviceName, p.call.key.httpMethod, p.call.key.routePath⟩, p.call.payload⟩
  result := result
  pc := .lock
  status := .running
  task := p.task

def after (p : LegacyProc) : Flow LegacyPc LegacyPart → LegacyProc
  | .go pc => { p with pc := pc }
  | .done part => { p with status := .returned part }
  | .raised e => { p with status := .closing e }

def halt (p : LegacyProc) : LegacyProc :=
  { p with
    status := match p.status with
      | .running => .stopped
      | .closing _ => .stopped
      | status => status
    task := none }

def running (p : LegacyProc) : Bool :=
  match p.status with
  | .running => true
  | _ => false

def handle (cfg : Config) (p : LegacyProc) (v : EngineView) (x : Input) :
    Option (Op EngineWrite EngineLock Effect LegacyProc) :=
  match p.status, x with
  | .running, x => (p.call.step cfg p.pc v x).map (Op.map p.after Empty.elim)
  | .closing e, .proceed _ => some (.rollback { p with status := .failed e })
  | _, _ => none

def next (cfg : Config) (p : LegacyProc) (v : EngineView) (x : Input) :
    Option (Op EngineWrite EngineLock Effect LegacyProc) :=
  match x with
  | .stop => some (.rollback p.halt)
  | .publish ok => p.task.map fun t => .emit (.published t.event ok) { p with task := t.called ok }
  | x => p.handle cfg v x

/-- The answer when the legacy part has returned `part`. -/
def response (p : LegacyProc) (part : LegacyPart) : TrackResponse where
  result := { p.result with
    diffCount := max p.result.diffCount part.logged.length
    inserted := p.result.inserted || part.inserted }
  legacyEndpointId := part.endpointId
  structural := structuralString p.call.payload
  severities := fun s => (part.logged.filter (·.severity = s)).length

/-- What a request does next in its legacy part. -/
theorem next_cases {cfg : Config} {p : LegacyProc} {v : EngineView} {x : Input}
    {op : Op EngineWrite EngineLock Effect LegacyProc} (h : p.next cfg v x = some op) :
    (x = .stop ∧ op = .rollback p.halt) ∨
    (∃ ok t, x = .publish ok ∧ p.task = some t ∧
      op = .emit (.published t.event ok) { p with task := t.called ok }) ∨
    (∃ op', p.status = .running ∧ p.call.step cfg p.pc v x = some op' ∧
      op = op'.map p.after Empty.elim) ∨
    (∃ e, p.status = .closing e ∧ op = .rollback { p with status := .failed e }) := by
  have hhandle : p.handle cfg v x = some op →
      (∃ op', p.status = .running ∧ p.call.step cfg p.pc v x = some op' ∧
        op = op'.map p.after Empty.elim) ∨
      (∃ e, p.status = .closing e ∧ op = .rollback { p with status := .failed e }) := by
    intro h
    cases hst : p.status with
    | running =>
      simp only [handle, hst] at h
      obtain ⟨op', hop', hmap⟩ := Option.map_eq_some_iff.mp h
      exact .inl ⟨op', rfl, hop', hmap.symm⟩
    | closing e =>
      cases x <;> simp only [handle, hst, reduceCtorEq, Option.some.injEq] at h
      exact .inr ⟨e, rfl, h.symm⟩
    | _ => cases x <;> simp [handle, hst] at h
  cases x with
  | stop => exact .inl ⟨rfl, (Option.some.inj h).symm⟩
  | publish ok =>
    obtain ⟨t, ht, hop⟩ := Option.map_eq_some_iff.mp h
    exact .inr (.inl ⟨ok, t, rfl, ht, hop.symm⟩)
  | _ => exact .inr (.inr (hhandle h))

end LegacyProc

/-! ### Sessions -/

/-- `namespace.lower().startswith("k6")`. Three characters have the lower-case form `k`: the
Kelvin sign is one. -/
def benchmarkMode (nameSpace : String) : Bool :=
  match nameSpace.toList with
  | c :: '6' :: _ => c = 'k' || c = 'K' || c = Char.ofNat 0x212a
  | _ => false

/-- A coroutine with a session of its own: a party on the contract tables, or a request in its
legacy part. -/
inductive Session
  | runtime (p : Party)
  | legacy (p : LegacyProc)

namespace Session

/-- Where a party on the contract tables is after a step. -/
def resume : Party → Session
  | .track p =>
    match p.status with
    | .returned r =>
      if benchmarkMode p.call.key.nameSpace then .runtime (.track p) else .legacy (.start p r)
    | _ => .runtime (.track p)
  | p => .runtime p

def next (cfg : Config) : Session → View (Db × EngineDb) (LockKey ⊕ EngineLock) → Input →
    Option (Op (Write ⊕ EngineWrite) (LockKey ⊕ EngineLock) Effect Session)
  | .runtime p, v, x => (p.next cfg v.left x).map fun op => (op.map resume id).inLeft
  | .legacy p, v, x => (p.next cfg v.right x).map fun op => (op.map .legacy id).inRight

/-- The answer to a request outside benchmark mode that has returned. -/
def response? : Session → Option TrackResponse
  | .legacy p =>
    match p.status with
    | .returned part => some (p.response part)
    | _ => none
  | _ => none

/-- A step of a session is a step of its party or of its legacy part. -/
theorem next_cases {cfg : Config} {l : Session} {v : View (Db × EngineDb) (LockKey ⊕ EngineLock)}
    {x : Input} {op : Op (Write ⊕ EngineWrite) (LockKey ⊕ EngineLock) Effect Session}
    (h : l.next cfg v x = some op) :
    (∃ p op', l = .runtime p ∧ p.next cfg v.left x = some op' ∧
      op = (op'.map resume id).inLeft) ∨
    (∃ p op', l = .legacy p ∧ p.next cfg v.right x = some op' ∧
      op = (op'.map .legacy id).inRight) := by
  cases l with
  | runtime p =>
    obtain ⟨op', hop', hmap⟩ := Option.map_eq_some_iff.mp h
    exact .inl ⟨p, op', rfl, hop', hmap.symm⟩
  | legacy p =>
    obtain ⟨op', hop', hmap⟩ := Option.map_eq_some_iff.mp h
    exact .inr ⟨p, op', rfl, hop', hmap.symm⟩

/-- What follows a step on the contract tables is again on them, or a legacy part that has just
started. -/
theorem resume_cases (p : Party) :
    resume p = .runtime p ∨
      ∃ q r, p = .track q ∧ q.status = .returned r ∧ resume p = .legacy (.start q r) := by
  cases p with
  | track q =>
    cases hst : q.status with
    | returned r =>
      by_cases hb : benchmarkMode q.call.key.nameSpace = true
      · left
        simp only [resume, hst, if_pos hb]
      · right
        exact ⟨q, r, rfl, hst, by simp only [resume, hst, if_neg hb]⟩
    | _ =>
      left
      simp only [resume, hst]
  | _ => exact .inl rfl

end Session

/-! ### The service -/

/-- The program of all sessions. -/
def service (cfg : Config) :
    Program (Db × EngineDb) (Write ⊕ EngineWrite) (LockKey ⊕ EngineLock) Effect Session Input where
  apply := applyBoth Write.apply EngineWrite.apply
  next := Session.next cfg

/-- The legacy tables as a store of their own. -/
def engine : Program EngineDb EngineWrite EngineLock Effect Session Input where
  apply := EngineWrite.apply
  next := fun _ _ _ => none

/-- Both databases, the effects so far, and every session with its open transaction. -/
abbrev Service (ι : Type*) :=
  State (Db × EngineDb) (Write ⊕ EngineWrite) (LockKey ⊕ EngineLock) Effect Session ι

/-- The databases `db` and `legacy`, with identifiers from `fresh` on unused, before anything has
happened. -/
structure ServiceInitial {ι : Type*} (db : Db) (legacy : EngineDb) (fresh : Uuid) (s : Service ι) :
    Prop where
  db : s.db = (db, legacy)
  trace : s.trace = []
  fresh : s.fresh = fresh
  starting : ∀ i, ∃ p : Party, s.loc i = .runtime p ∧ p.Starting
  pending : ∀ i, s.pending i = []
  lock : ∀ k, s.lock k = none

theorem service_apply (cfg : Config) :
    (service cfg).apply = applyBoth Write.apply engine.apply := rfl

/-- What a session does to the legacy tables when it is scheduled. -/
inductive Session.Move (cfg : Config) (v : EngineView) :
    Session → Input → Op EngineWrite EngineLock Effect Session → Prop
  /-- A party works on the contract tables. -/
  | elsewhere {x : Input} (p : Party) (op : Op Write LockKey Effect Party) :
    Move cfg v (.runtime p) x (op.bare.map Session.resume id)
  | stop (p : LegacyProc) : Move cfg v (.legacy p) .stop (.rollback (.legacy p.halt))
  | publish (p : LegacyProc) (ok : Bool) (effect : Effect) (task : Option PublishTask) :
    Move cfg v (.legacy p) (.publish ok) (.emit effect (.legacy { p with task := task }))
  | code {x : Input} {p : LegacyProc}
      {op : Op EngineWrite EngineLock Empty (Flow LegacyPc LegacyPart)}
      (hrun : p.status = .running) (hmove : p.call.Move cfg v p.pc x op) :
    Move cfg v (.legacy p) x (op.map (fun f => .legacy (p.after f)) Empty.elim)
  | close {x : Input} {p : LegacyProc} {e : Exc} (hclosing : p.status = .closing e) :
    Move cfg v (.legacy p) x (.rollback (.legacy { p with status := .failed e }))

theorem Session.next_move {cfg : Config} {l : Session}
    {v : View (Db × EngineDb) (LockKey ⊕ EngineLock)} {x : Input}
    {op : Op (Write ⊕ EngineWrite) (LockKey ⊕ EngineLock) Effect Session}
    (h : l.next cfg v x = some op) : Session.Move cfg v.right l x op.right := by
  obtain ⟨p, op', rfl, -, rfl⟩ | ⟨p, op', rfl, hop', rfl⟩ := Session.next_cases h
  · rw [Op.right_inLeft, Op.bare_map]
    exact .elsewhere p op'
  · rw [Op.right_inRight]
    obtain ⟨rfl, rfl⟩ | ⟨ok, task, rfl, -, rfl⟩ | ⟨op, hrun, hop, rfl⟩ | ⟨e, hclosing, rfl⟩ :=
      LegacyProc.next_cases hop'
    · exact .stop p
    · exact .publish p ok _ _
    · have hmove := Session.Move.code hrun (LegacyCall.step_move hop)
      rwa [show (op.map p.after Empty.elim).map Session.legacy id =
        op.map (fun f => .legacy (p.after f)) Empty.elim by cases op <;> rfl]
    · exact .close hclosing

section Runs

variable {ι : Type*} [DecidableEq ι] {cfg : Config}

/-! ### Steps of the service -/

/-- A step of the service, as the legacy tables see it. -/
theorem service_step_move {s t : Service ι} {i : ι} {x : Input}
    (h : (service cfg).step s (i, x) = some t) :
    ∃ op, Session.Move cfg (s.right.view engine i) (s.loc i) x op ∧
      Stepped engine s.right i op t.right := by
  obtain ⟨op, hop, hst⟩ := step_cases h
  have hmove := Session.next_move hop
  rw [State.view_right (service_apply cfg)] at hmove
  exact ⟨op.right, hmove, hst.right (service_apply cfg)⟩

section Legacy

variable {s t : Service ι} {i : ι} {p : LegacyProc} {now : Time}
  {op : Op EngineWrite EngineLock Empty (Flow LegacyPc LegacyPart)}

theorem legacy_next (hloc : s.loc i = .legacy p) (hrun : p.status = .running)
    (hop : p.call.step cfg p.pc (s.right.view engine i) (.proceed now) = some op) :
    (service cfg).next (s.loc i) (s.view (service cfg) i) (.proceed now) =
      some ((op.map p.after Empty.elim).map Session.legacy id).inRight := by
  show Session.next cfg (s.loc i) _ _ = _
  rw [hloc, Session.next, State.view_right (service_apply cfg)]
  simp only [LegacyProc.next, LegacyProc.handle, hrun, hop, Option.map_some]

/-- The legacy part of a request goes on when nobody else holds the locks of its next statement. -/
theorem legacy_step_enabled (now : Time) (hloc : s.loc i = .legacy p) (hrun : p.status = .running)
    (hop : p.call.step cfg p.pc (s.right.view engine i) (.proceed now) = some op)
    (hfree : ∀ k ∈ op.locks, ∀ j, s.right.lock k = some j → j = i) :
    ∃ t, (service cfg).step s (i, .proceed now) = some t := by
  refine step_enabled (legacy_next hloc hrun hop) ?_
  cases op with
  | exec ks ws l =>
    intro k hk j hj
    obtain ⟨k', hk', rfl⟩ := List.mem_map.mp hk
    exact hfree k' hk' j hj
  | _ => exact fun k hk => absurd hk List.not_mem_nil

/-- What a step of its code does to a request and to the legacy tables. -/
theorem legacy_step (hloc : s.loc i = .legacy p) (hrun : p.status = .running)
    (hop : p.call.step cfg p.pc (s.right.view engine i) (.proceed now) = some op)
    (h : (service cfg).step s (i, .proceed now) = some t) :
    t.loc i = .legacy (p.after op.next) ∧
      t.right.pending i = op.pendingAfter (s.right.pending i) ∧
      (t.right.own i).held = op.heldAfter (s.right.own i).held ∧
      t.db.2 = op.dbAfter engine.apply (s.right.pending i) s.db.2 := by
  obtain ⟨op', hop', hst⟩ := step_cases h
  rw [legacy_next hloc hrun hop] at hop'
  cases hop'
  have hright := hst.right (service_apply cfg)
  rw [Op.right_inRight] at hright
  have hown : t.right.own i = _ := hright.self
  have hdb : t.db.2 = _ := hright.db
  simp only [Op.own, Op.next_map, Op.pendingAfter_map, Op.heldAfter_map] at hown
  simp only [Op.dbAfter_map] at hdb
  exact ⟨congrArg Own.loc hown, congrArg Own.pending hown, congrArg Own.held hown, hdb⟩

end Legacy

/-- **Noninterference in the legacy tables.** -/
theorem engine_noninterference {good : Service ι → ι × Input → Prop} {init : Service ι → Prop}
    {G : Shared EngineDb Effect ι → Prop}
    {A : Shared EngineDb Effect ι → Own EngineWrite EngineLock Session → Prop}
    (hinit : ∀ s, init s → G s.right.toShared ∧ ∀ i, A s.right.toShared (s.right.own i))
    (hself : ∀ s i x op, good s (i, x) → G s.right.toShared →
      (∀ j, A s.right.toShared (s.right.own j)) →
      Session.Move cfg (s.right.view engine i) (s.loc i) x op →
      G (op.shared engine i (s.right.pending i) s.right.toShared) ∧
        A (op.shared engine i (s.right.pending i) s.right.toShared) (op.own (s.right.own i)))
    (hother : ∀ s i j x op, j ≠ i → good s (i, x) → G s.right.toShared →
      (∀ j, A s.right.toShared (s.right.own j)) →
      Session.Move cfg (s.right.view engine i) (s.loc i) x op →
      A (op.shared engine i (s.right.pending i) s.right.toShared) (s.right.own j))
    {s : Service ι} (h : Run (service cfg).step good init s) :
    G s.right.toShared ∧ ∀ i, A s.right.toShared (s.right.own i) := by
  have hmove : ∀ (s : Service ι) i x op,
      (service cfg).next (s.loc i) (s.view (service cfg) i) x = some op →
      Session.Move cfg (s.right.view engine i) (s.loc i) x op.right := by
    intro s i x op hop
    have hmove := Session.next_move hop
    rwa [State.view_right (service_apply cfg)] at hmove
  refine Run.right_noninterference (service_apply cfg) (A := fun _ => A) hinit ?_ ?_ h
  · intro s i x op hg hG hA hop _
    exact hself s i x op.right hg hG hA (hmove s i x op hop)
  · intro s i j x op hj hg hG hA hop
    exact hother s i j x op.right hj hg hG hA (hmove s i x op hop)

end Runs

/-! ### A small service to run -/

/-- The sample payload after a member has changed its type and the other is lost. -/
def sampleOther : Schema.Payload where
  members := [("id", .str "x")]
  unique := by simp [Schema.Json.UniqueKeys, Schema.UniqueKeysMembers]

/-- The initial service of some requests for the sample endpoint; everybody else is a worker. -/
def sampleService (payloads : List Schema.Payload) : Service ℕ where
  db := ({}, {})
  fresh := 1
  loc := fun i => .runtime ((payloads[i]?.map sampleRequest).getD (.worker .poll))
  pending := fun _ => []
  lock := fun _ => none

theorem sampleService_initial (payloads : List Schema.Payload) :
    ServiceInitial {} {} 1 (sampleService payloads) where
  db := rfl
  trace := rfl
  fresh := rfl
  starting i := by
    refine ⟨_, rfl, ?_⟩
    cases payloads[i]? with
    | none => exact .worker
    | some payload => exact .track _
  pending := fun _ => rfl
  lock := fun _ => rfl

/-- Process `i` goes on `n` times. -/
def goOn (i n : ℕ) : List (ℕ × Input) := List.replicate n (i, .proceed 0)

/-- The service after some requests of a sample service have run: the others have not begun. -/
theorem sample_others {cfg : Config} {payloads : List Schema.Payload} {run : List (ℕ × Input)}
    {s : Service ℕ}
    (h : exec (service cfg).step (sampleService payloads) run = some s)
    (hrun : ∀ a ∈ run, a.1 < payloads.length) {i : ℕ} (hi : payloads.length ≤ i) :
    s.loc i = .runtime (.worker .poll) := by
  have hne : ∀ a ∈ run, a.1 ≠ i := fun a ha => Nat.ne_of_lt (Nat.lt_of_lt_of_le (hrun a ha) hi)
  have hloc : s.loc i = (sampleService payloads).loc i := congrArg Own.loc (exec_own hne h)
  rw [hloc]
  show Session.runtime ((payloads[i]?.map sampleRequest).getD (.worker .poll)) = _
  rw [List.getElem?_eq_none hi]
  rfl

theorem EngineDb.unique_empty : (∀ e, (({} : EngineDb).fingerprintsOf e).Nodup) ∧
    ∀ e, (({} : EngineDb).activeBaselines e).length ≤ 1 :=
  ⟨fun _ => List.nodup_nil, fun _ => Nat.zero_le _⟩

end Driftgate.Core
