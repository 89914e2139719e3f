import Driftgate.Runtime.OutboxWorker

/-!
# The running system

Any number of `/track` requests, outbox workers and calls of the subscription API share the
database, each in its own session. A request whose code raises closes its session, which rolls the
open transaction back; a process that stops loses its transaction and its tasks. The event of a
request is published by a task of its own, which starts when the event is scheduled and outlives
the request.
-/

namespace Driftgate.Runtime

open Driftgate.ReadCommitted Driftgate.Transition

/-! ### Requests -/

/-- The task of `publish_fire_and_forget`: the event and how many calls of the publisher are
left. -/
structure PublishTask where
  event : DriftEvent
  calls : ℕ

/-- `publish_with_retry` calls the publisher at most three times. -/
def PublishTask.start (event : DriftEvent) : PublishTask := ⟨event, 3⟩

/-- The task after a call of the publisher. -/
def PublishTask.called (t : PublishTask) (ok : Bool) : Option PublishTask :=
  if ok || t.calls ≤ 1 then none else some { t with calls := t.calls - 1 }

/-- How far the handler of a request has got. -/
inductive TrackStatus
  | running
  /-- An exception is on its way out; the session is about to be closed. -/
  | closing (e : Exc)
  | returned (result : TrackResult)
  | failed (e : Exc)
  | stopped

/-- A `/track` request. The program counter stays where it was when the request ended. -/
structure TrackProc where
  call : TrackCall
  pc : TrackPc
  status : TrackStatus
  task : Option PublishTask

namespace TrackProc

/-- A request that has just arrived. -/
def start (call : TrackCall) : TrackProc := ⟨call, .upsert .insertEndpoint, .running, none⟩

/-- The request after a step of its code. Reaching the commit with a notice schedules its event. -/
def after (cfg : Config) (p : TrackProc) : Flow TrackPc TrackResult → TrackProc
  | .go pc => { p with
      pc := pc
      task := match pc with
        | .commit (some n) _ => some (.start (p.call.driftEvent cfg n))
        | _ => p.task }
  | .done r => { p with status := .returned r }
  | .raised e => { p with status := .closing e }

/-- The request after its process has stopped. -/
def halt (p : TrackProc) : TrackProc :=
  { p with
    status := match p.status with
      | .running => .stopped
      | .closing _ => .stopped
      | status => status
    task := none }

def running (p : TrackProc) : Bool :=
  match p.status with
  | .running => true
  | _ => false

/-- The handler of the request: its code, or the end of its session. -/
def handle (cfg : Config) (p : TrackProc) (v : DbView) (x : Input) :
    Option (Op Write LockKey Effect TrackProc) :=
  match p.status, x with
  | .running, x => (p.call.step cfg p.pc v x).map (Op.map (p.after cfg) id)
  | .closing e, .proceed _ => some (.rollback { p with status := .failed e })
  | _, _ => none

def next (cfg : Config) (p : TrackProc) (v : DbView) (x : Input) :
    Option (Op Write LockKey Effect TrackProc) :=
  match x with
  | .stop => some (.rollback p.halt)
  | .publish ok => p.task.map fun t => .emit (.published t.event ok) { p with task := t.called ok }
  | x => p.handle cfg v x

/-- What a request does next: its process stops, its task publishes, its code runs, or its session
closes after an exception. -/
theorem next_cases {cfg : Config} {p : TrackProc} {v : DbView} {x : Input}
    {op : Op Write LockKey Effect TrackProc} (h : p.next cfg v x = some op) :
    (x = .stop ∧ op = .rollback p.halt) ∨
    (∃ ok t, x = .publish ok ∧ p.task = some t ∧
      op = .emit (.published t.event ok) { p with task := t.called ok }) ∨
    (∃ op', p.status = .running ∧ p.call.step cfg p.pc v x = some op' ∧
      op = op'.map (p.after cfg) id) ∨
    (∃ e, p.status = .closing e ∧ op = .rollback { p with status := .failed e }) := by
  have hhandle : p.handle cfg v x = some op →
      (∃ op', p.status = .running ∧ p.call.step cfg p.pc v x = some op' ∧
        op = op'.map (p.after cfg) id) ∨
      (∃ e, p.status = .closing e ∧ op = .rollback { p with status := .failed e }) := by
    intro h
    cases hst : p.status with
    | running =>
      simp only [handle, hst] at h
      obtain ⟨op', hop', hmap⟩ := Option.map_eq_some_iff.mp h
      exact .inl ⟨op', rfl, hop', hmap.symm⟩
    | closing e =>
      cases x <;> simp only [handle, hst, reduceCtorEq, Option.some.injEq] at h
      exact .inr ⟨e, rfl, h.symm⟩
    | _ => cases x <;> simp [handle, hst] at h
  cases x with
  | stop => exact .inl ⟨rfl, (Option.some.inj h).symm⟩
  | publish ok =>
    obtain ⟨t, ht, hop⟩ := Option.map_eq_some_iff.mp h
    exact .inr (.inl ⟨ok, t, rfl, ht, hop.symm⟩)
  | _ => exact .inr (.inr (hhandle h))

end TrackProc

/-! ### Parties -/

/-- A coroutine with a session of its own. -/
inductive Party
  | track (p : TrackProc)
  | worker (pc : WorkerPc)
  | subscription (call : SubscriptionCall) (pc : SubscriptionPc)
  | finished

namespace Party

/-- The party of a subscription call after a step of its code. -/
def subscribing (call : SubscriptionCall) : Flow SubscriptionPc Unit → Party
  | .go pc => .subscription call pc
  | _ => .finished

/-- A request whose code is running. -/
def running : Party → Bool
  | .track p => p.running
  | _ => false

/-- The answer to a request that has returned. -/
def answer? : Party → Option TrackResult
  | .track p =>
    match p.status with
    | .returned r => some r
    | _ => none
  | _ => none

/-- What a party does next. -/
def next (cfg : Config) : Party → DbView → Input → Option (Op Write LockKey Effect Party)
  | .track p, v, x => (p.next cfg v x).map (Op.map .track id)
  | .worker pc, v, x => (pc.step v x).map (Op.map .worker id)
  | .subscription call pc, v, x => (call.step pc v x).map (Op.map (subscribing call) Empty.elim)
  | .finished, _, .proceed _ => some (.rollback .finished)
  | .finished, _, _ => none

/-- A party that has not done anything yet. -/
inductive Starting : Party → Prop
  | track (call : TrackCall) : Starting (.track (.start call))
  | worker : Starting (.worker .poll)
  | subscription (call : SubscriptionCall) : Starting (.subscription call .write)

end Party

/-! ### The system -/

/-- The program of all parties. -/
def program (cfg : Config) : Program Db Write LockKey Effect Party Input where
  apply := Write.apply
  next := Party.next cfg

/-- The database, the effects so far, and every party with its open transaction. -/
abbrev World (ι : Type*) := State Db Write LockKey Effect Party ι

/-- The database `db`, with identifiers from `fresh` on unused, before anything has happened. -/
structure Initial {ι : Type*} (db : Db) (fresh : Uuid) (s : World ι) : Prop where
  db : s.db = db
  trace : s.trace = []
  fresh : s.fresh = fresh
  starting : ∀ i, (s.loc i).Starting
  pending : ∀ i, s.pending i = []
  lock : ∀ k, s.lock k = none

/-! ### A small system to run -/

/-- A configuration whose hashes keep their argument. -/
def sampleConfig (inlineDelivery : Bool) : Config where
  sha256 := id
  sha1 := fun _ => "0123456789abcdef"
  printable := fun c => 0xa0 < c.toNat
  inlineDelivery := inlineDelivery

def sampleKey : EndpointKey := ⟨"default", "orders", "GET", "/orders"⟩

/-- A payload with two members. -/
def sampleOld : Schema.Payload where
  members := [("id", .int 1), ("name", .str "x")]
  unique := by simp [Schema.Json.UniqueKeys, Schema.UniqueKeysMembers]

/-- The same payload after it has lost a member. -/
def sampleNew : Schema.Payload where
  members := [("id", .int 1)]
  unique := by simp [Schema.Json.UniqueKeys, Schema.UniqueKeysMembers]

/-- A request for the sample endpoint. -/
def sampleRequest (payload : Schema.Payload) : Party :=
  .track (.start ⟨sampleKey, payload, true⟩)

/-- The initial world of some parties. -/
def worldOf {ι : Type*} (db : Db) (fresh : Uuid) (party : ι → Party) : World ι where
  db := db
  fresh := fresh
  loc := party
  pending := fun _ => []
  lock := fun _ => none

theorem worldOf_initial {ι : Type*} {db : Db} {fresh : Uuid} {party : ι → Party}
    (h : ∀ i, (party i).Starting) : Initial db fresh (worldOf db fresh party) where
  db := rfl
  trace := rfl
  fresh := rfl
  starting := h
  pending := fun _ => rfl
  lock := fun _ => rfl

/-- The initial world of a list of parties; everybody else is a worker. -/
def sampleWorld (db : Db) (fresh : Uuid) (parties : List Party) : World ℕ :=
  worldOf db fresh fun i => parties[i]?.getD (.worker .poll)

theorem sampleWorld_initial {db : Db} {fresh : Uuid} {parties : List Party}
    (h : ∀ p ∈ parties, p.Starting) : Initial db fresh (sampleWorld db fresh parties) := by
  refine worldOf_initial fun i => ?_
  cases hp : parties[i]? with
  | none => exact .worker
  | some p => exact h p (List.mem_of_getElem? hp)

end Driftgate.Runtime
