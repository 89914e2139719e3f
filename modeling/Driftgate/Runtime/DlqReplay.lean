import Driftgate.Runtime.System

/-!
# Replaying dead letters

`replay_dlq_entry` reads a row of `webhook_delivery_dlq` and posts its event once more. The target is
not the row's own: it looks the subscription up again, by endpoint and consumer, and takes the one
created last. Nothing says that a consumer has only one.

A replay runs in a session of its own and writes attempts only.
-/

namespace Driftgate.Runtime

open Driftgate.ReadCommitted Driftgate.Transition

/-- The arguments of `replay_dlq_entry`; `documents` says whether there is a document store. -/
structure DlqReplay where
  dlqId : Uuid
  documents : Bool

/-- The subscription of an endpoint and a consumer that was created last. -/
def Db.newestSubscription (db : Db) (endpointId : Uuid) (consumerId : String) :
    Option SubscriptionRow :=
  let subs := db.subscriptions.filter fun r => r.endpointId = endpointId && r.consumerId = consumerId
  (subs.insertionSort fun a b => b.createdAt ≤ a.createdAt).head?

/-- `get_dlq_entry`. -/
def Db.dlqEntry (db : Db) (dlqId : Uuid) : Option DlqRow := db.dlq.find? (·.id = dlqId)

inductive DlqReplayEffect
  | posted (post : Post)
  /-- `store_replay_artifact`, with the columns of the entry that it shows. -/
  | artifactStored (entry : DlqRow) (replayed : Bool) (failureReason : Option String)

inductive DlqReplayResult
  | dlqNotFound
  | subscriptionNotFound (entry : DlqRow)
  /-- The artifact: `failure_reason` is the entry's, unless the replay was answered 2xx. -/
  | artifact (entry : DlqRow) (replayed : Bool)

/-- Where `replay_dlq_entry` is. -/
inductive DlqReplayPc
  | selectEntry
  | selectSubscription (entry : DlqRow)
  | deliver (entry : DlqRow) (args : Delivery) (pc : DeliverPc)
  | storeArtifact (entry : DlqRow) (replayed : Bool)

namespace DlqReplay

/-- The call of `deliver_with_retry`. -/
def delivery (entry : DlqRow) (sub : SubscriptionRow) : Delivery where
  eventId := entry.eventId
  endpointId := entry.endpointId
  subscription := sub
  payload := entry.event
  maxAttempts := 1
  persistDlq := false

/-- After the delivery. -/
def afterDelivery (call : DlqReplay) (entry : DlqRow) (ok : Bool) :
    Flow DlqReplayPc DlqReplayResult :=
  if call.documents then .go (.storeArtifact entry ok) else .done (.artifact entry ok)

/-- A step of `deliver_with_retry` inside the replay. -/
def delivering (call : DlqReplay) (entry : DlqRow) (args : Delivery) :
    Flow DeliverPc Bool → Flow DlqReplayPc DlqReplayResult :=
  Flow.bind (.deliver entry args) (call.afterDelivery entry)

/-- `replay_dlq_entry`, from one `await` to the next. -/
def step (call : DlqReplay) (pc : DlqReplayPc) (v : DbView) (x : Input) :
    Option (Op Write LockKey DlqReplayEffect (Flow DlqReplayPc DlqReplayResult)) :=
  match pc, x with
  | .deliver entry args pc, x => (args.step pc v x).map (Op.map (call.delivering entry args) .posted)
  | .selectEntry, .proceed _ =>
    some (.exec [] [] (match v.db.dlqEntry call.dlqId with
      | none => .done .dlqNotFound
      | some entry => .go (.selectSubscription entry)))
  | .selectSubscription entry, .proceed _ =>
    some (.exec [] [] (match v.db.newestSubscription entry.endpointId entry.consumerId with
      | none => .done (.subscriptionNotFound entry)
      | some sub => call.delivering entry (delivery entry sub) (delivery entry sub).start))
  | .storeArtifact entry ok, .proceed _ =>
    some (.emit (.artifactStored entry ok (if ok then none else some entry.failureReason))
      (.done (.artifact entry ok)))
  | _, .raise reason => some (.exec [] [] (.raised (.failed reason)))
  | _, _ => none

end DlqReplay

/-- A replay: its code, its result, or the exception that has left it. -/
structure DlqReplayProc where
  call : DlqReplay
  flow : Flow DlqReplayPc DlqReplayResult

/-- Every process is one replay. A session is closed when its replay has ended. -/
def dlqReplayProgram : Program Db Write LockKey DlqReplayEffect DlqReplayProc Input where
  apply := Write.apply
  next p v x :=
    match p.flow, x with
    | .go pc, x => (p.call.step pc v x).map (Op.map (DlqReplayProc.mk p.call) id)
    | flow, .proceed _ => some (.rollback ⟨p.call, flow⟩)
    | _, _ => none

/-- A replay by itself in a database. -/
def dlqReplayWorld (db : Db) (p : DlqReplayProc) (fresh : Uuid) :
    State Db Write LockKey DlqReplayEffect DlqReplayProc Unit where
  db := db
  fresh := fresh
  loc _ := p
  pending _ := []
  lock _ := none

/-- The replay posts `payload` to `targetUrl`: after its two reads this is the next thing it does,
whatever the answer. -/
def RePosts (db : Db) (call : DlqReplay) (targetUrl : String) (payload : WebhookPayload) : Prop :=
  ∀ fresh status, ∃ s, exec dlqReplayProgram.step (dlqReplayWorld db ⟨call, .go .selectEntry⟩ fresh)
    [((), .proceed 0), ((), .proceed 0), ((), .answer status)] = some s ∧
      s.trace = [((), .posted ⟨targetUrl, payload, .status status⟩)]

/-! ### What a replay posts -/

/-- The delivery that a replay attempts. -/
def Db.replayDelivery (db : Db) (dlqId : Uuid) : Option Delivery :=
  (db.dlqEntry dlqId).bind fun entry =>
    ((db.newestSubscription entry.endpointId entry.consumerId).filter (·.active)).map
      (DlqReplay.delivery entry)

/-- A statement that only reads. -/
theorem dlqReplay_read {db : Db} {call : DlqReplay} {pc : DlqReplayPc}
    {flow : Flow DlqReplayPc DlqReplayResult}
    (h : ∀ busy fresh, call.step pc ⟨db, busy, fresh⟩ (.proceed 0) = some (.exec [] [] flow))
    (fresh : Uuid) : dlqReplayProgram.step (dlqReplayWorld db ⟨call, .go pc⟩ fresh) ((), .proceed 0) =
      some (dlqReplayWorld db ⟨call, flow⟩ (fresh + 1)) := by
  have hnext : dlqReplayProgram.next ⟨call, .go pc⟩
      ((dlqReplayWorld db ⟨call, .go pc⟩ fresh).view dlqReplayProgram ()) (.proceed 0) =
        some (.exec [] [] ⟨call, flow⟩) := by
    show (call.step pc ⟨db, _, fresh⟩ (.proceed 0)).map (Op.map (DlqReplayProc.mk call) id) = _
    rw [h]
    rfl
  rw [Program.step]
  show (dlqReplayProgram.next ⟨call, .go pc⟩ _ _).bind _ = _
  rw [hnext]
  simp only [Option.bind_some, State.perform, dlqReplayWorld, Op.shared, Op.next, Op.pendingAfter,
    List.all_nil, if_true, List.append_nil, Function.update_eq_const_of_subsingleton]
  rfl

/-- A replay makes one POST, that of its delivery. -/
theorem dlqReplay_trace (db : Db) (call : DlqReplay) (fresh : Uuid) (status : ℕ) :
    (exec dlqReplayProgram.step (dlqReplayWorld db ⟨call, .go .selectEntry⟩ fresh)
      [((), .proceed 0), ((), .proceed 0), ((), .answer status)]).map (fun s => s.trace) =
    (db.replayDelivery call.dlqId).map fun d =>
      [((), .posted ⟨d.subscription.targetUrl, d.payload, .status status⟩)] := by
  cases hentry : db.dlqEntry call.dlqId with
  | none =>
    have hread : ∀ busy fresh, call.step .selectEntry ⟨db, busy, fresh⟩ (.proceed 0) =
        some (.exec [] [] (.done .dlqNotFound)) := fun _ _ => by rw [DlqReplay.step, hentry]
    rw [exec, dlqReplay_read hread, Db.replayDelivery, hentry]
    rfl
  | some entry =>
    have hread : ∀ busy fresh, call.step .selectEntry ⟨db, busy, fresh⟩ (.proceed 0) =
        some (.exec [] [] (.go (.selectSubscription entry))) :=
      fun _ _ => by rw [DlqReplay.step, hentry]
    rw [exec, dlqReplay_read hread, Option.bind_some, exec, Db.replayDelivery, hentry,
      Option.bind_some]
    cases hsub : db.newestSubscription entry.endpointId entry.consumerId with
    | none =>
      have hlookup : ∀ busy fresh, call.step (.selectSubscription entry) ⟨db, busy, fresh⟩
          (.proceed 0) = some (.exec [] [] (.done (.subscriptionNotFound entry))) :=
        fun _ _ => by rw [DlqReplay.step, hsub]
      rw [dlqReplay_read hlookup]
      rfl
    | some sub =>
      have hlookup : ∀ busy fresh, call.step (.selectSubscription entry) ⟨db, busy, fresh⟩
          (.proceed 0) = some (.exec [] [] (call.delivering entry (DlqReplay.delivery entry sub)
            (DlqReplay.delivery entry sub).start)) :=
        fun _ _ => by rw [DlqReplay.step, hsub]
      rw [dlqReplay_read hlookup]
      by_cases hactive : sub.active = true
      · have hstart : (DlqReplay.delivery entry sub).start = .go (.post 1) := by
          simp [Delivery.start, DlqReplay.delivery, hactive]
        rw [hstart, Option.filter_some, if_pos hactive]
        rfl
      · have hstart : (DlqReplay.delivery entry sub).start = .done false := by
          simp [Delivery.start, DlqReplay.delivery, hactive]
        rw [hstart, Option.filter_some, if_neg hactive]
        -- without a POST there is nothing to be answered
        cases hdocuments : call.documents <;>
          simp [DlqReplay.delivering, Flow.bind, DlqReplay.afterDelivery, hdocuments, exec,
            Program.step, dlqReplayProgram, dlqReplayWorld, DlqReplay.step]

/-- A replay posts if it finds an entry whose newest subscription is active. -/
theorem rePosts_iff {db : Db} {call : DlqReplay} {targetUrl : String} {payload : WebhookPayload} :
    RePosts db call targetUrl payload ↔ ∃ entry sub, db.dlqEntry call.dlqId = some entry ∧
      db.newestSubscription entry.endpointId entry.consumerId = some sub ∧ sub.active = true ∧
      sub.targetUrl = targetUrl ∧ entry.event = payload := by
  have hposts : RePosts db call targetUrl payload ↔ ∃ d, db.replayDelivery call.dlqId = some d ∧
      d.subscription.targetUrl = targetUrl ∧ d.payload = payload := by
    have hrun : RePosts db call targetUrl payload ↔ ∀ fresh status,
        (exec dlqReplayProgram.step (dlqReplayWorld db ⟨call, .go .selectEntry⟩ fresh)
          [((), .proceed 0), ((), .proceed 0), ((), .answer status)]).map (fun s => s.trace) =
            some [((), .posted ⟨targetUrl, payload, .status status⟩)] := by
      simp only [RePosts, Option.map_eq_some_iff]
    rw [hrun]
    simp only [dlqReplay_trace, Option.map_eq_some_iff]
    constructor
    · intro h
      obtain ⟨d, hd, heq⟩ := h 0 0
      simp only [List.cons.injEq, Prod.mk.injEq, DlqReplayEffect.posted.injEq, Post.mk.injEq,
        true_and, and_true] at heq
      exact ⟨d, hd, heq⟩
    · rintro ⟨d, hd, rfl, rfl⟩ _ status
      exact ⟨d, hd, rfl⟩
  rw [hposts]
  simp only [Db.replayDelivery, Option.bind_eq_some_iff, Option.map_eq_some_iff,
    Option.filter_eq_some_iff]
  constructor
  · rintro ⟨d, ⟨entry, hentry, sub, ⟨hsub, hactive⟩, rfl⟩, hurl, hpayload⟩
    exact ⟨entry, sub, hentry, hsub, hactive, hurl, hpayload⟩
  · rintro ⟨entry, sub, hentry, hsub, hactive, hurl, hpayload⟩
    exact ⟨_, ⟨entry, hentry, sub, ⟨hsub, hactive⟩, rfl⟩, hurl, hpayload⟩

end Driftgate.Runtime
