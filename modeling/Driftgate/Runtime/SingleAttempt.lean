import Driftgate.Lib.Alone
import Driftgate.Runtime.RowLifecycle

/-!
# A single attempt

The request that enqueues a webhook and the outbox worker both call `deliver_with_retry` for one
attempt. This module runs each of them alone, without crashes and database errors, through its work
on one row, and says what the attempt leaves (`AttemptEnds`): both count it, and they differ in the
status of a row whose POST has failed.
-/

namespace Driftgate.Runtime

open Driftgate.ReadCommitted

/-! ### The two drivers -/

/-- A POST ends like this. -/
def Answer.input : Answer → Input
  | .status code => .answer code
  | .exception reason => .raise reason

/-- Every statement and every commit goes through, and the POST has the given outcome. -/
def DeliverPc.calm (outcome : Answer) (now : Time) : DeliverPc → Input
  | .post _ => outcome.input
  | _ => .proceed now

def EnqueuePc.calm (outcome : Answer) (now : Time) : EnqueuePc → Input
  | .deliver _ _ _ _ pc => pc.calm outcome now
  | _ => .proceed now

def WorkerPc.calm (outcome : Answer) (now : Time) : WorkerPc → Input
  | .deliver _ _ _ _ pc => pc.calm outcome now
  | _ => .proceed now

/-- `_enqueue_webhook_outbox` as a program of its own. -/
def enqueueProgram (cfg : Config) (q : Enqueue) :
    Program Db Write LockKey Effect (Flow EnqueuePc (List SubscriptionRow)) Input where
  apply := Write.apply
  next
    | .go pc, v, x => q.step cfg pc v x
    | _, _, _ => none

/-- The outbox worker as a program of its own. -/
def workerProgram : Program Db Write LockKey Effect WorkerPc Input where
  apply := Write.apply
  next := WorkerPc.step

/-- The call is in the middle of an inline delivery. -/
def Enqueue.inside : Flow EnqueuePc (List SubscriptionRow) → Bool
  | .go (.deliver _ _ _ _ _) => true
  | .go (.updateOutbox _ _ _ _ _) => true
  | _ => false

/-- The worker is in the middle of an item. -/
def WorkerPc.inside : WorkerPc → Bool
  | .commitMark _ _ _ => true
  | pc => pc.underway.isSome

/-- One turn of the loop over the subscriptions, from the insert of the row to its final update. -/
def Enqueue.serve (cfg : Config) (q : Enqueue) (clock : ℕ → Time) (outcome : Answer)
    (a : Alone Db Write (Flow EnqueuePc (List SubscriptionRow))) :
    Option (Alone Db Write (Flow EnqueuePc (List SubscriptionRow))) :=
  (a.step (enqueueProgram cfg q) (.proceed (clock a.fresh))).bind
    (Alone.finish (enqueueProgram cfg q) (fun f n => match f with
      | .go pc => pc.calm outcome (clock n)
      | _ => .proceed (clock n)) inside 5)

/-- One turn of the loop over the batch, from the mark of the row to its final commit. -/
def WorkerPc.turn (clock : ℕ → Time) (outcome : Answer) (a : Alone Db Write WorkerPc) :
    Option (Alone Db Write WorkerPc) :=
  (a.step workerProgram (.proceed (clock a.fresh))).bind
    (Alone.finish workerProgram (fun pc n => pc.calm outcome (clock n)) inside 8)

section System

variable {ι : Type*} [DecidableEq ι] {i : ι} {clock : ℕ → Time} {outcome : Answer}

/-- A turn of the loop is a piece of a run of several requests, while no other holds a lock. -/
theorem Enqueue.exec_serve {cfg : Config} {q : Enqueue}
    {s : State Db Write LockKey Effect (Flow EnqueuePc (List SubscriptionRow)) ι}
    (h : s.OnlyHolder i) {b : Alone Db Write (Flow EnqueuePc (List SubscriptionRow))}
    (hb : q.serve cfg clock outcome (s.alone i) = some b) :
    ∃ (xs : List Input) (t : _),
      Transition.exec (enqueueProgram cfg q).step s (xs.map fun x => (i, x)) = some t ∧
      t.alone i = b :=
  exec_of_step_finish h hb

/-- A turn of a worker is a piece of a run of several workers, while no other holds a lock. -/
theorem WorkerPc.exec_turn {s : State Db Write LockKey Effect WorkerPc ι} (h : s.OnlyHolder i)
    {b : Alone Db Write WorkerPc} (hb : turn clock outcome (s.alone i) = some b) :
    ∃ (xs : List Input) (t : _),
      Transition.exec workerProgram.step s (xs.map fun x => (i, x)) = some t ∧ t.alone i = b :=
  exec_of_step_finish h hb

end System

/-! ### `deliver_with_retry` with one attempt -/

section Delivery

variable {d : Delivery} {outcome : Answer} {clock : ℕ → Time} {ℓ : Type} {inside : ℓ → Bool}
  {P : Program Db Write LockKey Effect ℓ Input} {choose : ℓ → ℕ → Input}
  {wrap : Flow DeliverPc Bool → ℓ} {effect : Post → Effect}

/-- What a single attempt writes; `fresh` is unused before the POST. -/
def Delivery.written (d : Delivery) (outcome : Answer) (fresh : Uuid) : List Write :=
  if outcome.ok then [d.insertAttempt (fresh + 1) true none 1]
  else d.insertAttempt (fresh + 1) false (some outcome.reason) 1 ::
    if d.persistDlq then [d.upsertDlq (fresh + 2) outcome.reason 1] else []

/-- The delivery as a piece of the code of a program. -/
structure Delivery.Within (d : Delivery) (P : Program Db Write LockKey Effect ℓ Input)
    (choose : ℓ → ℕ → Input) (inside : ℓ → Bool) (wrap : Flow DeliverPc Bool → ℓ)
    (effect : Post → Effect) (outcome : Answer) (clock : ℕ → Time) : Prop where
  apply : P.apply = Write.apply
  next : ∀ pc v m, P.next (wrap (.go pc)) v (pc.calm outcome (clock m)) =
    (d.step pc v (pc.calm outcome (clock m))).map (Op.map wrap effect)
  choose : ∀ pc m, choose (wrap (.go pc)) m = pc.calm outcome (clock m)
  inside : ∀ pc, inside (wrap (.go pc)) = true

/-- One operation of the delivery. -/
theorem Delivery.Within.finish (h : d.Within P choose inside wrap effect outcome clock) {n : ℕ}
    {db : Db} {pending : List Write} {fresh : Uuid} {pc : DeliverPc}
    {op : Op Write LockKey Post (Flow DeliverPc Bool)}
    (hop : ∀ v : DbView, v.fresh = fresh → d.step pc v (pc.calm outcome (clock fresh)) = some op) :
    Alone.finish P choose inside (n + 1) ⟨db, pending, fresh, wrap (.go pc)⟩ =
      Alone.finish P choose inside n
        ⟨op.dbAfter Write.apply pending db, op.pendingAfter pending, fresh + 1, wrap op.next⟩ := by
  have hnext : P.next (wrap (.go pc))
      (Alone.view P (⟨db, pending, fresh, wrap (.go pc)⟩ : Alone Db Write ℓ))
      (choose (wrap (.go pc)) fresh) = some (op.map wrap effect) := by
    rw [h.choose, h.next, hop _ rfl]
    rfl
  refine (Alone.finish_next (h.inside pc) hnext).trans ?_
  rw [Alone.after, h.apply, Op.dbAfter_map, Op.pendingAfter_map, Op.next_map]

/-- The commit at the end of the delivery. -/
theorem Delivery.Within.commit (h : d.Within P choose inside wrap effect outcome clock)
    {pc : DeliverPc} {next : Flow DeliverPc Bool}
    (hstep : ∀ v now, d.step pc v (.proceed now) = some (.commit next))
    (hcalm : ∀ now, pc.calm outcome now = .proceed now) (n : ℕ) (db : Db) (pending : List Write)
    (fresh : Uuid) :
    Alone.finish P choose inside (n + 1) ⟨db, pending, fresh, wrap (.go pc)⟩ =
      Alone.finish P choose inside n ⟨P.applyAll pending db, [], fresh + 1, wrap next⟩ := by
  have hall : P.applyAll pending db = pending.foldl (fun db w => w.apply db) db := by
    rw [Program.applyAll, h.apply]
  rw [hall]
  exact h.finish fun v _ => by rw [hcalm]; exact hstep v _

/-- The POST of the first attempt. -/
theorem Delivery.Within.post (h : d.Within P choose inside wrap effect outcome clock) (n : ℕ)
    (db : Db) (pending : List Write) (fresh : Uuid) :
    Alone.finish P choose inside (n + 1) ⟨db, pending, fresh, wrap (.go (.post 1))⟩ =
      Alone.finish P choose inside n ⟨db, pending, fresh + 1,
        wrap (.go (if outcome.ok then .insertSuccess 1 else .insertFailure 1 outcome.reason))⟩ := by
  have hpost : ∀ v : DbView, v.fresh = fresh →
      d.step (.post 1) v (DeliverPc.calm outcome (clock fresh) (.post 1)) =
        some (.emit ⟨d.subscription.targetUrl, d.payload, outcome⟩
          (.go (if outcome.ok then .insertSuccess 1 else .insertFailure 1 outcome.reason))) := by
    intro v _
    cases outcome <;> rfl
  exact h.finish hpost

/-- An attempt that succeeds is recorded. -/
theorem Delivery.Within.succeed (h : d.Within P choose inside wrap effect outcome clock) (n : ℕ)
    (db : Db) (pending : List Write) (fresh : Uuid) :
    Alone.finish P choose inside (n + 2) ⟨db, pending, fresh, wrap (.go (.insertSuccess 1))⟩ =
      Alone.finish P choose inside n
        ⟨P.applyAll (pending ++ [d.insertAttempt fresh true none 1]) db, [], fresh + 2,
          wrap (.done true)⟩ := by
  have hrecord : ∀ v : DbView, v.fresh = fresh →
      d.step (.insertSuccess 1) v (DeliverPc.calm outcome (clock fresh) (.insertSuccess 1)) =
        some (.exec [] [d.insertAttempt fresh true none 1] (.go (.commitSuccess 1))) := by
    intro v hv
    rw [← hv]
    rfl
  have hcommit : ∀ (v : DbView) now,
      d.step (.commitSuccess 1) v (.proceed now) = some (.commit (.done true)) := fun _ _ => rfl
  exact (h.finish hrecord).trans (h.commit hcommit (fun _ => rfl) n db _ _)

/-- An attempt that fails is recorded, and as it is the last one a dead letter is written unless the
caller writes it. -/
theorem Delivery.Within.fail (h : d.Within P choose inside wrap effect outcome clock)
    (hmax : d.maxAttempts = 1) (n : ℕ) (db : Db) (pending : List Write) (fresh : Uuid)
    (reason : String) :
    Alone.finish P choose inside (n + (if d.persistDlq then 3 else 2))
        ⟨db, pending, fresh, wrap (.go (.insertFailure 1 reason))⟩ =
      Alone.finish P choose inside n
        ⟨P.applyAll (pending ++ (d.insertAttempt fresh false (some reason) 1 ::
            if d.persistDlq then [d.upsertDlq (fresh + 1) reason 1] else [])) db, [],
          fresh + (if d.persistDlq then 3 else 2), wrap (.done false)⟩ := by
  have hrecord : ∀ v : DbView, v.fresh = fresh →
      d.step (.insertFailure 1 reason) v
          (DeliverPc.calm outcome (clock fresh) (.insertFailure 1 reason)) =
        some (.exec [] [d.insertAttempt fresh false (some reason) 1]
          (.go (d.afterFailure 1 reason))) := by
    intro v hv
    rw [← hv]
    rfl
  have hstep : ∀ (v : DbView) now,
      d.step .commitFailure v (.proceed now) = some (.commit (.done false)) := fun _ _ => rfl
  have hcommit := h.commit hstep (fun _ => rfl) n db
  cases hpersist : d.persistDlq with
  | false =>
    have hafter : d.afterFailure 1 reason = .commitFailure := by
      rw [afterFailure, if_pos hmax.symm, hpersist]
      rfl
    rw [hafter] at hrecord
    exact (h.finish hrecord).trans (hcommit _ _)
  | true =>
    have hafter : d.afterFailure 1 reason = .upsertDlq reason := by
      rw [afterFailure, if_pos hmax.symm, hpersist]
      rfl
    have hletter : ∀ v : DbView, v.fresh = fresh + 1 →
        d.step (.upsertDlq reason) v
            (DeliverPc.calm outcome (clock (fresh + 1)) (.upsertDlq reason)) =
          some (.exec [d.dlqKey] [d.upsertDlq (fresh + 1) reason 1] (.go .commitFailure)) := by
      intro v hv
      rw [← hv, ← hmax]
      rfl
    have happend : pending ++ [d.insertAttempt fresh false (some reason) 1,
        d.upsertDlq (fresh + 1) reason 1] =
        pending ++ [d.insertAttempt fresh false (some reason) 1] ++
          [d.upsertDlq (fresh + 1) reason 1] := by simp
    rw [hafter] at hrecord
    rw [if_pos rfl, if_pos rfl, happend]
    exact (h.finish hrecord).trans ((h.finish hletter).trans (hcommit _ _))

/-- **One attempt.** It is recorded and committed, with the dead letter of a failure if there is to
be one. -/
theorem Delivery.Within.once (h : d.Within P choose inside wrap effect outcome clock)
    (hmax : d.maxAttempts = 1) (n : ℕ) (db : Db) (pending : List Write) (fresh : Uuid) :
    Alone.finish P choose inside (n + (d.written outcome fresh).length + 2)
        ⟨db, pending, fresh, wrap (.go (.post 1))⟩ =
      Alone.finish P choose inside n
        ⟨P.applyAll (pending ++ d.written outcome fresh) db, [],
          fresh + (d.written outcome fresh).length + 2, wrap (.done outcome.ok)⟩ := by
  cases hok : outcome.ok with
  | true =>
    have hwritten : d.written outcome fresh = [d.insertAttempt (fresh + 1) true none 1] := by
      rw [written, if_pos hok]
    have hpost := h.post (n + 2) db pending fresh
    rw [hok, if_pos rfl] at hpost
    rw [hwritten]
    exact hpost.trans (h.succeed n db pending (fresh + 1))
  | false =>
    have hpost := h.post (n + (if d.persistDlq then 3 else 2)) db pending fresh
    have hfail := h.fail hmax n db pending (fresh + 1) outcome.reason
    rw [hok, if_neg Bool.false_ne_true] at hpost
    rw [written, hok, if_neg Bool.false_ne_true]
    cases hpersist : d.persistDlq with
    | false =>
      rw [hpersist] at hpost hfail
      exact hpost.trans hfail
    | true =>
      rw [hpersist] at hpost hfail
      exact hpost.trans hfail

theorem Delivery.length_written_le (d : Delivery) (outcome : Answer) (fresh : Uuid) :
    (d.written outcome fresh).length ≤ 2 := by
  rw [written]
  split_ifs <;> simp

end Delivery

/-! ### What a turn writes -/

section Turns

variable {cfg : Config} {q : Enqueue} {sub : SubscriptionRow} {outcome : Answer}

theorem Enqueue.next_outside (affected rest : List SubscriptionRow) :
    inside (next affected rest) = false := by
  cases rest <;> rfl

/-- **Inline delivery.** The row and the attempt are committed, the final update is left in the open
transaction. -/
theorem Enqueue.serve_inline (hon : cfg.inlineDelivery = true) (hactive : sub.active = true)
    (clock : ℕ → Time) (db : Db) (pending : List Write) (fresh : Uuid)
    (affected rest : List SubscriptionRow) :
    ∃ fresh', q.serve cfg clock outcome
        ⟨db, pending, fresh, .go (.insertOutbox affected sub rest)⟩ =
      some ⟨(enqueueProgram cfg q).applyAll (pending ++
          .insertOutbox (q.newRow fresh (clock fresh) sub) ::
            (q.delivery sub).written outcome (fresh + 1)) db,
        [.updateOutbox fresh (finalChange outcome.ok)], fresh', next affected rest⟩ := by
  let a : Alone Db Write (Flow EnqueuePc (List SubscriptionRow)) :=
    ⟨db, pending, fresh, .go (.insertOutbox affected sub rest)⟩
  have hinsert : (enqueueProgram cfg q).next a.loc (a.view (enqueueProgram cfg q))
      (.proceed (clock fresh)) =
        some (.exec [.outboxRow fresh] [.insertOutbox (q.newRow fresh (clock fresh) sub)]
          (.go (.deliver affected sub rest fresh (.post 1)))) := by
    show q.step cfg (.insertOutbox affected sub rest) (a.view (enqueueProgram cfg q))
      (.proceed (clock fresh)) = _
    rw [step, if_pos hon, start_of_active hactive]
    rfl
  have hwithin : (q.delivery sub).Within (enqueueProgram cfg q) (fun f n => match f with
      | .go pc => pc.calm outcome (clock n)
      | _ => .proceed (clock n)) inside (delivering affected sub rest fresh) (.posted fresh)
      outcome clock := ⟨rfl, fun _ _ _ => rfl, fun _ _ => rfl, fun _ => rfl⟩
  obtain ⟨n, hn⟩ : ∃ n, 5 = n + 1 + ((q.delivery sub).written outcome (fresh + 1)).length + 2 := by
    have hle := (q.delivery sub).length_written_le outcome (fresh + 1)
    exact ⟨2 - ((q.delivery sub).written outcome (fresh + 1)).length, by omega⟩
  refine ⟨fresh + 1 + ((q.delivery sub).written outcome (fresh + 1)).length + 2 + 1, ?_⟩
  refine (congrArg (Option.bind · _) (Alone.step_of_next _ hinsert)).trans ?_
  rw [Option.bind_some, hn]
  refine (hwithin.once rfl (n + 1) db (pending ++ [_]) (fresh + 1)).trans ?_
  refine (Alone.finish_next rfl rfl).trans
    ((Alone.finish_outside (next_outside affected rest)).trans ?_)
  rw [List.append_assoc]
  rfl

/-- **No inline delivery.** The row is left to the worker. -/
theorem Enqueue.serve_deferred (hoff : cfg.inlineDelivery = false) (clock : ℕ → Time) (db : Db)
    (pending : List Write) (fresh : Uuid) (affected rest : List SubscriptionRow) :
    q.serve cfg clock outcome ⟨db, pending, fresh, .go (.insertOutbox affected sub rest)⟩ =
      some ⟨db, pending ++ [.insertOutbox (q.newRow fresh (clock fresh) sub)], fresh + 1,
        next affected rest⟩ := by
  let a : Alone Db Write (Flow EnqueuePc (List SubscriptionRow)) :=
    ⟨db, pending, fresh, .go (.insertOutbox affected sub rest)⟩
  have hinsert : (enqueueProgram cfg q).next a.loc (a.view (enqueueProgram cfg q))
      (.proceed (clock fresh)) =
        some (.exec [.outboxRow fresh] [.insertOutbox (q.newRow fresh (clock fresh) sub)]
          (next affected rest)) := by
    show q.step cfg (.insertOutbox affected sub rest) (a.view (enqueueProgram cfg q))
      (.proceed (clock fresh)) = _
    rw [step, if_neg (by rw [hoff]; exact Bool.false_ne_true)]
    rfl
  refine (congrArg (Option.bind · _) (Alone.step_of_next _ hinsert)).trans ?_
  rw [Option.bind_some]
  exact Alone.finish_outside (next_outside affected rest)

/-- The loop serves a subscription. -/
theorem Enqueue.exists_serve (cfg : Config) (q : Enqueue) (outcome : Answer) (clock : ℕ → Time)
    (db : Db) (pending : List Write) (fresh : Uuid) (affected rest : List SubscriptionRow)
    (hactive : sub.active = true) :
    ∃ b, q.serve cfg clock outcome
      ⟨db, pending, fresh, .go (.insertOutbox affected sub rest)⟩ = some b := by
  cases hdelivery : cfg.inlineDelivery with
  | true =>
    obtain ⟨fresh', hserve⟩ := serve_inline hdelivery hactive clock db pending fresh affected rest
    exact ⟨_, hserve⟩
  | false => exact ⟨_, serve_deferred hdelivery clock db pending fresh affected rest⟩

theorem WorkerPc.nextItem_outside (n : ℕ) (items : List OutboxRow) :
    inside (nextItem n items) = false := by
  cases items <;> rfl

/-- From the conclusion of an item to its commit. -/
theorem WorkerPc.finish_conclude (outcome : Answer) (item : OutboxRow) (rest : List OutboxRow)
    (n : ℕ) (how : Conclusion) (clock : ℕ → Time) (db : Db) (fresh : Uuid) :
    ∃ now id fresh', Alone.finish workerProgram (fun pc n => pc.calm outcome (clock n)) inside 3
        ⟨db, [], fresh, .conclude item rest n how⟩ =
      some ⟨workerProgram.applyAll (.updateOutbox item.id (conclusionChange item now how) ::
        how.letters item id) db, [], fresh', nextItem (n + 1) rest⟩ := by
  have hout : ∀ m (a : Alone Db Write WorkerPc), a.loc = nextItem (n + 1) rest →
      Alone.finish workerProgram (fun pc n => pc.calm outcome (clock n)) inside m a = some a := by
    intro m a ha
    exact Alone.finish_outside (by rw [ha]; exact nextItem_outside (n + 1) rest)
  cases how with
  | exhausted args =>
    refine ⟨clock fresh, fresh + 1, fresh + 3, ?_⟩
    refine (Alone.finish_next rfl rfl).trans ((Alone.finish_next rfl rfl).trans
      ((Alone.finish_next rfl rfl).trans ((hout _ _ rfl).trans ?_)))
    rfl
  | _ =>
    refine ⟨clock fresh, fresh, fresh + 2, ?_⟩
    refine (Alone.finish_next rfl rfl).trans ((Alone.finish_next rfl rfl).trans
      ((hout _ _ rfl).trans ?_))
    rfl

/-- **A turn of the worker.** The mark, the attempt and the conclusion are committed. -/
theorem WorkerPc.turn_eq (outcome : Answer) {db : Db} {item : OutboxRow}
    (hactive : sub.active = true)
    (hsub : db.subscriptions.find? (·.id = item.subscriptionId) = some sub) (clock : ℕ → Time)
    (fresh : Uuid) (rest : List OutboxRow) (n : ℕ) :
    ∃ args now id fresh', args = delivery item sub (fresh + 2) ∧
      turn clock outcome ⟨db, [], fresh, .markDelivering item rest n⟩ =
        some ⟨workerProgram.applyAll (.updateOutbox item.id { status := .delivering } ::
            args.written outcome (fresh + 3) ++
              .updateOutbox item.id (conclusionChange item now
                (afterDelivery item args outcome.ok)) ::
              (afterDelivery item args outcome.ok).letters item id) db, [], fresh',
          nextItem (n + 1) rest⟩ := by
  let args := delivery item sub (fresh + 2)
  let marked := (Write.updateOutbox item.id { status := .delivering }).apply db
  let selecting : Alone Db Write WorkerPc :=
    ⟨marked, [], fresh + 2, .selectSubscription item rest n⟩
  have hstart : args.start = .go (.post 1) := by simp [Delivery.start, args, delivery, hactive]
  have hselect : workerProgram.next (.selectSubscription item rest n)
      (selecting.view workerProgram) (.proceed (clock (fresh + 2))) =
        some (.exec [] [] (delivering item rest n args (.go (.post 1)))) := by
    show step (.selectSubscription item rest n) (selecting.view workerProgram)
      (.proceed (clock (fresh + 2))) = _
    have hfind : (selecting.view workerProgram).db.subscriptions.find?
        (·.id = item.subscriptionId) = some sub := hsub
    rw [step, hfind, ← hstart]
    rfl
  have hwithin : args.Within workerProgram (fun pc n => pc.calm outcome (clock n)) inside
      (delivering item rest n args) (.posted item.id) outcome clock := by
    refine ⟨rfl, fun pc v m => ?_, fun _ _ => rfl, fun _ => rfl⟩
    cases pc with
    | post attempt => cases outcome <;> rfl
    | _ => rfl
  have hwritten : (args.written outcome (fresh + 3)).length = 1 := by
    rw [Delivery.written]
    split <;> rfl
  obtain ⟨now, id, fresh', hconclude⟩ := finish_conclude outcome item rest n
    (afterDelivery item args outcome.ok) clock
    (workerProgram.applyAll ([] ++ args.written outcome (fresh + 3)) marked)
    (fresh + 3 + 1 + 2)
  refine ⟨args, now, id, fresh', rfl, ?_⟩
  have honce := hwithin.once rfl 3 marked [] (fresh + 3)
  rw [hwritten] at honce
  refine (congrArg (Option.bind · _) (Alone.step_of_next _ rfl)).trans ?_
  rw [Option.bind_some]
  refine (Alone.finish_next rfl rfl).trans ((Alone.finish_next rfl hselect).trans ?_)
  refine honce.trans (hconclude.trans ?_)
  rw [List.nil_append, Program.applyAll_append]
  rfl

end Turns

/-! ### A webhook in the database -/

/-- The row is in the outbox, alone under its id, and its subscription is there. -/
structure Db.Stands (db : Db) (row : OutboxRow) (sub : SubscriptionRow) : Prop where
  alone : db.outbox.filter (·.id = row.id) = [row]
  subscription : db.subscriptions.find? (·.id = row.subscriptionId) = some sub

/-- What other parties do while none works on a webhook: its row, its subscription and its dead
letter stay as they are. -/
structure Db.Untouched (id eventId : Uuid) (sub : SubscriptionRow) (db db' : Db) : Prop where
  row : db'.outbox.filter (·.id = id) = db.outbox.filter (·.id = id)
  subscription : db'.subscriptions.find? (·.id = sub.id) = db.subscriptions.find? (·.id = sub.id)
  letter : db'.DeadLetter eventId sub.consumerId 0 ↔ db.DeadLetter eventId sub.consumerId 0

/-- What a POST with the given outcome makes of a row that was `row` before, and of its dead letter,
when a failed attempt leaves the status `unsuccessful`. -/
structure AttemptEnds (outcome : Answer) (unsuccessful : OutboxStatus) (eventId : Uuid)
    (sub : SubscriptionRow) (row : OutboxRow) (db : Db) (row' : OutboxRow) (db' : Db) : Prop where
  stands : db'.Stands row' sub
  id : row'.id = row.id
  payload : row'.payload = row.payload
  maxAttempts : row'.maxAttempts = row.maxAttempts
  attempts : row'.attempts = row.attempts + 1
  status : row'.status = if outcome.ok then .delivered else unsuccessful
  delivered : outcome.ok = true → db'.dlq = db.dlq
  failed : row'.status = .failed → db'.DeadLetter eventId sub.consumerId 0

theorem Db.Untouched.refl (id eventId : Uuid) (sub : SubscriptionRow) (db : Db) :
    db.Untouched id eventId sub db :=
  ⟨rfl, rfl, Iff.rfl⟩

theorem Db.Untouched.trans {id eventId : Uuid} {sub : SubscriptionRow} {db db' db'' : Db}
    (h : db.Untouched id eventId sub db') (h' : db'.Untouched id eventId sub db'') :
    db.Untouched id eventId sub db'' where
  row := h'.row.trans h.row
  subscription := h'.subscription.trans h.subscription
  letter := h'.letter.trans h.letter

section Standing

variable {db db' : Db} {row : OutboxRow} {sub : SubscriptionRow} {id eventId : Uuid}

theorem Db.Stands.subscriptionId (h : db.Stands row sub) : row.subscriptionId = sub.id := by
  have hid : sub.id = row.subscriptionId := by simpa using List.find?_some h.subscription
  exact hid.symm

/-- Its id leads to it. -/
theorem Db.Stands.eq (h : db.Stands row sub) {r : OutboxRow} (hr : r ∈ db.outbox)
    (hid : r.id = row.id) : r = row := by
  have hmem : r ∈ db.outbox.filter (·.id = row.id) := List.mem_filter.mpr ⟨hr, by simpa using hid⟩
  rw [h.alone] at hmem
  exact List.mem_singleton.mp hmem

theorem Db.Stands.untouched (h : db.Stands row sub) (hu : db.Untouched row.id eventId sub db') :
    db'.Stands row sub where
  alone := hu.row.trans h.alone
  subscription := by
    have hsub := h.subscription
    rw [h.subscriptionId] at hsub ⊢
    exact hu.subscription.trans hsub

theorem filter_updateWhere {α : Type*} (p : α → Bool) (f : α → α) (rows : List α)
    (h : ∀ r, p (f r) = p r) : (updateWhere p f rows).filter p = (rows.filter p).map f := by
  have hp : (p ∘ fun r => if p r then f r else r) = p := by
    funext r
    show p (if p r then f r else r) = p r
    split
    · exact h r
    · rfl
  rw [updateWhere, List.filter_map, hp]
  refine List.map_congr_left fun r hr => ?_
  rw [if_pos (List.mem_filter.mp hr).2]

/-- An `UPDATE` of the row. -/
theorem Db.Stands.update (h : db.Stands row sub) (change : OutboxChange) :
    ((Write.updateOutbox row.id change).apply db).Stands (change.apply row) sub where
  alone := by
    show (updateWhere (·.id = row.id) change.apply db.outbox).filter (·.id = row.id) = _
    rw [filter_updateWhere _ change.apply _ fun r => rfl, h.alone]
    rfl
  subscription := h.subscription

/-- The `INSERT` of a row with a new id. -/
theorem Db.stands_insert (hsub : db.subscriptions.find? (·.id = row.subscriptionId) = some sub)
    (hnew : ∀ r ∈ db.outbox, r.id ≠ row.id) :
    ((Write.insertOutbox row).apply db).Stands row sub where
  alone := by
    have hnone : db.outbox.filter (·.id = row.id) = [] :=
      List.filter_eq_nil_iff.mpr fun r hr => by simpa using hnew r hr
    show (db.outbox ++ [row]).filter (·.id = row.id) = _
    rw [List.filter_append, hnone]
    simp
  subscription := hsub

variable {ℓ : Type} {P : Program Db Write LockKey Effect ℓ Input}

/-- Attempts and dead letters are written into tables of their own. -/
theorem Db.Stands.letters (hP : P.apply = Write.apply) (h : db.Stands row sub) {ws : List Write}
    (hws : ∀ w ∈ ws, w.table = .attempts ∨ w.table = .dlq) : (P.applyAll ws db).Stands row sub := by
  refine P.applyAll_induction (I := fun db => db.Stands row sub) h fun w hw d hd => ?_
  rw [hP]
  cases w with
  | insertAttempt _ => exact ⟨hd.alone, hd.subscription⟩
  | upsertDlq _ => exact ⟨hd.alone, hd.subscription⟩
  | _ => simp [Write.table] at hws; cases hws _ hw <;> contradiction

theorem Db.dlq_applyAll (hP : P.apply = Write.apply) {ws : List Write}
    (hws : ∀ w ∈ ws, w.table ≠ .dlq) (db : Db) : (P.applyAll ws db).dlq = db.dlq := by
  refine P.applyAll_keep Db.dlq (fun w hw d => ?_) db
  rw [hP]
  cases w with
  | upsertDlq _ => exact absurd rfl (hws _ hw)
  | _ => rfl

theorem Delivery.written_table (d : Delivery) (outcome : Answer) (fresh : Uuid) :
    ∀ w ∈ d.written outcome fresh, w.table = .attempts ∨ w.table = .dlq := by
  intro w hw
  rw [written] at hw
  split_ifs at hw <;> simp only [List.mem_cons, List.not_mem_nil, or_false] at hw
  · exact .inl (hw ▸ rfl)
  · obtain rfl | rfl := hw
    · exact .inl rfl
    · exact .inr rfl
  · exact .inl (hw ▸ rfl)

/-- The worker writes dead letters only. -/
theorem Conclusion.letters_table (how : Conclusion) (row : OutboxRow) (id : Uuid) :
    ∀ w ∈ how.letters row id, w.table = .attempts ∨ w.table = .dlq := by
  intro w hw
  cases how with
  | exhausted args => exact .inr (List.mem_singleton.mp hw ▸ rfl)
  | _ => cases hw

/-- After a successful attempt there is no dead letter to write. -/
theorem Delivery.written_dlq {d : Delivery} {outcome : Answer} (fresh : Uuid)
    (h : outcome.ok = true ∨ d.persistDlq = false) :
    ∀ w ∈ d.written outcome fresh, w.table ≠ .dlq := by
  intro w hw
  rw [written] at hw
  split_ifs at hw with hok hpersist <;> simp only [List.mem_cons, List.not_mem_nil, or_false] at hw
  · rw [hw]
    exact Table.noConfusion
  · rw [hpersist] at h
    simp [hok] at h
  · rw [hw]
    exact Table.noConfusion

/-- `upsert_dlq` leaves a dead letter. -/
theorem Delivery.deadLetter_upsertDlq (d : Delivery) (id : Uuid) (reason : String) (n : ℕ)
    (db : Db) :
    ((d.upsertDlq id reason n).apply db).DeadLetter d.eventId d.subscription.consumerId 0 := by
  obtain ⟨entry, hentry, he, hc, -⟩ := deadLetter_upsert db ⟨id, d.eventId,
    d.subscription.consumerId, d.endpointId, d.subscription.targetUrl, d.payload, reason, n⟩
  exact ⟨entry, hentry, he, hc, Nat.zero_le _⟩

theorem Delivery.deadLetter_written {d : Delivery} {outcome : Answer} (hP : P.apply = Write.apply)
    (hok : outcome.ok = false) (hpersist : d.persistDlq = true) (fresh : Uuid) (db : Db) :
    (P.applyAll (d.written outcome fresh) db).DeadLetter d.eventId d.subscription.consumerId 0 := by
  rw [written, hok, if_neg Bool.false_ne_true, if_pos hpersist, Program.applyAll_cons,
    Program.applyAll_cons, Program.applyAll_nil, hP]
  exact d.deadLetter_upsertDlq _ _ _ _

end Standing

/-! ### What an attempt leaves -/

section Attempts

variable {cfg : Config} {q : Enqueue} {sub : SubscriptionRow} {outcome : Answer} {clock : ℕ → Time}

/-- **The request's attempt.** Whatever `max_attempts` is, a failure makes the row FAILED. -/
theorem Enqueue.attempt_inline (hon : cfg.inlineDelivery = true) (hactive : sub.active = true)
    {db : Db} {pending : List Write} {fresh : Uuid} {affected rest : List SubscriptionRow}
    (hsub : ((enqueueProgram cfg q).applyAll pending db).subscriptions.find? (·.id = sub.id) =
      some sub)
    (hnew : ∀ r ∈ ((enqueueProgram cfg q).applyAll pending db).outbox, r.id ≠ fresh)
    {b : Alone Db Write (Flow EnqueuePc (List SubscriptionRow))}
    (h : q.serve cfg clock outcome
      ⟨db, pending, fresh, .go (.insertOutbox affected sub rest)⟩ = some b) :
    ∃ row, AttemptEnds outcome .failed q.eventId sub (q.newRow fresh (clock fresh) sub)
      ((enqueueProgram cfg q).applyAll pending db) row (b.seen (enqueueProgram cfg q)) := by
  obtain ⟨fresh', hserve⟩ := serve_inline hon hactive clock db pending fresh affected rest
  obtain rfl := Option.some.inj (h.symm.trans hserve)
  let seen := (enqueueProgram cfg q).applyAll pending db
  let inserted := (Write.insertOutbox (q.newRow fresh (clock fresh) sub)).apply seen
  let written := (q.delivery sub).written outcome (fresh + 1)
  let attempted := (enqueueProgram cfg q).applyAll written inserted
  have hinserted : inserted.Stands (q.newRow fresh (clock fresh) sub) sub :=
    Db.stands_insert hsub hnew
  have hattempted : attempted.Stands (q.newRow fresh (clock fresh) sub) sub :=
    hinserted.letters rfl ((q.delivery sub).written_table outcome _)
  have hseen : Alone.seen (enqueueProgram cfg q)
      (⟨(enqueueProgram cfg q).applyAll (pending ++
          .insertOutbox (q.newRow fresh (clock fresh) sub) :: written) db,
        [.updateOutbox fresh (finalChange outcome.ok)], fresh', next affected rest⟩ :
        Alone Db Write (Flow EnqueuePc (List SubscriptionRow))) =
      (Write.updateOutbox fresh (finalChange outcome.ok)).apply attempted := by
    rw [Alone.seen, Program.applyAll_append]
    rfl
  refine ⟨(finalChange outcome.ok).apply (q.newRow fresh (clock fresh) sub), ?_⟩
  rw [hseen]
  refine ⟨hattempted.update _, rfl, rfl, rfl, rfl, rfl, fun hok => ?_, fun hfailed => ?_⟩
  · show attempted.dlq = seen.dlq
    exact Db.dlq_applyAll rfl (Delivery.written_dlq _ (.inl hok)) inserted
  · have hok : outcome.ok = false := by
      have hstatus : (if outcome.ok then OutboxStatus.delivered else .failed) = .failed := hfailed
      by_contra htrue
      rw [if_pos (Bool.eq_true_of_not_eq_false htrue)] at hstatus
      cases hstatus
    exact Delivery.deadLetter_written (d := q.delivery sub) rfl hok rfl _ inserted

/-- Without inline delivery the row waits. -/
theorem Enqueue.waits (hoff : cfg.inlineDelivery = false) {db : Db} {pending : List Write}
    {fresh : Uuid} {affected rest : List SubscriptionRow}
    (hsub : ((enqueueProgram cfg q).applyAll pending db).subscriptions.find? (·.id = sub.id) =
      some sub)
    (hnew : ∀ r ∈ ((enqueueProgram cfg q).applyAll pending db).outbox, r.id ≠ fresh)
    {b : Alone Db Write (Flow EnqueuePc (List SubscriptionRow))}
    (h : q.serve cfg clock outcome
      ⟨db, pending, fresh, .go (.insertOutbox affected sub rest)⟩ = some b) :
    (b.seen (enqueueProgram cfg q)).Stands (q.newRow fresh (clock fresh) sub) sub ∧
      (b.seen (enqueueProgram cfg q)).dlq = ((enqueueProgram cfg q).applyAll pending db).dlq := by
  obtain rfl := Option.some.inj
    (h.symm.trans (serve_deferred hoff clock db pending fresh affected rest))
  have hseen : Alone.seen (enqueueProgram cfg q)
      (⟨db, pending ++ [.insertOutbox (q.newRow fresh (clock fresh) sub)], fresh + 1,
        next affected rest⟩ : Alone Db Write (Flow EnqueuePc (List SubscriptionRow))) =
      (Write.insertOutbox (q.newRow fresh (clock fresh) sub)).apply
        ((enqueueProgram cfg q).applyAll pending db) := by
    rw [Alone.seen, Program.applyAll_append]
    rfl
  rw [hseen]
  exact ⟨Db.stands_insert hsub hnew, rfl⟩

/-- **The worker's attempt.** A failure makes the row FAILED when it was the last that
`max_attempts` allows. -/
theorem WorkerPc.attempt {db : Db} {row : OutboxRow} {eventId : Uuid} (hstands : db.Stands row sub)
    (hactive : sub.active = true) (hevent : row.payload.eventId = some eventId) {fresh : Uuid}
    {rest : List OutboxRow} {n : ℕ} {a : Alone Db Write WorkerPc}
    (h : turn clock outcome ⟨db, [], fresh, .markDelivering row rest n⟩ = some a) :
    ∃ row', AttemptEnds outcome
      (if row.maxAttempts ≤ row.attempts + 1 then .failed else .pending) eventId sub row db row'
      (a.seen workerProgram) := by
  obtain ⟨args, now, id, fresh', hargs, hturn⟩ := turn_eq outcome hactive hstands.subscription clock
    fresh rest n
  obtain rfl := Option.some.inj (h.symm.trans hturn)
  obtain ⟨how, hhow⟩ : ∃ how, how = afterDelivery row args outcome.ok := ⟨_, rfl⟩
  rw [← hhow]
  have hevent' : args.eventId = eventId := by
    rw [hargs, delivery, hevent]
    rfl
  have hpersist : args.persistDlq = false := by
    rw [hargs]
    rfl
  have hsub : args.subscription = sub := by
    rw [hargs]
    rfl
  let marked := (Write.updateOutbox row.id { status := .delivering }).apply db
  let attempted := workerProgram.applyAll (args.written outcome (fresh + 3)) marked
  let concluded := (Write.updateOutbox row.id (conclusionChange row now how)).apply attempted
  let row' := (conclusionChange row now how).apply
    (({ status := .delivering } : OutboxChange).apply row)
  have hconcluded : concluded.Stands row' sub :=
    Db.Stands.update ((hstands.update { status := .delivering }).letters (P := workerProgram) rfl
      (args.written_table outcome (fresh + 3))) (conclusionChange row now how)
  have hdlq : concluded.dlq = db.dlq := Db.dlq_applyAll (P := workerProgram) rfl
    (Delivery.written_dlq _ (.inr hpersist)) marked
  have hseen : Alone.seen workerProgram
      (⟨workerProgram.applyAll (.updateOutbox row.id { status := .delivering } ::
          args.written outcome (fresh + 3) ++
            .updateOutbox row.id (conclusionChange row now how) :: how.letters row id) db, [],
        fresh', nextItem (n + 1) rest⟩ : Alone Db Write WorkerPc) =
      workerProgram.applyAll (how.letters row id) concluded := by
    rw [Alone.seen, Program.applyAll_append]
    rfl
  refine ⟨row', ?_⟩
  rw [hseen]
  have hstands' := hconcluded.letters (P := workerProgram) rfl (how.letters_table row id)
  cases hok : outcome.ok with
  | true =>
    rw [hok] at hhow
    subst how
    exact ⟨hstands', rfl, rfl, rfl, rfl, (if_pos hok).symm, fun _ => hdlq, fun h => nomatch h⟩
  | false =>
    by_cases hlast : row.maxAttempts ≤ row.attempts + 1
    · have hexhausted : how = .exhausted args := by
        rw [hhow, hok]
        exact if_pos hlast
      subst hexhausted
      refine ⟨hstands', rfl, rfl, rfl, rfl, ?_, fun h => ?_, fun _ => ?_⟩
      · rw [hok, if_pos hlast]
        rfl
      · exact absurd (hok.symm.trans h) Bool.false_ne_true
      · rw [← hevent', ← hsub]
        exact args.deadLetter_upsertDlq _ _ _ concluded
    · have hretry : how = .retry := by
        rw [hhow, hok]
        exact if_neg hlast
      subst hretry
      refine ⟨hstands', rfl, rfl, rfl, rfl, ?_, fun _ => hdlq, fun h => nomatch h⟩
      rw [hok, if_neg hlast]
      rfl

theorem WorkerPc.exists_turn (outcome : Answer) {db : Db} {row : OutboxRow}
    (hactive : sub.active = true) (hstands : db.Stands row sub) (clock : ℕ → Time) :
    ∃ a, turn clock outcome ⟨db, [], 0, .markDelivering row [] 0⟩ = some a := by
  obtain ⟨args, now, id, fresh', -, hturn⟩ := turn_eq outcome hactive
    hstands.subscription clock 0 [] 0
  exact ⟨_, hturn⟩

end Attempts

end Driftgate.Runtime
