import Driftgate.Runtime.EnqueuedRows
import Driftgate.Runtime.OrphanedRows

/-!
# The life of an outbox row

One worker takes a PENDING row, posts it at most once, and counts one attempt. The row goes back to
PENDING, or it is DELIVERED, or its attempts are used up: then it is FAILED and there is a dead
letter for it. Between two rows of a batch every row is in one of these three situations, and no more
POSTs have been made for it than its counter says.

The counter that the worker writes is the one it has selected, plus one, so the invariant says that
the rows of a batch are still as they were selected. While a row is delivered, `Progress` says what
is known of its POSTs and what the open transaction will write.
-/

namespace Driftgate.Runtime

open Driftgate.ReadCommitted Driftgate.Transition

/-! ### Situations -/

/-- At most `n` POSTs; only the last one was answered 2xx, or none, as `ok` says. -/
def Attempted (n : ℕ) (ok : Bool) (posts : List Post) : Prop :=
  posts.length ≤ n ∧
    if ok then ∃ failures last, posts = failures ++ [last] ∧ last.answer.ok = true ∧
      ∀ p ∈ failures, p.answer.ok = false
    else ∀ p ∈ posts, p.answer.ok = false

/-- Where a row can be between two items of a batch, after its POSTs. The statuses tell the
situations apart. -/
inductive OutboxRow.Situation (row : OutboxRow) (db : Db) (posts : List Post) : Prop
  | pending (status : row.status = .pending) (attempts : row.attempts < row.maxAttempts)
      (unanswered : ∀ p ∈ posts, p.answer.ok = false)
  | delivered (status : row.status = .delivered) (attempts : row.attempts ≤ row.maxAttempts)
      (answered : ∃ failures last, posts = failures ++ [last] ∧ last.answer.ok = true ∧
        ∀ p ∈ failures, p.answer.ok = false)
  | failed (status : row.status = .failed) (attempts : row.attempts = row.maxAttempts)
      (unanswered : ∀ p ∈ posts, p.answer.ok = false)
      (dead : ∃ eventId consumerId endpointId, row.payload.eventId = some eventId ∧
        db.subscriber row.subscriptionId = some (consumerId, endpointId) ∧
        db.DeadLetter eventId consumerId row.maxAttempts)

/-- The situation of a row and the bound on its POSTs. -/
structure OutboxRow.Settled (row : OutboxRow) (db : Db) (posts : List Post) : Prop where
  situation : row.Situation db posts
  posts : posts.length ≤ row.attempts

theorem Attempted.mono {n m : ℕ} {ok : Bool} {posts : List Post} (h : Attempted n ok posts)
    (hle : n ≤ m) : Attempted m ok posts :=
  ⟨h.1.trans hle, h.2⟩

/-- One more POST. -/
theorem Attempted.post {n : ℕ} {posts : List Post} (h : Attempted n false posts) (p : Post) :
    Attempted (n + 1) p.answer.ok (posts ++ [p]) := by
  obtain ⟨hlength, hfailed⟩ := h
  rw [if_neg Bool.false_ne_true] at hfailed
  refine ⟨?_, ?_⟩
  · rw [List.length_append, List.length_singleton]
    omega
  · split
    · rename_i hok
      exact ⟨posts, p, rfl, hok, hfailed⟩
    · rename_i hok
      intro p' hp'
      obtain hp' | hp' := List.mem_append.mp hp'
      · exact hfailed p' hp'
      · rw [List.mem_singleton.mp hp']
        exact Bool.eq_false_of_not_eq_true hok

theorem OutboxRow.Settled.attempted {row : OutboxRow} {db : Db} {posts : List Post}
    (h : row.Settled db posts) (hp : row.status = .pending) :
    row.attempts < row.maxAttempts ∧ Attempted row.attempts false posts := by
  cases h.situation with
  | pending _ attempts unanswered => exact ⟨attempts, h.posts, by simpa using unanswered⟩
  | delivered status => rw [hp] at status; cases status
  | failed status => rw [hp] at status; cases status

theorem OutboxRow.Settled.mono {row : OutboxRow} {db db' : Db} {posts : List Post}
    (h : row.Settled db posts) (hk : db.Keeps db') : row.Settled db' posts := by
  refine ⟨?_, h.posts⟩
  cases h.situation with
  | pending status attempts unanswered => exact .pending status attempts unanswered
  | delivered status attempts answered => exact .delivered status attempts answered
  | failed status attempts unanswered dead =>
    obtain ⟨e, c, ep, he, hc, hd⟩ := dead
    exact .failed status attempts unanswered
      ⟨e, c, ep, he, hk.subscriber _ _ hc, hk.deadLetter _ _ _ hd⟩

theorem OutboxRow.New.settled {row : OutboxRow} (h : row.New) (db : Db) : row.Settled db [] :=
  ⟨.pending h.status h.attempts (by simp), Nat.zero_le _⟩

/-! ### Progress of the worker -/

/-- The delivery that an item is exhausted by names its event and its consumer. -/
def Delivery.IsFor (d : Delivery) (item : OutboxRow) (db : Db) : Prop :=
  item.payload.eventId = some d.eventId ∧ d.maxAttempts = 1 ∧ d.persistDlq = false ∧
    ∃ endpointId, db.subscriber item.subscriptionId = some (d.subscription.consumerId, endpointId)

/-- What is known of the POSTs of an item inside `deliver_with_retry`. -/
def DeliverPc.Progress (item : OutboxRow) (posts : List Post) : DeliverPc → Prop
  | .post n => n = 1 ∧ Attempted item.attempts false posts
  | .insertSuccess n => n = 1 ∧ Attempted (item.attempts + 1) true posts
  | .commitSuccess n => n = 1 ∧ Attempted (item.attempts + 1) true posts
  | .insertFailure n _ => n = 1 ∧ Attempted (item.attempts + 1) false posts
  | .upsertDlq _ => False
  | .commitFailure => Attempted (item.attempts + 1) false posts

/-- What is known when the final statement about an item is made. -/
def Conclusion.Fits (item : OutboxRow) (db : Db) (posts : List Post) : Conclusion → Prop
  | .gone => False
  | .delivered => Attempted (item.attempts + 1) true posts
  | .exhausted args => args.IsFor item db ∧ item.maxAttempts ≤ item.attempts + 1 ∧
      Attempted (item.attempts + 1) false posts
  | .retry => item.attempts + 1 < item.maxAttempts ∧ Attempted (item.attempts + 1) false posts

/-- The dead letter of a conclusion. -/
def Conclusion.letters (item : OutboxRow) (id : Uuid) : Conclusion → List Write
  | .exhausted args => [WorkerPc.deadLetter item args id]
  | _ => []

namespace WorkerPc

/-- The item whose mark is committed and whose final status is not. -/
def underway : WorkerPc → Option OutboxRow
  | selectSubscription item _ _ => some item
  | deliver item _ _ _ _ => some item
  | conclude item _ _ _ => some item
  | upsertDlq item _ _ _ => some item
  | commitItem item _ _ => some item
  | _ => none

/-- The items that are still to be delivered. -/
def batch : WorkerPc → List OutboxRow
  | markDelivering item rest _ => item :: rest
  | commitMark item rest _ => item :: rest
  | selectSubscription _ rest _ => rest
  | deliver _ rest _ _ _ => rest
  | conclude _ rest _ _ => rest
  | upsertDlq _ rest _ _ => rest
  | commitItem _ rest _ => rest
  | _ => []

theorem processing_eq (pc : WorkerPc) :
    (Party.worker pc).processing = pc.underway.map (·.id) := by
  cases pc <;> rfl

/-- What is known of the item under way, and what the open transaction holds. -/
def Progress (db : Db) (posts : Uuid → List Post) (pending : List Write) : WorkerPc → Prop
  | commitMark item _ _ => pending = [.updateOutbox item.id { status := .delivering }]
  | selectSubscription item _ _ =>
    pending = [] ∧ Attempted item.attempts false (posts item.id)
  | deliver item _ _ args pc =>
    (∀ wr ∈ pending, wr.table = .attempts) ∧ args.IsFor item db ∧ pc.Progress item (posts item.id)
  | conclude item _ _ how => pending = [] ∧ how.Fits item db (posts item.id)
  | upsertDlq item _ _ args =>
    pending = [.updateOutbox item.id (conclusionChange item 0 (.exhausted args))] ∧
      (Conclusion.exhausted args).Fits item db (posts item.id)
  | commitItem item _ _ => ∃ how now id, how.Fits item db (posts item.id) ∧
      pending = .updateOutbox item.id (conclusionChange item now how) :: how.letters item id
  | _ => pending = []

end WorkerPc

section Invariant

variable {ι : Type*}

/-- What holds of a worker. -/
structure WorkerPc.Holds (pc : WorkerPc) (w : Shared Db Effect ι) (pending : List Write) : Prop where
  batch : ∀ item ∈ pc.batch, item ∈ w.db.outbox ∧ item.status = .pending
  nodup : ((pc.underway.toList ++ pc.batch).map (·.id)).Nodup
  underway : ∀ item, pc.underway = some item →
    { item with status := .delivering } ∈ w.db.outbox ∧ item.attempts < item.maxAttempts
  progress : pc.Progress w.db (postsFor w.trace) pending

/-- What holds of the tables and the POSTs. -/
structure OutboxSound (w : Shared Db Effect ι) : Prop where
  nodup : (w.db.outbox.map (·.id)).Nodup
  used : ∀ row ∈ w.db.outbox, row.id < w.fresh
  event : ∀ row ∈ w.db.outbox, row.payload.eventId ≠ none
  known : ∀ row ∈ w.db.outbox, ∃ k, w.db.subscriber row.subscriptionId = some k
  posted : ∀ id, postsFor w.trace id ≠ [] → ∃ row ∈ w.db.outbox, row.id = id

/-- What holds of a party, where `worker` is the only worker: all rows but the one under way are
settled. -/
structure Tends (worker i : ι) (w : Shared Db Effect ι) (o : Own Write LockKey Party) : Prop where
  settled : i = worker → ∀ row ∈ w.db.outbox, o.loc.processing ≠ some row.id →
    row.Settled w.db (postsFor w.trace row.id)
  works : ∀ pc, o.loc = .worker pc → i = worker ∧ pc.Holds w o.pending
  adds : (∀ pc, o.loc ≠ .worker pc) → Adding w o

end Invariant

/-! ### What somebody else's step leaves -/

theorem Delivery.IsFor.mono {d : Delivery} {item : OutboxRow} {db db' : Db} (h : d.IsFor item db)
    (hk : db.Keeps db') : d.IsFor item db' := by
  obtain ⟨he, hmax, hpersist, ep, hc⟩ := h
  exact ⟨he, hmax, hpersist, ep, hk.subscriber _ _ hc⟩

theorem Conclusion.Fits.mono {how : Conclusion} {item : OutboxRow} {db db' : Db}
    {posts : List Post} (h : how.Fits item db posts) (hk : db.Keeps db') :
    how.Fits item db' posts := by
  cases how with
  | exhausted args => exact ⟨h.1.mono hk, h.2⟩
  | _ => exact h

theorem WorkerPc.Progress.mono {pc : WorkerPc} {db db' : Db} {posts : Uuid → List Post}
    {pending : List Write} (h : pc.Progress db posts pending) (hk : db.Keeps db') :
    pc.Progress db' posts pending := by
  cases pc with
  | deliver item rest n args pc => exact ⟨h.1, h.2.1.mono hk, h.2.2⟩
  | conclude item rest n how => exact ⟨h.1, Conclusion.Fits.mono h.2 hk⟩
  | upsertDlq item rest n args => exact ⟨h.1, Conclusion.Fits.mono h.2 hk⟩
  | commitItem item rest n =>
    obtain ⟨how, now, id, hfits, hpending⟩ := h
    exact ⟨how, now, id, hfits.mono hk, hpending⟩
  | _ => exact h

section Others

variable {ι : Type*} {w w' : Shared Db Effect ι} {rows : List OutboxRow}

theorem WorkerPc.Holds.grown {pc : WorkerPc} {pending : List Write} (h : pc.Holds w pending)
    (hg : Grown w w' rows) : pc.Holds w' pending where
  batch item hitem := by
    obtain ⟨hmem, hstatus⟩ := h.batch item hitem
    rw [hg.outbox]
    exact ⟨List.mem_append_left _ hmem, hstatus⟩
  nodup := h.nodup
  underway item hitem := by
    obtain ⟨hmem, hattempts⟩ := h.underway item hitem
    rw [hg.outbox]
    exact ⟨List.mem_append_left _ hmem, hattempts⟩
  progress := by
    rw [show postsFor w'.trace = postsFor w.trace from funext hg.posts]
    exact h.progress.mono hg.keeps

/-- Nothing has been posted for a row that is not in the outbox. -/
theorem OutboxSound.posts_eq_nil (h : OutboxSound w) {id : Uuid}
    (hid : ∀ row ∈ w.db.outbox, row.id ≠ id) : postsFor w.trace id = [] := by
  by_contra hne
  obtain ⟨row, hrow, hrid⟩ := h.posted id hne
  exact hid row hrow hrid

theorem OutboxSound.grown (h : OutboxSound w) (hg : Grown w w' rows) (hrows : NewRows w rows) :
    OutboxSound w' where
  nodup := by
    rw [hg.outbox, List.map_append, List.nodup_append]
    refine ⟨h.nodup, hrows.nodup, fun id hid id' hid' => ?_⟩
    obtain ⟨r, hr, rfl⟩ := List.mem_map.mp hid
    obtain ⟨row, hrow, rfl⟩ := List.mem_map.mp hid'
    exact hrows.apart row hrow r hr
  used row hrow := by
    rw [hg.outbox] at hrow
    obtain hrow | hrow := List.mem_append.mp hrow
    · exact lt_of_lt_of_le (h.used row hrow) hg.fresh
    · exact lt_of_lt_of_le (hrows.used row hrow) hg.fresh
  event row hrow := by
    rw [hg.outbox] at hrow
    obtain hrow | hrow := List.mem_append.mp hrow
    · exact h.event row hrow
    · exact (hrows.new row hrow).event
  known row hrow := by
    have hbefore : ∃ k, w.db.subscriber row.subscriptionId = some k := by
      rw [hg.outbox] at hrow
      obtain hrow | hrow := List.mem_append.mp hrow
      · exact h.known row hrow
      · exact hrows.known row hrow
    obtain ⟨k, hk⟩ := hbefore
    exact ⟨k, hg.keeps.subscriber _ k hk⟩
  posted id hid := by
    rw [hg.posts] at hid
    obtain ⟨row, hrow, hrid⟩ := h.posted id hid
    rw [hg.outbox]
    exact ⟨row, List.mem_append_left _ hrow, hrid⟩

/-- New rows are settled. -/
theorem settled_of_grown (busy : Option Uuid) (hw : OutboxSound w) (hg : Grown w w' rows)
    (hrows : NewRows w rows) (h : ∀ row ∈ w.db.outbox, busy ≠ some row.id →
      row.Settled w.db (postsFor w.trace row.id)) :
    ∀ row ∈ w'.db.outbox, busy ≠ some row.id → row.Settled w'.db (postsFor w'.trace row.id) := by
  intro row hrow hbusy
  rw [hg.posts]
  rw [hg.outbox] at hrow
  obtain hrow | hrow := List.mem_append.mp hrow
  · exact (h row hrow hbusy).mono hg.keeps
  · rw [hw.posts_eq_nil (hrows.apart row hrow)]
    exact (hrows.new row hrow).settled w'.db

/-- A party that adds rows keeps what it knows while the worker works on rows of the outbox. -/
theorem Adding.worked {o : Own Write LockKey Party} (h : Adding w o) (hk : w.db.Keeps w'.db)
    (hfresh : w.fresh ≤ w'.fresh)
    (hids : w'.db.outbox.map (·.id) = w.db.outbox.map (·.id)) : Adding w' o where
  rows := by
    refine ⟨h.rows.new, fun row hrow => ?_, fun row hrow => ?_, fun row hrow r hr => ?_, h.rows.nodup⟩
    · obtain ⟨k, hk'⟩ := h.rows.known row hrow
      exact ⟨k, hk.subscriber _ k hk'⟩
    · exact lt_of_lt_of_le (h.rows.used row hrow) hfresh
    · have hid : r.id ∈ w.db.outbox.map (·.id) := hids ▸ List.mem_map_of_mem hr
      obtain ⟨r', hr', heq⟩ := List.mem_map.mp hid
      rw [← heq]
      exact h.rows.apart row hrow r' hr'
  locked := h.locked
  only := h.only
  serves := by
    intro sub hsub
    obtain ⟨k, hk'⟩ := h.serves sub hsub
    exact ⟨k, hk.subscriber _ k hk'⟩
  tables := h.tables

end Others

/-! ### Rows after a commit of the worker -/

theorem outbox_applyAll_none (cfg : Config) {ws : List Write} (h : ∀ wr ∈ ws, wr.outboxId = none)
    (db : Db) : ((program cfg).applyAll ws db).outbox = db.outbox := by
  refine (program cfg).applyAll_keep Db.outbox (fun w hw db => ?_) db
  have hn := h w hw
  cases w with
  | insertOutbox row => cases hn
  | updateOutbox id change => cases hn
  | _ => rfl

theorem map_id_updateWhere (id : Uuid) (change : OutboxChange) (rows : List OutboxRow) :
    (updateWhere (·.id = id) change.apply rows).map (·.id) = rows.map (·.id) := by
  rw [updateWhere, List.map_map]
  refine List.map_congr_left fun r _ => ?_
  show (if _ then change.apply r else r).id = r.id
  split <;> rfl

section Commits

variable {ι : Type*} {w w' : Shared Db Effect ι} {row₀ : OutboxRow} {change : OutboxChange}

/-- A commit that changes one row of the outbox. -/
structure Rewritten (w w' : Shared Db Effect ι) (row₀ : OutboxRow) (change : OutboxChange) :
    Prop where
  mem : ∀ row, row ∈ w'.db.outbox ↔
    row = change.apply row₀ ∨ row ∈ w.db.outbox ∧ row.id ≠ row₀.id
  ids : w'.db.outbox.map (·.id) = w.db.outbox.map (·.id)
  trace : w'.trace = w.trace
  keeps : w.db.Keeps w'.db
  fresh : w'.fresh = w.fresh + 1

theorem OutboxSound.rewritten_of_commit (h : OutboxSound w) (cfg : Config) (hrow : row₀ ∈ w.db.outbox)
    {ws : List Write} (hws : ∀ wr ∈ ws, wr.outboxId = none) (i : ι) (next : Party) :
    Rewritten w ((Op.commit next).shared (program cfg) i (.updateOutbox row₀.id change :: ws) w)
      row₀ change := by
  have houtbox : ((Op.commit next).shared (program cfg) i (.updateOutbox row₀.id change :: ws)
      w).db.outbox = updateWhere (·.id = row₀.id) change.apply w.db.outbox :=
    outbox_applyAll_none cfg hws _
  refine ⟨fun row => ?_, ?_, rfl, .shared cfg i _ w _, rfl⟩
  · rw [houtbox, updateWhere, List.mem_map]
    constructor
    · rintro ⟨r, hr, rfl⟩
      by_cases hid : r.id = row₀.id
      · rw [if_pos (decide_eq_true hid), List.inj_on_of_nodup_map h.nodup hr hrow hid]
        exact .inl rfl
      · rw [if_neg (by simpa using hid)]
        exact .inr ⟨hr, hid⟩
    · rintro (rfl | ⟨hr, hid⟩)
      · exact ⟨row₀, hrow, if_pos (decide_eq_true rfl)⟩
      · exact ⟨row, hr, if_neg (by simpa using hid)⟩
  · rw [houtbox, map_id_updateWhere]

theorem Rewritten.sound (hr : Rewritten w w' row₀ change) (h : OutboxSound w)
    (hrow : row₀ ∈ w.db.outbox) : OutboxSound w' where
  nodup := by
    rw [hr.ids]
    exact h.nodup
  used row hmem := by
    rw [hr.fresh]
    obtain rfl | ⟨hmem, -⟩ := (hr.mem row).mp hmem
    · exact Nat.lt_succ_of_lt (h.used row₀ hrow)
    · exact Nat.lt_succ_of_lt (h.used row hmem)
  event row hmem := by
    obtain rfl | ⟨hmem, -⟩ := (hr.mem row).mp hmem
    · exact h.event row₀ hrow
    · exact h.event row hmem
  known row hmem := by
    have hbefore : ∃ k, w.db.subscriber row.subscriptionId = some k := by
      obtain rfl | ⟨hmem, -⟩ := (hr.mem row).mp hmem
      · exact h.known row₀ hrow
      · exact h.known row hmem
    obtain ⟨k, hk⟩ := hbefore
    exact ⟨k, hr.keeps.subscriber _ k hk⟩
  posted id hid := by
    rw [hr.trace] at hid
    obtain ⟨row, hmem, hrid⟩ := h.posted id hid
    have hmap : id ∈ w'.db.outbox.map (·.id) := by
      rw [hr.ids]
      exact hrid ▸ List.mem_map_of_mem hmem
    exact List.mem_map.mp hmap

/-- The other rows stay settled. -/
theorem Rewritten.settled (hr : Rewritten w w' row₀ change)
    (h : ∀ row ∈ w.db.outbox, row.id ≠ row₀.id → row.Settled w.db (postsFor w.trace row.id)) :
    ∀ row ∈ w'.db.outbox, row.id ≠ row₀.id →
      row.Settled w'.db (postsFor w'.trace row.id) := by
  intro row hmem hid
  rw [hr.trace]
  obtain rfl | ⟨hmem, -⟩ := (hr.mem row).mp hmem
  · exact absurd rfl hid
  · exact (h row hmem hid).mono hr.keeps

/-- The rest of the batch stays as it was selected. -/
theorem Rewritten.batch (hr : Rewritten w w' row₀ change) {items : List OutboxRow}
    (h : ∀ item ∈ items, item ∈ w.db.outbox ∧ item.status = .pending)
    (hid : row₀.id ∉ items.map (·.id)) :
    ∀ item ∈ items, item ∈ w'.db.outbox ∧ item.status = .pending := by
  intro item hitem
  obtain ⟨hmem, hstatus⟩ := h item hitem
  refine ⟨(hr.mem item).mpr (.inr ⟨hmem, fun heq => hid ?_⟩), hstatus⟩
  rw [← heq]
  exact List.mem_map_of_mem hitem

end Commits

/-! ### Steps of the worker -/

/-- A batch is made of distinct pending rows. -/
theorem selectBatch_rows {v : DbView} (hnodup : (v.db.outbox.map (·.id)).Nodup) (now : Time) :
    (∀ item ∈ selectBatch v now, item ∈ v.db.outbox ∧ item.status = .pending) ∧
      ((selectBatch v now).map (·.id)).Nodup := by
  refine ⟨fun item hitem => mem_selectBatch hitem, ?_⟩
  have hdue : ((v.db.outbox.filter fun r => r.status = .pending && r.nextRetryAt ≤ now).map
      (·.id)).Nodup := hnodup.sublist (List.filter_sublist.map _)
  have hsorted := ((List.perm_insertionSort (fun a b : OutboxRow => a.createdAt ≤ b.createdAt)
    (v.db.outbox.filter fun r => r.status = .pending && r.nextRetryAt ≤ now)).map
      (·.id)).nodup_iff.mpr hdue
  exact hsorted.sublist (((List.take_sublist _ _).trans List.filter_sublist).map _)

section Worker

variable {ι : Type*} {w w' : Shared Db Effect ι} {pc pc' : WorkerPc} {pending pending' : List Write}

/-- What holds where a worker is the only one: the row under way is the only one that is not
settled. -/
structure WorkerPc.Attends (pc : WorkerPc) (w : Shared Db Effect ι) (pending : List Write) :
    Prop where
  sound : OutboxSound w
  settled : ∀ row ∈ w.db.outbox, pc.underway.map (·.id) ≠ some row.id →
    row.Settled w.db (postsFor w.trace row.id)
  holds : pc.Holds w pending

/-- What a step of the worker leads to, and what the others see of it. -/
structure WorkerPc.Worked (w w' : Shared Db Effect ι) (pc' : WorkerPc) (pending' : List Write) :
    Prop where
  keeps : w.db.Keeps w'.db
  fresh : w.fresh ≤ w'.fresh
  ids : w'.db.outbox.map (·.id) = w.db.outbox.map (·.id)
  attends : pc'.Attends w' pending'

/-- The same item, at its next statement. -/
theorem WorkerPc.Holds.next (h : pc.Holds w pending) (hbatch : pc'.batch = pc.batch)
    (hunderway : pc'.underway = pc.underway)
    (hprogress : pc'.Progress w.db (postsFor w.trace) pending') : pc'.Holds w pending' where
  batch := hbatch ▸ h.batch
  nodup := by
    rw [hbatch, hunderway]
    exact h.nodup
  underway := hunderway ▸ h.underway
  progress := hprogress

/-- Nothing in hand and nothing to do. -/
theorem WorkerPc.Holds.idle (hbatch : pc'.batch = []) (hunderway : pc'.underway = none)
    (hprogress : pc'.Progress w.db (postsFor w.trace) pending') : pc'.Holds w pending' where
  batch := by simp [hbatch]
  nodup := by simp [hbatch, hunderway]
  underway := by simp [hunderway]
  progress := hprogress

/-- A step that neither commits nor posts. -/
theorem WorkerPc.Attends.silent (h : pc.Attends w pending)
    (hunderway : pc.underway.map (·.id) = pc'.underway.map (·.id)) (hholds : pc'.Holds w pending') :
    Worked w { w with fresh := w.fresh + 1 } pc' pending' where
  keeps := .refl w.db
  fresh := Nat.le_succ w.fresh
  ids := rfl
  attends := by
    refine ⟨?_, ?_, hholds.batch, hholds.nodup, hholds.underway, hholds.progress⟩
    · exact ⟨h.sound.nodup, fun row hrow => Nat.lt_succ_of_lt (h.sound.used row hrow), h.sound.event,
        h.sound.known, h.sound.posted⟩
    · intro row hrow hne
      exact h.settled row hrow (hunderway ▸ hne)

/-- A commit of something else than the outbox. -/
theorem WorkerPc.Attends.record (h : pc.Attends w pending) (cfg : Config) (i : ι) (next : Party)
    (hws : ∀ wr ∈ pending, wr.table = .attempts)
    (hunderway : pc.underway.map (·.id) = pc'.underway.map (·.id)) (hholds : pc'.Holds w pending') :
    Worked w ((Op.commit next).shared (program cfg) i pending w) pc' pending' := by
  have hnone : ∀ wr ∈ pending, wr.outboxId = none := by
    intro wr hwr
    refine Write.outboxId_of_table ?_
    rw [hws wr hwr]
    decide
  have hgrown : Grown w ((Op.commit next).shared (program cfg) i pending w) [] := by
    refine ⟨?_, fun _ => rfl, .shared cfg i pending w _, Nat.le_succ _⟩
    rw [List.append_nil]
    exact outbox_applyAll_none cfg hnone w.db
  refine ⟨hgrown.keeps, hgrown.fresh, ?_, ?_⟩
  · rw [hgrown.outbox, List.append_nil]
  · refine ⟨h.sound.grown hgrown (.nil w), ?_, hholds.grown hgrown⟩
    refine settled_of_grown _ h.sound hgrown (.nil w) fun row hrow hne => ?_
    exact h.settled row hrow (hunderway ▸ hne)

/-- A POST for the row under way. -/
theorem WorkerPc.Attends.post (h : pc.Attends w pending) (i : ι) {item : OutboxRow} {post : Post}
    (hitem : pc.underway = some item) (hbatch : pc'.batch = pc.batch)
    (hunderway : pc'.underway = pc.underway)
    (hprogress : pc'.Progress w.db (postsFor (w.trace ++ [(i, .posted item.id post)])) pending') :
    Worked w { w with trace := w.trace ++ [(i, .posted item.id post)], fresh := w.fresh + 1 } pc'
      pending' where
  keeps := .refl w.db
  fresh := Nat.le_succ w.fresh
  ids := rfl
  attends := by
    have hposts : ∀ id, id ≠ item.id →
        postsFor (w.trace ++ [(i, .posted item.id post)]) id = postsFor w.trace id := by
      intro id hid
      rw [postsFor_append, Effect.postFor, if_neg (Ne.symm hid)]
      exact List.append_nil _
    refine ⟨⟨h.sound.nodup, fun row hrow => Nat.lt_succ_of_lt (h.sound.used row hrow), h.sound.event,
      h.sound.known, fun id hid => ?_⟩, fun row hrow hne => ?_, ?_⟩
    · by_cases heq : id = item.id
      · obtain ⟨hmem, -⟩ := h.holds.underway item hitem
        exact ⟨_, hmem, heq.symm⟩
      · exact h.sound.posted id fun hnil => hid ((hposts id heq).trans hnil)
    · rw [hunderway, hitem] at hne
      show row.Settled w.db (postsFor (w.trace ++ _) row.id)
      rw [hposts row.id fun heq => hne (congrArg some heq.symm)]
      exact h.settled row hrow (hitem ▸ hne)
    · refine ⟨hbatch ▸ h.holds.batch, ?_, hunderway ▸ h.holds.underway, hprogress⟩
      rw [hbatch, hunderway]
      exact h.holds.nodup

theorem WorkerPc.nextItem_batch (n : ℕ) (items : List OutboxRow) :
    (nextItem n items).batch = items ∧ (nextItem n items).underway = none := by
  cases items <;> exact ⟨rfl, rfl⟩

theorem WorkerPc.nextItem_progress (n : ℕ) (items : List OutboxRow) (db : Db)
    (posts : Uuid → List Post) : (nextItem n items).Progress db posts [] := by
  cases items <;> rfl

/-- At the head of the loop over the batch. -/
theorem WorkerPc.nextItem_holds (n : ℕ) {items : List OutboxRow}
    (hrows : ∀ item ∈ items, item ∈ w.db.outbox ∧ item.status = .pending)
    (hnodup : (items.map (·.id)).Nodup) : (nextItem n items).Holds w [] where
  batch := by
    rw [(nextItem_batch n items).1]
    exact hrows
  nodup := by
    rw [(nextItem_batch n items).1, (nextItem_batch n items).2]
    exact hnodup
  underway := by simp [(nextItem_batch n items).2]
  progress := nextItem_progress n items _ _

/-- The commit that marks a row. -/
theorem WorkerPc.Attends.mark {item : OutboxRow} {rest : List OutboxRow} {n : ℕ}
    (h : (WorkerPc.commitMark item rest n).Attends w pending) (cfg : Config) (i : ι) (next : Party) :
    Worked w ((Op.commit next).shared (program cfg) i pending w) (.selectSubscription item rest n)
      [] := by
  have hpending : pending = [.updateOutbox item.id { status := .delivering }] := h.holds.progress
  obtain ⟨hmem, hstatus⟩ := h.holds.batch item List.mem_cons_self
  obtain ⟨hattempts, hposts⟩ := (h.settled item hmem (Option.some_ne_none _).symm).attempted hstatus
  have hnodup : ((item :: rest).map (·.id)).Nodup := h.holds.nodup
  have hr : Rewritten w ((Op.commit next).shared (program cfg) i pending w) item
      { status := .delivering } := by
    rw [hpending]
    exact h.sound.rewritten_of_commit cfg hmem (by simp) i next
  refine ⟨hr.keeps, Nat.le_of_lt (by rw [hr.fresh]; exact Nat.lt_succ_self _), hr.ids,
    hr.sound h.sound hmem, fun row hrow hne => ?_, ?_, h.holds.nodup, ?_, rfl, ?_⟩
  · have hid : row.id ≠ item.id := fun heq => hne (congrArg some heq.symm)
    exact hr.settled (fun row hrow _ => h.settled row hrow (Option.some_ne_none _).symm) row hrow hid
  · refine hr.batch (fun item' hitem => h.holds.batch item' (List.mem_cons_of_mem _ hitem)) ?_
    exact (List.nodup_cons.mp hnodup).1
  · intro item' hitem
    obtain rfl := Option.some.inj hitem
    exact ⟨(hr.mem _).mpr (.inl rfl), hattempts⟩
  · rw [hr.trace]
    exact hposts

/-- A conclusion settles its row. -/
theorem Conclusion.settles {how : Conclusion} {item : OutboxRow} {db : Db} {posts : List Post}
    (h : how.Fits item db posts) (hattempts : item.attempts < item.maxAttempts) (now : Time)
    (hdead : ∀ args, how = .exhausted args →
      db.DeadLetter args.eventId args.subscription.consumerId (item.attempts + 1)) :
    ((WorkerPc.conclusionChange item now how).apply { item with status := .delivering }).Settled db
      posts := by
  cases how with
  | gone => exact h.elim
  | delivered =>
    obtain ⟨hlength, hok⟩ := h
    exact ⟨.delivered rfl hattempts (by simpa using hok), hlength⟩
  | exhausted args =>
    obtain ⟨⟨he, -, -, ep, hc⟩, hmax, hlength, hfailed⟩ := h
    have hlast : item.attempts + 1 = item.maxAttempts := by omega
    refine ⟨.failed rfl hlast (by simpa using hfailed) ⟨_, _, ep, he, hc, ?_⟩, hlength⟩
    show db.DeadLetter _ _ item.maxAttempts
    rw [← hlast]
    exact hdead args rfl
  | retry =>
    obtain ⟨hmore, hlength, hfailed⟩ := h
    exact ⟨.pending rfl hmore (by simpa using hfailed), hlength⟩

/-- The commit of the final status. -/
theorem WorkerPc.Attends.settle {item : OutboxRow} {rest : List OutboxRow} {n : ℕ}
    (h : (WorkerPc.commitItem item rest n).Attends w pending) (cfg : Config) (i : ι) (next : Party) :
    Worked w ((Op.commit next).shared (program cfg) i pending w) (nextItem (n + 1) rest) [] := by
  obtain ⟨how, now, id, hfits, hpending⟩ := h.holds.progress
  obtain ⟨hmem, hattempts⟩ := h.holds.underway item rfl
  have hnodup : ((item :: rest).map (·.id)).Nodup := h.holds.nodup
  have hletters : ∀ wr ∈ how.letters item id, wr.outboxId = none := by
    cases how <;> simp [Conclusion.letters, deadLetter, Delivery.upsertDlq, Write.outboxId]
  have hr : Rewritten w ((Op.commit next).shared (program cfg) i pending w)
      { item with status := .delivering } (conclusionChange item now how) := by
    rw [hpending]
    exact h.sound.rewritten_of_commit cfg hmem hletters i next
  have hothers := hr.settled fun row hrow hne =>
    h.settled row hrow fun heq => hne (Option.some.inj heq).symm
  refine ⟨hr.keeps, Nat.le_of_lt (by rw [hr.fresh]; exact Nat.lt_succ_self _), hr.ids,
    hr.sound h.sound hmem, fun row hrow _ => ?_, nextItem_holds (n + 1) ?_ ?_⟩
  · by_cases hid : row.id = item.id
    · obtain rfl | ⟨-, hne⟩ := (hr.mem row).mp hrow
      · rw [hr.trace]
        refine Conclusion.settles (hfits.mono hr.keeps) hattempts now fun args hargs => ?_
        rw [hpending, hargs]
        exact deadLetter_upsert _ _
      · exact absurd hid hne
    · exact hothers row hrow hid
  · exact hr.batch h.holds.batch (List.nodup_cons.mp hnodup).1
  · exact (List.nodup_cons.mp hnodup).2

/-- After the delivery of an item. -/
theorem WorkerPc.afterDelivery_fits {item : OutboxRow} {args : Delivery} {db : Db}
    {posts : List Post} (hargs : args.IsFor item db) {ok : Bool}
    (h : Attempted (item.attempts + 1) ok posts) :
    (afterDelivery item args ok).Fits item db posts := by
  cases ok with
  | true => exact h
  | false =>
    rw [afterDelivery, if_neg Bool.false_ne_true]
    split
    · rename_i hmax
      exact ⟨hargs, hmax, h⟩
    · rename_i hmax
      exact ⟨Nat.lt_of_not_le hmax, h⟩

/-- A worker in the middle of a delivery. -/
theorem WorkerPc.Attends.deliver {item : OutboxRow} {rest : List OutboxRow} {n : ℕ}
    {args : Delivery} {dpc : DeliverPc} (h : (WorkerPc.deliver item rest n args dpc).Attends w pending)
    (cfg : Config) (i : ι) {v : DbView} {x : Input}
    {op : Op Write LockKey Post (Flow DeliverPc Bool)}
    (hx : x.crash = true → ∃ k, dpc = .post k) (hop : args.step dpc v x = some op) :
    Worked w (((op.map (delivering item rest n args) (.posted item.id)).map Party.worker id).shared
      (program cfg) i pending w) (delivering item rest n args op.next) (op.pendingAfter pending) := by
  obtain ⟨htables, hargs, hprogress⟩ := h.holds.progress
  have hrecorded : ∀ reason ok, ∀ wr ∈ pending ++ [args.insertAttempt v.fresh ok reason 1],
      wr.table = .attempts := by
    intro reason ok wr hwr
    obtain hwr | hwr := List.mem_append.mp hwr
    · exact htables wr hwr
    · rw [List.mem_singleton.mp hwr]
      rfl
  have hnew : ∀ post : Post, Attempted item.attempts false (postsFor w.trace item.id) →
      Attempted (item.attempts + 1) post.answer.ok
        (postsFor (w.trace ++ [(i, .posted item.id post)]) item.id) := by
    intro post hposts
    rw [postsFor_append, Effect.postFor, if_pos rfl]
    exact hposts.post post
  have hno : ∀ {reason}, x = .raise reason → ∀ {P : Prop}, (∀ k, dpc ≠ .post k) → P := by
    rintro reason rfl P hpc
    obtain ⟨k, hk⟩ := hx rfl
    exact absurd hk (hpc k)
  cases Delivery.step_move hop with
  | unanswered k reason =>
    obtain ⟨rfl, hposts⟩ := hprogress
    exact h.post i rfl rfl rfl ⟨htables, hargs, rfl, hnew _ hposts⟩
  | answered k code =>
    obtain ⟨rfl, hposts⟩ := hprogress
    refine h.post i rfl rfl rfl ⟨htables, hargs, ?_⟩
    have hattempted := hnew ⟨args.subscription.targetUrl, args.payload, .status code⟩ hposts
    by_cases hok : (Answer.status code).ok = true
    · rw [if_pos hok]
      exact ⟨rfl, hok ▸ hattempted⟩
    · rw [if_neg hok]
      exact ⟨rfl, Bool.eq_false_of_not_eq_true hok ▸ hattempted⟩
  | success k =>
    obtain ⟨rfl, hposts⟩ := hprogress
    exact h.silent rfl (h.holds.next rfl rfl ⟨hrecorded _ _, hargs, rfl, hposts⟩)
  | delivered k =>
    obtain ⟨rfl, hposts⟩ := hprogress
    exact h.record cfg i _ htables rfl (h.holds.next rfl rfl ⟨rfl, afterDelivery_fits hargs hposts⟩)
  | failure k reason =>
    obtain ⟨rfl, hposts⟩ := hprogress
    -- the first attempt is the last one, and the dead letter is left to the worker
    have hlast : args.afterFailure 1 reason = .commitFailure := by
      rw [Delivery.afterFailure, if_pos hargs.2.1.symm, hargs.2.2.1, if_neg Bool.false_ne_true]
    simp only [hlast]
    exact h.silent rfl (h.holds.next rfl rfl ⟨hrecorded _ _, hargs, hposts⟩)
  | deadLetter => exact hprogress.elim
  | givenUp =>
    exact h.record cfg i _ htables rfl
      (h.holds.next rfl rfl ⟨rfl, afterDelivery_fits hargs hprogress⟩)
  | successRaises | deliveredRaises | failureRaises | deadLetterRaises | givenUpRaises =>
    refine hno rfl fun k hk => ?_
    cases hk

/-- Only a worker that waits for an answer survives what it waits for raising. -/
theorem WorkerPc.survives_cases {pc : WorkerPc} {x : Input}
    (h : (Party.worker pc).survives x = true) :
    ∃ item rest n args k, pc = .deliver item rest n args (.post k) := by
  cases x <;> simp only [Party.survives, Bool.false_eq_true] at h
  cases pc with
  | deliver item rest n args dpc =>
    cases dpc with
    | post k => exact ⟨item, rest, n, args, k, rfl⟩
    | _ => cases h
  | _ => cases h

/-- **One step of the worker.** -/
theorem WorkerPc.Attends.step (h : pc.Attends w pending) (cfg : Config) (i : ι)
    {busy : LockKey → Bool} {x : Input} {op : Op Write LockKey Effect WorkerPc}
    (hx : x.crash = true → (Party.worker pc).survives x = true)
    (hop : pc.step ⟨(program cfg).applyAll pending w.db, busy, w.fresh⟩ x = some op) :
    Worked w ((op.map Party.worker id).shared (program cfg) i pending w) op.next
      (op.pendingAfter pending) := by
  by_cases hdeliver : ∃ item rest n args dpc, pc = .deliver item rest n args dpc
  · obtain ⟨item, rest, n, args, dpc, rfl⟩ := hdeliver
    have hpost : x.crash = true → ∃ k, dpc = .post k := by
      intro hc
      obtain ⟨item', rest', n', args', k, heq⟩ := survives_cases (hx hc)
      cases heq
      exact ⟨k, rfl⟩
    obtain ⟨hstop, -⟩ | ⟨dop, hd, rfl⟩ := deliver_cases hop
    · obtain rfl | rfl := hstop <;> cases hx rfl
    rw [Op.next_map, Op.pendingAfter_map]
    exact h.deliver cfg i hpost hd
  have hnot : ∀ item rest n args dpc, pc ≠ .deliver item rest n args dpc :=
    fun item rest n args dpc hpc => hdeliver ⟨item, rest, n, args, dpc, hpc⟩
  have hcalm : x.crash = false := by
    by_contra hc
    obtain ⟨item, rest, n, args, k, heq⟩ := survives_cases (hx (Bool.eq_true_of_not_eq_false hc))
    exact hnot item rest n args _ heq
  obtain ⟨now, rfl⟩ := step_proceed hop hcalm hnot
  have hprogress := h.holds.progress
  cases pc with
  | deliver item rest n args dpc => exact absurd rfl (hnot item rest n args dpc)
  | poll =>
    obtain rfl : pending = [] := hprogress
    obtain rfl := Option.some.inj hop
    obtain ⟨hrows, hnodup⟩ := @selectBatch_rows ⟨w.db, busy, w.fresh⟩ h.sound.nodup now
    have hunderway := (nextItem_batch 0 (selectBatch ⟨w.db, busy, w.fresh⟩ now)).2
    exact h.silent (congrArg (Option.map (·.id)) hunderway).symm (nextItem_holds 0 hrows hnodup)
  | markDelivering item rest n =>
    obtain rfl : pending = [] := hprogress
    obtain rfl := Option.some.inj hop
    exact h.silent rfl (h.holds.next rfl rfl rfl)
  | commitMark item rest n =>
    obtain rfl := Option.some.inj hop
    exact h.mark cfg i _
  | selectSubscription item rest n =>
    obtain ⟨rfl, hposts⟩ := hprogress
    obtain ⟨hmem, -⟩ := h.holds.underway item rfl
    simp only [WorkerPc.step, Program.applyAll_nil] at hop
    split at hop
    · rename_i hnone
      -- the subscription of a row is there
      obtain ⟨k, hk⟩ := h.sound.known _ hmem
      obtain ⟨sub, hsub, -⟩ := Option.map_eq_some_iff.mp hk
      cases hnone.symm.trans hsub
    · rename_i sub hsub
      obtain rfl := Option.some.inj hop
      obtain ⟨e, he⟩ := Option.ne_none_iff_exists'.mp (h.sound.event _ hmem)
      have hargs : (delivery item sub w.fresh).IsFor item w.db := by
        refine ⟨?_, rfl, rfl, sub.endpointId, Option.map_eq_some_iff.mpr ⟨sub, hsub, rfl⟩⟩
        show item.payload.eventId = some (item.payload.eventId.getD w.fresh)
        rw [show item.payload.eventId = some e from he]
        rfl
      rw [Op.next, Op.pendingAfter]
      obtain hs | hs := (delivery item sub w.fresh).start_cases <;> rw [hs]
      · exact h.silent rfl (h.holds.next rfl rfl ⟨by simp, hargs, rfl, hposts⟩)
      · refine h.silent rfl (h.holds.next rfl rfl ⟨rfl, afterDelivery_fits hargs ?_⟩)
        exact hposts.mono (Nat.le_succ _)
  | conclude item rest n how =>
    obtain ⟨rfl, hfits⟩ := hprogress
    obtain rfl := Option.some.inj hop
    cases how with
    | gone => exact hfits.elim
    | delivered =>
      exact h.silent rfl (h.holds.next rfl rfl ⟨.delivered, now, 0, hfits, rfl⟩)
    | exhausted args => exact h.silent rfl (h.holds.next rfl rfl ⟨rfl, hfits⟩)
    | retry => exact h.silent rfl (h.holds.next rfl rfl ⟨.retry, now, 0, hfits, rfl⟩)
  | upsertDlq item rest n args =>
    obtain ⟨rfl, hfits⟩ := hprogress
    obtain rfl := Option.some.inj hop
    exact h.silent rfl (h.holds.next rfl rfl ⟨.exhausted args, 0, w.fresh, hfits, rfl⟩)
  | commitItem item rest n =>
    obtain rfl := Option.some.inj hop
    exact h.settle cfg i _
  | countPending n =>
    obtain rfl : pending = [] := hprogress
    obtain rfl := Option.some.inj hop
    exact h.silent rfl (.idle rfl rfl rfl)
  | close n =>
    obtain rfl := Option.some.inj hop
    show Worked w _ (if n = 0 then .sleep else .poll) _
    split
    · exact h.silent rfl (.idle rfl rfl rfl)
    · exact h.silent rfl (.idle rfl rfl rfl)
  | closeFailed =>
    obtain rfl := Option.some.inj hop
    exact h.silent rfl (.idle rfl rfl rfl)
  | sleep =>
    obtain rfl : pending = [] := hprogress
    obtain rfl := Option.some.inj hop
    exact h.silent rfl (.idle rfl rfl rfl)
  | ended => cases hop

end Worker

/-! ### Every run -/

/-- A row under way has at most one POST that is not counted yet. -/
theorem WorkerPc.Progress.posts_le {pc : WorkerPc} {db : Db} {posts : Uuid → List Post}
    {pending : List Write} (h : pc.Progress db posts pending) {item : OutboxRow}
    (hitem : pc.underway = some item) : (posts item.id).length ≤ item.attempts + 1 := by
  have hfits : ∀ how : Conclusion, how.Fits item db (posts item.id) →
      (posts item.id).length ≤ item.attempts + 1 := by
    intro how hfits
    cases how with
    | gone => exact hfits.elim
    | delivered => exact hfits.1
    | exhausted args => exact hfits.2.2.1
    | retry => exact hfits.2.1
  cases pc with
  | selectSubscription _ rest n =>
    cases hitem
    exact h.2.1.trans (Nat.le_succ _)
  | deliver _ rest n args dpc =>
    cases hitem
    have hprogress := h.2.2
    cases dpc with
    | post k => exact hprogress.2.1.trans (Nat.le_succ _)
    | insertSuccess k => exact hprogress.2.1
    | commitSuccess k => exact hprogress.2.1
    | insertFailure k reason => exact hprogress.2.1
    | upsertDlq reason => exact hprogress.elim
    | commitFailure => exact hprogress.1
  | conclude _ rest n how =>
    cases hitem
    exact hfits how h.2
  | upsertDlq _ rest n args =>
    cases hitem
    exact hfits _ h.2
  | commitItem _ rest n =>
    cases hitem
    obtain ⟨how, now, id, hf, -⟩ := h
    exact hfits how hf
  | _ => cases hitem

section Runs

variable {ι : Type*}

/-- The condition that the worker is not cancelled or stopped, and that of all it waits for only a
POST raises. -/
def Undisturbed (worker : ι) (s : World ι) (a : ι × Input) : Prop :=
  a.1 = worker → a.2.crash = true → (s.loc worker).survives a.2 = true

instance [DecidableEq ι] (worker : ι) (s : World ι) (a : ι × Input) :
    Decidable (Undisturbed worker s a) :=
  inferInstanceAs (Decidable (_ → _ → _))

/-- Nobody else is a worker. -/
def OnlyWorker (worker : ι) (s : World ι) : Prop :=
  ∀ i pc, s.loc i = .worker pc → i = worker

/-- An outbox in which nothing has been delivered: the rows are as they were enqueued, with any
number of attempts allowed and some of them used up. -/
structure Db.Enqueued (db : Db) (fresh : Uuid) : Prop where
  new : ∀ row ∈ db.outbox, row.New
  known : ∀ row ∈ db.outbox, ∃ sub ∈ db.subscriptions, sub.id = row.subscriptionId
  used : ∀ row ∈ db.outbox, row.id < fresh
  nodup : (db.outbox.map (·.id)).Nodup

variable [DecidableEq ι] {cfg : Config} {db : Db} {fresh : Uuid} {worker : ι} {s : World ι}

omit [DecidableEq ι] in
theorem Db.Enqueued.sound (h : db.Enqueued fresh) (hs : Initial db fresh s) :
    OutboxSound s.toShared where
  nodup := hs.db ▸ h.nodup
  used := by
    rw [hs.db, hs.fresh]
    exact h.used
  event row hrow := (h.new row (hs.db ▸ hrow)).event
  known row hrow := by
    obtain ⟨sub, hsub, hid⟩ := h.known row (hs.db ▸ hrow)
    rw [hs.db, ← hid]
    exact Db.exists_subscriber hsub
  posted id hid := by
    rw [hs.trace] at hid
    exact absurd rfl hid

omit [DecidableEq ι] in
theorem Tends.initial (h : db.Enqueued fresh) (hs : Initial db fresh s)
    (honly : OnlyWorker worker s) (i : ι) : Tends worker i s.toShared (s.own i) where
  settled _ row hrow _ := by
    rw [hs.trace]
    exact (h.new row (hs.db ▸ hrow)).settled s.db
  works pc hpc := by
    refine ⟨honly i pc hpc, ?_⟩
    have hstart := hs.starting i
    rw [show s.loc i = .worker pc from hpc] at hstart
    obtain rfl : pc = .poll := by
      cases hstart
      rfl
    refine .idle rfl rfl ?_
    exact hs.pending i
  adds hno := by
    have hpending : (s.own i).pending = [] := hs.pending i
    refine ⟨?_, ?_, ?_, ?_, ?_⟩
    · rw [hpending]
      exact .nil _
    · simp [hpending, insertedRows]
    · simp [hpending]
    · intro sub hsub
      have hstart := hs.starting i
      rw [show (s.own i).loc = s.loc i from rfl] at hsub
      cases hloc : s.loc i with
      | track p =>
        rw [hloc] at hstart hsub
        cases hstart
        cases hsub
      | _ =>
        rw [hloc] at hsub
        cases hsub
    · simp [hpending]

/-- A step of a party that is no worker. -/
theorem Tends.add {i : ι} {op : Op Write LockKey Effect Party}
    (hA : Tends worker i s.toShared (s.own i)) (hno : ∀ pc, s.loc i ≠ .worker pc)
    (hadds : Adds (s.loc i).toServe Party.toServe (s.view (program cfg) i) op) :
    Grown s.toShared (op.shared (program cfg) i (s.pending i) s.toShared)
      (committedRows (s.pending i) op) ∧ NewRows s.toShared (committedRows (s.pending i) op) := by
  have hadding : Adding s.toShared (s.own i) := hA.adds hno
  refine ⟨hadds.grown cfg hadding i, ?_⟩
  cases op with
  | commit next => exact hadding.rows
  | _ => exact .nil _

/-- A step of the worker. -/
theorem Tends.work {i : ι} {pc : WorkerPc} {x : Input} {op : Op Write LockKey Effect WorkerPc}
    (hG : OutboxSound s.toShared) (hA : Tends worker i s.toShared (s.own i))
    (hloc : s.loc i = .worker pc) (hgood : Undisturbed worker s (i, x))
    (hop : pc.step (s.view (program cfg) i) x = some op) :
    i = worker ∧ WorkerPc.Worked s.toShared
      ((op.map Party.worker id).shared (program cfg) i (s.pending i) s.toShared) op.next
      (op.pendingAfter (s.pending i)) := by
  obtain ⟨hi, hholds⟩ := hA.works pc hloc
  have hattends : pc.Attends s.toShared (s.pending i) := by
    refine ⟨hG, fun row hrow hne => hA.settled hi row hrow ?_, hholds⟩
    rw [show (s.own i).loc = .worker pc from hloc, WorkerPc.processing_eq]
    exact hne
  refine ⟨hi, hattends.step cfg i (fun hx => ?_) hop⟩
  rw [← hloc, hi]
  exact hgood hi hx

theorem Party.processing_of_ne_worker {p : Party} (h : ∀ pc, p ≠ .worker pc) :
    p.processing = none := by
  cases p with
  | worker pc => exact absurd rfl (h pc)
  | _ => rfl

/-- The party that takes a step. -/
theorem Tends.self (hoff : cfg.inlineDelivery = false) {i : ι} {x : Input}
    {op : Op Write LockKey Effect Party} (hoffline : (s.loc i).offline)
    (hgood : Undisturbed worker s (i, x)) (hG : OutboxSound s.toShared)
    (hA : Tends worker i s.toShared (s.own i))
    (hop : (s.loc i).next cfg (s.view (program cfg) i) x = some op) :
    OutboxSound (op.shared (program cfg) i (s.pending i) s.toShared) ∧
      Tends worker i (op.shared (program cfg) i (s.pending i) s.toShared) (op.own (s.own i)) := by
  by_cases hworker : ∃ pc, s.loc i = .worker pc
  · obtain ⟨pc, hloc⟩ := hworker
    rw [hloc] at hop
    obtain ⟨op', hop', rfl⟩ := Option.map_eq_some_iff.mp hop
    obtain ⟨hi, hworked⟩ := hA.work hG hloc hgood hop'
    have hnext : ((op'.map Party.worker id).own (s.own i)).loc = .worker op'.next :=
      Op.next_map _ _ op'
    refine ⟨hworked.attends.sound, fun _ row hrow hne => ?_, fun pc' hpc' => ⟨hi, ?_⟩, fun hno => ?_⟩
    · rw [hnext, WorkerPc.processing_eq] at hne
      exact hworked.attends.settled row hrow hne
    · rw [hnext, Party.worker.injEq] at hpc'
      rw [← hpc', show ((op'.map Party.worker id).own (s.own i)).pending =
        op'.pendingAfter (s.pending i) from Op.pendingAfter_map _ _ op' _]
      exact hworked.attends.holds
    · exact absurd hnext (hno _)
  · have hno : ∀ pc, s.loc i ≠ .worker pc := fun pc hpc => hworker ⟨pc, hpc⟩
    obtain ⟨hadds, hnext, htrack⟩ := Party.step_adds hoff hoffline hno hop
    obtain ⟨hgrown, hrows⟩ := hA.add hno hadds
    refine ⟨hG.grown hgrown hrows, fun hi row hrow hne => ?_, fun pc hpc => absurd hpc (hnext pc),
      fun _ => (hA.adds hno).step hadds htrack hG.used⟩
    refine settled_of_grown none hG hgrown hrows (fun row hrow _ => ?_) row hrow
      (Option.some_ne_none _).symm
    refine hA.settled hi row hrow ?_
    rw [show (s.own i).loc = s.loc i from rfl, Party.processing_of_ne_worker hno]
    exact (Option.some_ne_none _).symm

/-- The other parties. -/
theorem Tends.other (hoff : cfg.inlineDelivery = false) {i j : ι} {x : Input}
    {op : Op Write LockKey Effect Party} (hji : j ≠ i) (hoffline : (s.loc i).offline)
    (hgood : Undisturbed worker s (i, x)) (hG : OutboxSound s.toShared)
    (hA : ∀ j, Tends worker j s.toShared (s.own j))
    (hop : (s.loc i).next cfg (s.view (program cfg) i) x = some op) :
    Tends worker j (op.shared (program cfg) i (s.pending i) s.toShared) (s.own j) := by
  by_cases hworker : ∃ pc, s.loc i = .worker pc
  · obtain ⟨pc, hloc⟩ := hworker
    rw [hloc] at hop
    obtain ⟨op', hop', rfl⟩ := Option.map_eq_some_iff.mp hop
    obtain ⟨hi, hworked⟩ := (hA i).work hG hloc hgood hop'
    have hj : j ≠ worker := fun hj => hji (hj.trans hi.symm)
    exact ⟨fun heq => absurd heq hj, fun pc' hpc' => absurd ((hA j).works pc' hpc').1 hj,
      fun hno => ((hA j).adds hno).worked hworked.keeps hworked.fresh hworked.ids⟩
  · have hno : ∀ pc, s.loc i ≠ .worker pc := fun pc hpc => hworker ⟨pc, hpc⟩
    obtain ⟨hadds, -, -⟩ := Party.step_adds hoff hoffline hno hop
    obtain ⟨hgrown, hrows⟩ := (hA i).add hno hadds
    refine ⟨fun hj => settled_of_grown _ hG hgrown hrows ((hA j).settled hj), fun pc hpc => ?_,
      fun hnoj => ((hA j).adds hnoj).grown hgrown fun row hrow r hr heq => hji ?_⟩
    · obtain ⟨hj, hholds⟩ := (hA j).works pc hpc
      exact ⟨hj, hholds.grown hgrown⟩
    · -- two parties would hold the lock of one new row
      have hri : LockKey.outboxRow r.id ∈ (s.own i).held := by
        cases op with
        | commit next => exact ((hA i).adds hno).locked r hr
        | _ => cases hr
      have hrj : LockKey.outboxRow r.id ∈ (s.own j).held := by
        rw [heq]
        exact ((hA j).adds hnoj).locked row hrow
      exact State.held_unique hrj hri

/-- **The invariant of every run.** -/
theorem Run.tends (hoff : cfg.inlineDelivery = false) (hdb : db.Enqueued fresh)
    (hs : Run (program cfg).step (Undisturbed worker)
      (fun s => Initial db fresh s ∧ OnlyWorker worker s) s) :
    OutboxSound s.toShared ∧ ∀ i, Tends worker i s.toShared (s.own i) := by
  have hoffline : Run (program cfg).step
      (fun s a => Undisturbed worker s a ∧ ∀ i, (s.loc i).offline)
      (fun s => Initial db fresh s ∧ OnlyWorker worker s) s :=
    hs.mono fun t a ht hgood =>
      ⟨hgood, fun i => Run.offline hoff (ht.of_init fun _ h => h.1) i⟩
  refine Run.noninterference (P := program cfg) (G := OutboxSound) (A := Tends worker) ?_ ?_ ?_
    hoffline
  · exact fun s hs => ⟨hdb.sound hs.1, Tends.initial hdb hs.1 hs.2⟩
  · exact fun s i x op hgood hG hA hop _ => Tends.self hoff (hgood.2 i) hgood.1 hG (hA i) hop
  · exact fun s i j x op hji hgood hG hA hop => .other hoff hji (hgood.2 i) hgood.1 hG hA hop

/-- **The life of an outbox row.** With one worker and no inline delivery, whatever the other parties
do and however the POSTs end: every row but the one under way (between two items of a batch, every
row) is in one of the three situations and has been posted no more often than it counts. The row
under way has at most one POST that it does not count yet. -/
theorem outbox_row_lifecycle (hoff : cfg.inlineDelivery = false) (hdb : db.Enqueued fresh)
    (hs : Run (program cfg).step (Undisturbed worker)
      (fun s => Initial db fresh s ∧ OnlyWorker worker s) s) :
    ∀ row ∈ s.db.outbox,
      ((s.loc worker).processing ≠ some row.id →
        row.Situation s.db (postsFor s.trace row.id) ∧
          (postsFor s.trace row.id).length ≤ row.attempts) ∧
      (postsFor s.trace row.id).length ≤ row.attempts + 1 := by
  obtain ⟨hG, hA⟩ := Run.tends hoff hdb hs
  intro row hrow
  have hsettled : (s.loc worker).processing ≠ some row.id →
      row.Settled s.db (postsFor s.trace row.id) := (hA worker).settled rfl row hrow
  refine ⟨fun hfree => ⟨(hsettled hfree).situation, (hsettled hfree).posts⟩, ?_⟩
  by_cases hbusy : (s.loc worker).processing = some row.id
  · obtain ⟨pc, hpc⟩ : ∃ pc, s.loc worker = .worker pc := by
      by_contra hno
      have hnone := Party.processing_of_ne_worker fun pc hpc => hno ⟨pc, hpc⟩
      cases hnone.symm.trans hbusy
    obtain ⟨-, hholds⟩ := (hA worker).works pc hpc
    rw [hpc, WorkerPc.processing_eq] at hbusy
    obtain ⟨item, hitem, hid⟩ := Option.map_eq_some_iff.mp hbusy
    obtain ⟨hmem, -⟩ := hholds.underway item hitem
    obtain rfl := List.inj_on_of_nodup_map hG.nodup hmem hrow hid
    have hle := hholds.progress.posts_le hitem
    exact hle
  · exact (hsettled hbusy).posts.trans (Nat.le_succ _)

end Runs

/-! ### One row delivered, one given up -/

/-- Two pending rows. The second one has a single attempt. -/
def sampleLast : Db :=
  { sampleBatch with outbox := [samplePending 1, { samplePending 2 with maxAttempts := 1 }] }

/-- The worker takes both rows: 200 for the first one, 500 for the second. -/
def deliverBoth : List (Unit × Input) :=
  List.replicate 4 ((), .proceed 0) ++ [((), .answer 200)] ++ List.replicate 7 ((), .proceed 0) ++
    [((), .answer 500)] ++ List.replicate 5 ((), .proceed 0)

theorem sampleLast_enqueued : sampleLast.Enqueued 10 where
  new := by
    simp only [sampleLast, List.mem_cons, List.not_mem_nil, or_false, forall_eq_or_imp, forall_eq]
    exact ⟨⟨rfl, by decide, Option.some_ne_none _⟩, ⟨rfl, by decide, Option.some_ne_none _⟩⟩
  known := by
    simp [sampleLast, sampleBatch, sampleSubscription, samplePending]
  used := by
    simp [sampleLast, samplePending]
  nodup := by
    simp [sampleLast, samplePending]

/-- After the batch one row is DELIVERED and one FAILED, both after one POST. -/
theorem outbox_row_lifecycle_batch : ∃ s : World Unit,
    Run (program (sampleConfig false)).step (Undisturbed ())
      (fun s => Initial sampleLast 10 s ∧ OnlyWorker () s) s ∧
    s.db.outboxStatus 1 = some .delivered ∧ s.db.outboxStatus 2 = some .failed ∧
    ∀ row ∈ s.db.outbox, row.Situation s.db (postsFor s.trace row.id) ∧
      (postsFor s.trace row.id).length ≤ row.attempts := by
  have hrun : (exec (program (sampleConfig false)).step
      (worldOf sampleLast 10 fun _ => .worker .poll) deliverBoth).map
      (fun s => (s.db.outboxStatus 1, s.db.outboxStatus 2, (s.loc ()).processing)) =
        some (some .delivered, some .failed, none) := by
    decide
  obtain ⟨s, hs, hend⟩ := Option.map_eq_some_iff.mp hrun
  obtain ⟨hfirst, hend⟩ := Prod.mk.inj hend
  obtain ⟨hsecond, hfree⟩ := Prod.mk.inj hend
  have hgood : Along (program (sampleConfig false)).step (Undisturbed ())
      (worldOf sampleLast 10 fun _ => .worker .poll) deliverBoth := by
    decide
  have hreach : Run (program (sampleConfig false)).step (Undisturbed ())
      (fun s => Initial sampleLast 10 s ∧ OnlyWorker () s) s :=
    Run.of_exec (.start ⟨worldOf_initial fun _ => .worker, fun _ _ _ => rfl⟩) hgood hs
  refine ⟨s, hreach, hfirst, hsecond, fun row hrow => ?_⟩
  refine (outbox_row_lifecycle rfl sampleLast_enqueued hreach row hrow).1 ?_
  rw [hfree]
  exact (Option.some_ne_none _).symm

end Driftgate.Runtime
