import Driftgate.Lib.Progress
import Driftgate.Runtime.RowLifecycle
import Mathlib.Algebra.GroupWithZero.Nat
import Mathlib.Algebra.Order.BigOperators.Group.List

/-!
# The outbox drains

A row that is not yet delivered or given up has some attempts left. One that the worker takes loses
at least one of them before the worker polls again, and a poll finds every row that is due, because
requests lock no rows but those they are about to add. So the outbox is drained after as many polls
as attempts are left, provided that the clock has passed the retry times and no rows are added:
`outbox_drains`. How the POSTs end does not matter, nor what the other parties do.
-/

namespace Driftgate.Runtime

open Driftgate.ReadCommitted Driftgate.Transition

/-! ### Attempts left -/

/-- The attempts that a row may still get. -/
def OutboxRow.attemptsLeft (row : OutboxRow) : ℕ :=
  match row.status with
  | .pending => row.maxAttempts - row.attempts
  | .delivering => row.maxAttempts - row.attempts
  | _ => 0

/-- The attempts that the rows of the outbox may still get. -/
def Db.attemptsLeft (db : Db) : ℕ := (db.outbox.map (·.attemptsLeft)).sum

/-- A sum over rows of which one is changed. -/
theorem sum_updateWhere {α : Type*} (key : α → Uuid) (g : α → ℕ) (f : α → α) {rows : List α}
    (hnodup : (rows.map key).Nodup) {row : α} (hrow : row ∈ rows) :
    ((updateWhere (fun r => key r = key row) f rows).map g).sum + g row =
      (rows.map g).sum + g (f row) := by
  induction rows with
  | nil => cases hrow
  | cons r rows ih =>
    obtain ⟨hr, hrest⟩ := List.nodup_cons.mp hnodup
    rw [updateWhere, List.map_cons, List.map_cons, List.sum_cons, List.map_cons, List.sum_cons]
    obtain rfl | hrow := List.mem_cons.mp hrow
    · -- the rows behind it have other keys
      have hsame : rows.map (fun r' => if decide (key r' = key row) then f r' else r') = rows := by
        refine (List.map_congr_left fun r' hr' => if_neg ?_).trans (List.map_id rows)
        exact fun heq => hr (of_decide_eq_true heq ▸ List.mem_map_of_mem hr')
      rw [hsame, if_pos (decide_eq_true rfl)]
      omega
    · have hne : key r ≠ key row := fun heq => hr (heq ▸ List.mem_map_of_mem hrow)
      have hih := ih hrest hrow
      rw [updateWhere] at hih
      rw [if_neg (by simpa using hne)]
      omega

/-- A pending row that is not used up has attempts left. -/
theorem OutboxRow.attemptsLeft_of_pending {row : OutboxRow} (h : row.status = .pending) :
    row.attemptsLeft = row.maxAttempts - row.attempts := by
  rw [attemptsLeft, h]

/-- A worker that has selected a row and not yet concluded it. -/
def WorkerPc.busy (pc : WorkerPc) : Bool := pc.underway.isSome || !pc.batch.isEmpty

/-- The attempts left, without the one that is being made. -/
def WorkerPc.ahead (pc : WorkerPc) (db : Db) : ℕ := db.attemptsLeft - pc.busy.toNat

/-- Nothing is left to do. -/
def WorkerPc.Idle (pc : WorkerPc) (db : Db) : Prop :=
  pc.busy = false ∧ ∀ row ∈ db.outbox, row.status ≠ .pending

section Worker

variable {ι : Type*} {w w' : Shared Db Effect ι} {pc pc' : WorkerPc} {pending pending' : List Write}

theorem WorkerPc.nextItem_busy (n : ℕ) (items : List OutboxRow) :
    (nextItem n items).busy = !items.isEmpty := by
  rw [busy, (nextItem_batch n items).1, (nextItem_batch n items).2]
  rfl

/-- A commit that changes one row. -/
theorem OutboxSound.attemptsLeft_commit (h : OutboxSound w) (cfg : Config) {row : OutboxRow}
    (hrow : row ∈ w.db.outbox) (change : OutboxChange) {ws : List Write}
    (hws : ∀ wr ∈ ws, wr.outboxId = none) (i : ι) (next : Party) :
    ((Op.commit next).shared (program cfg) i (.updateOutbox row.id change :: ws) w).db.attemptsLeft +
      row.attemptsLeft = w.db.attemptsLeft + (change.apply row).attemptsLeft := by
  have houtbox : ((Op.commit next).shared (program cfg) i (.updateOutbox row.id change :: ws)
      w).db.outbox = updateWhere (·.id = row.id) change.apply w.db.outbox :=
    outbox_applyAll_none cfg hws _
  rw [Db.attemptsLeft, houtbox]
  exact sum_updateWhere (·.id) (·.attemptsLeft) change.apply h.nodup hrow

/-- A conclusion uses up an attempt. -/
theorem Conclusion.attemptsLeft_lt {how : Conclusion} {item : OutboxRow} {db : Db}
    {posts : List Post} (h : how.Fits item db posts) (hattempts : item.attempts < item.maxAttempts)
    (now : Time) :
    ((WorkerPc.conclusionChange item now how).apply
      { item with status := .delivering }).attemptsLeft <
        ({ item with status := .delivering } : OutboxRow).attemptsLeft := by
  have hleft : ({ item with status := .delivering } : OutboxRow).attemptsLeft =
    item.maxAttempts - item.attempts := rfl
  rw [hleft]
  cases how with
  | gone => exact h.elim
  | delivered => exact Nat.sub_pos_of_lt hattempts
  | exhausted args => exact Nat.sub_pos_of_lt hattempts
  | retry =>
    show item.maxAttempts - (item.attempts + 1) < item.maxAttempts - item.attempts
    omega

/-- A poll at a time when all pending rows are due. -/
def WorkerPc.due (pc : WorkerPc) (db : Db) (x : Input) : Bool :=
  match pc, x with
  | .poll, .proceed now => db.outbox.all fun row => row.status ≠ .pending || row.nextRetryAt ≤ now
  | _, _ => false

/-- What a step does to the attempts that are ahead. -/
structure WorkerPc.Lowers (pc pc' : WorkerPc) (db db' : Db) (due : Bool) : Prop where
  idle : pc.Idle db → pc'.Idle db'
  rank : ¬pc.Idle db → pc'.ahead db' + due.toNat ≤ pc.ahead db

/-- A step that leaves the outbox alone and neither takes nor concludes a row. -/
theorem WorkerPc.Lowers.same {db db' : Db} (hdb : db'.outbox = db.outbox)
    (hbusy : pc'.busy = pc.busy) : pc.Lowers pc' db db' false where
  idle h := by
    rw [Idle, hdb, hbusy]
    exact h
  rank _ := by
    rw [ahead, ahead, Db.attemptsLeft, Db.attemptsLeft, hdb, hbusy]
    exact Nat.le_refl _

/-- A poll that finds nothing to do when all pending rows are due finds none pending. -/
theorem selectBatch_ne_nil {db : Db} {busy : LockKey → Bool} {fresh : Uuid} {now : Time}
    {row : OutboxRow} (hrow : row ∈ db.outbox) (hstatus : row.status = .pending)
    (hdue : row.nextRetryAt ≤ now) (hfree : busy (.outboxRow row.id) = false) :
    selectBatch ⟨db, busy, fresh⟩ now ≠ [] := by
  have hmem : row ∈ ((db.outbox.filter fun r => r.status = .pending && r.nextRetryAt ≤ now
      ).insertionSort fun a b => a.createdAt ≤ b.createdAt).filter
        fun r => !busy (.outboxRow r.id) := by
    refine List.mem_filter.mpr ⟨(List.mem_insertionSort _).mpr ?_, by simp [hfree]⟩
    exact List.mem_filter.mpr ⟨hrow, by simp [hstatus, hdue]⟩
  rw [selectBatch, ne_eq, List.take_eq_nil_iff, not_or]
  exact ⟨by decide, List.ne_nil_of_mem hmem⟩

/-- A poll takes a batch, if there is one. -/
theorem WorkerPc.Attends.lowers_poll (h : WorkerPc.poll.Attends w []) {busy : LockKey → Bool}
    {fresh : Uuid} (now : Time) (hfree : ∀ row ∈ w.db.outbox, busy (.outboxRow row.id) = false) :
    WorkerPc.poll.Lowers (nextItem 0 (selectBatch ⟨w.db, busy, fresh⟩ now)) w.db w.db
      (WorkerPc.poll.due w.db (.proceed now)) where
  idle hidle := by
    refine ⟨?_, hidle.2⟩
    rw [nextItem_busy, Bool.not_eq_false', List.isEmpty_iff]
    by_contra hne
    obtain ⟨item, hitem⟩ := List.exists_mem_of_ne_nil _ hne
    obtain ⟨hmem, hstatus⟩ := mem_selectBatch hitem
    exact hidle.2 item hmem hstatus
  rank hidle := by
    rw [ahead, ahead, nextItem_busy]
    cases hdue : WorkerPc.poll.due w.db (.proceed now) with
    | false => exact Nat.sub_le _ _
    | true =>
      obtain ⟨row, hrow, hstatus⟩ : ∃ row ∈ w.db.outbox, row.status = .pending := by
        by_contra hno
        exact hidle ⟨rfl, fun row hrow hstatus => hno ⟨row, hrow, hstatus⟩⟩
      have hall := List.all_eq_true.mp hdue row hrow
      have htime : row.nextRetryAt ≤ now := by simpa [hstatus] using hall
      have hne : selectBatch ⟨w.db, busy, fresh⟩ now ≠ [] :=
        selectBatch_ne_nil hrow hstatus htime (hfree row hrow)
      have hbusy : (nextItem 0 (selectBatch ⟨w.db, busy, fresh⟩ now)).busy = true := by
        rw [nextItem_busy, List.isEmpty_eq_false_iff.mpr hne]
        rfl
      have hpos : 0 < row.attemptsLeft := by
        rw [OutboxRow.attemptsLeft_of_pending hstatus]
        exact Nat.sub_pos_of_lt
          ((h.settled row hrow (Option.some_ne_none _).symm).attempted hstatus).1
      have hle : row.attemptsLeft ≤ w.db.attemptsLeft :=
        List.single_le_sum (by simp) _ (List.mem_map_of_mem hrow)
      rw [← nextItem_busy 0, hbusy]
      show w.db.attemptsLeft - 1 + 1 ≤ w.db.attemptsLeft - 0
      omega

/-- A delivery goes on with the same row. -/
theorem WorkerPc.Attends.lowers_deliver {item : OutboxRow} {rest : List OutboxRow} {n : ℕ}
    {args : Delivery} {dpc : DeliverPc} (h : (WorkerPc.deliver item rest n args dpc).Attends w pending)
    (cfg : Config) (i : ι) {v : DbView} {x : Input}
    {op : Op Write LockKey Post (Flow DeliverPc Bool)}
    (hx : x.crash = true → ∃ k, dpc = .post k) (hop : args.step dpc v x = some op) :
    (WorkerPc.deliver item rest n args dpc).Lowers (delivering item rest n args op.next) w.db
      (((op.map (delivering item rest n args) (.posted item.id)).map Party.worker id).shared
        (program cfg) i pending w).db false := by
  obtain ⟨htables, -, -⟩ := h.holds.progress
  have hcommit : ((program cfg).applyAll pending w.db).outbox = w.db.outbox := by
    refine outbox_applyAll_none cfg (fun wr hwr => Write.outboxId_of_table ?_) w.db
    rw [htables wr hwr]
    decide
  have hno : ∀ {reason}, x = .raise reason → ∀ {P : Prop}, (∀ k, dpc ≠ .post k) → P := by
    rintro reason rfl P hpc
    obtain ⟨k, hk⟩ := hx rfl
    exact absurd hk (hpc k)
  cases Delivery.step_move hop with
  | delivered | givenUp => exact .same hcommit rfl
  | unanswered | answered | success | failure | deadLetter => exact .same rfl rfl
  | successRaises | deliveredRaises | failureRaises | deadLetterRaises | givenUpRaises =>
    refine hno rfl fun k hk => ?_
    cases hk

/-- **One step of the worker** takes nothing back, and a poll when all is due takes a row if there is
one. -/
theorem WorkerPc.Attends.lowers (h : pc.Attends w pending) (cfg : Config) (i : ι)
    {busy : LockKey → Bool} {x : Input} {op : Op Write LockKey Effect WorkerPc}
    (hx : x.crash = true → (Party.worker pc).survives x = true)
    (hfree : ∀ row ∈ w.db.outbox, busy (.outboxRow row.id) = false)
    (hop : pc.step ⟨(program cfg).applyAll pending w.db, busy, w.fresh⟩ x = some op) :
    pc.Lowers op.next w.db ((op.map Party.worker id).shared (program cfg) i pending w).db
      (pc.due w.db x) := by
  by_cases hdeliver : ∃ item rest n args dpc, pc = .deliver item rest n args dpc
  · obtain ⟨item, rest, n, args, dpc, rfl⟩ := hdeliver
    have hpost : x.crash = true → ∃ k, dpc = .post k := by
      intro hc
      obtain ⟨item', rest', n', args', k, heq⟩ := survives_cases (hx hc)
      cases heq
      exact ⟨k, rfl⟩
    obtain ⟨hstop, -⟩ | ⟨dop, hd, rfl⟩ := deliver_cases hop
    · obtain rfl | rfl := hstop <;> cases hx rfl
    rw [Op.next_map]
    exact h.lowers_deliver cfg i hpost hd
  have hnot : ∀ item rest n args dpc, pc ≠ .deliver item rest n args dpc :=
    fun item rest n args dpc hpc => hdeliver ⟨item, rest, n, args, dpc, hpc⟩
  have hcalm : x.crash = false := by
    by_contra hc
    obtain ⟨item, rest, n, args, k, heq⟩ := survives_cases (hx (Bool.eq_true_of_not_eq_false hc))
    exact hnot item rest n args _ heq
  obtain ⟨now, rfl⟩ := step_proceed hop hcalm hnot
  cases pc with
  | deliver item rest n args dpc => exact absurd rfl (hnot item rest n args dpc)
  | poll =>
    obtain rfl : pending = [] := h.holds.progress
    obtain rfl := Option.some.inj hop
    exact h.lowers_poll now hfree
  | commitMark item rest n =>
    obtain rfl := Option.some.inj hop
    obtain ⟨hmem, hstatus⟩ := h.holds.batch item List.mem_cons_self
    have hpending : pending = [.updateOutbox item.id { status := .delivering }] := h.holds.progress
    subst hpending
    have hnil : ∀ wr ∈ ([] : List Write), wr.outboxId = none := by simp
    have hleft := h.sound.attemptsLeft_commit cfg hmem { status := .delivering } hnil i
      (.worker (.selectSubscription item rest n))
    have hsame : (OutboxChange.apply { status := .delivering } item).attemptsLeft =
        item.attemptsLeft := (OutboxRow.attemptsLeft_of_pending hstatus).symm
    refine ⟨fun hidle => (by cases hidle.1), fun _ => Nat.le_of_eq ?_⟩
    rw [hsame] at hleft
    exact congrArg (· - 1) (Nat.add_right_cancel hleft)
  | commitItem item rest n =>
    obtain rfl := Option.some.inj hop
    obtain ⟨how, now', id, hfits, hpending⟩ := h.holds.progress
    obtain ⟨hmem, hattempts⟩ := h.holds.underway item rfl
    have hletters : ∀ wr ∈ how.letters item id, wr.outboxId = none := by
      cases how <;> simp [Conclusion.letters, deadLetter, Delivery.upsertDlq, Write.outboxId]
    have hleft := h.sound.attemptsLeft_commit cfg hmem (conclusionChange item now' how) hletters i
      (.worker (nextItem (n + 1) rest))
    have hless := Conclusion.attemptsLeft_lt hfits hattempts now'
    subst hpending
    refine ⟨fun hidle => (by cases hidle.1), fun _ => ?_⟩
    have hlower : ((Op.commit (Party.worker (nextItem (n + 1) rest))).shared (program cfg) i
        (.updateOutbox item.id (conclusionChange item now' how) :: how.letters item id)
          w).db.attemptsLeft < w.db.attemptsLeft := by
      have heq : ∀ {a b c d : ℕ}, a + b = c + d → d < b → a < c := by omega
      exact heq hleft hless
    exact (Nat.sub_le _ _).trans (Nat.le_sub_one_of_lt hlower)
  | selectSubscription item rest n =>
    simp only [WorkerPc.step] at hop
    split at hop
    · obtain rfl := Option.some.inj hop
      exact .same rfl rfl
    · obtain rfl := Option.some.inj hop
      rw [Op.next]
      obtain hs | hs := Delivery.start_cases _ <;> rw [hs] <;> exact .same rfl rfl
  | conclude item rest n how =>
    obtain rfl := Option.some.inj hop
    cases how <;> exact .same rfl rfl
  | close n =>
    obtain rfl := Option.some.inj hop
    refine .same rfl ?_
    show (if n = 0 then WorkerPc.sleep else .poll).busy = false
    split <;> rfl
  | ended => cases hop
  | _ =>
    obtain rfl := Option.some.inj hop
    exact .same rfl rfl

end Worker

/-! ### Locks of outbox rows -/

section Locks

variable {cfg : Config} {v : DbView} {x : Input}

/-- The rows that an operation locks are rows that it inserts. -/
def LocksInserted {ε ℓ : Type*} (op : Op Write LockKey ε ℓ) : Prop :=
  ∀ id, .outboxRow id ∈ op.locks → ∃ row, .insertOutbox row ∈ op.writes ∧ row.id = id

theorem LocksInserted.of_nil {ε ℓ : Type*} {op : Op Write LockKey ε ℓ} (h : op.locks = []) :
    LocksInserted op := by
  intro id hid
  rw [h] at hid
  cases hid

theorem LocksInserted.map {ε ε' ℓ ℓ' : Type*} {op : Op Write LockKey ε ℓ} (h : LocksInserted op)
    (f : ℓ → ℓ') (g : ε → ε') : LocksInserted (op.map f g) := by
  intro id hid
  rw [Op.locks_map] at hid
  rw [Op.writes_map]
  exact h id hid

theorem Enqueue.locksInserted (hoff : cfg.inlineDelivery = false) {q : Enqueue} {pc : EnqueuePc}
    {op : Op Write LockKey Effect (Flow EnqueuePc (List SubscriptionRow))}
    (hpc : pc.stage = none) (h : q.step cfg pc v x = some op) : LocksInserted op := by
  cases step_move h with
  | inserts affected sub rest =>
    intro id hid
    obtain ⟨rfl⟩ : LockKey.outboxRow id = .outboxRow v.fresh := List.mem_singleton.mp hid
    exact ⟨_, List.mem_singleton_self _, rfl⟩
  | insertsActive _ _ _ hon | insertsInactive _ _ _ hon =>
    rw [hoff] at hon
    cases hon
  | delivers | updates | updateRaises => cases hpc
  | _ => exact .of_nil rfl

theorem TrackCall.locksInserted (hoff : cfg.inlineDelivery = false) {call : TrackCall}
    {pc : TrackPc} {op : Op Write LockKey Effect (Flow TrackPc TrackResult)}
    (hpc : pc.stage = none) (h : call.step cfg pc v x = some op) : LocksInserted op := by
  cases step_move h with
  | upserts pc hop =>
    obtain ⟨ks, ws, next, rfl, hmove⟩ := Upsert.step_move hop
    refine LocksInserted.map (fun id hid => ?_) _ _
    cases hmove <;> simp [Op.locks] at hid
  | enqueues q pc hop => exact (Enqueue.locksInserted hoff hpc hop).map _ _
  | classifies d => exact fun id hid => (by simp [Op.locks] at hid)
  | _ => exact .of_nil rfl

theorem Party.locksInserted (hoff : cfg.inlineDelivery = false) {p : Party}
    {op : Op Write LockKey Effect Party} (hoffline : p.offline) (hp : ∀ pc, p ≠ .worker pc)
    (h : p.next cfg v x = some op) : LocksInserted op := by
  cases p with
  | track p =>
    obtain ⟨op', hop', rfl⟩ := Option.map_eq_some_iff.mp h
    refine LocksInserted.map ?_ _ _
    rcases TrackProc.next_cases hop' with ⟨-, rfl⟩ | ⟨ok, t, -, -, rfl⟩ | ⟨cop, -, hcode, rfl⟩ |
      ⟨e, -, rfl⟩
    · exact .of_nil rfl
    · exact .of_nil rfl
    · exact (TrackCall.locksInserted hoff hoffline hcode).map _ _
    · exact .of_nil rfl
  | worker pc => exact absurd rfl (hp pc)
  | subscription call pc =>
    obtain ⟨op', hop', rfl⟩ := Option.map_eq_some_iff.mp h
    refine LocksInserted.map (fun id hid => ?_) _ _
    cases pc <;> cases x <;> cases call <;>
      simp only [SubscriptionCall.step, reduceCtorEq, Option.some.injEq] at hop' <;>
      subst hop' <;> simp [Op.locks] at hid
  | finished =>
    cases x <;> simp only [next, reduceCtorEq, Option.some.injEq] at h
    subst h
    exact .of_nil rfl

end Locks

/-! ### Runs -/

section Runs

variable {ι : Type*} [DecidableEq ι] {cfg : Config} {db : Db} {fresh : Uuid} {worker : ι}
  {s t : World ι}

/-- What a party that is no worker holds in locks of outbox rows. -/
theorem Run.locked_inserted {good : World ι → ι × Input → Prop} (hoff : cfg.inlineDelivery = false)
    (hs : Run (program cfg).step good (Initial db fresh) s) (i : ι)
    (hi : ∀ pc, s.loc i ≠ .worker pc) :
    ∀ id, .outboxRow id ∈ (s.own i).held → ∃ row ∈ insertedRows (s.pending i), row.id = id := by
  refine (Run.process_invariant (P := program cfg) (A := fun _ o => o.loc.offline ∧
    ((∀ pc, o.loc ≠ .worker pc) → ∀ id, .outboxRow id ∈ o.held →
      ∃ row ∈ insertedRows o.pending, row.id = id)) ?_ ?_ hs i).2 hi
  · intro s hs i
    have hrun : Run (program cfg).step good (Initial db fresh) s := .start hs
    refine ⟨Run.offline hoff hrun i, fun _ id hid => ?_⟩
    have hheld : s.lock (.outboxRow id) = some i := hid
    rw [hs.lock] at hheld
    cases hheld
  · rintro s i x op - ⟨hoffline, hlocks⟩ hop
    refine ⟨Party.offline.next hoff hoffline hop, fun hno id hid => ?_⟩
    have hbefore : ∀ pc, s.loc i ≠ .worker pc := by
      intro pc hpc
      rw [show (program cfg).next = Party.next cfg from rfl, hpc] at hop
      obtain ⟨op', -, rfl⟩ := Option.map_eq_some_iff.mp hop
      exact hno op'.next (Op.next_map _ _ op')
    have hinserted := Party.locksInserted hoff hoffline hbefore hop id
    cases op with
    | exec ks ws next =>
      show ∃ row ∈ insertedRows (s.pending i ++ ws), row.id = id
      rw [insertedRows, List.filterMap_append]
      obtain hid | hid := hid
      · obtain ⟨row, hrow, hrid⟩ := hlocks hbefore id hid
        exact ⟨row, List.mem_append_left _ hrow, hrid⟩
      · obtain ⟨row, hrow, hrid⟩ := hinserted hid
        exact ⟨row, List.mem_append_right _ (List.mem_filterMap.mpr ⟨_, hrow, rfl⟩), hrid⟩
    | emit e next => exact hlocks hbefore id hid
    | commit next => cases hid
    | rollback next => cases hid

/-- A worker in the middle of a batch. -/
def Party.busy : Party → Bool
  | .worker pc => pc.busy
  | _ => false

/-- A poll of a worker at a time when all pending rows are due. -/
def Party.due (p : Party) (db : Db) (x : Input) : Bool :=
  match p with
  | .worker pc => pc.due db x
  | _ => false

/-- The step is a poll of the worker at a time when all pending rows are due. -/
def duePoll (worker : ι) (s : World ι) (a : ι × Input) : Bool :=
  a.1 = worker && (s.loc worker).due s.db a.2

/-- All rows are delivered or given up, and the worker has none in its hands. -/
def Drained (worker : ι) (s : World ι) : Prop :=
  (s.loc worker).processing = none ∧
    ∀ row ∈ s.db.outbox, row.status = .delivered ∨ row.status = .failed

/-- No row is pending, and the worker has none in its hands. -/
def Done (worker : ι) (s : World ι) : Prop :=
  (s.loc worker).busy = false ∧ ∀ row ∈ s.db.outbox, row.status ≠ .pending

/-- The attempts that are ahead of the worker. -/
def ahead (worker : ι) (s : World ι) : ℕ := s.db.attemptsLeft - (s.loc worker).busy.toNat

omit [DecidableEq ι] in
theorem Party.busy_eq_false {p : Party} (h : ∀ pc, p ≠ .worker pc) : p.busy = false := by
  cases p with
  | worker pc => exact absurd rfl (h pc)
  | _ => rfl

omit [DecidableEq ι] in
theorem Party.due_eq_false {p : Party} (h : ∀ pc, p ≠ .worker pc) (db : Db) (x : Input) :
    p.due db x = false := by
  cases p with
  | worker pc => exact absurd rfl (h pc)
  | _ => rfl

omit [DecidableEq ι] in
theorem Tends.attends {i : ι} {pc : WorkerPc} (hG : OutboxSound s.toShared)
    (hA : Tends worker i s.toShared (s.own i)) (hloc : s.loc i = .worker pc) :
    pc.Attends s.toShared (s.pending i) := by
  obtain ⟨hi, hholds⟩ := hA.works pc hloc
  refine ⟨hG, fun row hrow hne => hA.settled hi row hrow ?_, hholds⟩
  rw [show (s.own i).loc = .worker pc from hloc, WorkerPc.processing_eq]
  exact hne

/-- Nobody but the worker locks a row of the outbox. -/
theorem Run.outbox_free (hoff : cfg.inlineDelivery = false) (hdb : db.Enqueued fresh)
    (hs : Run (program cfg).step (Undisturbed worker)
      (fun s => Initial db fresh s ∧ OnlyWorker worker s) s) :
    ∀ row ∈ s.db.outbox, (s.view (program cfg) worker).busy (.outboxRow row.id) = false := by
  intro row hrow
  by_contra hbusy
  obtain ⟨j, hlock, hj⟩ : ∃ j, s.lock (.outboxRow row.id) = some j ∧ j ≠ worker := by
    have hany : (s.lock (.outboxRow row.id)).any (· ≠ worker) = true :=
      Bool.eq_true_of_not_eq_false hbusy
    obtain ⟨j, hlock, hj⟩ := (Option.any_eq_true _ _).mp hany
    exact ⟨j, hlock, of_decide_eq_true hj⟩
  have hA := (Run.tends hoff hdb hs).2 j
  have hno : ∀ pc, s.loc j ≠ .worker pc := fun pc hpc => hj (hA.works pc hpc).1
  obtain ⟨new, hnew, hid⟩ :=
    Run.locked_inserted hoff (hs.of_init fun _ h => h.1) j hno row.id hlock
  exact (hA.adds hno).rows.apart new hnew row hrow hid.symm

/-- **One step.** The outbox does not get shorter. While it does not get longer, a step takes nothing
back, and a poll when all is due takes a row if there is one. -/
theorem Run.step_ahead (hoff : cfg.inlineDelivery = false) (hdb : db.Enqueued fresh)
    (hs : Run (program cfg).step (Undisturbed worker)
      (fun s => Initial db fresh s ∧ OnlyWorker worker s) s) {a : ι × Input}
    (hgood : Undisturbed worker s a) (hstep : (program cfg).step s a = some t) :
    s.db.outbox.length ≤ t.db.outbox.length ∧ (t.db.outbox.length = s.db.outbox.length →
      (Done worker s → Done worker t) ∧
      (¬Done worker s → ahead worker t + (duePoll worker s a).toNat ≤ ahead worker s)) := by
  obtain ⟨i, x⟩ := a
  obtain ⟨op, hop, hst⟩ := step_cases hstep
  obtain ⟨hG, hA⟩ := Run.tends hoff hdb hs
  have hshared : t.db = (op.shared (program cfg) i (s.pending i) s.toShared).db :=
    congrArg Shared.db hst.shared
  by_cases hworker : ∃ pc, s.loc i = .worker pc
  · obtain ⟨pc, hloc⟩ := hworker
    rw [show (program cfg).next = Party.next cfg from rfl, hloc] at hop
    obtain ⟨op', hop', rfl⟩ := Option.map_eq_some_iff.mp hop
    obtain ⟨rfl, hworked⟩ := (hA i).work hG hloc hgood hop'
    have hlower := ((hA i).attends hG hloc).lowers cfg i (fun hx => hloc ▸ hgood rfl hx)
      (Run.outbox_free hoff hdb hs) hop'
    have hnext : t.loc i = .worker op'.next := hst.loc.trans (Op.next_map _ _ op')
    have hlength : t.db.outbox.length = s.db.outbox.length := by
      have hids := congrArg List.length hworked.ids
      rw [List.length_map, List.length_map] at hids
      rw [hshared]
      exact hids
    rw [← hshared] at hlower
    refine ⟨hlength.ge, fun _ => ?_⟩
    rw [Done, Done, ahead, ahead, duePoll, hnext, hloc]
    refine ⟨hlower.idle, fun hdone => ?_⟩
    have hrank := hlower.rank hdone
    rw [decide_eq_true (rfl : i = i), Bool.true_and]
    exact hrank
  · have hno : ∀ pc, s.loc i ≠ .worker pc := fun pc hpc => hworker ⟨pc, hpc⟩
    have hoffline : (s.loc i).offline := Run.offline hoff (hs.of_init fun _ h => h.1) i
    obtain ⟨hadds, hnext, -⟩ := Party.step_adds hoff hoffline hno hop
    obtain ⟨hgrown, -⟩ := (hA i).add hno hadds
    have houtbox : t.db.outbox = s.db.outbox ++ committedRows (s.pending i) op := by
      rw [hshared]
      exact hgrown.outbox
    refine ⟨?_, fun hlength => ?_⟩
    · rw [houtbox, List.length_append]
      exact Nat.le_add_right _ _
    · rw [houtbox, List.length_append, Nat.add_eq_left, List.length_eq_zero_iff] at hlength
      rw [hlength, List.append_nil] at houtbox
      have hleft : t.db.attemptsLeft = s.db.attemptsLeft := by
        rw [Db.attemptsLeft, houtbox, Db.attemptsLeft]
      have hbusy : (t.loc worker).busy = (s.loc worker).busy := by
        by_cases hi : worker = i
        · subst hi
          rw [Party.busy_eq_false hno, hst.loc, Party.busy_eq_false hnext]
        · rw [hst.loc_other hi]
      have hpoll : duePoll worker s (i, x) = false := by
        by_cases hi : i = worker
        · subst hi
          simp [duePoll, Party.due_eq_false hno]
        · simp [duePoll, hi]
      rw [Done, Done, ahead, ahead, hbusy, hleft, houtbox, hpoll]
      exact ⟨fun h => h, fun _ => Nat.le_refl _⟩

omit [DecidableEq ι] in
/-- A worker that is not busy has no row in its hands. -/
theorem Party.processing_of_busy {p : Party} (h : p.busy = false) : p.processing = none := by
  cases p with
  | worker pc =>
    rw [busy, WorkerPc.busy, Bool.or_eq_false_iff] at h
    have hnone : pc.underway = none := by simpa using h.1
    rw [WorkerPc.processing_eq, hnone]
    rfl
  | _ => rfl

/-- **The outbox drains.** Without inline delivery, with one worker that nothing disturbs: once it
has polled more often than there are attempts left, each time when all pending rows are due, every
row is delivered or given up. The POSTs may end in any way, the other parties may do anything but
commit new rows, and there may be other polls in between. -/
theorem outbox_drains (hoff : cfg.inlineDelivery = false) (hdb : db.Enqueued fresh)
    (hs : Run (program cfg).step (Undisturbed worker)
      (fun s => Initial db fresh s ∧ OnlyWorker worker s) s)
    {as : List (ι × Input)} (hgood : Along (program cfg).step (Undisturbed worker) s as)
    (hexec : exec (program cfg).step s as = some t)
    (hnew : t.db.outbox.length = s.db.outbox.length)
    (hpolls : s.db.attemptsLeft < countSteps (program cfg).step (duePoll worker) s as) :
    Drained worker t := by
  have hkept := (Along.unchanged (f := fun s => s.db.outbox.length)
    (I := Run (program cfg).step (Undisturbed worker)
      (fun s => Initial db fresh s ∧ OnlyWorker worker s))
    (fun s a t hs hgood hstep => hs.next hgood hstep)
    (fun s a t hs hgood hstep => (Run.step_ahead hoff hdb hs hgood hstep).1) hs hgood hexec).2
      hnew.le
  have hdone : Done worker t := by
    refine exec_done (duePoll worker) (ahead worker) (Done worker)
      (fun s a t hs hgood hstep => hs.next hgood.1 hstep) ?_ ?_ hs hkept hexec (.inr ?_)
    · exact fun s a t hs hgood hstep =>
        ((Run.step_ahead hoff hdb hs hgood.1 hstep).2 (hgood.2 t hstep)).1
    · exact fun s a t hs hgood hstep =>
        ((Run.step_ahead hoff hdb hs hgood.1 hstep).2 (hgood.2 t hstep)).2
    · exact (Nat.sub_le _ _).trans_lt hpolls
  have hprocessing := Party.processing_of_busy hdone.1
  refine ⟨hprocessing, fun row hrow => ?_⟩
  have hfree : (t.own worker).loc.processing ≠ some row.id := by
    rw [show (t.own worker).loc = t.loc worker from rfl, hprocessing]
    exact (Option.some_ne_none _).symm
  have hsettled :=
    ((Run.tends hoff hdb (Run.of_exec hs hgood hexec)).2 worker).settled rfl row hrow hfree
  cases hsettled.situation with
  | pending hstatus => exact absurd hstatus (hdone.2 row hrow)
  | delivered hstatus => exact .inl hstatus
  | failed hstatus => exact .inr hstatus

end Runs

/-- A row with one attempt. -/
def sampleOne : Db :=
  { sampleBatch with outbox := [{ samplePending 2 with maxAttempts := 1 }] }

theorem sampleOne_enqueued : sampleOne.Enqueued 10 where
  new := by
    simp only [sampleOne, List.mem_singleton, forall_eq]
    exact ⟨rfl, by decide, Option.some_ne_none _⟩
  known := by
    simp [sampleOne, sampleBatch, sampleSubscription, samplePending]
  used := by
    simp [sampleOne, samplePending]
  nodup := by
    simp [sampleOne]

/-- The POST is answered 500, and the worker polls again. -/
def giveUpAndPoll : List (Unit × Input) :=
  List.replicate 4 ((), .proceed 0) ++ [((), .answer 500)] ++ List.replicate 8 ((), .proceed 0)

/-- One attempt is left and the worker polls twice. -/
theorem outbox_drains_one : ∃ t : World Unit,
    exec (program (sampleConfig false)).step (worldOf sampleOne 10 fun _ => .worker .poll)
      giveUpAndPoll = some t ∧ Drained () t := by
  have hrun : (exec (program (sampleConfig false)).step
      (worldOf sampleOne 10 fun _ : Unit => .worker .poll) giveUpAndPoll).map
        (fun t => t.db.outbox.length) = some 1 := by
    decide
  obtain ⟨t, ht, hlength⟩ := Option.map_eq_some_iff.mp hrun
  have hgood : Along (program (sampleConfig false)).step (Undisturbed ())
      (worldOf sampleOne 10 fun _ : Unit => .worker .poll) giveUpAndPoll := by
    decide
  have hpolls : 1 < countSteps (program (sampleConfig false)).step (duePoll ())
      (worldOf sampleOne 10 fun _ : Unit => .worker .poll) giveUpAndPoll := by
    decide
  have hinitial : Initial sampleOne 10 (worldOf sampleOne 10 fun _ : Unit => .worker .poll) :=
    worldOf_initial fun _ => .worker
  exact ⟨t, ht, outbox_drains rfl sampleOne_enqueued (.start ⟨hinitial, fun _ _ _ => rfl⟩) hgood ht
    hlength hpolls⟩

end Driftgate.Runtime
