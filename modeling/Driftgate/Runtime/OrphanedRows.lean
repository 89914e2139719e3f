import Driftgate.Runtime.DeliveryRuns

/-!
# Orphaned rows

A worker commits a row as DELIVERING before it delivers it, and nothing in the system selects
DELIVERING rows. As long as no worker is interrupted between that commit and the commit of the final
status, every DELIVERING row has a worker that is on its way to a final status. An interruption in
between leaves the row DELIVERING for good.

The invariant is about the uncommitted writes: only a worker that has just marked a row has a write
that would make it DELIVERING, and a worker that has written the final status of a row leaves it
not DELIVERING, whatever was committed in the meantime.
-/

namespace Driftgate.Runtime

open Driftgate.ReadCommitted Driftgate.Transition

/-! ### Workers with a row -/

/-- The row that a worker has marked, before the commit. -/
def Party.marked : Party → Option Uuid
  | .worker (.commitMark item _ _) => some item.id
  | _ => none

/-- The row that a live worker iteration is processing: its mark is committed, its final status is
not. -/
def Party.processing : Party → Option Uuid
  | .worker (.selectSubscription item _ _) => some item.id
  | .worker (.deliver item _ _ _ _) => some item.id
  | .worker (.conclude item _ _ _) => some item.id
  | .worker (.upsertDlq item _ _ _) => some item.id
  | .worker (.commitItem item _ _) => some item.id
  | _ => none

/-- The row whose final status a worker has written, before the commit. -/
def Party.concluded : Party → Option Uuid
  | .worker (.upsertDlq item _ _ _) => some item.id
  | .worker (.commitItem item _ _) => some item.id
  | _ => none

/-- Whether `deliver_with_retry` catches what it waits for raising. -/
def Party.catches : Party → Bool
  | .worker (.deliver _ _ _ _ (.post _)) => true
  | .worker (.deliver _ _ _ _ (.insertSuccess _)) => true
  | .worker (.deliver _ _ _ _ (.commitSuccess _)) => true
  | _ => false

/-- Whether an input ends a worker's iteration: it is cancelled or stopped, or an exception escapes
the poll. -/
def Party.interrupted (p : Party) : Input → Bool
  | .cancel => true
  | .stop => true
  | .raise _ => !p.catches
  | _ => false

section Condition

variable {ι : Type*}

/-- The condition that no worker is interrupted while it is processing a row. -/
def Uninterrupted (s : World ι) (a : ι × Input) : Prop :=
  (s.loc a.1).processing.isSome = true → (s.loc a.1).interrupted a.2 = false

instance (s : World ι) (a : ι × Input) : Decidable (Uninterrupted s a) :=
  inferInstanceAs (Decidable (_ → _))

end Condition

/-! ### Uncommitted writes -/

/-- A write that makes no row DELIVERING. -/
def Write.harmless : Write → Bool
  | .insertOutbox row => row.status ≠ .delivering
  | .updateOutbox _ change => change.status ≠ .delivering
  | _ => true

theorem Write.harmless_of_table {w : Write} (h : w.table ≠ .outbox) : w.harmless = true := by
  cases w <;> first | rfl | exact absurd rfl h

theorem Write.outboxStatus_of_harmless {w : Write} (h : w.harmless = true) {id : Uuid}
    {status : Option OutboxStatus} (hd : w.outboxStatus id status = some .delivering) :
    status = some .delivering := by
  cases w with
  | insertOutbox row =>
    cases status with
    | none =>
      simp only [outboxStatus, Option.none_or, Option.ite_none_right_eq_some,
        Option.some.injEq] at hd
      simp [harmless, hd.2] at h
    | some st => exact hd
  | updateOutbox id' change =>
    by_cases hid : id' = id
    · cases status with
      | none => simp [outboxStatus, hid] at hd
      | some st =>
        simp only [outboxStatus, hid, ↓reduceIte, Option.map_some, Option.some.injEq] at hd
        simp [harmless, hd] at h
    · simpa only [outboxStatus, hid, ↓reduceIte] using hd
  | _ => exact hd

/-- The status of a row after some writes. -/
def statusAfter (ws : List Write) (id : Uuid) (status : Option OutboxStatus) :
    Option OutboxStatus :=
  ws.foldl (fun status w => w.outboxStatus id status) status

theorem statusAfter_append (ws ws' : List Write) (id : Uuid) (status : Option OutboxStatus) :
    statusAfter (ws ++ ws') id status = statusAfter ws' id (statusAfter ws id status) :=
  List.foldl_append

theorem statusAfter_of_harmless {ws : List Write} (h : ∀ w ∈ ws, w.harmless = true) {id : Uuid}
    {status : Option OutboxStatus} (hd : statusAfter ws id status = some .delivering) :
    status = some .delivering := by
  induction ws generalizing status with
  | nil => exact hd
  | cons w ws ih =>
    rw [List.forall_mem_cons] at h
    exact Write.outboxStatus_of_harmless h.1 (ih h.2 hd)

/-- What holds of a party and its open transaction `ws`: the transaction makes a row DELIVERING only
if the party is about to commit that mark, or if the row is so and the party has not written its
final status. A transaction that is about to be rolled back may do anything. -/
def Settling (p : Party) (ws : List Write) : Prop :=
  p = .worker .closeFailed ∨ ∀ id status, statusAfter ws id status = some .delivering →
    p.marked = some id ∨ status = some .delivering ∧ p.concluded ≠ some id

theorem Settling.nil {p : Party} (h : p.concluded = none) : Settling p [] := by
  refine .inr fun id status hd => .inr ⟨hd, ?_⟩
  rw [h]
  exact (Option.some_ne_none id).symm

/-- More writes that make no row DELIVERING. -/
theorem Settling.append {p q : Party} {ws ws' : List Write} (h : Settling p ws)
    (hfailed : p ≠ .worker .closeFailed) (hmarked : p.marked = none)
    (hws : ∀ w ∈ ws', w.harmless = true)
    (hq : ∀ id, q.concluded = some id → p.concluded = some id) : Settling q (ws ++ ws') := by
  refine .inr fun id status hd => ?_
  rw [statusAfter_append] at hd
  obtain hm | ⟨hst, hc⟩ := h.resolve_left hfailed id status (statusAfter_of_harmless hws hd)
  · rw [hmarked] at hm
    cases hm
  · exact .inr ⟨hst, fun hqc => hc (hq id hqc)⟩

/-- An operation that makes no row DELIVERING, of a party that has marked none. -/
theorem Settling.step {p : Party} {ws : List Write} {op : Op Write LockKey Effect Party}
    (h : Settling p ws) (hfailed : p ≠ .worker .closeFailed) (hmarked : p.marked = none)
    (hws : ∀ w ∈ op.writes, w.harmless = true)
    (hq : ∀ id, op.next.concluded = some id → p.concluded = some id)
    (hend : ∀ l, op = .commit l ∨ op = .rollback l → l.concluded = none) :
    Settling op.next (op.pendingAfter ws) := by
  cases op with
  | exec ks new next => exact h.append hfailed hmarked hws hq
  | emit e next =>
    have happend : Settling next (ws ++ []) := h.append hfailed hmarked (by simp) hq
    rwa [List.append_nil] at happend
  | commit next => exact .nil (hend next (.inl rfl))
  | rollback next => exact .nil (hend next (.inr rfl))

/-! ### Steps of a worker -/

theorem WorkerPc.nextItem_concluded (n : ℕ) (items : List OutboxRow) :
    (Party.worker (nextItem n items)).concluded = none := by
  cases items <;> rfl

theorem WorkerPc.delivering_concluded (item : OutboxRow) (rest : List OutboxRow) (n : ℕ)
    (args : Delivery) (f : Flow DeliverPc Bool) :
    (Party.worker (delivering item rest n args f)).concluded = none := by
  cases f <;> rfl

theorem WorkerPc.settling {pc : WorkerPc} {v : DbView} {x : Input} {ws : List Write}
    {op : Op Write LockKey Effect WorkerPc} (h : pc.step v x = some op)
    (hs : Settling (.worker pc) ws) :
    Settling (.worker op.next) ((op.map Party.worker (id : Effect → Effect)).pendingAfter ws) := by
  by_cases hdeliver : ∃ item rest n args dpc, pc = .deliver item rest n args dpc
  · obtain ⟨item, rest, n, args, dpc, rfl⟩ := hdeliver
    obtain ⟨-, rfl⟩ | ⟨op', hop', rfl⟩ := deliver_cases h
    · exact .nil rfl
    · have hconcluded := delivering_concluded item rest n args op'.next
      rw [← Op.next_map Party.worker (id : Effect → Effect)]
      refine hs.step (by simp) rfl (fun w hw => ?_) (fun id hid => ?_) fun l hl => ?_
      · rw [Op.writes_map, Op.writes_map] at hw
        refine Write.harmless_of_table ?_
        obtain ht | ht := Delivery.step_table hop' w hw <;> rw [ht] <;> decide
      · rw [Op.next_map, Op.next_map, hconcluded] at hid
        cases hid
      · have hnext : ((op'.map (delivering item rest n args) (.posted item.id)).map
            Party.worker (id : Effect → Effect)).next = l := by
          obtain hl | hl := hl <;> rw [hl] <;> rfl
        rw [Op.next_map, Op.next_map] at hnext
        rw [← hnext]
        exact hconcluded
  have hnot : ∀ item rest n args dpc, pc ≠ .deliver item rest n args dpc :=
    fun item rest n args dpc hpc => hdeliver ⟨item, rest, n, args, dpc, hpc⟩
  by_cases hx : x.crash = true
  · obtain rfl | rfl := step_crash h hx hnot
    · exact .nil rfl
    · exact .inl rfl
  obtain ⟨now, rfl⟩ := step_proceed h (Bool.eq_false_of_not_eq_true hx) hnot
  cases pc with
  | deliver item rest n args dpc => exact absurd rfl (hnot item rest n args dpc)
  | poll =>
    obtain rfl := Option.some.inj h
    exact hs.append (by simp) rfl (by simp) fun id hid => by
      cases (nextItem_concluded 0 (selectBatch v now)).symm.trans hid
  | markDelivering item rest n =>
    obtain rfl := Option.some.inj h
    refine .inr fun id status hd => ?_
    show some item.id = some id ∨ _
    by_cases hid : item.id = id
    · exact .inl (congrArg some hid)
    · rw [show (Op.pendingAfter ws _) = ws ++ [_] from rfl, statusAfter_append] at hd
      have hne : (Write.updateOutbox item.id { status := .delivering }).outboxId ≠ some id :=
        fun he => hid (Option.some.inj he)
      rw [statusAfter, List.foldl_cons, List.foldl_nil, Write.outboxStatus_of_ne hne] at hd
      obtain hm | ⟨hst, -⟩ := hs.resolve_left (by simp) id status hd
      · cases hm
      · exact .inr ⟨hst, (Option.some_ne_none id).symm⟩
  | commitMark item rest n =>
    obtain rfl := Option.some.inj h
    exact .nil rfl
  | selectSubscription item rest n =>
    simp only [step] at h
    split at h <;> obtain rfl := Option.some.inj h
    · exact hs.append (by simp) rfl (by simp) fun id hid => by cases hid
    · exact hs.append (by simp) rfl (by simp) fun id hid => by
        cases (delivering_concluded item rest n _ _).symm.trans hid
  | conclude item rest n how =>
    obtain rfl := Option.some.inj h
    refine .inr fun id status hd => .inr ?_
    rw [show (Op.pendingAfter ws _) = ws ++ [_] from rfl, statusAfter_append] at hd
    have hharmless : (Write.updateOutbox item.id (conclusionChange item now how)).harmless = true := by
      cases how <;> rfl
    have hd' := Write.outboxStatus_of_harmless hharmless hd
    obtain hm | ⟨hst, -⟩ := hs.resolve_left (by simp) id status hd'
    · cases hm
    · refine ⟨hst, fun hc => ?_⟩
      have hid : item.id = id := by
        cases how <;> exact Option.some.inj hc
      rw [statusAfter, List.foldl_cons, List.foldl_nil, Write.outboxStatus, hid, if_pos rfl,
        hd'] at hd
      cases how <;> cases hd
  | upsertDlq item rest n args =>
    obtain rfl := Option.some.inj h
    exact hs.append (by simp) rfl (by simp [deadLetter, Delivery.upsertDlq, Write.harmless])
      fun id hid => hid
  | commitItem item rest n =>
    obtain rfl := Option.some.inj h
    exact .nil (nextItem_concluded _ _)
  | countPending n =>
    obtain rfl := Option.some.inj h
    exact hs.append (by simp) rfl (by simp) fun id hid => by cases hid
  | close n =>
    obtain rfl := Option.some.inj h
    refine .nil ?_
    show Party.concluded (.worker (if n = 0 then .sleep else .poll)) = none
    split <;> rfl
  | closeFailed =>
    obtain rfl := Option.some.inj h
    exact .nil rfl
  | sleep =>
    obtain rfl := Option.some.inj h
    exact hs.append (by simp) rfl (by simp) fun id hid => by cases hid
  | ended => cases h

/-! ### Steps of a party -/

theorem Write.harmless_of_outboxId {w : Write} (h : w.outboxId = none) : w.harmless = true := by
  cases w <;> first | rfl | cases h

theorem Enqueue.step_harmless {cfg : Config} {q : Enqueue} {pc : EnqueuePc} {v : DbView} {x : Input}
    {op : Op Write LockKey Effect (Flow EnqueuePc (List SubscriptionRow))}
    (h : q.step cfg pc v x = some op) : ∀ w ∈ op.writes, w.harmless = true := by
  cases step_move h with
  | delivers affected sub rest id pc hop =>
    intro w hw
    rw [Op.writes_map] at hw
    refine Write.harmless_of_table ?_
    obtain ht | ht := Delivery.step_table hop w hw <;> rw [ht] <;> decide
  | updates affected sub rest id ok =>
    cases ok <;> simp [Op.writes, Write.harmless, finalChange]
  | inserts | insertsActive | insertsInactive => simp [Op.writes, Write.harmless, newRow]
  | selects | selectRaises | insertRaises | updateRaises => simp [Op.writes]

theorem TrackCall.step_harmless {cfg : Config} {call : TrackCall} {pc : TrackPc} {v : DbView}
    {x : Input} {op : Op Write LockKey Effect (Flow TrackPc TrackResult)}
    (h : call.step cfg pc v x = some op) : ∀ w ∈ op.writes, w.harmless = true := by
  by_cases hpc : pc.enqueueing = false
  · obtain ⟨-, ⟨ks, ws, next, rfl, hws⟩ | ⟨e, next, rfl, -⟩⟩ := step_before_enqueue hpc h
    · exact fun w hw => Write.harmless_of_outboxId (hws w hw).outboxId
    · simp [Op.writes]
  · cases pc with
    | enqueue q pc =>
      obtain ⟨op', hop', rfl⟩ := Option.map_eq_some_iff.mp h
      rw [Op.writes_map]
      exact Enqueue.step_harmless hop'
    | commit n r =>
      cases x <;> simp only [step, reduceCtorEq, Option.some.injEq] at h <;> subst h <;>
        simp [Op.writes]
    | _ => exact absurd rfl hpc

theorem TrackProc.step_harmless {cfg : Config} {p : TrackProc} {v : DbView} {x : Input}
    {op : Op Write LockKey Effect TrackProc} (h : p.next cfg v x = some op) :
    ∀ w ∈ op.writes, w.harmless = true := by
  obtain ⟨-, rfl⟩ | ⟨ok, t, -, -, rfl⟩ | ⟨cop, -, hcode, rfl⟩ | ⟨e, -, rfl⟩ := next_cases h
  · simp [Op.writes]
  · simp [Op.writes]
  · rw [Op.writes_map]
    exact TrackCall.step_harmless hcode
  · simp [Op.writes]

/-- A party that never works for the outbox. -/
theorem Settling.step_idle {p : Party} {ws : List Write} {op : Op Write LockKey Effect Party}
    (h : Settling p ws) (hp : ∀ pc, p ≠ .worker pc) (hnext : ∀ pc, op.next ≠ .worker pc)
    (hws : ∀ w ∈ op.writes, w.harmless = true) : Settling op.next (op.pendingAfter ws) := by
  have hconcluded : op.next.concluded = none := by
    cases hn : op.next with
    | worker pc => exact absurd hn (hnext pc)
    | _ => rfl
  refine h.step (hp _) ?_ hws (fun id hid => ?_) fun l hl => ?_
  · cases p with
    | worker pc => exact absurd rfl (hp pc)
    | _ => rfl
  · rw [hconcluded] at hid
    cases hid
  · obtain rfl | rfl := hl <;> exact hconcluded

/-- **Uncommitted writes.** Every step of a party keeps what holds of its open transaction. -/
theorem Party.settling {cfg : Config} {p : Party} {v : DbView} {x : Input} {ws : List Write}
    {op : Op Write LockKey Effect Party} (h : p.next cfg v x = some op) (hs : Settling p ws) :
    Settling op.next (op.pendingAfter ws) := by
  cases p with
  | track p =>
    obtain ⟨op', hop', rfl⟩ := Option.map_eq_some_iff.mp h
    refine hs.step_idle (by simp) (by simp) ?_
    rw [Op.writes_map]
    exact TrackProc.step_harmless hop'
  | worker pc =>
    obtain ⟨op', hop', rfl⟩ := Option.map_eq_some_iff.mp h
    rw [Op.next_map]
    exact WorkerPc.settling hop' hs
  | subscription call pc =>
    obtain ⟨op', hop', rfl⟩ := Option.map_eq_some_iff.mp h
    refine hs.step_idle (by simp) (fun pc => ?_) fun w hw => ?_
    · rw [Op.next_map]
      cases op'.next <;> simp [subscribing]
    · rw [Op.writes_map] at hw
      refine Write.harmless_of_table ?_
      rw [SubscriptionCall.step_table hop' w hw]
      decide
  | finished =>
    cases x <;> simp only [next, reduceCtorEq, Option.some.injEq] at h
    subst h
    exact .nil rfl

/-- An exception that leaves `deliver_with_retry` was raised where nothing catches it. -/
theorem Delivery.raised_interrupts {item : OutboxRow} {rest : List OutboxRow} {n : ℕ}
    {args : Delivery} {dpc : DeliverPc} {v : DbView} {x : Input}
    {op : Op Write LockKey Post (Flow DeliverPc Bool)} (h : args.step dpc v x = some op) {e : Exc}
    (he : op.next = .raised e) :
    (Party.worker (.deliver item rest n args dpc)).interrupted x = true := by
  cases step_move h <;> first | rfl | cases he

theorem WorkerPc.delivering_processing {item : OutboxRow} {rest : List OutboxRow} {n : ℕ}
    {args : Delivery} {f : Flow DeliverPc Bool} (hf : ∀ e, f ≠ .raised e) :
    (Party.worker (delivering item rest n args f)).processing = some item.id := by
  cases f with
  | raised e => exact absurd rfl (hf e)
  | _ => rfl

/-- A worker that is processing a row and is not interrupted goes on, or commits the final
status. -/
theorem WorkerPc.processing_step {pc : WorkerPc} {v : DbView} {x : Input} {id : Uuid}
    {op : Op Write LockKey Effect WorkerPc} (h : pc.step v x = some op)
    (hp : (Party.worker pc).processing = some id) (hx : (Party.worker pc).interrupted x = false) :
    (Party.worker op.next).processing = some id ∨
      (Party.worker pc).concluded = some id ∧ ∃ l, op = .commit l := by
  by_cases hdeliver : ∃ item rest n args dpc, pc = .deliver item rest n args dpc
  · obtain ⟨item, rest, n, args, dpc, rfl⟩ := hdeliver
    obtain ⟨hstop, -⟩ | ⟨op', hop', rfl⟩ := deliver_cases h
    · obtain rfl | rfl := hstop <;> cases hx
    · rw [Op.next_map]
      refine .inl ((delivering_processing fun e he => ?_).trans hp)
      rw [Delivery.raised_interrupts hop' he] at hx
      cases hx
  have hnot : ∀ item rest n args dpc, pc ≠ .deliver item rest n args dpc :=
    fun item rest n args dpc hpc => hdeliver ⟨item, rest, n, args, dpc, hpc⟩
  have hcalm : x.crash = false := by
    cases x with
    | raise reason =>
      cases pc with
      | deliver item rest n args dpc => exact absurd rfl (hnot item rest n args dpc)
      | _ => cases hx
    | cancel => cases hx
    | stop => cases hx
    | _ => rfl
  obtain ⟨now, rfl⟩ := step_proceed h hcalm hnot
  cases pc with
  | deliver item rest n args dpc => exact absurd rfl (hnot item rest n args dpc)
  | selectSubscription item rest n =>
    simp only [step] at h
    split at h <;> obtain rfl := Option.some.inj h
    · exact .inl hp
    · refine .inl ((delivering_processing fun e he => ?_).trans hp)
      obtain hs | hs := Delivery.start_cases (delivery item _ v.fresh) <;> rw [hs] at he <;> cases he
  | conclude item rest n how =>
    obtain rfl := Option.some.inj h
    refine .inl ?_
    cases how <;> exact hp
  | upsertDlq item rest n args =>
    obtain rfl := Option.some.inj h
    exact .inl hp
  | commitItem item rest n =>
    obtain rfl := Option.some.inj h
    exact .inr ⟨hp, _, rfl⟩
  | _ => cases hp

/-- The same for a party: only workers process rows. -/
theorem Party.processing_step {cfg : Config} {p : Party} {v : DbView} {x : Input} {id : Uuid}
    {op : Op Write LockKey Effect Party} (h : p.next cfg v x = some op)
    (hp : p.processing = some id) (hx : p.interrupted x = false) :
    op.next.processing = some id ∨ p.concluded = some id ∧ ∃ l, op = .commit l := by
  cases p with
  | worker pc =>
    obtain ⟨op', hop', rfl⟩ := Option.map_eq_some_iff.mp h
    rw [Op.next_map]
    obtain hgo | ⟨hc, l, rfl⟩ := WorkerPc.processing_step hop' hp hx
    · exact .inl hgo
    · exact .inr ⟨hc, _, rfl⟩
  | _ => cases hp

/-- A worker that commits a mark goes on to process the row; one whose poll has failed commits
nothing. -/
theorem Party.commit_marked {cfg : Config} {p next : Party} {v : DbView} {x : Input} {id : Uuid}
    (h : p.next cfg v x = some (.commit next)) (hp : p.marked = some id) :
    next.processing = some id := by
  cases p with
  | worker pc =>
    obtain ⟨op', hop', hmap⟩ := Option.map_eq_some_iff.mp h
    cases pc with
    | commitMark item rest n =>
      cases x <;> simp only [WorkerPc.step, reduceCtorEq, Option.some.injEq] at hop' <;>
        subst hop' <;> cases hmap
      exact hp
    | _ => cases hp
  | _ => cases hp

theorem Party.closeFailed_not_commit (cfg : Config) {next : Party} {v : DbView} {x : Input}
    (h : Party.next cfg (.worker .closeFailed) v x = some (.commit next)) : False := by
  obtain ⟨op', hop', hmap⟩ := Option.map_eq_some_iff.mp h
  cases x <;> simp only [WorkerPc.step, reduceCtorEq, Option.some.injEq] at hop' <;> subst hop' <;>
    cases hmap

/-! ### Every run -/

theorem Party.Starting.concluded {p : Party} (h : p.Starting) : p.concluded = none := by
  cases h <;> rfl

section Runs

variable {ι : Type*} [DecidableEq ι] {cfg : Config} {db : Db} {fresh : Uuid}

theorem Run.settling {good : World ι → ι × Input → Prop} {s : World ι}
    (hs : Run (program cfg).step good (Initial db fresh) s) (i : ι) :
    Settling (s.loc i) (s.pending i) := by
  refine Run.process_invariant (A := fun _ o => Settling o.loc o.pending) ?_ ?_ hs i
  · intro s hs i
    show Settling (s.loc i) (s.pending i)
    rw [hs.pending i]
    exact .nil (hs.starting i).concluded
  · exact fun s i x op _ h hop => Party.settling hop h

/-- **No orphaned row.** In every run in which no worker is interrupted between the commit that
makes a row DELIVERING and the commit of its final status, every row that is not delivered is being
processed by a live worker, or PENDING, or FAILED. -/
theorem undelivered_row_processed_or_selectable
    (hdb : ∀ id, db.outboxStatus id ≠ some .delivering) {s : World ι}
    (hs : Run (program cfg).step Uninterrupted (Initial db fresh) s) (id : Uuid)
    {status : OutboxStatus} (hstatus : s.db.outboxStatus id = some status)
    (hundelivered : status ≠ .delivered) :
    (∃ i, (s.loc i).processing = some id) ∨ status = .pending ∨ status = .failed := by
  have hprocessing : ∀ id, s.db.outboxStatus id = some .delivering →
      ∃ i, (s.loc i).processing = some id := by
    refine Run.invariant (I := fun s => ∀ id, s.db.outboxStatus id = some .delivering →
      ∃ i, (s.loc i).processing = some id) ?_ ?_ hs
    · intro s hs id hid
      rw [hs.db] at hid
      exact absurd hid (hdb id)
    · intro s a t hr hI hgood hstep id hid
      obtain ⟨i, x⟩ := a
      obtain ⟨op, hop, hst⟩ := step_cases hstep
      have hloc : t.loc i = op.next := hst.loc
      have hother : ∀ j, j ≠ i → t.loc j = s.loc j := fun j hj => hst.loc_other hj
      have hdb' : t.db = (op.shared (program cfg) i (s.pending i) s.toShared).db :=
        congrArg Shared.db hst.shared
      -- a worker that was processing the row still is, unless it has committed the final status
      have hstill : s.db.outboxStatus id = some .delivering →
          ((s.loc i).concluded ≠ some id ∨ ∀ l, op ≠ .commit l) →
          ∃ j, (t.loc j).processing = some id := by
        intro hbefore hnot
        obtain ⟨j, hj⟩ := hI id hbefore
        by_cases hji : j = i
        · subst hji
          have hp : (s.loc j).processing.isSome = true := by simp [hj]
          obtain hgo | ⟨hc, l, hl⟩ := Party.processing_step hop hj (hgood hp)
          · exact ⟨j, hloc ▸ hgo⟩
          · exact absurd hl (hnot.resolve_left (not_not_intro hc) l)
        · exact ⟨j, (hother j hji).symm ▸ hj⟩
      by_cases hcommit : ∃ l, op = .commit l
      · obtain ⟨l, rfl⟩ := hcommit
        rw [hdb', show (Op.shared (program cfg) i (s.pending i) s.toShared (.commit l)).db =
          (program cfg).applyAll (s.pending i) s.db from rfl, outboxStatus_applyAll] at hid
        obtain hf | hset := Run.settling hr i
        · rw [hf] at hop
          exact (Party.closeFailed_not_commit cfg hop).elim
        · obtain hm | ⟨hbefore, hc⟩ := hset id _ hid
          · exact ⟨i, hloc ▸ Party.commit_marked hop hm⟩
          · exact hstill hbefore (.inl hc)
      · have hno : ∀ l, op ≠ .commit l := fun l hl => hcommit ⟨l, hl⟩
        rw [hdb', Op.db_shared _ _ _ _ hno] at hid
        exact hstill hid (.inr hno)
  cases status with
  | pending => exact .inr (.inl rfl)
  | delivering => exact .inl (hprocessing id hstatus)
  | failed => exact .inr (.inr rfl)
  | delivered => exact absurd rfl hundelivered

end Runs

/-! ### One worker -/

/-- A worker alone with a batch. -/
def sampleWorker : World Unit := worldOf sampleBatch 10 fun _ => .worker .poll

/-- A row whose mark is committed is being processed. -/
theorem marked_row_processed : ∃ s : World Unit,
    Run (program (sampleConfig false)).step Uninterrupted (Initial sampleBatch 10) s ∧
    s.db.outboxStatus 1 = some .delivering ∧ ∃ i, (s.loc i).processing = some 1 := by
  have hrun : (exec (program (sampleConfig false)).step sampleWorker
      (List.replicate 3 ((), .proceed 0))).map (fun s => s.db.outboxStatus 1) =
        some (some .delivering) := by
    decide
  obtain ⟨s, hs, hstatus⟩ := Option.map_eq_some_iff.mp hrun
  have hgood : Along (program (sampleConfig false)).step Uninterrupted sampleWorker
      (List.replicate 3 ((), .proceed 0)) := by
    decide
  have hreach := Run.of_exec (.start (worldOf_initial fun _ => .worker)) hgood hs
  refine ⟨s, hreach, hstatus, ?_⟩
  have hinitial : ∀ id, sampleBatch.outboxStatus id ≠ some .delivering := by
    intro id
    simp only [Db.outboxStatus, sampleBatch, List.find?_cons, List.find?_nil]
    split
    · simp [samplePending]
    · split <;> simp [samplePending]
  obtain hprocessing | hp | hf :=
    undelivered_row_processed_or_selectable hinitial hreach 1 hstatus (by decide)
  · exact hprocessing
  · cases hp
  · cases hf

/-- A worker that is cancelled after it has committed a mark leaves the row DELIVERING, and nobody
is processing it. -/
theorem cancelled_worker_orphans : ¬∀ s : World Unit,
    Reachable (program (sampleConfig false)).step (Initial sampleBatch 10) s →
    ∀ id status, s.db.outboxStatus id = some status → status ≠ .delivered →
      (∃ i, (s.loc i).processing = some id) ∨ status = .pending ∨ status = .failed := by
  intro h
  have hrun : (exec (program (sampleConfig false)).step sampleWorker
      (List.replicate 3 ((), .proceed 0) ++ [((), .cancel)])).map
      (fun s => (s.db.outboxStatus 1, (s.loc ()).processing)) =
        some (some .delivering, none) := by
    decide
  obtain ⟨s, hs, hend⟩ := Option.map_eq_some_iff.mp hrun
  obtain ⟨hstatus, hidle⟩ := Prod.mk.inj hend
  have hreach := reachable_of_exec (worldOf_initial fun _ => .worker) hs
  obtain ⟨i, hi⟩ | hp | hf := h s hreach 1 .delivering hstatus (by decide)
  · rw [hidle] at hi
    cases hi
  · cases hp
  · cases hf

end Driftgate.Runtime
