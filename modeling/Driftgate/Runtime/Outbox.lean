import Driftgate.Runtime.System

/-!
# What a step does with the outbox

A party has at most one row of the outbox under way: an inline call between the insert and the final
update, a worker between marking a row and its final update. `Party.stage` reads that off the
program counter, together with the status the party sees the row in and whether the subscriber has
answered 2xx. `OutboxMove` lists everything a step can do to the outbox and to the stage, and
`Party.outboxMove` proves the list complete for steps that are not crashes.
-/

namespace Driftgate.Runtime

open Driftgate.ReadCommitted

/-! ### The status of a row -/

/-- The status of the row with an identifier. -/
def Db.outboxStatus (db : Db) (id : Uuid) : Option OutboxStatus :=
  (db.outbox.find? (·.id = id)).map (·.status)

/-- The row of the outbox that a write is about. -/
def Write.outboxId : Write → Option Uuid
  | .insertOutbox row => some row.id
  | .updateOutbox id _ => some id
  | _ => none

/-- What a write does to the status of a row. -/
def Write.outboxStatus (id : Uuid) (status : Option OutboxStatus) : Write → Option OutboxStatus
  | .insertOutbox row => status.or (if row.id = id then some row.status else none)
  | .updateOutbox id' change => if id' = id then status.map fun _ => change.status else status
  | _ => status

theorem Write.outboxId_of_table {w : Write} (h : w.table ≠ .outbox) : w.outboxId = none := by
  cases w <;> first | rfl | exact absurd rfl h

theorem Write.outboxStatus_of_ne {w : Write} {id : Uuid} {status : Option OutboxStatus}
    (h : w.outboxId ≠ some id) : w.outboxStatus id status = status := by
  cases w with
  | insertOutbox row =>
    have hne : row.id ≠ id := fun he => h (congrArg some he)
    simp [outboxStatus, hne]
  | updateOutbox id' change =>
    have hne : id' ≠ id := fun he => h (congrArg some he)
    simp [outboxStatus, hne]
  | _ => rfl

theorem find_updateWhere {α : Type*} (p q : α → Bool) (f : α → α) (rows : List α)
    (h : ∀ r, p (f r) = p r) : (updateWhere q f rows).find? p =
      (rows.find? p).map fun r => if q r then f r else r := by
  induction rows with
  | nil => rfl
  | cons r rows ih =>
    have hr : p (if q r then f r else r) = p r := by
      split
      · exact h r
      · rfl
    simp only [updateWhere, List.map_cons, List.find?_cons, hr]
    cases p r with
    | true => rfl
    | false => exact ih

theorem Db.outboxStatus_apply (w : Write) (db : Db) (id : Uuid) :
    (w.apply db).outboxStatus id = w.outboxStatus id (db.outboxStatus id) := by
  cases w with
  | insertOutbox row =>
    simp only [Db.outboxStatus, Write.apply, Write.outboxStatus, List.find?_append,
      List.find?_singleton]
    cases db.outbox.find? (·.id = id) with
    | none => by_cases he : row.id = id <;> simp [he]
    | some r => rfl
  | updateOutbox id' change =>
    simp only [Db.outboxStatus, Write.apply, Write.outboxStatus]
    rw [find_updateWhere _ _ change.apply _ fun r => rfl]
    cases hfind : db.outbox.find? (·.id = id) with
    | none => simp
    | some r =>
      have hr : r.id = id := by simpa using List.find?_some hfind
      by_cases he : id' = id
      · simp [hr, he, OutboxChange.apply]
      · have hne : r.id ≠ id' := fun h => he (h.symm.trans hr)
        simp [hne, he]
  | _ => rfl

/-- The status of a row after a list of writes depends on its status before. -/
theorem outboxStatus_applyAll (cfg : Config) (ws : List Write) (db : Db) (id : Uuid) :
    ((program cfg).applyAll ws db).outboxStatus id =
      ws.foldl (fun status w => w.outboxStatus id status) (db.outboxStatus id) :=
  (program cfg).applyAll_project (fun db => db.outboxStatus id)
    (fun status w => w.outboxStatus id status) (fun w db => Db.outboxStatus_apply w db id) ws db

/-- Writes about other rows do not change the status of a row. -/
theorem outboxStatus_applyAll_of_ne (cfg : Config) {ws : List Write} {id : Uuid}
    (h : ∀ w ∈ ws, w.outboxId ≠ some id) (db : Db) :
    ((program cfg).applyAll ws db).outboxStatus id = db.outboxStatus id := by
  refine (program cfg).applyAll_keep (fun db => db.outboxStatus id) (fun w hw db => ?_) db
  exact (Db.outboxStatus_apply w db id).trans (Write.outboxStatus_of_ne (h w hw))

/-! ### POSTs in the trace -/

/-- The row of the outbox that a POST is made for. -/
def Effect.postOf : Effect → Option Uuid
  | .posted id _ => some id
  | _ => none

/-- The row that a POST answered 2xx was made for. -/
def Effect.okPostOf : Effect → Option Uuid
  | .posted id post => if post.answer.ok then some id else none
  | _ => none

theorem Effect.postOf_of_okPostOf {e : Effect} {id : Uuid} (h : e.okPostOf = some id) :
    e.postOf = some id := by
  cases e with
  | posted id' post =>
    simp only [okPostOf, Option.ite_none_right_eq_some] at h
    exact h.2
  | _ => cases h

section Trace

variable {ι : Type*}

/-- A POST for the row has been answered 2xx. -/
def Answered (id : Uuid) (trace : List (ι × Effect)) : Prop :=
  ∃ e ∈ trace, e.2.okPostOf = some id

/-- The row has not been posted again after it was answered 2xx. -/
def NeverRepeated (id : Uuid) (trace : List (ι × Effect)) : Prop :=
  trace.Pairwise fun a b => a.2.okPostOf = some id → b.2.postOf ≠ some id

theorem answered_append {id : Uuid} {trace : List (ι × Effect)} {e : ι × Effect} :
    Answered id (trace ++ [e]) ↔ Answered id trace ∨ e.2.okPostOf = some id := by
  simp only [Answered, List.mem_append, List.mem_singleton, or_and_right, exists_or,
    exists_eq_left]

theorem NeverRepeated.append {id : Uuid} {trace : List (ι × Effect)} {e : ι × Effect}
    (h : NeverRepeated id trace) (he : e.2.postOf = some id → ¬Answered id trace) :
    NeverRepeated id (trace ++ [e]) := by
  refine List.pairwise_append.mpr ⟨h, List.pairwise_singleton _ _, fun a ha b hb hok hpost => ?_⟩
  rw [List.mem_singleton.mp hb] at hpost
  exact he hpost ⟨a, ha, hok⟩

/-- A row that is not posted again after a 2xx answer has at most one 2xx answer. -/
theorem NeverRepeated.length_le {id : Uuid} {trace : List (ι × Effect)}
    (h : NeverRepeated id trace) : (trace.filter fun e => e.2.okPostOf = some id).length ≤ 1 := by
  induction trace with
  | nil => exact Nat.zero_le 1
  | cons e trace ih =>
    obtain ⟨hfirst, hrest⟩ := List.pairwise_cons.mp h
    by_cases he : e.2.okPostOf = some id
    · have hnone : trace.filter (fun e => e.2.okPostOf = some id) = [] := by
        refine List.filter_eq_nil_iff.mpr fun b hb hok => ?_
        exact hfirst b hb he (Effect.postOf_of_okPostOf (of_decide_eq_true hok))
      simp [he, hnone]
    · simpa [he] using ih hrest

end Trace

/-! ### Stages -/

/-- How far the row under way has got. -/
inductive Phase
  /-- An inline call has inserted the row and delivers it; nobody else sees the row. -/
  | unpublished
  /-- An inline call is about to write the final status; the delivery has committed the row. -/
  | exposed
  /-- A worker has marked the row. -/
  | marked
  deriving DecidableEq, Repr

/-- The status the party sees the row in. -/
def Phase.status : Phase → OutboxStatus
  | unpublished => .pending
  | exposed => .pending
  | marked => .delivering

/-- The row of the outbox that a party has under way. -/
structure Stage where
  id : Uuid
  phase : Phase
  /-- The subscriber has answered 2xx. -/
  answered : Bool
  deriving DecidableEq

/-- The last POST of the delivery was answered 2xx. -/
def DeliverPc.answered : DeliverPc → Bool
  | .insertSuccess _ => true
  | .commitSuccess _ => true
  | _ => false

def EnqueuePc.stage : EnqueuePc → Option Stage
  | .deliver _ _ _ id pc => some ⟨id, .unpublished, pc.answered⟩
  | .updateOutbox _ _ _ id ok => some ⟨id, .exposed, ok⟩
  | _ => none

def TrackPc.stage : TrackPc → Option Stage
  | .enqueue _ pc => pc.stage
  | _ => none

def Conclusion.answered : Conclusion → Bool
  | .delivered => true
  | _ => false

def WorkerPc.stage : WorkerPc → Option Stage
  | .commitMark item _ _ => some ⟨item.id, .marked, false⟩
  | .selectSubscription item _ _ => some ⟨item.id, .marked, false⟩
  | .deliver item _ _ _ pc => some ⟨item.id, .marked, pc.answered⟩
  | .conclude item _ _ how => some ⟨item.id, .marked, how.answered⟩
  | _ => none

def Party.stage : Party → Option Stage
  | .track p =>
    match p.status with
    | .running => p.pc.stage
    | _ => none
  | .worker pc => pc.stage
  | _ => none

/-- Past the selection of the affected subscriptions, and before the end of the request. -/
def TrackPc.enqueueing : TrackPc → Bool
  | .enqueue _ _ => true
  | .commit _ _ => true
  | _ => false

/-- Whether the party is where it may have rows of the outbox under way or not yet committed. -/
def Party.handling : Party → Bool
  | .track p =>
    match p.status with
    | .running => p.pc.enqueueing
    | _ => false
  | .worker pc =>
    match pc with
    | .commitMark _ _ _ => true
    | .selectSubscription _ _ _ => true
    | .deliver _ _ _ _ _ => true
    | .conclude _ _ _ _ => true
    | .upsertDlq _ _ _ _ => true
    | .commitItem _ _ _ => true
    | _ => false
  | _ => false

/-- Whether the party waits for the answer to a POST. -/
def Party.posting : Party → Bool
  | .track p =>
    match p.status, p.pc with
    | .running, .enqueue _ (.deliver _ _ _ _ (.post _)) => true
    | _, _ => false
  | .worker (.deliver _ _ _ _ (.post _)) => true
  | _ => false

theorem Party.stage_of_posting {p : Party} (h : p.posting = true) : p.stage ≠ none := by
  cases p with
  | track p =>
    obtain ⟨call, pc, status, task⟩ := p
    cases status with
    | running =>
      cases pc with
      | enqueue q pc =>
        cases pc with
        | deliver affected sub rest id pc => simp [stage, TrackPc.stage, EnqueuePc.stage]
        | _ => cases h
      | _ => cases h
    | _ => cases h
  | worker pc =>
    cases pc with
    | deliver item rest n args pc => simp [stage, WorkerPc.stage]
    | _ => cases h
  | _ => cases h

theorem Party.Starting.stage {p : Party} (h : p.Starting) : p.stage = none := by
  cases h <;> rfl

theorem Party.handling_of_stage {p : Party} {st : Stage} (h : p.stage = some st) :
    p.handling = true := by
  cases p with
  | track p =>
    obtain ⟨call, pc, status, task⟩ := p
    cases status <;> cases pc <;> first | rfl | cases h
  | worker pc => cases pc <;> first | rfl | cases h
  | _ => cases h

/-! ### Crashes -/

/-- The party is stopped, or what it waits for raises. -/
def Input.crash : Input → Bool
  | .cancel => true
  | .stop => true
  | .raise _ => true
  | _ => false

/-- A crash that is none: a POST may raise. -/
def Party.survives (p : Party) : Input → Bool
  | .raise _ => p.posting
  | _ => false

/-! ### Moves -/

/-- The row that a worker is about to mark. -/
def Party.marks : Party → Option Uuid
  | .worker (.markDelivering item _ _) => some item.id
  | _ => none

/-- Everything that an operation of a party can do to the outbox and to its stage. `fresh` is the
identifier a new row gets; `crash` says whether the party has crashed. -/
inductive OutboxMove (p : Party) (fresh : Uuid) (crash : Bool) : Op Write LockKey Effect Party → Prop
  | keep {ks : List LockKey} {ws : List Write} {next : Party} (writes : ∀ w ∈ ws, w.outboxId = none)
      (stage : next.stage = p.stage) (handling : p.handling = true → next.handling = true) :
      OutboxMove p fresh crash (.exec ks ws next)
  | tell {e : Effect} {next : Party} (post : e.postOf = none) (stage : next.stage = p.stage)
      (handling : p.handling = true → next.handling = true) : OutboxMove p fresh crash (.emit e next)
  | post {id : Uuid} {phase : Phase} {post : Post} {next : Party}
      (stage : p.stage = some ⟨id, phase, false⟩)
      (next_stage : next.stage = some ⟨id, phase, post.answer.ok⟩) :
      OutboxMove p fresh crash (.emit (.posted id post) next)
  | insert {row : OutboxRow} {next : Party} (id : row.id = fresh) (status : row.status = .pending)
      (stage : p.stage = none)
      (next_stage : next.stage = none ∨ ∃ phase, phase ≠ .marked ∧
        next.stage = some ⟨fresh, phase, false⟩)
      (handling : next.handling = true) :
      OutboxMove p fresh crash (.exec [.outboxRow fresh] [.insertOutbox row] next)
  | mark {id : Uuid} {next : Party} (marks : p.marks = some id) (handling : p.handling = false)
      (next_stage : next.stage = some ⟨id, .marked, false⟩) :
      OutboxMove p fresh crash
        (.exec [.outboxRow id] [.updateOutbox id { status := .delivering }] next)
  | conclude {st : Stage} {change : OutboxChange} {next : Party} (stage : p.stage = some st)
      (status : change.status = .delivered ↔ st.answered = true) (next_stage : next.stage = none)
      (handling : next.handling = true) :
      OutboxMove p fresh crash (.exec [.outboxRow st.id] [.updateOutbox st.id change] next)
  | commit {next : Party}
      (stage : p.stage = none ∧ next.stage = none ∨
        ∃ id phase phase' answered, p.stage = some ⟨id, phase, answered⟩ ∧
          next.stage = some ⟨id, phase', answered⟩ ∧ phase'.status = phase.status ∧
          phase' ≠ .unpublished) :
      OutboxMove p fresh crash (.commit next)
  | fail {next : Party} (idle : p.handling = false ∨ crash = true ∧ p.stage = none)
      (next_stage : next.stage = none) : OutboxMove p fresh crash (.exec [] [] next)
  | rollback {next : Party} (idle : p.handling = false ∨ crash = true ∧ p.stage = none)
      (next_stage : next.stage = none) : OutboxMove p fresh crash (.rollback next)

theorem Delivery.afterFailure_answered (d : Delivery) (n : ℕ) (reason : String) :
    (d.afterFailure n reason).answered = false := by
  rw [afterFailure]
  split
  · split <;> rfl
  · rfl

/-- A delivery posts, or works on the attempts, or commits and returns the answer. -/
theorem Delivery.moves {d : Delivery} {pc : DeliverPc} {v : DbView} {x : Input}
    {op : Op Write LockKey Post (Flow DeliverPc Bool)} (h : d.step pc v x = some op)
    (hcrash : x.crash = true → ∃ n, pc = .post n) :
    (∃ post pc', pc.answered = false ∧ op = .emit post (.go pc') ∧
      pc'.answered = post.answer.ok) ∨
    (∃ ks ws pc', op = .exec ks ws (.go pc') ∧ (∀ w ∈ ws, w.outboxId = none) ∧
      pc'.answered = pc.answered) ∨
    op = .commit (.done pc.answered) := by
  cases step_move h with
  | answered n code =>
    refine .inl ⟨_, _, rfl, rfl, ?_⟩
    cases hok : (Answer.status code).ok <;> rfl
  | unanswered => exact .inl ⟨_, _, rfl, rfl, rfl⟩
  | success => exact .inr (.inl ⟨_, _, _, rfl, by simp [insertAttempt, Write.outboxId], rfl⟩)
  | failure =>
    exact .inr (.inl ⟨_, _, _, rfl, by simp [insertAttempt, Write.outboxId],
      d.afterFailure_answered _ _⟩)
  | deadLetter => exact .inr (.inl ⟨_, _, _, rfl, by simp [upsertDlq, Write.outboxId], rfl⟩)
  | delivered | givenUp => exact .inr (.inr rfl)
  | successRaises | deliveredRaises | failureRaises | deadLetterRaises | givenUpRaises =>
    obtain ⟨m, hm⟩ := hcrash rfl
    cases hm

/-! ### Moves of a worker -/

theorem WorkerPc.afterDelivery_answered (item : OutboxRow) (args : Delivery) (ok : Bool) :
    (afterDelivery item args ok).answered = ok := by
  cases ok with
  | true => rfl
  | false =>
    simp only [afterDelivery, Bool.false_eq_true, ↓reduceIte]
    split <;> rfl

theorem WorkerPc.nextItem_stage (n : ℕ) (items : List OutboxRow) :
    (nextItem n items).stage = none := by
  cases items <;> rfl

/-- Before the first POST a worker either posts or has given up. -/
theorem WorkerPc.delivering_start (item : OutboxRow) (rest : List OutboxRow) (n : ℕ)
    (args : Delivery) : (delivering item rest n args args.start).stage =
      some ⟨item.id, .marked, false⟩ ∧
      (Party.worker (delivering item rest n args args.start)).handling = true := by
  obtain hs | hs := args.start_cases <;> rw [hs]
  · exact ⟨rfl, rfl⟩
  · refine ⟨?_, rfl⟩
    show some (Stage.mk item.id .marked (afterDelivery item args false).answered) = _
    rw [afterDelivery_answered]

/-- A crash ends the poll, except while a row is delivered. -/
theorem WorkerPc.step_crash {pc : WorkerPc} {v : DbView} {x : Input}
    {op : Op Write LockKey Effect WorkerPc} (h : pc.step v x = some op) (hx : x.crash = true)
    (hpc : ∀ item rest n args dpc, pc ≠ .deliver item rest n args dpc) :
    op = .rollback .ended ∨ op = .exec [] [] .closeFailed := by
  cases x with
  | cancel => cases pc <;> simp_all [step]
  | stop => cases pc <;> simp_all [step]
  | raise reason =>
    cases pc with
    | deliver item rest n args dpc => exact absurd rfl (hpc item rest n args dpc)
    | _ => simp_all [step]
  | _ => cases hx

/-- Only a delivery waits for anything but a statement or a commit. -/
theorem WorkerPc.step_proceed {pc : WorkerPc} {v : DbView} {x : Input}
    {op : Op Write LockKey Effect WorkerPc} (h : pc.step v x = some op) (hx : x.crash = false)
    (hpc : ∀ item rest n args dpc, pc ≠ .deliver item rest n args dpc) :
    ∃ now, x = .proceed now := by
  cases x with
  | proceed now => exact ⟨now, rfl⟩
  | answer status =>
    cases pc with
    | deliver item rest n args dpc => exact absurd rfl (hpc item rest n args dpc)
    | _ => cases h
  | publish ok =>
    cases pc with
    | deliver item rest n args dpc => exact absurd rfl (hpc item rest n args dpc)
    | _ => cases h
  | _ => cases hx

/-- A worker in the middle of a delivery. -/
theorem WorkerPc.deliver_outboxMove {item : OutboxRow} {rest : List OutboxRow} {n : ℕ}
    {args : Delivery} {pc : DeliverPc} {v : DbView} {x : Input}
    {op : Op Write LockKey Effect WorkerPc}
    (h : (deliver item rest n args pc).step v x = some op)
    (hcrash : x.crash = true → (Party.worker (.deliver item rest n args pc)).survives x = true) :
    OutboxMove (.worker (.deliver item rest n args pc)) v.fresh x.crash (op.map .worker id) := by
  have hpost : x.crash = true → ∃ m, pc = .post m := by
    intro hx
    have hs := hcrash hx
    cases x <;> simp only [Party.survives, Bool.false_eq_true] at hs
    cases pc with
    | post m => exact ⟨m, rfl⟩
    | _ => cases hs
  obtain ⟨hstop, -⟩ | ⟨dop, hd, rfl⟩ := deliver_cases h
  · obtain rfl | rfl := hstop <;> cases hcrash rfl
  obtain ⟨post, pc', hpc, rfl, hpc'⟩ | ⟨ks, ws, pc', rfl, hws, hpc'⟩ | rfl :=
    Delivery.moves hd hpost
  · refine @OutboxMove.post _ _ _ item.id .marked _ _ ?_ ?_
    · show some (Stage.mk item.id .marked pc.answered) = _
      rw [hpc]
    · show some (Stage.mk item.id .marked pc'.answered) = _
      rw [hpc']
  · refine .keep hws ?_ fun _ => rfl
    show some (Stage.mk item.id .marked pc'.answered) = some ⟨item.id, .marked, pc.answered⟩
    rw [hpc']
  · refine .commit (.inr ⟨item.id, .marked, .marked, pc.answered, rfl, ?_, rfl, by decide⟩)
    show some (Stage.mk item.id .marked (afterDelivery item args pc.answered).answered) = _
    rw [afterDelivery_answered]

theorem WorkerPc.outboxMove {pc : WorkerPc} {v : DbView} {x : Input}
    {op : Op Write LockKey Effect WorkerPc} (h : pc.step v x = some op)
    (hcrash : x.crash = true → (Party.worker pc).survives x = true ∨ pc.stage = none) :
    OutboxMove (.worker pc) v.fresh x.crash (op.map .worker id) := by
  by_cases hx : x.crash = true ∧ pc.stage = none
  · have hnot : ∀ item rest n args dpc, pc ≠ .deliver item rest n args dpc := by
      intro item rest n args dpc hpc
      rw [hpc] at hx
      cases hx.2
    obtain rfl | rfl := step_crash h hx.1 hnot
    · exact .rollback (.inr hx) rfl
    · exact .fail (.inr hx) rfl
  have hsurvives : x.crash = true → (Party.worker pc).survives x = true :=
    fun hc => (hcrash hc).resolve_right fun hs => hx ⟨hc, hs⟩
  by_cases hdeliver : ∃ item rest n args dpc, pc = .deliver item rest n args dpc
  · obtain ⟨item, rest, n, args, dpc, rfl⟩ := hdeliver
    exact deliver_outboxMove h hsurvives
  have hnot : ∀ item rest n args dpc, pc ≠ .deliver item rest n args dpc :=
    fun item rest n args dpc hpc => hdeliver ⟨item, rest, n, args, dpc, hpc⟩
  have hcalm : x.crash = false := by
    by_contra hc
    have hs := hsurvives (Bool.eq_true_of_not_eq_false hc)
    cases x <;> simp only [Party.survives, Bool.false_eq_true] at hs
    cases pc with
    | deliver item rest n args dpc => exact hnot item rest n args dpc rfl
    | _ => cases hs
  obtain ⟨now, rfl⟩ := step_proceed h hcalm hnot
  cases pc with
  | deliver item rest n args dpc => exact absurd rfl (hnot item rest n args dpc)
  | poll =>
    obtain rfl := Option.some.inj h
    exact .keep (by simp) (nextItem_stage _ _) (by simp [Party.handling])
  | markDelivering item rest n =>
    obtain rfl := Option.some.inj h
    exact .mark rfl rfl rfl
  | commitMark item rest n =>
    obtain rfl := Option.some.inj h
    exact .commit (.inr ⟨item.id, .marked, .marked, false, rfl, rfl, rfl, by decide⟩)
  | selectSubscription item rest n =>
    simp only [step] at h
    split at h <;> obtain rfl := Option.some.inj h
    · exact .keep (by simp) rfl fun _ => rfl
    · obtain ⟨hstage, hhandling⟩ := delivering_start item rest n _
      exact .keep (by simp) hstage fun _ => hhandling
  | conclude item rest n how =>
    obtain rfl := Option.some.inj h
    refine @OutboxMove.conclude _ _ _ ⟨item.id, .marked, how.answered⟩ _ _ rfl ?_ ?_ ?_
    · cases how <;> simp [conclusionChange, Conclusion.answered]
    · cases how <;> rfl
    · cases how <;> rfl
  | upsertDlq item rest n args =>
    obtain rfl := Option.some.inj h
    exact .keep (by simp [deadLetter, Delivery.upsertDlq, Write.outboxId]) rfl fun _ => rfl
  | commitItem item rest n =>
    obtain rfl := Option.some.inj h
    exact .commit (.inl ⟨rfl, nextItem_stage _ _⟩)
  | countPending n =>
    obtain rfl := Option.some.inj h
    exact .keep (by simp) rfl (by simp [Party.handling])
  | close n =>
    obtain rfl := Option.some.inj h
    refine .rollback (.inl rfl) ?_
    show WorkerPc.stage (if n = 0 then sleep else poll) = none
    split <;> rfl
  | closeFailed =>
    obtain rfl := Option.some.inj h
    exact .rollback (.inl rfl) rfl
  | sleep =>
    obtain rfl := Option.some.inj h
    exact .keep (by simp) rfl (by simp [Party.handling])
  | ended => cases h

/-! ### Moves of a request -/

namespace TrackProc

variable {cfg : Config} {p : TrackProc}

/-- The stage of a request follows its code. -/
theorem stage_after (hrun : p.status = .running) (f : Flow TrackPc TrackResult) :
    (Party.track (p.after cfg f)).stage = match f with
      | .go pc => pc.stage
      | _ => none := by
  cases f <;> simp [after, Party.stage, hrun]

theorem handling_after (hrun : p.status = .running) (f : Flow TrackPc TrackResult) :
    (Party.track (p.after cfg f)).handling = match f with
      | .go pc => pc.enqueueing
      | _ => false := by
  cases f <;> simp [after, Party.handling, hrun]

/-- The request after a step of `_enqueue_webhook_outbox`. -/
def afterEnqueueing (cfg : Config) (p : TrackProc) (q : Enqueue)
    (f : Flow EnqueuePc (List SubscriptionRow)) : Party :=
  .track (p.after cfg
    (Flow.bind (.enqueue q) (fun affected => .go (p.call.afterEnqueue cfg q affected)) f))

theorem stage_afterEnqueueing (hrun : p.status = .running) (q : Enqueue)
    (f : Flow EnqueuePc (List SubscriptionRow)) :
    (p.afterEnqueueing cfg q f).stage = match f with
      | .go pc => pc.stage
      | _ => none := by
  rw [afterEnqueueing, stage_after hrun]
  cases f <;> rfl

theorem handling_afterEnqueueing (hrun : p.status = .running) (q : Enqueue)
    {f : Flow EnqueuePc (List SubscriptionRow)} (hf : ∀ e, f ≠ .raised e) :
    (p.afterEnqueueing cfg q f).handling = true := by
  rw [afterEnqueueing, handling_after hrun]
  cases f with
  | raised e => exact absurd rfl (hf e)
  | _ => rfl

theorem stage_next (hrun : p.status = .running) (q : Enqueue)
    (affected rest : List SubscriptionRow) :
    (p.afterEnqueueing cfg q (Enqueue.next affected rest)).stage = none := by
  rw [stage_afterEnqueueing hrun]
  cases rest <;> rfl

/-- A request inside `_enqueue_webhook_outbox`. -/
theorem enqueue_outboxMove {q : Enqueue} {pc : EnqueuePc} {v : DbView} {x : Input}
    {op : Op Write LockKey Effect (Flow EnqueuePc (List SubscriptionRow))}
    (hrun : p.status = .running) (hpc : p.pc = .enqueue q pc) (h : q.step cfg pc v x = some op)
    (hcrash : x.crash = true → (Party.track p).survives x = true ∨ pc.stage = none) :
    OutboxMove (.track p) v.fresh x.crash (op.map (p.afterEnqueueing cfg q) id) := by
  have hstage : (Party.track p).stage = pc.stage := by
    simp only [Party.stage, hrun, hpc, TrackPc.stage]
  have hno : ∀ st, pc.stage = some st → (∀ affected sub rest id n,
      pc ≠ .deliver affected sub rest id (.post n)) → x.crash = false := by
    intro st hst hpost
    by_contra hc
    obtain hs | hs := hcrash (Bool.eq_true_of_not_eq_false hc)
    · cases x <;> simp only [Party.survives, Bool.false_eq_true] at hs
      simp only [Party.posting, hrun, hpc] at hs
      split at hs
      · rename_i heq
        cases heq
        exact hpost _ _ _ _ _ rfl
      · cases hs
    · rw [hs] at hst
      cases hst
  cases Enqueue.step_move h with
  | selects =>
    exact .keep (by simp) ((stage_next hrun q _ _).trans hstage.symm) fun _ =>
      handling_afterEnqueueing hrun q (Enqueue.next_ne_raised _ _)
  | inserts =>
    exact .insert rfl rfl hstage (.inl (stage_next hrun q _ _))
      (handling_afterEnqueueing hrun q (Enqueue.next_ne_raised _ _))
  | insertsActive =>
    exact .insert rfl rfl hstage
      (.inr ⟨.unpublished, by decide, stage_afterEnqueueing hrun q _⟩)
      (handling_afterEnqueueing hrun q (by simp))
  | insertsInactive =>
    exact .insert rfl rfl hstage
      (.inr ⟨.exposed, by decide, stage_afterEnqueueing hrun q _⟩)
      (handling_afterEnqueueing hrun q (by simp))
  | delivers affected sub rest id pc hd =>
    have hpost : x.crash = true → ∃ n, pc = .post n := by
      intro hx
      by_contra hnone
      have hcalm := hno _ rfl fun _ _ _ _ n heq => hnone ⟨n, by cases heq; rfl⟩
      rw [hcalm] at hx
      cases hx
    obtain ⟨post, pc', hanswered, rfl, hpc'⟩ | ⟨ks, ws, pc', rfl, hws, hpc'⟩ | rfl :=
      Delivery.moves hd hpost
    · refine @OutboxMove.post _ _ _ id .unpublished _ _ ?_ ?_
      · rw [hstage, EnqueuePc.stage, hanswered]
      · rw [stage_afterEnqueueing hrun, ← hpc']
        rfl
    · refine .keep hws ?_ fun _ =>
        handling_afterEnqueueing hrun q (by simp [Enqueue.delivering, Flow.bind])
      rw [stage_afterEnqueueing hrun, hstage, EnqueuePc.stage, ← hpc']
      rfl
    · refine .commit (.inr ⟨id, .unpublished, .exposed, pc.answered, hstage, ?_, rfl, by decide⟩)
      exact stage_afterEnqueueing hrun q _
  | updates affected sub rest id ok =>
    refine @OutboxMove.conclude _ _ _ ⟨id, .exposed, ok⟩ _ _ hstage ?_ (stage_next hrun q _ _)
      (handling_afterEnqueueing hrun q (Enqueue.next_ne_raised _ _))
    cases ok <;> simp [Enqueue.finalChange]
  | selectRaises | insertRaises => exact .fail (.inr ⟨rfl, hstage⟩) (stage_afterEnqueueing hrun q _)
  | updateRaises => cases hno _ rfl (by simp)

end TrackProc

/-- A write of the registry. -/
def Write.ofRegistry (w : Write) : Prop := w.table = .endpoints ∨ w.table = .versions

theorem Write.ofRegistry.outboxId {w : Write} (h : w.ofRegistry) : w.outboxId = none := by
  refine Write.outboxId_of_table fun ht => ?_
  rw [ofRegistry, ht] at h
  obtain h | h := h <;> cases h

theorem Write.ofRegistry.ne_subscriptions {w : Write} (h : w.ofRegistry) :
    w.table ≠ .subscriptions := by
  intro ht
  rw [ofRegistry, ht] at h
  obtain h | h := h <;> cases h

/-- `upsert_schema_version` works on the registry. -/
theorem Upsert.step_exec {cfg : Config} {u : Upsert} {pc : UpsertPc} {v : DbView} {x : Input}
    {op : Op Write LockKey Empty (Flow UpsertPc Upserted)} (h : u.step cfg pc v x = some op) :
    ∃ ks ws next, op = .exec ks ws next ∧ ∀ w ∈ ws, w.ofRegistry := by
  obtain ⟨ks, ws, next, rfl, hmove⟩ := step_move h
  refine ⟨ks, ws, next, rfl, ?_⟩
  cases hmove <;> simp [Write.ofRegistry, Write.table]

/-- The loop over the subscriptions has not begun; a drift has been given the event id `fresh`. -/
def TrackPc.BeforeLoop (fresh : Uuid) : TrackPc → Prop
  | .enqueue q pc => pc = .selectAffected ∧ q.eventId = fresh
  | _ => True

theorem TrackPc.BeforeLoop.stage {fresh : Uuid} {pc : TrackPc} (h : pc.BeforeLoop fresh) :
    pc.stage = none := by
  cases pc with
  | enqueue q pc =>
    obtain ⟨rfl, -⟩ := h
    rfl
  | _ => rfl

theorem TrackCall.afterSnapshot_beforeLoop (cfg : Config) (call : TrackCall) (u : Upserted)
    (fresh : Uuid) : (call.afterSnapshot cfg u).BeforeLoop fresh := by
  rw [afterSnapshot]
  split <;> trivial

theorem TrackCall.afterUpsert_beforeLoop (cfg : Config) (call : TrackCall) (u : Upserted)
    (fresh : Uuid) : (call.afterUpsert cfg u).BeforeLoop fresh := by
  rw [afterUpsert]
  split
  · trivial
  · exact call.afterSnapshot_beforeLoop cfg u fresh

/-- Before `_enqueue_webhook_outbox` a request leaves the outbox alone. -/
theorem TrackCall.step_before_enqueue {cfg : Config} {call : TrackCall} {pc : TrackPc} {v : DbView}
    {x : Input} {op : Op Write LockKey Effect (Flow TrackPc TrackResult)}
    (hpc : pc.enqueueing = false) (h : call.step cfg pc v x = some op) :
    (∀ pc', op.next = .go pc' → pc'.BeforeLoop v.fresh) ∧
      ((∃ ks ws next, op = .exec ks ws next ∧ ∀ w ∈ ws, w.ofRegistry) ∨
        ∃ e next, op = .emit e next ∧ e.postOf = none) := by
  cases step_move h with
  | upserts pc hop =>
    obtain ⟨ks, ws, next, rfl, hws⟩ := Upsert.step_exec hop
    refine ⟨fun pc' hgo => ?_, .inl ⟨_, _, _, rfl, hws⟩⟩
    cases next with
    | go pc => cases hgo; trivial
    | done u => cases hgo; exact call.afterUpsert_beforeLoop cfg u _
    | raised e => cases hgo
  | storesSnapshot u =>
    refine ⟨fun pc' hgo => ?_, .inr ⟨_, _, rfl, rfl⟩⟩
    cases hgo
    exact call.afterSnapshot_beforeLoop cfg u _
  | skipsSnapshot u =>
    refine ⟨fun pc' hgo => ?_, .inl ⟨_, _, _, rfl, by simp⟩⟩
    cases hgo
    exact call.afterSnapshot_beforeLoop cfg u _
  | storesDiff d => exact ⟨fun pc' hgo => (by cases hgo; trivial), .inr ⟨_, _, rfl, rfl⟩⟩
  | comparesStored | compares | skipsDiff =>
    exact ⟨fun pc' hgo => (by cases hgo; trivial), .inl ⟨_, _, _, rfl, by simp⟩⟩
  | classifies d =>
    refine ⟨fun pc' hgo => ?_, .inl ⟨_, _, _, rfl, by simp [Write.ofRegistry, Write.table]⟩⟩
    cases hgo
    exact ⟨rfl, rfl⟩
  | comparisonFails | priorMissing | priorRaises | classifyRaises =>
    exact ⟨fun pc' hgo => (by cases hgo), .inl ⟨_, _, _, rfl, by simp⟩⟩
  | enqueues | commits | commitRaises => cases hpc

/-- A request whose code is running. -/
theorem TrackProc.code_outboxMove {cfg : Config} {p : TrackProc} {v : DbView} {x : Input}
    {op : Op Write LockKey Effect (Flow TrackPc TrackResult)} (hrun : p.status = .running)
    (h : p.call.step cfg p.pc v x = some op)
    (hcrash : x.crash = true → (Party.track p).survives x = true ∨ (Party.track p).stage = none) :
    OutboxMove (.track p) v.fresh x.crash (op.map (fun f => .track (p.after cfg f)) id) := by
  have hstage : (Party.track p).stage = p.pc.stage := by
    simp only [Party.stage, hrun]
  by_cases hearly : p.pc.enqueueing = false
  · have hquiet : (Party.track p).stage = none ∧ (Party.track p).handling = false := by
      rw [hstage]
      simp only [Party.handling, hrun, hearly, and_true]
      cases hpc : p.pc with
      | enqueue q pc => rw [hpc] at hearly; cases hearly
      | _ => rfl
    obtain ⟨hnext, hop⟩ := TrackCall.step_before_enqueue hearly h
    have hafter : (Party.track (p.after cfg op.next)).stage = none := by
      rw [stage_after hrun]
      cases hn : op.next with
      | go pc' => exact (hnext pc' hn).stage
      | _ => rfl
    obtain ⟨ks, ws, next, rfl, hws⟩ | ⟨e, next, rfl, he⟩ := hop
    · exact .keep (fun w hw => (hws w hw).outboxId) (hafter.trans hquiet.1.symm) (by simp [hquiet.2])
    · exact .tell he (hafter.trans hquiet.1.symm) (by simp [hquiet.2])
  · cases hpc : p.pc with
    | enqueue q pc =>
      rw [hpc] at h hstage
      obtain ⟨op', hop', rfl⟩ := Option.map_eq_some_iff.mp h
      have hmove := enqueue_outboxMove hrun hpc hop' fun hx =>
        (hcrash hx).imp_right fun hs => hstage.symm.trans hs
      cases op' <;> exact hmove
    | commit n r =>
      rw [hpc] at h hstage
      cases x <;> simp only [TrackCall.step, reduceCtorEq, Option.some.injEq] at h <;> subst h
      · exact .commit (.inl ⟨hstage, stage_after hrun _⟩)
      · exact .fail (.inr ⟨rfl, hstage⟩) (stage_after hrun _)
    | _ => simp [hpc, TrackPc.enqueueing] at hearly

/-! ### Moves of a party -/

/-- **What a step does with the outbox.** Every step that is not a crash in the middle of a row is
one of the moves. -/
theorem Party.outboxMove {cfg : Config} {p : Party} {v : DbView} {x : Input}
    {op : Op Write LockKey Effect Party} (h : p.next cfg v x = some op)
    (hcrash : x.crash = true → p.survives x = true ∨ p.stage = none) :
    OutboxMove p v.fresh x.crash op := by
  cases p with
  | track p =>
    obtain ⟨op', hop', rfl⟩ := Option.map_eq_some_iff.mp h
    obtain ⟨rfl, rfl⟩ | ⟨ok, t, rfl, -, rfl⟩ | ⟨cop, hrun, hcode, rfl⟩ | ⟨e, hst, rfl⟩ :=
      TrackProc.next_cases hop'
    · refine .rollback ?_ ?_
      · exact (hcrash rfl).elim (fun hs => by cases hs) fun hs => .inr ⟨rfl, hs⟩
      · obtain ⟨call, pc, status, task⟩ := p
        cases status <;> rfl
    · exact .tell rfl rfl fun hh => hh
    · have hmove := TrackProc.code_outboxMove hrun hcode hcrash
      cases cop <;> exact hmove
    · refine .rollback (.inl ?_) rfl
      simp only [Party.handling, hst]
  | worker pc =>
    obtain ⟨op', hop', rfl⟩ := Option.map_eq_some_iff.mp h
    exact WorkerPc.outboxMove hop' hcrash
  | subscription call pc =>
    obtain ⟨op', hop', rfl⟩ := Option.map_eq_some_iff.mp h
    have hidle : ∀ f, (subscribing call f).stage = none := by
      intro f
      cases f <;> rfl
    have hwrites : ∀ w ∈ op'.writes, w.outboxId = none := by
      intro w hw
      refine Write.outboxId_of_table ?_
      rw [SubscriptionCall.step_table hop' w hw]
      decide
    cases op' with
    | exec ks ws next => exact .keep hwrites (hidle next) (by simp [handling])
    | emit e next => exact e.elim
    | commit next => exact .commit (.inl ⟨rfl, hidle next⟩)
    | rollback next => exact .rollback (.inl rfl) (hidle next)
  | finished =>
    cases x <;> simp only [next, reduceCtorEq, Option.some.injEq] at h
    subst h
    exact .rollback (.inl rfl) rfl

end Driftgate.Runtime
