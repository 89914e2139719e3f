import Driftgate.Runtime.Outbox
import Driftgate.Lib.Ownership
import Mathlib.Data.Fintype.Basic

/-!
# Delivered rows

Outbox workers and inline calls write the status of a row unconditionally. The invariant of this
module says when that is right: as long as a worker marks only rows whose committed status is
PENDING and that no inline call is about to update, and nobody crashes with a row in hand, every row
has at most one owner, is never posted again after a 2xx answer, and ends as DELIVERED exactly when
there was one.

Both conditions can fail. A worker holds a batch of rows in memory but gives up their locks with its
first commit, so it can mark a row that another worker has delivered since; and an inline call
commits a row as PENDING before it writes the final status.
-/

namespace Driftgate.Runtime

open Driftgate.ReadCommitted Driftgate.Transition

/-! ### Rows in hand -/

/-- The rows of the outbox that a party has in hand: the one under way, and those its open
transaction has written. -/
def rowsInHand (p : Party) (pending : List Write) : List Uuid :=
  p.stage.toList.map (·.id) ++ pending.filterMap Write.outboxId

theorem mem_rowsInHand {p : Party} {pending : List Write} {id : Uuid} :
    id ∈ rowsInHand p pending ↔
      (∃ st, p.stage = some st ∧ st.id = id) ∨ ∃ w ∈ pending, w.outboxId = some id := by
  simp [rowsInHand]

/-- Whether an inline call is about to write the final status of a row. -/
def Party.exposes (p : Party) (id : Uuid) : Bool :=
  p.stage.any fun st => st.id = id && st.phase = .exposed

section Conditions

variable {ι : Type*}

/-- The condition that nobody crashes with a row in hand. A POST may raise at any time. -/
def Calm (s : World ι) (a : ι × Input) : Prop :=
  a.2.crash = true → (s.loc a.1).survives a.2 = true ∨ rowsInHand (s.loc a.1) (s.pending a.1) = []

/-- The condition that a worker marks only rows whose committed status is PENDING. -/
def MarksPending (s : World ι) (a : ι × Input) : Prop :=
  ∀ id ∈ (s.loc a.1).marks, s.db.outboxStatus id = some .pending

/-- The condition that a worker marks no row that an inline call is about to update. -/
def MarksUnexposed (s : World ι) (a : ι × Input) : Prop :=
  ∀ id ∈ (s.loc a.1).marks, ∀ j, (s.loc j).exposes id = false

instance (s : World ι) (a : ι × Input) : Decidable (Calm s a) :=
  inferInstanceAs (Decidable (_ → _ ∨ _))

instance (s : World ι) (a : ι × Input) : Decidable (MarksPending s a) :=
  inferInstanceAs (Decidable (∀ id ∈ (s.loc a.1).marks, _))

instance [Fintype ι] (s : World ι) (a : ι × Input) : Decidable (MarksUnexposed s a) :=
  inferInstanceAs (Decidable (∀ id ∈ (s.loc a.1).marks, _))

/-- All three conditions. -/
def Guarded (s : World ι) (a : ι × Input) : Prop :=
  Calm s a ∧ MarksPending s a ∧ MarksUnexposed s a

instance [Fintype ι] (s : World ι) (a : ι × Input) : Decidable (Guarded s a) :=
  inferInstanceAs (Decidable (_ ∧ _ ∧ _))

end Conditions

/-! ### The invariant of a row -/

section Invariant

variable {ι : Type*} (cfg : Config) (db₀ : Db)

/-- The status of a row is DELIVERED if it was so at the start or a POST was answered 2xx. -/
def Honest (db : Db) (id : Uuid) (trace : List (ι × Effect)) : Prop :=
  db.outboxStatus id = some .delivered ↔
    Answered id trace ∨ db₀.outboxStatus id = some .delivered

/-- What holds of a row that nobody has in hand. -/
structure RowFree (id : Uuid) (w : Shared Db Effect ι) : Prop where
  once : NeverRepeated id w.trace
  honest : Honest db₀ w.db id w.trace
  unused : w.fresh ≤ id → w.db.outboxStatus id = none

/-- What holds of a row that a party has in hand, as the party sees it. -/
structure RowBusy (id : Uuid) (w : Shared Db Effect ι) (o : Own Write LockKey Party) : Prop where
  once : NeverRepeated id w.trace
  used : id < w.fresh
  handling : o.loc.handling = true
  /-- The row under way has the status of its phase, and the answer is known. -/
  underway : ∀ st, o.loc.stage = some st → st.id = id →
    (o.view (program cfg) w).outboxStatus id = some st.phase.status ∧
      (st.answered = true ↔ Answered id w.trace) ∧ db₀.outboxStatus id ≠ some .delivered ∧
      (st.phase = .unpublished → ∃ wr ∈ o.pending, wr.outboxId = some id)
  /-- Any other row is ready to be committed. -/
  ready : (∀ st, o.loc.stage = some st → st.id ≠ id) →
    Honest db₀ (o.view (program cfg) w) id w.trace

/-- Who has which row in hand. -/
def rowOwnership (ι : Type*) : Ownership Db Write LockKey Effect Party ι Uuid where
  inHand := fun o => {id | id ∈ rowsInHand o.loc o.pending}
  Free := RowFree db₀
  Busy := RowBusy cfg db₀

end Invariant

variable {ι : Type*} {cfg : Config} {db₀ : Db}

/-! ### What a step leaves alone -/

/-- Nothing has been posted for the row in between. -/
structure SamePosts (id : Uuid) (w w' : Shared Db Effect ι) : Prop where
  trace : w'.trace = w.trace ∨ ∃ e, w'.trace = w.trace ++ [e] ∧ e.2.postOf ≠ some id
  fresh : w.fresh ≤ w'.fresh

theorem SamePosts.answered {id : Uuid} {w w' : Shared Db Effect ι} (h : SamePosts id w w') :
    Answered id w'.trace ↔ Answered id w.trace := by
  obtain ht | ⟨e, ht, he⟩ := h.trace
  · rw [ht]
  · rw [ht, answered_append, or_iff_left]
    exact fun hok => he (Effect.postOf_of_okPostOf hok)

theorem SamePosts.once {id : Uuid} {w w' : Shared Db Effect ι} (h : SamePosts id w w')
    (ho : NeverRepeated id w.trace) : NeverRepeated id w'.trace := by
  obtain ht | ⟨e, ht, he⟩ := h.trace
  · exact ht ▸ ho
  · rw [ht]
    exact ho.append fun hpost => absurd hpost he

/-- A row that nobody has in hand depends on its committed status and its POSTs. -/
theorem RowFree.carry {id : Uuid} {w w' : Shared Db Effect ι} (hf : RowFree db₀ id w)
    (h : SamePosts id w w') (hstatus : w'.db.outboxStatus id = w.db.outboxStatus id) :
    RowFree db₀ id w' where
  once := h.once hf.once
  honest := by
    rw [Honest, hstatus, h.answered]
    exact hf.honest
  unused := fun hid => hstatus.trans (hf.unused (h.fresh.trans hid))

/-- A row in hand depends on the status its party sees, on its POSTs and on the stage. -/
theorem RowBusy.carry {id : Uuid} {w w' : Shared Db Effect ι} {o o' : Own Write LockKey Party}
    (hb : RowBusy cfg db₀ id w o) (h : SamePosts id w w') (hhandling : o'.loc.handling = true)
    (hview : (o'.view (program cfg) w').outboxStatus id = (o.view (program cfg) w).outboxStatus id)
    (hstage : ∀ st', o'.loc.stage = some st' → st'.id = id → ∃ st, o.loc.stage = some st ∧
      st.id = id ∧ st'.phase.status = st.phase.status ∧ st'.answered = st.answered ∧
      (st'.phase = .unpublished → st.phase = .unpublished ∧ ∀ wr ∈ o.pending, wr ∈ o'.pending))
    (hback : ∀ st, o.loc.stage = some st → st.id = id → ∃ st', o'.loc.stage = some st' ∧
      st'.id = id) : RowBusy cfg db₀ id w' o' where
  once := h.once hb.once
  used := lt_of_lt_of_le hb.used h.fresh
  handling := hhandling
  underway := by
    intro st' hst' hid'
    obtain ⟨st, hst, hid, hstatus, hanswered, hphase⟩ := hstage st' hst' hid'
    obtain ⟨hrow, hok, hstart, hwritten⟩ := hb.underway st hst hid
    rw [hview, h.answered, hstatus, hanswered]
    refine ⟨hrow, hok, hstart, fun hun => ?_⟩
    obtain ⟨hbefore, hpending⟩ := hphase hun
    obtain ⟨wr, hwr, hwid⟩ := hwritten hbefore
    exact ⟨wr, hpending wr hwr, hwid⟩
  ready := by
    intro hother
    rw [Honest, hview, h.answered]
    refine hb.ready fun st hst hid => ?_
    obtain ⟨st', hst', hid'⟩ := hback st hst hid
    exact hother st' hst' hid'

/-- The status of a row that a party sees depends on the committed status of the row. -/
theorem view_status_congr {id : Uuid} {w w' : Shared Db Effect ι}
    (h : w'.db.outboxStatus id = w.db.outboxStatus id) (o : Own Write LockKey Party) :
    (o.view (program cfg) w').outboxStatus id = (o.view (program cfg) w).outboxStatus id := by
  rw [Own.view, Own.view, outboxStatus_applyAll, outboxStatus_applyAll, h]

/-- A row that a party does not have in hand has the same status for the party as for all. -/
theorem view_status_of_not_inHand {id : Uuid} {w : Shared Db Effect ι}
    {o : Own Write LockKey Party} (h : ∀ wr ∈ o.pending, wr.outboxId ≠ some id) :
    (o.view (program cfg) w).outboxStatus id = w.db.outboxStatus id :=
  outboxStatus_applyAll_of_ne cfg h w.db

section Step

variable {p : Party} {fresh : Uuid} {crash : Bool} {op : Op Write LockKey Effect Party}
  {pending : List Write} {id : Uuid}

/-- A step posts only for the row under way. -/
theorem OutboxMove.samePosts (h : OutboxMove p fresh crash op) (i : ι)
    (w : Shared Db Effect ι) (hid : ∀ st, p.stage = some st → st.id ≠ id) :
    SamePosts id w (op.shared (program cfg) i pending w) := by
  refine ⟨?_, ?_⟩
  · cases h with
    | tell post => exact .inr ⟨_, rfl, by simp [post]⟩
    | post stage =>
      refine .inr ⟨_, rfl, fun hpost => hid _ stage ?_⟩
      exact Option.some.inj hpost
    | _ => exact .inl rfl
  · rw [Op.fresh_shared]
    exact Nat.le_succ w.fresh

/-- A step does not change the committed status of a row that the party does not have in hand. -/
theorem OutboxMove.same_status (op : Op Write LockKey Effect Party) (i : ι)
    (w : Shared Db Effect ι) (hid : ∀ wr ∈ pending, wr.outboxId ≠ some id) :
    (op.shared (program cfg) i pending w).db.outboxStatus id = w.db.outboxStatus id := by
  cases op with
  | commit next => exact outboxStatus_applyAll_of_ne cfg hid w.db
  | _ => rfl

end Step

/-! ### Steps -/

section Steps

variable {s : World ι} {i : ι} {crash : Bool} {op : Op Write LockKey Effect Party} {id : Uuid}

/-- What every move leaves alone, and what is left to check. -/
theorem OutboxMove.steps [DecidableEq ι] (h : OutboxMove (s.loc i) s.fresh crash op)
    (htake : ∀ r ∈ rowsInHand op.next (op.pendingAfter (s.pending i)),
      r ∉ rowsInHand (s.loc i) (s.pending i) →
      ∀ j, j ≠ i → r ∉ rowsInHand (s.loc j) (s.pending j))
    (hbusy : ∀ r ∈ rowsInHand op.next (op.pendingAfter (s.pending i)),
      RowBusy cfg db₀ r (op.shared (program cfg) i (s.pending i) s.toShared) (op.own (s.own i)))
    (hgive : ∀ r ∈ rowsInHand (s.loc i) (s.pending i),
      r ∉ rowsInHand op.next (op.pendingAfter (s.pending i)) →
      RowFree db₀ r (op.shared (program cfg) i (s.pending i) s.toShared)) :
    (rowOwnership cfg db₀ ι).Steps s i op
      (op.shared (program cfg) i (s.pending i) s.toShared) where
  take := htake
  busy := hbusy
  give := hgive
  frame := by
    intro r hr _
    have hstage : ∀ st, (s.loc i).stage = some st → st.id ≠ r :=
      fun st hst hid => hr (mem_rowsInHand.mpr (.inl ⟨st, hst, hid⟩))
    have hpending : ∀ wr ∈ s.pending i, wr.outboxId ≠ some r :=
      fun wr hwr hid => hr (mem_rowsInHand.mpr (.inr ⟨wr, hwr, hid⟩))
    have hposts : SamePosts r s.toShared (op.shared (program cfg) i (s.pending i) s.toShared) :=
      h.samePosts i s.toShared hstage
    have hstatus : (op.shared (program cfg) i (s.pending i) s.toShared).db.outboxStatus r =
        s.db.outboxStatus r := OutboxMove.same_status op i s.toShared hpending
    refine ⟨fun hf => hf.carry hposts hstatus, fun o hb => ?_⟩
    exact hb.carry hposts hb.handling (view_status_congr hstatus o)
      (fun st' hst' hid => ⟨st', hst', hid, rfl, rfl, fun hun => ⟨hun, fun _ hwr => hwr⟩⟩)
      fun st hst hid => ⟨st, hst, hid⟩

/-- A step that keeps the stage and does not end the transaction keeps every row in hand. -/
theorem RowBusy.keep (hb : RowBusy cfg db₀ id s.toShared (s.own i))
    (hposts : SamePosts id s.toShared (op.shared (program cfg) i (s.pending i) s.toShared))
    (hstage : op.next.stage = (s.loc i).stage) (hhandling : op.next.handling = true)
    (hpending : ∀ wr ∈ s.pending i, wr ∈ op.pendingAfter (s.pending i))
    (hrollback : ∀ l, op ≠ .rollback l) (hws : ∀ wr ∈ op.writes, wr.outboxId ≠ some id) :
    RowBusy cfg db₀ id (op.shared (program cfg) i (s.pending i) s.toShared)
      (op.own (s.own i)) := by
  refine hb.carry hposts hhandling ?_ (fun st' hst' hid => ?_) fun st hst hid => ?_
  · rw [show s.pending i = (s.own i).pending from rfl, Op.view_own _ _ _ _ hrollback]
    exact outboxStatus_applyAll_of_ne cfg hws _
  · exact ⟨st', hstage ▸ hst', hid, rfl, rfl, fun hun => ⟨hun, hpending⟩⟩
  · exact ⟨st, hstage.trans hst, hid⟩

/-- A step keeps the rows in hand that it is not about. -/
theorem RowBusy.other (hb : RowBusy cfg db₀ id s.toShared (s.own i))
    (hposts : SamePosts id s.toShared (op.shared (program cfg) i (s.pending i) s.toShared))
    (hstage : ∀ st, (s.loc i).stage = some st → st.id ≠ id)
    (hnext : ∀ st, op.next.stage = some st → st.id ≠ id) (hhandling : op.next.handling = true)
    (hrollback : ∀ l, op ≠ .rollback l) (hws : ∀ wr ∈ op.writes, wr.outboxId ≠ some id) :
    RowBusy cfg db₀ id (op.shared (program cfg) i (s.pending i) s.toShared)
      (op.own (s.own i)) := by
  refine hb.carry hposts hhandling ?_ (fun st' hst' hid => absurd hid (hnext st' hst'))
    fun st hst hid => absurd hid (hstage st hst)
  rw [show s.pending i = (s.own i).pending from rfl, Op.view_own _ _ _ _ hrollback]
  exact outboxStatus_applyAll_of_ne cfg hws _

/-- A step that leaves no row in hand, from a party that had none. -/
theorem OutboxMove.steps_of_empty [DecidableEq ι] (h : OutboxMove (s.loc i) s.fresh crash op)
    (hbefore : rowsInHand (s.loc i) (s.pending i) = [])
    (hafter : rowsInHand op.next (op.pendingAfter (s.pending i)) = []) :
    (rowOwnership cfg db₀ ι).Steps s i op
      (op.shared (program cfg) i (s.pending i) s.toShared) := by
  refine h.steps (fun r hr => ?_) (fun r hr => ?_) fun r hr => ?_
  · rw [hafter] at hr
    cases hr
  · rw [hafter] at hr
    cases hr
  · rw [hbefore] at hr
    cases hr

/-- Where a party cannot have rows in hand it has none. -/
theorem rowsInHand_eq_nil [DecidableEq ι] (hI : (rowOwnership cfg db₀ ι).Holds s)
    (h : (s.loc i).handling = false) : rowsInHand (s.loc i) (s.pending i) = [] := by
  refine List.eq_nil_iff_forall_not_mem.mpr fun r hr => ?_
  have hb := (hI.busy i r hr).handling
  rw [show (s.own i).loc = s.loc i from rfl, h] at hb
  cases hb

/-- A worker marks a row that nobody has in hand. -/
theorem free_of_mark [DecidableEq ι] (hI : (rowOwnership cfg db₀ ι).Holds s)
    (hlocked : ∀ j, ∀ wr ∈ s.pending j, ∀ r, wr.outboxId = some r →
      LockKey.outboxRow r ∈ (s.own j).held)
    (hidle : (s.loc i).handling = false) (hpending : s.db.outboxStatus id = some .pending)
    (hunexposed : ∀ j, (s.loc j).exposes id = false)
    (hfree : ∀ j, j ≠ i → LockKey.outboxRow id ∉ (s.own j).held) :
    ∀ j, id ∉ rowsInHand (s.loc j) (s.pending j) := by
  intro j hj
  by_cases hji : j = i
  · rw [hji, rowsInHand_eq_nil hI hidle] at hj
    cases hj
  · have hunwritten : ∀ wr ∈ s.pending j, wr.outboxId ≠ some id :=
      fun wr hwr hid => hfree j hji (hlocked j wr hwr id hid)
    obtain ⟨st, hst, hid⟩ | ⟨wr, hwr, hid⟩ := mem_rowsInHand.mp hj
    · obtain ⟨hview, -, -, hwritten⟩ := (hI.busy j id hj).underway st hst hid
      rw [view_status_of_not_inHand hunwritten, hpending] at hview
      cases hphase : st.phase with
      | unpublished =>
        obtain ⟨wr, hwr, hwid⟩ := hwritten hphase
        exact hunwritten wr hwr hwid
      | exposed =>
        have hex := hunexposed j
        simp [Party.exposes, hst, hid, hphase] at hex
      | marked =>
        rw [hphase] at hview
        cases hview
    · exact hunwritten wr hwr hid

/-- A row that a party has just taken: nothing has been answered, and it is not delivered. -/
theorem RowBusy.taken {w : Shared Db Effect ι} {o : Own Write LockKey Party}
    (status : OutboxStatus) (once : NeverRepeated id w.trace) (used : id < w.fresh)
    (handling : o.loc.handling = true)
    (hview : (o.view (program cfg) w).outboxStatus id = some status) (hstatus : status ≠ .delivered)
    (hnot : ¬(Answered id w.trace ∨ db₀.outboxStatus id = some .delivered))
    (hwritten : ∃ wr ∈ o.pending, wr.outboxId = some id)
    (hstage : ∀ st, o.loc.stage = some st → st.id = id →
      st.phase.status = status ∧ st.answered = false) : RowBusy cfg db₀ id w o where
  once := once
  used := used
  handling := handling
  underway := by
    intro st hst hid
    obtain ⟨hphase, hanswered⟩ := hstage st hst hid
    rw [hview, hphase, hanswered]
    exact ⟨rfl, ⟨fun h => (by cases h), fun h => absurd (.inl h) hnot⟩, fun h => hnot (.inr h),
      fun _ => hwritten⟩
  ready := by
    intro _
    rw [Honest, hview, Option.some.injEq]
    exact ⟨fun h => absurd h hstatus, fun h => absurd h hnot⟩

/-- The status a party sees after it has written some rows. -/
theorem view_status_own (hrollback : ∀ l, op ≠ .rollback l) :
    ((op.own (s.own i)).view (program cfg)
      (op.shared (program cfg) i (s.pending i) s.toShared)).outboxStatus id =
      op.writes.foldl (fun status wr => wr.outboxStatus id status)
        (((s.own i).view (program cfg) s.toShared).outboxStatus id) := by
  rw [show s.pending i = (s.own i).pending from rfl, Op.view_own _ _ _ _ hrollback]
  exact outboxStatus_applyAll cfg op.writes _ id

/-- A row that nobody has in hand is not DELIVERED and not answered when its status says so. -/
theorem RowFree.not_answered {w : Shared Db Effect ι} (hf : RowFree db₀ id w)
    (h : w.db.outboxStatus id ≠ some .delivered) :
    ¬(Answered id w.trace ∨ db₀.outboxStatus id = some .delivered) :=
  fun ha => h (hf.honest.mpr ha)

section Moves

variable [DecidableEq ι] (hI : (rowOwnership cfg db₀ ι).Holds s)

include hI

theorem steps_keep {ks : List LockKey} {ws : List Write} {next : Party}
    (writes : ∀ w ∈ ws, w.outboxId = none) (stage : next.stage = (s.loc i).stage)
    (handling : (s.loc i).handling = true → next.handling = true) :
    (rowOwnership cfg db₀ ι).Steps s i (.exec ks ws next)
      ((Op.exec ks ws next).shared (program cfg) i (s.pending i) s.toShared) := by
  have hsame : rowsInHand next (s.pending i ++ ws) = rowsInHand (s.loc i) (s.pending i) := by
    have hws : ws.filterMap Write.outboxId = [] := List.filterMap_eq_nil_iff.mpr writes
    rw [rowsInHand, rowsInHand, stage, List.filterMap_append, hws, List.append_nil]
  have hmove : OutboxMove (s.loc i) s.fresh false (.exec ks ws next) := .keep writes stage handling
  refine hmove.steps (fun r hr hr' => absurd (hsame ▸ hr) hr') (fun r hr => ?_)
    fun r hr hr' => absurd (hsame ▸ hr) hr'
  have hbefore : r ∈ rowsInHand (s.loc i) (s.pending i) := hsame ▸ hr
  have hb := hI.busy i r hbefore
  exact hb.keep ⟨.inl rfl, Nat.le_succ _⟩ stage (handling hb.handling)
    (fun wr hwr => List.mem_append_left _ hwr) (by simp) fun wr hwr => by simp [writes wr hwr]

theorem steps_tell {e : Effect} {next : Party} (post : e.postOf = none)
    (stage : next.stage = (s.loc i).stage)
    (handling : (s.loc i).handling = true → next.handling = true) :
    (rowOwnership cfg db₀ ι).Steps s i (.emit e next)
      ((Op.emit e next).shared (program cfg) i (s.pending i) s.toShared) := by
  have hsame : rowsInHand next (s.pending i) = rowsInHand (s.loc i) (s.pending i) := by
    rw [rowsInHand, stage, rowsInHand]
  have hmove : OutboxMove (s.loc i) s.fresh false (.emit e next) := .tell post stage handling
  refine hmove.steps (fun r hr hr' => absurd (hsame ▸ hr) hr') (fun r hr => ?_)
    fun r hr hr' => absurd (hsame ▸ hr) hr'
  have hbefore : r ∈ rowsInHand (s.loc i) (s.pending i) := hsame ▸ hr
  have hb := hI.busy i r hbefore
  exact hb.keep ⟨.inr ⟨_, rfl, by simp [post]⟩, Nat.le_succ _⟩ stage (handling hb.handling)
    (fun wr hwr => hwr) (by simp) (by simp [Op.writes])

theorem steps_post {phase : Phase} {post : Post} {next : Party}
    (stage : (s.loc i).stage = some ⟨id, phase, false⟩)
    (next_stage : next.stage = some ⟨id, phase, post.answer.ok⟩) :
    (rowOwnership cfg db₀ ι).Steps s i (.emit (.posted id post) next)
      ((Op.emit (.posted id post) next).shared (program cfg) i (s.pending i) s.toShared) := by
  have hsame : rowsInHand next (s.pending i) = rowsInHand (s.loc i) (s.pending i) := by
    rw [rowsInHand, next_stage, rowsInHand, stage]
    rfl
  have hmove : OutboxMove (s.loc i) s.fresh false (.emit (.posted id post) next) :=
    .post stage next_stage
  have hhandling : next.handling = true := Party.handling_of_stage next_stage
  have hown : ∀ st, (s.loc i).stage = some st → st = ⟨id, phase, false⟩ :=
    fun st hst => (Option.some.inj (stage.symm.trans hst)).symm
  have hnext : ∀ st, next.stage = some st → st = ⟨id, phase, post.answer.ok⟩ :=
    fun st hst => (Option.some.inj (next_stage.symm.trans hst)).symm
  refine hmove.steps (fun r hr hr' => absurd (hsame ▸ hr) hr') (fun r hr => ?_)
    fun r hr hr' => absurd (hsame ▸ hr) hr'
  have hbefore : r ∈ rowsInHand (s.loc i) (s.pending i) := hsame ▸ hr
  have hb := hI.busy i r hbefore
  by_cases hrid : id = r
  · subst hrid
    obtain ⟨hview, hanswered, hstart, hwritten⟩ := hb.underway _ stage rfl
    have hno : ¬Answered id s.trace := fun h => by cases hanswered.mpr h
    refine {
      once := hb.once.append fun _ => hno
      used := Nat.lt_succ_of_lt hb.used
      handling := hhandling
      underway := ?_
      ready := fun hother => absurd rfl (hother _ next_stage) }
    intro st hst _
    obtain rfl := hnext st hst
    refine ⟨hview, ?_, hstart, hwritten⟩
    show _ ↔ Answered id (s.trace ++ [(i, .posted id post)])
    rw [answered_append, or_iff_right hno]
    simp [Effect.okPostOf]
  · refine hb.other ⟨.inr ⟨_, rfl, fun hpost => hrid (Option.some.inj hpost)⟩, Nat.le_succ _⟩
      (fun st hst => ?_) (fun st hst => ?_) hhandling (by simp) (by simp [Op.writes])
    · rw [hown st hst]
      exact hrid
    · rw [hnext st hst]
      exact hrid

theorem steps_insert {row : OutboxRow} {next : Party} (hid : row.id = s.fresh)
    (status : row.status = .pending) (stage : (s.loc i).stage = none)
    (next_stage : next.stage = none ∨ ∃ phase, phase ≠ .marked ∧
      next.stage = some ⟨s.fresh, phase, false⟩) (handling : next.handling = true) :
    (rowOwnership cfg db₀ ι).Steps s i (.exec [.outboxRow s.fresh] [.insertOutbox row] next)
      ((Op.exec [.outboxRow s.fresh] [.insertOutbox row] next).shared (program cfg) i
        (s.pending i) s.toShared) := by
  have hmove : OutboxMove (s.loc i) s.fresh false
      (.exec [.outboxRow s.fresh] [.insertOutbox row] next) :=
    .insert hid status stage next_stage handling
  have hunused : ∀ j, s.fresh ∉ rowsInHand (s.loc j) (s.pending j) :=
    fun j hj => lt_irrefl _ (hI.busy j s.fresh hj).used
  have hnext : ∀ st, next.stage = some st →
      st.id = s.fresh ∧ st.phase.status = .pending ∧ st.answered = false := by
    intro st hst
    obtain h | ⟨phase, hphase, h⟩ := next_stage
    · rw [h] at hst
      cases hst
    · obtain rfl := Option.some.inj (h.symm.trans hst)
      cases phase with
      | marked => exact absurd rfl hphase
      | _ => exact ⟨rfl, rfl, rfl⟩
  have hafter : ∀ r, r ∈ rowsInHand next (s.pending i ++ [.insertOutbox row]) →
      r = s.fresh ∨ r ∈ rowsInHand (s.loc i) (s.pending i) := by
    intro r hr
    obtain ⟨st, hst, rfl⟩ | ⟨wr, hwr, hwid⟩ := mem_rowsInHand.mp hr
    · exact .inl (hnext st hst).1
    · obtain hwr | hwr := List.mem_append.mp hwr
      · exact .inr (mem_rowsInHand.mpr (.inr ⟨wr, hwr, hwid⟩))
      · rw [List.mem_singleton.mp hwr] at hwid
        exact .inl ((Option.some.inj hwid).symm.trans hid)
  refine hmove.steps (fun r hr hr' j _ hj => ?_) (fun r hr => ?_) fun r hr hr' => ?_
  · obtain rfl := (hafter r hr).resolve_right hr'
    exact hunused j hj
  · by_cases hrf : r = s.fresh
    · subst hrf
      have hf : RowFree db₀ s.fresh s.toShared := hI.free s.fresh hunused
      have hnone : ((s.own i).view (program cfg) s.toShared).outboxStatus s.fresh = none :=
        (view_status_of_not_inHand fun wr hwr hwid =>
          hunused i (mem_rowsInHand.mpr (.inr ⟨wr, hwr, hwid⟩))).trans (hf.unused le_rfl)
      refine RowBusy.taken .pending hf.once (Nat.lt_succ_self _) handling ?_ (by decide)
        (hf.not_answered (by simp [hf.unused le_rfl])) ⟨.insertOutbox row, ?_, ?_⟩
        fun st hst _ => (hnext st hst).2
      · rw [view_status_own (by simp), hnone]
        simp [Op.writes, Write.outboxStatus, hid, status]
      · exact List.mem_append_right _ (List.mem_singleton_self _)
      · rw [Write.outboxId, hid]
    · have hb := hI.busy i r ((hafter r hr).resolve_left hrf)
      refine hb.other ⟨.inl rfl, Nat.le_succ _⟩ ?_ ?_ handling (by simp) ?_
      · intro st hst
        rw [stage] at hst
        cases hst
      · exact fun st hst hst' => hrf (hst'.symm.trans (hnext st hst).1)
      · intro wr hwr hwid
        rw [List.mem_singleton.mp hwr] at hwid
        exact hrf ((Option.some.inj hwid).symm.trans hid)
  · refine absurd (mem_rowsInHand.mpr ?_) hr'
    obtain ⟨st, hst, -⟩ | ⟨wr, hwr, hwid⟩ := mem_rowsInHand.mp hr
    · rw [stage] at hst
      cases hst
    · exact .inr ⟨wr, List.mem_append_left _ hwr, hwid⟩

theorem steps_mark {next : Party}
    (hlocked : ∀ j, ∀ wr ∈ s.pending j, ∀ r, wr.outboxId = some r →
      LockKey.outboxRow r ∈ (s.own j).held)
    (marks : (s.loc i).marks = some id) (handling : (s.loc i).handling = false)
    (next_stage : next.stage = some ⟨id, .marked, false⟩)
    (hpending : s.db.outboxStatus id = some .pending)
    (hunexposed : ∀ j, (s.loc j).exposes id = false)
    (hfree : ∀ j, j ≠ i → LockKey.outboxRow id ∉ (s.own j).held) :
    (rowOwnership cfg db₀ ι).Steps s i
      (.exec [.outboxRow id] [.updateOutbox id { status := .delivering }] next)
      ((Op.exec [.outboxRow id] [.updateOutbox id { status := .delivering }] next).shared
        (program cfg) i (s.pending i) s.toShared) := by
  have hmove : OutboxMove (s.loc i) s.fresh false
      (.exec [.outboxRow id] [.updateOutbox id { status := .delivering }] next) :=
    .mark marks handling next_stage
  have hempty := rowsInHand_eq_nil hI handling
  have hunwritten : ∀ wr ∈ s.pending i, wr.outboxId = none :=
    List.filterMap_eq_nil_iff.mp (List.append_eq_nil_iff.mp hempty).2
  have hnobody := free_of_mark hI hlocked handling hpending hunexposed hfree
  have hf : RowFree db₀ id s.toShared := hI.free id hnobody
  have hafter : ∀ r, r ∈ rowsInHand next
      (s.pending i ++ [.updateOutbox id { status := .delivering }]) → r = id := by
    intro r hr
    obtain ⟨st, hst, rfl⟩ | ⟨wr, hwr, hwid⟩ := mem_rowsInHand.mp hr
    · rw [← Option.some.inj (next_stage.symm.trans hst)]
    · obtain hwr | hwr := List.mem_append.mp hwr
      · rw [hunwritten wr hwr] at hwid
        cases hwid
      · rw [List.mem_singleton.mp hwr] at hwid
        exact (Option.some.inj hwid).symm
  refine hmove.steps (fun r hr _ j _ => ?_) (fun r hr => ?_) fun r hr => ?_
  · rw [hafter r hr]
    exact hnobody j
  · obtain rfl := hafter r hr
    have hused : r < s.fresh := by
      by_contra hle
      rw [hf.unused (Nat.le_of_not_lt hle)] at hpending
      cases hpending
    refine RowBusy.taken .delivering hf.once (Nat.lt_succ_of_lt hused)
      (Party.handling_of_stage next_stage) ?_ (by decide) (hf.not_answered (by simp [hpending]))
      ⟨.updateOutbox r { status := .delivering }, ?_, rfl⟩ fun st hst _ => ?_
    · rw [view_status_own (by simp), view_status_of_not_inHand fun wr hwr => ?_, hpending]
      · simp [Op.writes, Write.outboxStatus]
      · simp [hunwritten wr hwr]
    · exact List.mem_append_right _ (List.mem_singleton_self _)
    · obtain rfl := Option.some.inj (next_stage.symm.trans hst)
      exact ⟨rfl, rfl⟩
  · rw [hempty] at hr
    cases hr

theorem steps_conclude {st : Stage} {change : OutboxChange} {next : Party}
    (stage : (s.loc i).stage = some st)
    (status : change.status = .delivered ↔ st.answered = true) (next_stage : next.stage = none)
    (handling : next.handling = true) :
    (rowOwnership cfg db₀ ι).Steps s i
      (.exec [.outboxRow st.id] [.updateOutbox st.id change] next)
      ((Op.exec [.outboxRow st.id] [.updateOutbox st.id change] next).shared (program cfg) i
        (s.pending i) s.toShared) := by
  have hmove : OutboxMove (s.loc i) s.fresh false
      (.exec [.outboxRow st.id] [.updateOutbox st.id change] next) :=
    .conclude stage status next_stage handling
  have hsame : ∀ r, r ∈ rowsInHand next (s.pending i ++ [.updateOutbox st.id change]) ↔
      r ∈ rowsInHand (s.loc i) (s.pending i) := by
    intro r
    rw [rowsInHand, rowsInHand, next_stage, stage, List.filterMap_append]
    simp [Write.outboxId, or_comm, eq_comm]
  refine hmove.steps (fun r hr hr' => absurd ((hsame r).mp hr) hr') (fun r hr => ?_)
    fun r hr hr' => absurd ((hsame r).mpr hr) hr'
  have hb := hI.busy i r ((hsame r).mp hr)
  by_cases hrid : st.id = r
  · subst hrid
    obtain ⟨hview, hanswered, hstart, -⟩ := hb.underway _ stage rfl
    refine {
      once := hb.once
      used := Nat.lt_succ_of_lt hb.used
      handling := handling
      underway := ?_
      ready := ?_ }
    · intro st' hst'
      rw [show next.stage = some st' from hst'] at next_stage
      cases next_stage
    · intro _
      have hstatus : some change.status = some OutboxStatus.delivered ↔
          Answered st.id s.trace ∨ db₀.outboxStatus st.id = some .delivered := by
        rw [Option.some.injEq, status, hanswered, or_iff_left hstart]
      rw [Honest, view_status_own (by simp), hview]
      show _ ↔ Answered st.id s.trace ∨ _
      simpa [Op.writes, Write.outboxStatus] using hstatus
  · refine hb.other ⟨.inl rfl, Nat.le_succ _⟩ ?_ ?_ handling (by simp) ?_
    · intro st' hst'
      rw [← Option.some.inj (stage.symm.trans hst')]
      exact hrid
    · intro st' hst'
      rw [show next.stage = some st' from hst'] at next_stage
      cases next_stage
    · intro wr hwr hwid
      rw [List.mem_singleton.mp hwr] at hwid
      exact hrid (Option.some.inj hwid)

theorem steps_commit {next : Party}
    (stage : (s.loc i).stage = none ∧ next.stage = none ∨
      ∃ id phase phase' answered, (s.loc i).stage = some ⟨id, phase, answered⟩ ∧
        next.stage = some ⟨id, phase', answered⟩ ∧ phase'.status = phase.status ∧
        phase' ≠ .unpublished) :
    (rowOwnership cfg db₀ ι).Steps s i (.commit next)
      ((Op.commit next).shared (program cfg) i (s.pending i) s.toShared) := by
  have hmove : OutboxMove (s.loc i) s.fresh false (.commit next) := .commit stage
  have hposts : ∀ r, SamePosts r s.toShared
      ((Op.commit next).shared (program cfg) i (s.pending i) s.toShared) :=
    fun r => ⟨.inl rfl, Nat.le_succ _⟩
  -- only the row under way stays in hand
  have hafter : ∀ r, r ∈ rowsInHand next [] ↔ ∃ st, next.stage = some st ∧ st.id = r := by
    intro r
    rw [mem_rowsInHand]
    simp
  have hback : ∀ r, (∃ st, next.stage = some st ∧ st.id = r) ↔
      ∃ st, (s.loc i).stage = some st ∧ st.id = r := by
    intro r
    obtain ⟨h, h'⟩ | ⟨id, phase, phase', answered, h, h', -⟩ := stage <;> simp [h, h']
  refine hmove.steps (fun r hr hr' => ?_) (fun r hr => ?_) fun r hr hr' => ?_
  · exact absurd (mem_rowsInHand.mpr (.inl ((hback r).mp ((hafter r).mp hr)))) hr'
  · have hstage := (hafter r).mp hr
    have hb := hI.busy i r (mem_rowsInHand.mpr (.inl ((hback r).mp hstage)))
    obtain ⟨st, hst, -⟩ := hstage
    refine hb.carry (hposts r) (Party.handling_of_stage hst) rfl (fun st' hst' hid => ?_)
      fun st hst hid => (hback r).mpr ⟨st, hst, hid⟩
    obtain ⟨-, h'⟩ | ⟨id, phase, phase', answered, h, h', hstatus, hphase⟩ := stage
    · rw [show next.stage = some st' from hst'] at h'
      cases h'
    · obtain rfl := Option.some.inj (h'.symm.trans hst')
      exact ⟨_, h, hid, hstatus, rfl, fun hun => absurd hun hphase⟩
  · have hb := hI.busy i r hr
    have hready := hb.ready fun st hst hid =>
      hr' ((hafter r).mpr ((hback r).mpr ⟨st, hst, hid⟩))
    exact {
      once := hb.once
      honest := hready
      unused := fun hle => absurd (Nat.lt_of_succ_le hle) (Nat.lt_asymm hb.used) }

end Moves

/-- **One step.** Under the conditions every step of a party keeps the ownership of rows. -/
theorem rowOwnership_steps [DecidableEq ι] {x : Input} (hI : (rowOwnership cfg db₀ ι).Holds s)
    (hlocked : ∀ j, ∀ wr ∈ s.pending j, ∀ r, wr.outboxId = some r →
      LockKey.outboxRow r ∈ (s.own j).held)
    (hgood : Guarded s (i, x)) (hmove : OutboxMove (s.loc i) s.fresh x.crash op)
    (hfree : ∀ k ∈ op.locks, ∀ j, j ≠ i → k ∉ (s.own j).held) :
    (rowOwnership cfg db₀ ι).Steps s i op
      (op.shared (program cfg) i (s.pending i) s.toShared) := by
  obtain ⟨hcalm, hmarks, hunexposed⟩ := hgood
  have hempty : (s.loc i).handling = false ∨ x.crash = true ∧ (s.loc i).stage = none →
      rowsInHand (s.loc i) (s.pending i) = [] := by
    intro hidle
    obtain hidle | ⟨hx, hstage⟩ := hidle
    · exact rowsInHand_eq_nil hI hidle
    · refine (hcalm hx).resolve_left fun hs => ?_
      cases x <;> simp only [Party.survives, Bool.false_eq_true] at hs
      exact Party.stage_of_posting hs hstage
  cases hmove with
  | keep writes stage handling => exact steps_keep hI writes stage handling
  | tell post stage handling => exact steps_tell hI post stage handling
  | post stage next_stage => exact steps_post hI stage next_stage
  | insert hid status stage next_stage handling =>
    exact steps_insert hI hid status stage next_stage handling
  | mark marks handling next_stage =>
    exact steps_mark hI hlocked marks handling next_stage (hmarks _ marks) (hunexposed _ marks)
      (hfree _ (List.mem_singleton_self _))
  | conclude stage status next_stage handling =>
    exact steps_conclude hI stage status next_stage handling
  | commit stage => exact steps_commit hI stage
  | @fail next idle next_stage =>
    have hbefore := hempty idle
    refine (OutboxMove.fail idle next_stage).steps_of_empty hbefore ?_
    rw [rowsInHand, show (Op.exec [] [] next).next.stage = none from next_stage]
    simpa [Op.pendingAfter] using (List.append_eq_nil_iff.mp hbefore).2
  | @rollback next idle next_stage =>
    refine (OutboxMove.rollback idle next_stage).steps_of_empty (hempty idle) ?_
    rw [rowsInHand, show (Op.rollback next).next.stage = none from next_stage]
    rfl

end Steps

/-! ### Every run -/

section Runs

variable [DecidableEq ι] {fresh : Uuid} {s : World ι}

theorem OutboxMove.locked {p : Party} {crash : Bool} {op : Op Write LockKey Effect Party}
    (h : OutboxMove p fresh crash op) :
    ∀ wr ∈ op.writes, ∀ id, wr.outboxId = some id → LockKey.outboxRow id ∈ op.locks := by
  intro wr hwr id hid
  cases h with
  | keep writes =>
    rw [writes wr hwr] at hid
    cases hid
  | insert hrow =>
    rw [List.mem_singleton.mp hwr, Write.outboxId, hrow] at hid
    exact Option.some.inj hid ▸ List.mem_singleton_self _
  | mark marks =>
    rw [List.mem_singleton.mp hwr] at hid
    exact Option.some.inj hid ▸ List.mem_singleton_self _
  | conclude stage =>
    rw [List.mem_singleton.mp hwr] at hid
    exact Option.some.inj hid ▸ List.mem_singleton_self _
  | _ => cases hwr

/-- A step that meets the condition is one of the moves. -/
theorem outboxMove_of_calm {i : ι} {x : Input} {op : Op Write LockKey Effect Party}
    (h : Calm s (i, x)) (hop : (s.loc i).next cfg (s.view (program cfg) i) x = some op) :
    OutboxMove (s.loc i) s.fresh x.crash op := by
  refine Party.outboxMove hop fun hx => (h hx).imp_right fun hempty => ?_
  cases hst : (s.loc i).stage with
  | none => rfl
  | some st => simp [rowsInHand, hst] at hempty

/-- **Ownership of rows.** -/
theorem Run.row_ownership (hdb : ∀ row ∈ db₀.outbox, row.id < fresh)
    (hs : Run (program cfg).step Guarded (Initial db₀ fresh) s) :
    (rowOwnership cfg db₀ ι).Holds s := by
  refine Run.ownership ?_ ?_ hs
  · intro s hs
    have hempty : ∀ i r, r ∉ rowsInHand (s.loc i) (s.pending i) := by
      intro i r
      rw [rowsInHand, hs.pending i, (hs.starting i).stage]
      exact List.not_mem_nil
    constructor
    · exact fun i j r hr => absurd hr (hempty i r)
    · intro r _
      refine { once := ?_, honest := ?_, unused := fun hr => ?_ }
      · rw [hs.trace]
        exact List.Pairwise.nil
      · simp [Honest, hs.db, hs.trace, Answered]
      · rw [hs.fresh] at hr
        rw [hs.db, Db.outboxStatus, Option.map_eq_none_iff, List.find?_eq_none]
        intro row hrow hid
        exact absurd (hdb row hrow) (by simpa [of_decide_eq_true hid] using hr)
    · exact fun i r hr => absurd hr (hempty i r)
  · intro s i x op hr hI hgood hop hfree
    have hlocked : ∀ j, ∀ wr ∈ s.pending j, ∀ k, (∃ id, wr.outboxId = some id ∧
        k = LockKey.outboxRow id) → k ∈ (s.own j).held := by
      refine Run.pending_locked ?_ (fun s hs => hs.pending) hr
      intro s i x op hgood hop wr hwr k hk
      obtain ⟨id, hid, rfl⟩ := hk
      exact (outboxMove_of_calm hgood.1 hop).locked wr hwr id hid
    exact rowOwnership_steps hI (fun j wr hwr r hid => hlocked j wr hwr _ ⟨r, hid, rfl⟩) hgood
      (outboxMove_of_calm hgood.1 hop) hfree

/-- A row that was answered 2xx is not posted again. -/
theorem Run.never_repeated (hdb : ∀ row ∈ db₀.outbox, row.id < fresh)
    (hs : Run (program cfg).step Guarded (Initial db₀ fresh) s) (id : Uuid) :
    NeverRepeated id s.trace := by
  have hI := Run.row_ownership hdb hs
  by_cases h : ∃ i, id ∈ rowsInHand (s.loc i) (s.pending i)
  · obtain ⟨i, hi⟩ := h
    exact (hI.busy i id hi).once
  · exact (hI.free id fun i hi => h ⟨i, hi⟩).once

end Runs

end Driftgate.Runtime
