import Driftgate.Runtime.SingleAttempt

/-!
# Who makes the first attempt

A webhook is first posted by the request that enqueues it, or by the outbox worker. The worker
counts a failed attempt and leaves the row PENDING until `max_attempts` are used up; the request
makes the row FAILED after its one attempt and lets `deliver_with_retry` write the dead letter.

What happens to a row is decided by the answers to its POSTs, as long as parties run one at a time.
Both drivers come to the same end exactly when the first answer is 2xx (`same_end_iff`).
-/

namespace Driftgate.Runtime

open Driftgate.ReadCommitted

/-! ### The life of a webhook -/

/-- The polls that take up a row, until it is not PENDING any more, from its `k`-th POST on. Other
parties, the worker with other rows among them, work before a poll, between the poll and the turn of
the row, and afterwards. -/
inductive Polls (clock : ℕ → Time) (outcomes : ℕ → Answer) (id eventId : Uuid)
    (sub : SubscriptionRow) : ℕ → Db → Db → Prop
  | ended {k : ℕ} {db db' : Db} (hrest : db.Untouched id eventId sub db')
      (hfinal : ∀ row ∈ db'.outbox, row.id = id → row.status ≠ .pending) :
      Polls clock outcomes id eventId sub k db db'
  | turn {k : ℕ} {db db₁ db₂ db' : Db} {fresh₁ fresh₂ : Uuid} {now : Time} {item : OutboxRow}
      {before rest : List OutboxRow} {a : Alone Db Write WorkerPc}
      (hrest : db.Untouched id eventId sub db₁)
      (hbatch : selectBatch ⟨db₁, fun _ => false, fresh₁⟩ now = before ++ item :: rest)
      (hitem : item.id = id) (hbefore : db₁.Untouched id eventId sub db₂)
      (hturn : WorkerPc.turn clock (outcomes k)
        ⟨db₂, [], fresh₂, .markDelivering item rest before.length⟩ = some a)
      (hlater : Polls clock outcomes id eventId sub (k + 1) (a.seen workerProgram) db') :
      Polls clock outcomes id eventId sub k db db'

/-- A subscription is served by the loop, and the row is taken up by polls afterwards. The request
makes the first attempt or leaves it to the worker. -/
def Enqueue.Life (cfg : Config) (q : Enqueue) (clock : ℕ → Time) (outcomes : ℕ → Answer)
    (affected : List SubscriptionRow) (sub : SubscriptionRow) (rest : List SubscriptionRow)
    (db : Db) (pending : List Write) (fresh : Uuid) (db' : Db) : Prop :=
  ∃ b, q.serve cfg clock (outcomes 0)
      ⟨db, pending, fresh, .go (.insertOutbox affected sub rest)⟩ = some b ∧
    Polls clock outcomes fresh q.eventId sub (if cfg.inlineDelivery then 1 else 0)
      (b.seen (enqueueProgram cfg q)) db'

/-- Status, attempts and dead letter are the same, and a FAILED row has had all its attempts. -/
def SameEnd (id eventId : Uuid) (consumerId : String) (db db' : Db) : Prop :=
  ∃ row row', db.outbox.filter (·.id = id) = [row] ∧ db'.outbox.filter (·.id = id) = [row'] ∧
    row.status = row'.status ∧ row.attempts = row'.attempts ∧
    (db.DeadLetter eventId consumerId 0 ↔ db'.DeadLetter eventId consumerId 0) ∧
    ∀ r ∈ [row, row'], r.status = .failed → r.maxAttempts ≤ r.attempts

section Lives

variable {clock : ℕ → Time} {outcomes : ℕ → Answer} {id eventId : Uuid} {sub : SubscriptionRow}
  {k : ℕ} {db db' : Db} {row : OutboxRow}

/-- A row that is not PENDING is left alone. -/
theorem Polls.untouched (h : Polls clock outcomes row.id eventId sub k db db')
    (hstands : db.Stands row sub) (hstatus : row.status ≠ .pending) :
    db.Untouched row.id eventId sub db' := by
  cases h with
  | ended hrest _ => exact hrest
  | turn hrest hbatch hitem hbefore hturn hlater =>
    obtain ⟨hmem, hpending⟩ := mem_selectBatch (hbatch ▸ List.mem_append_right _ List.mem_cons_self)
    rw [(hstands.untouched hrest).eq hmem hitem] at hpending
    exact absurd hpending hstatus

/-- A PENDING row is taken up. -/
theorem Polls.attempted (h : Polls clock outcomes row.id eventId sub k db db')
    (hstands : db.Stands row sub) (hactive : sub.active = true)
    (hevent : row.payload.eventId = some eventId) (hstatus : row.status = .pending) :
    ∃ db₁ row' db₂, db.Untouched row.id eventId sub db₁ ∧
      AttemptEnds (outcomes k) (if row.maxAttempts ≤ row.attempts + 1 then .failed else .pending)
        eventId sub row db₁ row' db₂ ∧
      Polls clock outcomes row'.id eventId sub (k + 1) db₂ db' := by
  cases h with
  | ended hrest hfinal =>
    have hmem : row ∈ db'.outbox.filter (·.id = row.id) := by
      rw [(hstands.untouched hrest).alone]
      exact List.mem_singleton_self row
    exact absurd hstatus (hfinal row (List.mem_of_mem_filter hmem) rfl)
  | turn hrest hbatch hitem hbefore hturn hlater =>
    obtain ⟨hmem, -⟩ := mem_selectBatch (hbatch ▸ List.mem_append_right _ List.mem_cons_self)
    have hstands₁ := hstands.untouched hrest
    have heq := hstands₁.eq hmem hitem
    subst heq
    obtain ⟨row', hends⟩ := WorkerPc.attempt (hstands₁.untouched hbefore) hactive hevent hturn
    refine ⟨_, row', _, hrest.trans hbefore, hends, ?_⟩
    rw [hends.id]
    exact hlater

theorem AttemptEnds.pending_iff {outcome : Answer} {row' : OutboxRow} {db₁ : Db}
    (h : AttemptEnds outcome (if row.maxAttempts ≤ row.attempts + 1 then .failed else .pending)
      eventId sub row db₁ row' db') :
    row'.status = .pending ↔ outcome.ok = false ∧ row.attempts + 1 < row.maxAttempts := by
  rw [h.status]
  cases outcome.ok with
  | true => simp
  | false =>
    by_cases hlast : row.maxAttempts ≤ row.attempts + 1
    · simp [hlast]
    · simp [hlast]
      omega

theorem AttemptEnds.status_cases {outcome : Answer} {unsuccessful : OutboxStatus} {row' : OutboxRow}
    {db₁ : Db} (h : AttemptEnds outcome unsuccessful eventId sub row db₁ row' db') :
    row'.status = .delivered ∨ row'.status = unsuccessful := by
  rw [h.status]
  split
  · exact .inl rfl
  · exact .inr rfl

/-- **The worker's policy.** A PENDING row ends DELIVERED, or FAILED with all attempts made and a
dead letter. -/
theorem Polls.ends (hactive : sub.active = true) (n : ℕ)
    (h : Polls clock outcomes row.id eventId sub k db db') (hstands : db.Stands row sub)
    (hevent : row.payload.eventId = some eventId) (hstatus : row.status = .pending)
    (hleft : row.attempts < row.maxAttempts) (hn : row.maxAttempts ≤ row.attempts + n) :
    ∃ row', db'.Stands row' sub ∧ row'.id = row.id ∧ row.attempts < row'.attempts ∧
      (row'.status = .delivered ∨ row'.status = .failed ∧ row'.attempts = row'.maxAttempts ∧
        db'.DeadLetter eventId sub.consumerId 0) := by
  induction n generalizing row db k with
  | zero => omega
  | succ n ih =>
    obtain ⟨db₁, row', db₂, hrest, hends, hlater⟩ := h.attempted hstands hactive hevent hstatus
    have hattempts := hends.attempts
    have hmax := hends.maxAttempts
    by_cases hp : row'.status = .pending
    · have hmore := (hends.pending_iff.mp hp).2
      obtain ⟨r, hr, hid, hlt, hr'⟩ := ih hlater hends.stands (hends.payload ▸ hevent) hp
        (by omega) (by omega)
      exact ⟨r, hr, hid.trans hends.id, by omega, hr'⟩
    · have hu := hlater.untouched hends.stands hp
      refine ⟨row', hends.stands.untouched hu, hends.id, by omega, ?_⟩
      obtain hdelivered | hfailed := hends.status_cases
      · exact .inl hdelivered
      · split_ifs at hfailed with hlast
        · exact .inr ⟨hfailed, by omega, hu.letter.mpr (hends.failed hfailed)⟩
        · exact absurd hfailed hp

/-- The row is due and nobody else's is: the others were delivered in the meantime. -/
theorem Db.Stands.due (h : db.Stands row sub) (hstatus : row.status = .pending) (eventId : Uuid) :
    ∃ db₁, db.Untouched row.id eventId sub db₁ ∧
      selectBatch ⟨db₁, fun _ => false, 0⟩ row.nextRetryAt = [row] := by
  let f := fun r : OutboxRow => if r.id ≠ row.id then { r with status := .delivered } else r
  have hf : f row = row := if_neg fun hne => hne rfl
  have hid : ∀ r, (f r).id = r.id := by
    intro r
    show (if _ then _ else r).id = r.id
    split <;> rfl
  have hfilter : (db.outbox.map f).filter (·.id = row.id) = [row] := by
    have hp : ((fun r : OutboxRow => decide (r.id = row.id)) ∘ f) =
        fun r => decide (r.id = row.id) := by
      funext r
      show decide ((f r).id = row.id) = _
      rw [hid]
    rw [List.filter_map, hp, h.alone, List.map_singleton, hf]
  have hdue : (db.outbox.map f).filter
      (fun r => r.status = .pending && r.nextRetryAt ≤ row.nextRetryAt) = [row] := by
    rw [← hfilter]
    refine List.filter_congr fun r' hr' => ?_
    obtain ⟨r, hr, rfl⟩ := List.mem_map.mp hr'
    by_cases hrow : r.id = row.id
    · rw [h.eq hr hrow, hf]
      simp [hstatus]
    · have hdelivered : (f r).status = .delivered := by
        show (if _ then _ else r).status = _
        rw [if_pos hrow]
      simp [hdelivered, hid, hrow]
  refine ⟨{ db with outbox := db.outbox.map f }, ⟨hfilter.trans h.alone.symm, rfl, Iff.rfl⟩, ?_⟩
  show (((List.filter _ (db.outbox.map f)).insertionSort _).filter _).take _ = _
  rw [hdue]
  rfl

theorem Polls.refl (hstands : db.Stands row sub) (hstatus : row.status ≠ .pending) :
    Polls clock outcomes row.id eventId sub k db db :=
  .ended (.refl _ _ _ _) fun r hr hid => by rwa [hstands.eq hr hid]

/-- The worker gets to the end of a row. -/
theorem exists_polls (hactive : sub.active = true) (n : ℕ) (hstands : db.Stands row sub)
    (hevent : row.payload.eventId = some eventId) (hstatus : row.status = .pending)
    (hleft : row.attempts < row.maxAttempts) (hn : row.maxAttempts ≤ row.attempts + n) :
    ∃ db', Polls clock outcomes row.id eventId sub k db db' := by
  induction n generalizing row db k with
  | zero => omega
  | succ n ih =>
    obtain ⟨db₁, hrest, hbatch⟩ := hstands.due hstatus eventId
    have hstands₁ := hstands.untouched hrest
    obtain ⟨a, hturn⟩ := WorkerPc.exists_turn (outcomes k) hactive hstands₁ clock
    obtain ⟨row', hends⟩ := WorkerPc.attempt hstands₁ hactive hevent hturn
    have hlater : ∃ db', Polls clock outcomes row.id eventId sub (k + 1) (a.seen workerProgram)
        db' := by
      rw [← hends.id]
      by_cases hp : row'.status = .pending
      · have hmore := (hends.pending_iff.mp hp).2
        have hattempts := hends.attempts
        have hmax := hends.maxAttempts
        exact ih hends.stands (hends.payload ▸ hevent) hp (by omega) (by omega)
      · exact ⟨_, .refl hends.stands hp⟩
    obtain ⟨db', hlater⟩ := hlater
    have hsplit : selectBatch ⟨db₁, fun _ => false, 0⟩ row.nextRetryAt = [] ++ row :: [] := hbatch
    exact ⟨db', .turn hrest hsplit rfl (.refl _ _ _ _) hturn hlater⟩

end Lives

section Policies

variable {cfg : Config} {q : Enqueue} {clock : ℕ → Time} {outcomes : ℕ → Answer}
  {affected rest : List SubscriptionRow} {sub : SubscriptionRow} {db db' : Db}
  {pending : List Write} {fresh : Uuid}

/-- The request made the first attempt. -/
theorem Enqueue.Life.inline (h : q.Life cfg clock outcomes affected sub rest db pending fresh db')
    (hon : cfg.inlineDelivery = true) (hactive : sub.active = true)
    (hsub : ((enqueueProgram cfg q).applyAll pending db).subscriptions.find? (·.id = sub.id) =
      some sub)
    (hnew : ∀ r ∈ ((enqueueProgram cfg q).applyAll pending db).outbox, r.id ≠ fresh) :
    ∃ row, row.id = fresh ∧ db'.Stands row sub ∧ row.attempts = 1 ∧
      row.status = (if (outcomes 0).ok then .delivered else .failed) ∧
      ((outcomes 0).ok = true → (db'.DeadLetter q.eventId sub.consumerId 0 ↔
        ((enqueueProgram cfg q).applyAll pending db).DeadLetter q.eventId sub.consumerId 0)) := by
  obtain ⟨b, hserve, hpolls⟩ := h
  obtain ⟨row, hends⟩ := attempt_inline hon hactive hsub hnew hserve
  have hstatus : row.status ≠ .pending := by
    obtain hst | hst := hends.status_cases <;> rw [hst] <;> exact OutboxStatus.noConfusion
  have hid : row.id = fresh := hends.id
  rw [← hid] at hpolls
  have hu := hpolls.untouched hends.stands hstatus
  refine ⟨row, hid, hends.stands.untouched hu, hends.attempts, hends.status,
    fun hok => hu.letter.trans ?_⟩
  rw [Db.DeadLetter, hends.delivered hok]
  rfl

/-- The worker makes the first attempt. -/
theorem Enqueue.Life.deferred (h : q.Life cfg clock outcomes affected sub rest db pending fresh db')
    (hoff : cfg.inlineDelivery = false) (hactive : sub.active = true)
    (hsub : ((enqueueProgram cfg q).applyAll pending db).subscriptions.find? (·.id = sub.id) =
      some sub)
    (hnew : ∀ r ∈ ((enqueueProgram cfg q).applyAll pending db).outbox, r.id ≠ fresh) :
    ∃ row, row.id = fresh ∧ db'.Stands row sub ∧
      ((outcomes 0).ok = true → row.attempts = 1 ∧ row.status = .delivered ∧
        (db'.DeadLetter q.eventId sub.consumerId 0 ↔
          ((enqueueProgram cfg q).applyAll pending db).DeadLetter q.eventId sub.consumerId 0)) ∧
      ((outcomes 0).ok = false → 1 < row.attempts) := by
  obtain ⟨b, hserve, hpolls⟩ := h
  rw [hoff, if_neg Bool.false_ne_true] at hpolls
  obtain ⟨hstands, hdlq⟩ := waits hoff hsub hnew hserve
  have htaken : Polls clock outcomes (q.newRow fresh (clock fresh) sub).id q.eventId sub 0
      (b.seen (enqueueProgram cfg q)) db' := hpolls
  obtain ⟨db₁, row, db₂, hrest, hends, hlater⟩ := htaken.attempted hstands hactive rfl rfl
  have hid : row.id = fresh := hends.id
  have hattempts : row.attempts = 1 := hends.attempts
  have hmax : row.maxAttempts = 5 := hends.maxAttempts
  cases hok : (outcomes 0).ok with
  | true =>
    have hdelivered : row.status = .delivered := by rw [hends.status, hok, if_pos rfl]
    have hu := hlater.untouched hends.stands (by rw [hdelivered]; exact OutboxStatus.noConfusion)
    refine ⟨row, hid, hends.stands.untouched hu, fun _ => ⟨hattempts, hdelivered, ?_⟩, nofun⟩
    have hletter : (b.seen (enqueueProgram cfg q)).DeadLetter q.eventId sub.consumerId 0 ↔
        ((enqueueProgram cfg q).applyAll pending db).DeadLetter q.eventId sub.consumerId 0 := by
      rw [Db.DeadLetter, hdlq]
      rfl
    refine hu.letter.trans (Iff.trans ?_ (hrest.letter.trans hletter))
    rw [Db.DeadLetter, hends.delivered hok]
    rfl
  | false =>
    have hpending : row.status = .pending := hends.pending_iff.mpr ⟨hok, show 0 + 1 < 5 by omega⟩
    have hevent : row.payload.eventId = some q.eventId := by
      rw [hends.payload]
      rfl
    obtain ⟨r, hr, hrid, hlt, -⟩ := hlater.ends hactive 4 hends.stands hevent hpending (by omega)
      (by omega)
    exact ⟨r, hrid.trans hid, hr, nofun, fun _ => by omega⟩

/-- There are both lives. -/
theorem Enqueue.exists_life (cfg : Config) (clock : ℕ → Time) (outcomes : ℕ → Answer)
    (affected rest : List SubscriptionRow) (hactive : sub.active = true)
    (hsub : ((enqueueProgram cfg q).applyAll pending db).subscriptions.find? (·.id = sub.id) =
      some sub)
    (hnew : ∀ r ∈ ((enqueueProgram cfg q).applyAll pending db).outbox, r.id ≠ fresh) :
    ∃ db', q.Life cfg clock outcomes affected sub rest db pending fresh db' := by
  obtain ⟨b, hserve⟩ := q.exists_serve cfg (outcomes 0) clock db pending fresh affected rest hactive
  cases hdelivery : cfg.inlineDelivery with
  | true =>
    obtain ⟨row, hends⟩ := attempt_inline hdelivery hactive hsub hnew hserve
    have hstatus : row.status ≠ .pending := by
      obtain hst | hst := hends.status_cases <;> rw [hst] <;> exact OutboxStatus.noConfusion
    have hid : row.id = fresh := hends.id
    have hpolls : Polls clock outcomes row.id q.eventId sub 1 (b.seen (enqueueProgram cfg q))
        (b.seen (enqueueProgram cfg q)) := .refl hends.stands hstatus
    refine ⟨b.seen (enqueueProgram cfg q), b, hserve, ?_⟩
    rw [hdelivery, if_pos rfl, ← hid]
    exact hpolls
  | false =>
    obtain ⟨hstands, -⟩ := waits hdelivery hsub hnew hserve
    obtain ⟨db', hpolls⟩ : ∃ db', Polls clock outcomes (q.newRow fresh (clock fresh) sub).id
        q.eventId sub 0 (b.seen (enqueueProgram cfg q)) db' :=
      exists_polls hactive 5 hstands rfl rfl (show 0 < 5 by omega) (show 5 ≤ 0 + 5 by omega)
    refine ⟨db', b, hserve, ?_⟩
    rw [hdelivery, if_neg Bool.false_ne_true]
    exact hpolls

/-- After a first failure the worker makes another attempt and the request does not. -/
theorem Enqueue.ends_differ (cfg : Config) (hactive : sub.active = true)
    (hsub : ((enqueueProgram cfg q).applyAll pending db).subscriptions.find? (·.id = sub.id) =
      some sub)
    (hnew : ∀ r ∈ ((enqueueProgram cfg q).applyAll pending db).outbox, r.id ≠ fresh)
    (hok : (outcomes 0).ok = false) :
    ¬∀ db₁ db₂,
      q.Life { cfg with inlineDelivery := true } clock outcomes affected sub rest db pending fresh
        db₁ →
      q.Life { cfg with inlineDelivery := false } clock outcomes affected sub rest db pending fresh
        db₂ →
      SameEnd fresh q.eventId sub.consumerId db₁ db₂ := by
  intro h
  obtain ⟨db₁, h₁⟩ := q.exists_life { cfg with inlineDelivery := true } clock outcomes affected rest
    hactive hsub hnew
  obtain ⟨db₂, h₂⟩ := q.exists_life { cfg with inlineDelivery := false } clock outcomes affected
    rest hactive hsub hnew
  obtain ⟨row, row', hrow, hrow', -, hattempts, -⟩ := h db₁ db₂ h₁ h₂
  obtain ⟨r, rfl, hr, hone, -⟩ := h₁.inline rfl hactive hsub hnew
  obtain ⟨r', hid', hr', -, hmore⟩ := h₂.deferred rfl hactive hsub hnew
  have hlt := hmore hok
  have heq : r = row := List.singleton_inj.mp (hr.alone.symm.trans hrow)
  have heq' : r' = row' := List.singleton_inj.mp (hr'.alone.symm.trans (hid' ▸ hrow'))
  rw [← heq, ← heq'] at hattempts
  omega

/-- **The two policies agree on a first success only.** A subscription that the loop serves, whose
new row has an id that no row has: in all its lives status, attempts and dead letter at the end are
the same whoever makes the first attempt, and FAILED is the end of `max_attempts` attempts, exactly
if the first POST is answered 2xx. -/
theorem Enqueue.same_end_iff (cfg : Config) (q : Enqueue) (clock : ℕ → Time) (outcomes : ℕ → Answer)
    (affected rest : List SubscriptionRow) (sub : SubscriptionRow) (db : Db) (pending : List Write)
    (fresh : Uuid) (hactive : sub.active = true)
    (hsub : ((enqueueProgram cfg q).applyAll pending db).subscriptions.find? (·.id = sub.id) =
      some sub)
    (hnew : ∀ r ∈ ((enqueueProgram cfg q).applyAll pending db).outbox, r.id ≠ fresh) :
    (∀ db₁ db₂,
      q.Life { cfg with inlineDelivery := true } clock outcomes affected sub rest db pending fresh
        db₁ →
      q.Life { cfg with inlineDelivery := false } clock outcomes affected sub rest db pending fresh
        db₂ →
      SameEnd fresh q.eventId sub.consumerId db₁ db₂) ↔ (outcomes 0).ok = true := by
  constructor
  · intro h
    by_contra hok
    exact ends_differ cfg hactive hsub hnew (Bool.eq_false_of_not_eq_true hok) h
  · intro hok db₁ db₂ h₁ h₂
    obtain ⟨r, hid, hr, hone, hstatus, hletter⟩ := h₁.inline rfl hactive hsub hnew
    obtain ⟨r', hid', hr', hmore, -⟩ := h₂.deferred rfl hactive hsub hnew
    obtain ⟨hone', hstatus', hletter'⟩ := hmore hok
    rw [hok, if_pos rfl] at hstatus
    refine ⟨r, r', hid ▸ hr.alone, hid' ▸ hr'.alone, hstatus.trans hstatus'.symm,
      hone.trans hone'.symm, (hletter hok).trans hletter'.symm, fun r₁ hr₁ hfailed => ?_⟩
    have hdelivered : r₁.status = .delivered := by
      simp only [List.mem_cons, List.not_mem_nil, or_false] at hr₁
      obtain rfl | rfl := hr₁
      · exact hstatus
      · exact hstatus'
    rw [hdelivered] at hfailed
    cases hfailed

end Policies

/-! ### A first POST that fails -/

/-- The webhooks of a loss of a member, from version 1 to version 2. -/
def sampleLoss : Enqueue where
  drift := {
    upserted := ⟨1, ⟨7, 1, 2, "f2", .members [], "SAFE", some 6, true⟩, true⟩
    oldVersion := 1
    oldFingerprint := "f1"
    diffs := [⟨"name", some "string", none, some false, none, .breaking,
      "removed required field"⟩] }
  eventId := 8

/-- The subscriber answers 500 once and 200 ever after. -/
def failsOnce (k : ℕ) : Answer := .status (if k = 0 then 500 else 200)

/-- The database with one subscriber. -/
def oneSubscriber : Db where
  subscriptions := [sampleSubscription 3 1]

theorem Enqueue.same_end_iff_failsOnce :
    (∀ db₁ db₂,
      sampleLoss.Life (sampleConfig true) id failsOnce [sampleSubscription 3 1]
        (sampleSubscription 3 1) [] oneSubscriber [] 9 db₁ →
      sampleLoss.Life (sampleConfig false) id failsOnce [sampleSubscription 3 1]
        (sampleSubscription 3 1) [] oneSubscriber [] 9 db₂ →
      SameEnd 9 8 "consumer 3" db₁ db₂) ↔ (failsOnce 0).ok = true :=
  sampleLoss.same_end_iff (sampleConfig true) id failsOnce [sampleSubscription 3 1] []
    (sampleSubscription 3 1) oneSubscriber [] 9 rfl rfl nofun

/-- The first POST is answered 500, any other 200. The request leaves the row FAILED after one
attempt of five; the worker makes a second attempt. -/
theorem first_failure_is_final : ¬∀ db₁ db₂,
    sampleLoss.Life (sampleConfig true) id failsOnce [sampleSubscription 3 1]
      (sampleSubscription 3 1) [] oneSubscriber [] 9 db₁ →
    sampleLoss.Life (sampleConfig false) id failsOnce [sampleSubscription 3 1]
      (sampleSubscription 3 1) [] oneSubscriber [] 9 db₂ →
    SameEnd 9 8 "consumer 3" db₁ db₂ :=
  Enqueue.ends_differ (sampleConfig true) rfl rfl nofun rfl

end Driftgate.Runtime
