import Driftgate.Runtime.DeadLetters
import Driftgate.Runtime.DeliveryRuns

/-!
# Rows that requests add

Without inline delivery a request does one thing to the outbox: it inserts a row for each affected
subscription, PENDING and under an identifier nobody has used. `Adds` says so of a single step.
`Adding` is what it means for the open transaction, and `Grown` what the others see of it: the
outbox may get longer, and nothing is posted.
-/

namespace Driftgate.Runtime

open Driftgate.ReadCommitted Driftgate.Transition

/-! ### The loop over the subscriptions -/

/-- The subscriptions that the loop has selected and not finished. -/
def EnqueuePc.toServe : EnqueuePc → List SubscriptionRow
  | .selectAffected => []
  | .insertOutbox _ sub rest => sub :: rest
  | .deliver _ sub rest _ _ => sub :: rest
  | .updateOutbox _ sub rest _ _ => sub :: rest

def TrackPc.toServe : TrackPc → List SubscriptionRow
  | .enqueue _ pc => pc.toServe
  | _ => []

def Party.toServe : Party → List SubscriptionRow
  | .track p => p.pc.toServe
  | _ => []

theorem TrackPc.BeforeLoop.toServe {fresh : Uuid} {pc : TrackPc} (h : pc.BeforeLoop fresh) :
    pc.toServe = [] := by
  cases pc with
  | enqueue q pc =>
    obtain ⟨rfl, -⟩ := h
    rfl
  | _ => rfl

/-- Where a coroutine continues, if it does. -/
def Flow.serves {ℓ ρ : Type*} (toServe : ℓ → List SubscriptionRow) :
    Flow ℓ ρ → List SubscriptionRow
  | .go pc => toServe pc
  | _ => []

theorem Enqueue.next_serves (affected rest : List SubscriptionRow) :
    (Enqueue.next affected rest).serves EnqueuePc.toServe = rest := by
  cases rest <;> rfl

/-! ### One step -/

/-- A row that no worker has touched. -/
structure OutboxRow.New (row : OutboxRow) : Prop where
  status : row.status = .pending
  attempts : row.attempts < row.maxAttempts
  event : row.payload.eventId ≠ none

theorem Enqueue.newRow_new (q : Enqueue) (id : Uuid) (now : Time) (sub : SubscriptionRow) :
    (q.newRow id now sub).New := by
  refine ⟨rfl, ?_, Option.some_ne_none _⟩
  show 0 < 5
  omega

/-- The row that a write inserts into the outbox. -/
def Write.inserted : Write → Option OutboxRow
  | .insertOutbox row => some row
  | _ => none

/-- What an operation does that adds rows for the subscriptions `before`, where `after` gives those
that it leaves. -/
structure Adds {ℓ : Type*} (before : List SubscriptionRow) (after : ℓ → List SubscriptionRow)
    (v : DbView) (op : Op Write LockKey Effect ℓ) : Prop where
  quiet : ∀ e next, op = .emit e next → e.postOf = none
  writes : (∀ w ∈ op.writes, w.outboxId = none) ∨
    ∃ row, op.writes = [.insertOutbox row] ∧ .outboxRow row.id ∈ op.locks ∧ row.id = v.fresh ∧
      row.New ∧ ∃ sub ∈ before, row.subscriptionId = sub.id
  serves : ∀ sub ∈ after op.next, sub ∈ before ∨ sub ∈ v.db.subscriptions

theorem Adds.map {ℓ ℓ' : Type*} {before : List SubscriptionRow} {after : ℓ → List SubscriptionRow}
    {after' : ℓ' → List SubscriptionRow} {v : DbView} {op : Op Write LockKey Effect ℓ}
    (h : Adds before after v op) {f : ℓ → ℓ'}
    (hf : ∀ l, ∀ sub ∈ after' (f l), sub ∈ after l ∨ sub ∈ before) :
    Adds before after' v (op.map f id) := by
  refine ⟨fun e next he => ?_, ?_, ?_⟩
  · cases op with
    | emit e' l =>
      cases he
      exact h.quiet e' l rfl
    | _ => cases he
  · rw [Op.writes_map, Op.locks_map]
    exact h.writes
  · rw [Op.next_map]
    intro sub hsub
    obtain hsub | hsub := hf _ sub hsub
    · exact h.serves sub hsub
    · exact .inl hsub

/-- An operation that leaves the outbox alone and goes on with no more than it had. -/
theorem Adds.idle {ℓ : Type*} {before : List SubscriptionRow} {after : ℓ → List SubscriptionRow}
    {v : DbView} {op : Op Write LockKey Effect ℓ}
    (hquiet : ∀ e next, op = .emit e next → e.postOf = none)
    (hwrites : ∀ w ∈ op.writes, w.outboxId = none)
    (hserves : ∀ sub ∈ after op.next, sub ∈ before) : Adds before after v op :=
  ⟨hquiet, .inl hwrites, fun sub hsub => .inl (hserves sub hsub)⟩

theorem Enqueue.step_adds {cfg : Config} (hoff : cfg.inlineDelivery = false) {q : Enqueue}
    {pc : EnqueuePc} {v : DbView} {x : Input}
    {op : Op Write LockKey Effect (Flow EnqueuePc (List SubscriptionRow))}
    (hpc : pc.stage = none) (h : q.step cfg pc v x = some op) :
    Adds pc.toServe (Flow.serves EnqueuePc.toServe) v op := by
  cases step_move h with
  | selects affected haffected =>
    refine ⟨by simp, .inl (by simp [Op.writes]), fun sub hsub => .inr ?_⟩
    rw [Op.next, next_serves, haffected] at hsub
    exact List.mem_of_mem_filter hsub
  | inserts affected sub rest =>
    refine ⟨by simp, .inr ⟨_, rfl, List.mem_singleton_self _, rfl, q.newRow_new _ _ _, sub,
      List.mem_cons_self, rfl⟩, fun sub' hsub => .inl ?_⟩
    rw [Op.next, next_serves] at hsub
    exact List.mem_cons_of_mem _ hsub
  | insertsActive _ _ _ hon | insertsInactive _ _ _ hon =>
    rw [hoff] at hon
    cases hon
  | selectRaises | insertRaises =>
    exact .idle (by simp) (by simp [Op.writes]) (by simp [Op.next, Flow.serves])
  | delivers | updates | updateRaises => cases hpc

/-- What a request's code does to the outbox. -/
theorem TrackCall.step_adds {cfg : Config} (hoff : cfg.inlineDelivery = false) {call : TrackCall}
    {pc : TrackPc} {v : DbView} {x : Input}
    {op : Op Write LockKey Effect (Flow TrackPc TrackResult)} (hpc : pc.stage = none)
    (h : call.step cfg pc v x = some op) :
    Adds pc.toServe (Flow.serves TrackPc.toServe) v op := by
  by_cases hearly : pc.enqueueing = false
  · obtain ⟨hnext, hop⟩ := step_before_enqueue hearly h
    have hserves : Flow.serves TrackPc.toServe op.next = [] := by
      cases hn : op.next with
      | go pc' => exact (hnext pc' hn).toServe
      | _ => rfl
    obtain ⟨ks, ws, next, rfl, hws⟩ | ⟨e, next, rfl, he⟩ := hop
    · refine .idle (by simp) (fun w hw => (hws w hw).outboxId) fun sub hsub => ?_
      rw [hserves] at hsub
      cases hsub
    · refine .idle (fun e' next' heq => ?_) (by simp [Op.writes]) fun sub hsub => ?_
      · cases heq
        exact he
      · rw [hserves] at hsub
        cases hsub
  · cases pc with
    | enqueue q pc =>
      obtain ⟨op', hop', rfl⟩ := Option.map_eq_some_iff.mp h
      refine (Enqueue.step_adds hoff hpc hop').map fun f sub hsub => .inl ?_
      cases f with
      | go pc' => exact hsub
      | _ => cases hsub
    | commit n r =>
      cases x <;> simp only [step, reduceCtorEq, Option.some.injEq] at h <;> subst h <;>
        exact .idle (by simp) (by simp [Op.writes]) (by simp [Op.next, Flow.serves])
    | _ => exact absurd rfl hearly

/-- What a request does to the outbox. -/
theorem TrackProc.step_adds {cfg : Config} (hoff : cfg.inlineDelivery = false) {p : TrackProc}
    {v : DbView} {x : Input} {op : Op Write LockKey Effect TrackProc} (hpc : p.pc.stage = none)
    (h : p.next cfg v x = some op) : Adds p.pc.toServe (fun p' => p'.pc.toServe) v op := by
  obtain ⟨-, rfl⟩ | ⟨ok, t, -, -, rfl⟩ | ⟨cop, -, hcode, rfl⟩ | ⟨e, -, rfl⟩ := next_cases h
  · exact .idle (by simp) (by simp [Op.writes]) fun sub hsub => hsub
  · refine .idle (fun e next heq => ?_) (by simp [Op.writes]) fun sub hsub => hsub
    cases heq
    rfl
  · refine (TrackCall.step_adds hoff hpc hcode).map fun f sub hsub => ?_
    cases f with
    | go pc => exact .inl hsub
    | _ => exact .inr hsub
  · exact .idle (by simp) (by simp [Op.writes]) fun sub hsub => hsub

theorem TrackCall.step_ne_subscriptions {cfg : Config} {call : TrackCall} {pc : TrackPc} {v : DbView}
    {x : Input} {op : Op Write LockKey Effect (Flow TrackPc TrackResult)}
    (h : call.step cfg pc v x = some op) : ∀ w ∈ op.writes, w.table ≠ .subscriptions := by
  by_cases hearly : pc.enqueueing = false
  · obtain ⟨-, ⟨ks, ws, next, rfl, hws⟩ | ⟨e, next, rfl, -⟩⟩ := step_before_enqueue hearly h
    · exact fun w hw => (hws w hw).ne_subscriptions
    · simp [Op.writes]
  · cases pc with
    | enqueue q pc =>
      obtain ⟨op', hop', rfl⟩ := Option.map_eq_some_iff.mp h
      intro w hw
      rw [Op.writes_map] at hw
      rcases Enqueue.step_table hop' w hw with ht | ht | ht <;> rw [ht] <;> decide
    | commit n r =>
      cases x <;> simp only [step, reduceCtorEq, Option.some.injEq] at h <;> subst h <;>
        simp [Op.writes]
    | _ => exact absurd rfl hearly

theorem TrackProc.step_ne_subscriptions {cfg : Config} {p : TrackProc} {v : DbView} {x : Input}
    {op : Op Write LockKey Effect TrackProc} (h : p.next cfg v x = some op) :
    ∀ w ∈ op.writes, w.table ≠ .subscriptions := by
  obtain ⟨-, rfl⟩ | ⟨ok, t, -, -, rfl⟩ | ⟨cop, -, hcode, rfl⟩ | ⟨e, -, rfl⟩ := next_cases h
  · simp [Op.writes]
  · simp [Op.writes]
  · rw [Op.writes_map]
    exact TrackCall.step_ne_subscriptions hcode
  · simp [Op.writes]

/-- **What a party other than a worker does to the outbox.** -/
theorem Party.step_adds {cfg : Config} (hoff : cfg.inlineDelivery = false) {p : Party}
    {v : DbView} {x : Input} {op : Op Write LockKey Effect Party} (hoffline : p.offline)
    (hp : ∀ pc, p ≠ .worker pc) (h : p.next cfg v x = some op) :
    Adds p.toServe Party.toServe v op ∧ (∀ pc, op.next ≠ .worker pc) ∧
      ∀ p', op.next = .track p' → (∃ p'', p = .track p'') ∧
        ∀ w ∈ op.writes, w.table ≠ .subscriptions := by
  cases p with
  | track p =>
    obtain ⟨op', hop', rfl⟩ := Option.map_eq_some_iff.mp h
    refine ⟨(TrackProc.step_adds hoff hoffline hop').map fun p' sub hsub => .inl hsub, ?_, ?_⟩
    · simp
    · rw [Op.writes_map]
      exact fun p' _ => ⟨⟨p, rfl⟩, TrackProc.step_ne_subscriptions hop'⟩
  | worker pc => exact absurd rfl (hp pc)
  | subscription call pc =>
    obtain ⟨op', hop', rfl⟩ := Option.map_eq_some_iff.mp h
    rw [Op.next_map]
    have hnext : ∀ f, (subscribing call f).toServe = [] ∧ (∀ pc, subscribing call f ≠ .worker pc) ∧
        ∀ p', subscribing call f ≠ .track p' := by
      intro f
      cases f <;> simp [subscribing, toServe]
    refine ⟨.idle (fun e next heq => ?_) (fun w hw => ?_) fun sub hsub => ?_, (hnext _).2.1,
      fun p' heq => absurd heq ((hnext _).2.2 p')⟩
    · cases op' with
      | emit e' l => exact e'.elim
      | _ => cases heq
    · rw [Op.writes_map] at hw
      refine Write.outboxId_of_table ?_
      rw [SubscriptionCall.step_table hop' w hw]
      decide
    · rw [Op.next_map, (hnext _).1] at hsub
      cases hsub
  | finished =>
    cases x <;> simp only [next, reduceCtorEq, Option.some.injEq] at h
    subst h
    exact ⟨.idle (by simp) (by simp [Op.writes]) (by simp [Op.next, toServe]), by simp [Op.next],
      by simp [Op.next]⟩

/-! ### POSTs for a row -/

/-- The POST that an effect makes for a row. -/
def Effect.postFor (id : Uuid) : Effect → Option Post
  | .posted id' post => if id' = id then some post else none
  | _ => none

theorem Effect.postFor_of_postOf {e : Effect} (h : e.postOf = none) (id : Uuid) :
    e.postFor id = none := by
  cases e with
  | posted id' post => cases h
  | _ => rfl

/-- The POSTs made for a row, in their order. -/
def postsFor {ι : Type*} (trace : List (ι × Effect)) (id : Uuid) : List Post :=
  trace.filterMap fun e => e.2.postFor id

theorem postsFor_append {ι : Type*} (trace : List (ι × Effect)) (e : ι × Effect) (id : Uuid) :
    postsFor (trace ++ [e]) id = postsFor trace id ++ (e.2.postFor id).toList := by
  rw [postsFor, List.filterMap_append, postsFor]
  cases h : e.2.postFor id <;> simp [h]

/-! ### The open transaction -/

section Transactions

variable {ι : Type*}

/-- Rows that can be added to the outbox. -/
structure NewRows (w : Shared Db Effect ι) (rows : List OutboxRow) : Prop where
  new : ∀ row ∈ rows, row.New
  known : ∀ row ∈ rows, ∃ k, w.db.subscriber row.subscriptionId = some k
  used : ∀ row ∈ rows, row.id < w.fresh
  apart : ∀ row ∈ rows, ∀ r ∈ w.db.outbox, r.id ≠ row.id
  nodup : (rows.map (·.id)).Nodup

/-- The rows that an open transaction inserts. -/
def insertedRows (ws : List Write) : List OutboxRow := ws.filterMap Write.inserted

/-- What holds of a party that adds rows, or does nothing to the outbox. -/
structure Adding (w : Shared Db Effect ι) (o : Own Write LockKey Party) : Prop where
  rows : NewRows w (insertedRows o.pending)
  locked : ∀ row ∈ insertedRows o.pending, .outboxRow row.id ∈ o.held
  only : ∀ wr ∈ o.pending, wr.outboxId = none ∨ ∃ row, wr = .insertOutbox row
  serves : ∀ sub ∈ o.loc.toServe, ∃ k, w.db.subscriber sub.id = some k
  tables : ∀ p, o.loc = .track p → ∀ wr ∈ o.pending, wr.table ≠ .subscriptions

/-- What the others see of a step that only adds `rows`. -/
structure Grown (w w' : Shared Db Effect ι) (rows : List OutboxRow) : Prop where
  outbox : w'.db.outbox = w.db.outbox ++ rows
  posts : ∀ id, postsFor w'.trace id = postsFor w.trace id
  keeps : w.db.Keeps w'.db
  fresh : w.fresh ≤ w'.fresh

/-- The rows that an operation makes visible. -/
def committedRows (ws : List Write) : Op Write LockKey Effect Party → List OutboxRow
  | .commit _ => insertedRows ws
  | _ => []

theorem outbox_applyAll_inserted (cfg : Config) {ws : List Write}
    (h : ∀ wr ∈ ws, wr.outboxId = none ∨ ∃ row, wr = .insertOutbox row) (db : Db) :
    ((program cfg).applyAll ws db).outbox = db.outbox ++ insertedRows ws := by
  induction ws generalizing db with
  | nil => exact (List.append_nil _).symm
  | cons wr ws ih =>
    rw [List.forall_mem_cons] at h
    rw [Program.applyAll_cons, ih h.2]
    obtain hnone | ⟨row, rfl⟩ := h.1
    · cases wr with
      | insertOutbox row => cases hnone
      | updateOutbox id change => cases hnone
      | _ => rfl
    · show (db.outbox ++ [row]) ++ _ = db.outbox ++ (row :: insertedRows ws)
      rw [List.append_assoc, List.singleton_append]

variable {w w' : Shared Db Effect ι} {o : Own Write LockKey Party} {rows : List OutboxRow}

theorem Adds.grown (cfg : Config) {before : List SubscriptionRow} {v : DbView}
    {op : Op Write LockKey Effect Party} (h : Adds before Party.toServe v op) (ha : Adding w o)
    (i : ι) : Grown w (op.shared (program cfg) i o.pending w) (committedRows o.pending op) where
  outbox := by
    cases op with
    | commit next => exact outbox_applyAll_inserted cfg ha.only w.db
    | _ => exact (List.append_nil _).symm
  posts := by
    intro id
    cases op with
    | emit e next =>
      have hnone := Effect.postFor_of_postOf (h.quiet e next rfl) id
      show postsFor (w.trace ++ [(i, e)]) id = _
      rw [postsFor_append, hnone]
      exact List.append_nil _
    | _ => rfl
  keeps := .shared cfg i o.pending w op
  fresh := by
    rw [Op.fresh_shared]
    exact Nat.le_succ w.fresh

/-- A step of somebody else that adds other rows. -/
theorem Adding.grown (h : Adding w o) (hg : Grown w w' rows)
    (hrows : ∀ row ∈ insertedRows o.pending, ∀ r ∈ rows, r.id ≠ row.id) : Adding w' o where
  rows := by
    refine ⟨h.rows.new, fun row hrow => ?_, fun row hrow => ?_, fun row hrow r hr => ?_, h.rows.nodup⟩
    · obtain ⟨k, hk⟩ := h.rows.known row hrow
      exact ⟨k, hg.keeps.subscriber _ k hk⟩
    · exact lt_of_lt_of_le (h.rows.used row hrow) hg.fresh
    · rw [hg.outbox] at hr
      obtain hr | hr := List.mem_append.mp hr
      · exact h.rows.apart row hrow r hr
      · exact hrows row hrow r hr
  locked := h.locked
  only := h.only
  serves := by
    intro sub hsub
    obtain ⟨k, hk⟩ := h.serves sub hsub
    exact ⟨k, hg.keeps.subscriber _ k hk⟩
  tables := h.tables

theorem NewRows.nil (w : Shared Db Effect ι) : NewRows w [] := by
  constructor <;> simp

/-- The row that a request inserts is another one. -/
theorem NewRows.append {row : OutboxRow} (h : NewRows w rows) (hg : w.db.Keeps w'.db)
    (houtbox : w'.db.outbox = w.db.outbox) (hfresh : w'.fresh = w.fresh + 1)
    (hused : ∀ r ∈ w.db.outbox, r.id < w.fresh) (hid : row.id = w.fresh) (hnew : row.New)
    (hknown : ∃ k, w.db.subscriber row.subscriptionId = some k) : NewRows w' (rows ++ [row]) := by
  refine ⟨fun r hr => ?_, fun r hr => ?_, fun r hr => ?_, fun r hr r' hr' => ?_, ?_⟩
  · obtain hr | hr := List.mem_append.mp hr
    · exact h.new r hr
    · rw [List.mem_singleton.mp hr]
      exact hnew
  · have hbefore : ∃ k, w.db.subscriber r.subscriptionId = some k := by
      obtain hr | hr := List.mem_append.mp hr
      · exact h.known r hr
      · rw [List.mem_singleton.mp hr]
        exact hknown
    obtain ⟨k, hk⟩ := hbefore
    exact ⟨k, hg.subscriber _ k hk⟩
  · rw [hfresh]
    obtain hr | hr := List.mem_append.mp hr
    · exact Nat.lt_succ_of_lt (h.used r hr)
    · rw [List.mem_singleton.mp hr, hid]
      exact Nat.lt_succ_self _
  · rw [houtbox] at hr'
    obtain hr | hr := List.mem_append.mp hr
    · exact h.apart r hr r' hr'
    · rw [List.mem_singleton.mp hr, hid]
      exact Nat.ne_of_lt (hused r' hr')
  · rw [List.map_append, List.map_singleton, List.nodup_append]
    refine ⟨h.nodup, List.nodup_singleton _, fun id hid' id' hid'' => ?_⟩
    obtain ⟨r, hr, rfl⟩ := List.mem_map.mp hid'
    rw [List.mem_singleton.mp hid'', hid]
    exact Nat.ne_of_lt (h.used r hr)

variable [DecidableEq ι] {s : World ι} {i : ι}

/-- A step of a party that adds rows. -/
theorem Adding.step {cfg : Config} {op : Op Write LockKey Effect Party}
    (ha : Adding s.toShared (s.own i))
    (h : Adds (s.loc i).toServe Party.toServe (s.view (program cfg) i) op)
    (htrack : ∀ p, op.next = .track p → (∃ p', s.loc i = .track p') ∧
      ∀ w ∈ op.writes, w.table ≠ .subscriptions)
    (hused : ∀ r ∈ s.db.outbox, r.id < s.fresh) :
    Adding (op.shared (program cfg) i (s.pending i) s.toShared) (op.own (s.own i)) := by
  have hkeeps : s.db.Keeps (op.shared (program cfg) i (s.pending i) s.toShared).db :=
    .shared cfg i (s.pending i) s.toShared op
  have hserves : ∀ sub ∈ op.next.toServe,
      ∃ k, (op.shared (program cfg) i (s.pending i) s.toShared).db.subscriber sub.id = some k := by
    intro sub hsub
    have hbefore : ∃ k, s.db.subscriber sub.id = some k := by
      obtain hb | hv := h.serves sub hsub
      · exact ha.serves sub hb
      · -- only a request selects subscriptions, and it writes none
        cases hn : op.next with
        | track p =>
          obtain ⟨⟨p', hp'⟩, -⟩ := htrack p hn
          have hview : (s.view (program cfg) i).db.subscriptions = s.db.subscriptions :=
            subscriptions_applyAll cfg (ha.tables p' hp') s.db
          rw [hview] at hv
          exact Db.exists_subscriber hv
        | _ =>
          rw [hn] at hsub
          cases hsub
    obtain ⟨k, hk⟩ := hbefore
    exact ⟨k, hkeeps.subscriber _ k hk⟩
  have hempty : op.pendingAfter (s.pending i) = [] →
      Adding (op.shared (program cfg) i (s.pending i) s.toShared) (op.own (s.own i)) := by
    intro hnil
    have hown : (op.own (s.own i)).pending = [] := hnil
    refine ⟨?_, ?_, ?_, hserves, ?_⟩ <;> rw [hown]
    · exact .nil _
    · simp [insertedRows]
    · simp
    · simp
  cases op with
  | commit next => exact hempty rfl
  | rollback next => exact hempty rfl
  | emit e next =>
    have hg := h.grown cfg ha i
    have hsame := ha.grown hg (by simp [committedRows])
    exact ⟨hsame.rows, ha.locked, ha.only, hserves, fun p hp => by
      obtain ⟨⟨p', hp'⟩, -⟩ := htrack p hp
      exact ha.tables p' hp'⟩
  | exec ks ws next =>
    have hg := h.grown cfg ha i
    have hsame := ha.grown hg (by simp [committedRows])
    have htables : ∀ p, next = .track p → ∀ wr ∈ s.pending i ++ ws, wr.table ≠ .subscriptions := by
      intro p hp wr hwr
      obtain ⟨⟨p', hp'⟩, hws⟩ := htrack p hp
      obtain hwr | hwr := List.mem_append.mp hwr
      · exact ha.tables p' hp' wr hwr
      · exact hws wr hwr
    obtain hnone | ⟨row, hws, hlock, hid, hnew, sub, hsub, hrow⟩ := h.writes
    · have hnothing : insertedRows (s.pending i ++ ws) = insertedRows (s.pending i) := by
        have hws : ws.filterMap Write.inserted = [] := by
          refine List.filterMap_eq_nil_iff.mpr fun wr hwr => ?_
          have hn := hnone wr hwr
          cases wr with
          | insertOutbox row => cases hn
          | _ => rfl
        rw [insertedRows, List.filterMap_append, hws, List.append_nil, insertedRows]
      refine ⟨?_, fun row hrow => ?_, fun wr hwr => ?_, hserves, htables⟩
      · show NewRows _ (insertedRows (s.pending i ++ ws))
        rw [hnothing]
        exact hsame.rows
      · exact .inl (ha.locked row (hnothing ▸ hrow))
      · obtain hwr | hwr := List.mem_append.mp hwr
        · exact ha.only wr hwr
        · exact .inl (hnone wr hwr)
    · obtain rfl : ws = [.insertOutbox row] := hws
      have hone : insertedRows (s.pending i ++ [.insertOutbox row]) =
          insertedRows (s.pending i) ++ [row] := by
        rw [insertedRows, List.filterMap_append]
        rfl
      refine ⟨?_, fun r hr => ?_, fun wr hwr => ?_, hserves, htables⟩
      · show NewRows _ (insertedRows (s.pending i ++ [.insertOutbox row]))
        rw [hone]
        refine ha.rows.append hkeeps rfl rfl hused hid hnew ?_
        rw [hrow]
        exact ha.serves sub hsub
      · have hr' : r ∈ insertedRows (s.pending i) ++ [row] := hone ▸ hr
        obtain hr' | hr' := List.mem_append.mp hr'
        · exact .inl (ha.locked r hr')
        · rw [List.mem_singleton.mp hr']
          exact .inr hlock
      · obtain hwr | hwr := List.mem_append.mp hwr
        · exact ha.only wr hwr
        · exact .inr ⟨row, List.mem_singleton.mp hwr⟩

end Transactions

end Driftgate.Runtime
