import Driftgate.Lib.SingleUse
import Driftgate.Runtime.AtomicRegistry
import Driftgate.Runtime.CallRecords
import Driftgate.Runtime.EnqueuedRows

/-!
# One webhook for a version and a subscription

A request gives its event one identifier and serves every affected subscription once. So the outbox
never has two rows for one event and one subscription, whatever is rolled back or delivered in
between. Two rows about one version are of one event as well, because a version is registered by one
request, and its webhooks are committed with it or after it.

The second part needs that no inline delivery loses the transaction of its request: the request goes
on and announces a version that does not exist, whose number is given to the next one.
-/

namespace Driftgate.Runtime

open Driftgate.ReadCommitted Driftgate.Transition

/-! ### Keys of webhooks -/

/-- The event and the subscription of a webhook. -/
abbrev WebhookKey := Option Uuid × Uuid

def OutboxRow.webhookKey (r : OutboxRow) : WebhookKey := (r.payload.eventId, r.subscriptionId)

def Write.webhookKeys : Write → List WebhookKey
  | .insertOutbox row => [row.webhookKey]
  | _ => []

def Enqueue.webhookKey (q : Enqueue) (sub : SubscriptionRow) : WebhookKey :=
  (some q.eventId, sub.id)

/-- The subscriptions that have no row yet. -/
def EnqueuePc.unserved : EnqueuePc → List SubscriptionRow
  | .selectAffected => []
  | .insertOutbox _ sub rest => sub :: rest
  | .deliver _ _ rest _ _ => rest
  | .updateOutbox _ _ rest _ _ => rest

/-- The webhooks that a request is going to insert. -/
def EnqueuePc.owed (q : Enqueue) (pc : EnqueuePc) : List WebhookKey :=
  pc.unserved.map q.webhookKey

def TrackPc.owed : TrackPc → List WebhookKey
  | .enqueue q pc => pc.owed q
  | _ => []

def Party.owed : Party → List WebhookKey
  | .track p => p.pc.owed
  | _ => []

/-- Webhooks by event and subscription. -/
def webhooks (cfg : Config) : Keyed (program cfg) WebhookKey where
  stored db := db.outbox.map (·.webhookKey)
  written := Write.webhookKeys
  owed := Party.owed
  apply_eq w db := by
    cases w with
    | insertOutbox row => simp [program, Write.apply, Write.webhookKeys]
    | updateOutbox id change =>
      simp only [program, Write.apply, Write.webhookKeys, List.append_nil, updateWhere,
        List.map_map]
      refine List.map_congr_left fun r _ => ?_
      show (if _ then _ else _ : OutboxRow).webhookKey = r.webhookKey
      split <;> rfl
    | _ => simp [program, Write.apply, Write.webhookKeys]

def Write.subscriptionIds : Write → List Uuid
  | .insertSubscription row => [row.id]
  | _ => []

/-- Subscriptions by identifier. -/
def subscriptionIds (cfg : Config) : Keyed (program cfg) Uuid where
  stored db := db.subscriptions.map (·.id)
  written := Write.subscriptionIds
  owed _ := []
  apply_eq w db := by
    cases w with
    | insertSubscription row => simp [program, Write.apply, Write.subscriptionIds]
    | updateSubscription id patch =>
      simp only [program, Write.apply, Write.subscriptionIds, List.append_nil, updateWhere,
        List.map_map]
      refine List.map_congr_left fun r _ => ?_
      show (if _ then _ else _ : SubscriptionRow).id = r.id
      split <;> rfl
    | _ => simp [program, Write.apply, Write.subscriptionIds]

theorem Write.flatMap_webhookKeys {ws : List Write} (h : ∀ row, .insertOutbox row ∉ ws) :
    ws.flatMap Write.webhookKeys = [] := by
  refine List.flatMap_eq_nil_iff.mpr fun w hw => ?_
  cases w with
  | insertOutbox row => exact absurd hw (h row)
  | _ => rfl

/-! ### Steps -/

section Steps

variable {cfg : Config} {v : DbView} {x : Input}

/-- The webhooks a request still owes after a piece of its code. When the code ends the program
counter stays where it is, at the commit. -/
def Flow.owed {ℓ ρ : Type*} (owed : ℓ → List WebhookKey) (rest : List WebhookKey) :
    Flow ℓ ρ → List WebhookKey
  | .go pc => owed pc
  | .done _ => []
  | .raised _ => rest

theorem Enqueue.next_owed (q : Enqueue) (affected rest : List SubscriptionRow)
    (keys : List WebhookKey) :
    (next affected rest).owed (EnqueuePc.owed q) keys = rest.map q.webhookKey := by
  cases rest <;> rfl

theorem Enqueue.delivering_owed (q : Enqueue) (affected : List SubscriptionRow)
    (sub : SubscriptionRow) (rest : List SubscriptionRow) (id : Uuid) (f : Flow DeliverPc Bool) :
    (delivering affected sub rest id f).owed (EnqueuePc.owed q) (rest.map q.webhookKey) =
      rest.map q.webhookKey := by
  cases f <;> rfl

/-- What a step of `_enqueue_webhook_outbox` inserts and still owes it owed before, or it selects
the subscriptions. -/
theorem Enqueue.step_owed {q : Enqueue} {pc : EnqueuePc}
    {op : Op Write LockKey Effect (Flow EnqueuePc (List SubscriptionRow))}
    (h : q.step cfg pc v x = some op) :
    op.writes.flatMap Write.webhookKeys ++ op.next.owed (EnqueuePc.owed q) (pc.owed q) = pc.owed q ∨
    pc = .selectAffected ∧ op.writes = [] ∧ ∃ affected : List SubscriptionRow,
      affected.Sublist v.db.subscriptions ∧
      op.next.owed (EnqueuePc.owed q) (pc.owed q) = affected.map q.webhookKey := by
  cases step_move h with
  | selects affected haffected =>
    refine .inr ⟨rfl, rfl, affected, ?_, next_owed ..⟩
    rw [haffected]
    exact List.filter_sublist
  | inserts affected sub rest =>
    rw [Op.next, next_owed]
    exact .inl rfl
  | insertsActive | insertsInactive => exact .inl rfl
  | delivers affected sub rest id pc hop =>
    have hquiet := Write.flatMap_webhookKeys fun row hrow => by
      rcases Delivery.step_table hop _ hrow with ht | ht <;> cases ht
    rw [Op.writes_map, hquiet, List.nil_append, Op.next_map]
    exact .inl (delivering_owed ..)
  | updates affected sub rest id ok =>
    rw [Op.next, next_owed]
    exact .inl rfl
  | selectRaises | insertRaises | updateRaises => exact .inl rfl

theorem TrackPc.BeforeLoop.owed {fresh : Uuid} {pc : TrackPc} (h : pc.BeforeLoop fresh) :
    pc.owed = [] := by
  cases pc with
  | enqueue q pc =>
    obtain ⟨rfl, -⟩ := h
    rfl
  | _ => rfl

/-- The same of a request's code. -/
theorem TrackCall.step_owed {call : TrackCall} {pc : TrackPc}
    {op : Op Write LockKey Effect (Flow TrackPc TrackResult)} (h : call.step cfg pc v x = some op) :
    op.writes.flatMap Write.webhookKeys ++ op.next.owed TrackPc.owed pc.owed = pc.owed ∨
    ∃ q, pc = .enqueue q .selectAffected ∧ op.writes = [] ∧ ∃ affected : List SubscriptionRow,
      affected.Sublist v.db.subscriptions ∧
      op.next.owed TrackPc.owed pc.owed = affected.map q.webhookKey := by
  by_cases hearly : pc.enqueueing = false
  · obtain ⟨hnext, hop⟩ := step_before_enqueue hearly h
    have hpc : pc.owed = [] := by
      cases pc with
      | enqueue q pc => cases hearly
      | _ => rfl
    have howed : op.next.owed TrackPc.owed pc.owed = [] := by
      cases hn : op.next with
      | go pc' => exact (hnext pc' hn).owed
      | done r => rfl
      | raised e => exact hpc
    have hquiet : op.writes.flatMap Write.webhookKeys = [] := by
      obtain ⟨ks, ws, next, rfl, hws⟩ | ⟨e, next, rfl, -⟩ := hop
      · refine Write.flatMap_webhookKeys fun row hrow => ?_
        rcases hws _ hrow with ht | ht <;> cases ht
      · rfl
    exact .inl (by rw [hquiet, howed, hpc, List.nil_append])
  · cases step_move h with
    | enqueues q pc hop =>
      have hmap : ∀ f, (call.enqueueing cfg q f).owed TrackPc.owed (TrackPc.enqueue q pc).owed =
          f.owed (EnqueuePc.owed q) (pc.owed q) := by
        intro f
        cases f <;> rfl
      rw [Op.writes_map, Op.next_map, show Flow.bind _ _ _ = call.enqueueing cfg q _ from rfl, hmap]
      obtain hsame | ⟨rfl, hselects⟩ := Enqueue.step_owed hop
      · exact .inl hsame
      · exact .inr ⟨q, rfl, hselects⟩
    | commits | commitRaises => exact .inl rfl
    | _ => exact absurd rfl hearly

/-- A request that is about to select the subscriptions. -/
def TrackPc.selecting : TrackPc → Option Enqueue
  | .enqueue q .selectAffected => some q
  | _ => none

def Party.selecting : Party → Option Enqueue
  | .track p => p.pc.selecting
  | _ => none

/-- **A step of a party.** What it inserts and still owes it owed before, or it is a request that
selects the subscriptions. -/
theorem Party.step_owed {p : Party} {op : Op Write LockKey Effect Party}
    (h : p.next cfg v x = some op) :
    (op.writes.flatMap Write.webhookKeys ++ op.next.owed).Sublist p.owed ∨
    ∃ q ∈ p.selecting, op.writes = [] ∧ ∃ affected : List SubscriptionRow,
      affected.Sublist v.db.subscriptions ∧ op.next.owed = affected.map q.webhookKey := by
  have hnone : op.writes.flatMap Write.webhookKeys = [] → op.next.owed = [] →
      (op.writes.flatMap Write.webhookKeys ++ op.next.owed).Sublist p.owed := by
    intro hws hnext
    rw [hws, hnext]
    exact List.nil_sublist _
  cases p with
  | track p =>
    obtain ⟨op', hop', rfl⟩ := Option.map_eq_some_iff.mp h
    rw [Op.writes_map, Op.next_map]
    rcases TrackProc.next_cases hop' with ⟨-, rfl⟩ | ⟨ok, t, -, -, rfl⟩ | ⟨cop, -, hcode, rfl⟩ |
      ⟨e, -, rfl⟩
    · exact .inl (.refl _)
    · exact .inl (.refl _)
    · rw [Op.writes_map, Op.next_map]
      have hafter : Party.owed (.track (p.after cfg cop.next)) =
          cop.next.owed TrackPc.owed p.pc.owed := by
        cases hn : cop.next with
        | done r =>
          obtain ⟨n, hpc⟩ := (TrackCall.step_records hcode).done r hn
          show p.pc.owed = []
          rw [hpc]
          rfl
        | _ => rfl
      rw [hafter]
      obtain hsame | ⟨q, hpc, hselects⟩ := TrackCall.step_owed hcode
      · refine .inl ?_
        rw [hsame]
        exact .refl _
      · exact .inr ⟨q, by simp [selecting, hpc, TrackPc.selecting], hselects⟩
    · exact .inl (.refl _)
  | worker pc =>
    obtain ⟨op', hop', rfl⟩ := Option.map_eq_some_iff.mp h
    refine .inl (hnone ?_ ?_)
    · rw [Op.writes_map]
      exact Write.flatMap_webhookKeys fun row hrow => by
        cases (WorkerPc.step_payloads hop').2.2 _ hrow
    · rw [Op.next_map]
      rfl
  | subscription call pc =>
    obtain ⟨op', hop', rfl⟩ := Option.map_eq_some_iff.mp h
    refine .inl (hnone ?_ ?_)
    · rw [Op.writes_map]
      exact Write.flatMap_webhookKeys fun row hrow => by
        cases SubscriptionCall.step_table hop' _ hrow
    · rw [Op.next_map]
      cases op'.next <;> rfl
  | finished =>
    cases x <;> simp only [next, reduceCtorEq, Option.some.injEq] at h
    subst h
    exact .inl (.refl _)

/-- The selection comes first. -/
theorem Enqueue.step_not_selects {q : Enqueue} {pc : EnqueuePc}
    {op : Op Write LockKey Effect (Flow EnqueuePc (List SubscriptionRow))}
    (h : q.step cfg pc v x = some op) : op.next ≠ .go .selectAffected := by
  have hnext : ∀ affected rest, next affected rest ≠ .go .selectAffected := by
    intro affected rest
    cases rest <;> simp [next]
  cases step_move h with
  | selects affected | inserts affected sub rest | updates affected sub rest => exact hnext _ _
  | @delivers _ affected sub rest id pc op' =>
    rw [Op.next_map]
    cases op'.next <;> simp [delivering, Flow.bind]
  | _ => simp [Op.next]

/-- A request comes to the selection with the event identifier that it has just been given. -/
theorem TrackCall.step_selecting {call : TrackCall} {pc : TrackPc}
    {op : Op Write LockKey Effect (Flow TrackPc TrackResult)} (h : call.step cfg pc v x = some op)
    {pc' : TrackPc} (hgo : op.next = .go pc') {q : Enqueue} (hq : q ∈ pc'.selecting) :
    q.eventId = v.fresh ∧ pc.enqueue? = none := by
  by_cases hearly : pc.enqueueing = false
  · have hbefore := (step_before_enqueue hearly h).1 pc' hgo
    obtain ⟨epc, rfl⟩ : ∃ epc, pc' = .enqueue q epc := by
      simp only [TrackPc.selecting] at hq
      split at hq
      · cases hq
        exact ⟨_, rfl⟩
      · cases hq
    refine ⟨hbefore.2, ?_⟩
    cases pc with
    | enqueue q pc => cases hearly
    | commit n r => cases hearly
    | _ => rfl
  · cases step_move h with
    | @enqueues _ q' pc op' hop =>
      rw [Op.next_map] at hgo
      cases hn : op'.next with
      | go epc =>
        rw [hn] at hgo
        cases hgo
        cases epc with
        | selectAffected => exact absurd hn (Enqueue.step_not_selects hop)
        | _ => cases hq
      | done affected =>
        rw [hn] at hgo
        cases hgo
        cases hq
      | raised e =>
        rw [hn] at hgo
        cases hgo
    | commits | commitRaises => cases hgo
    | _ => exact absurd rfl hearly

/-- The same of a party. It has inserted no webhook by then. -/
theorem Party.step_selecting {p : Party} {op : Op Write LockKey Effect Party}
    (h : p.next cfg v x = some op) {q : Enqueue} (hq : q ∈ op.next.selecting) :
    op.writes.flatMap Write.webhookKeys = [] ∧
      (q ∈ p.selecting ∨ q.eventId = v.fresh ∧ p.enqueue? = none) := by
  have hquiet : p.enqueue? = none → op.writes.flatMap Write.webhookKeys = [] := by
    intro hnone
    refine Write.flatMap_webhookKeys fun row hrow => ?_
    obtain ⟨q, hq, -⟩ := (Party.step_events h).1 row hrow
    rw [hnone] at hq
    cases hq
  cases p with
  | track p =>
    obtain ⟨op', hop', rfl⟩ := Option.map_eq_some_iff.mp h
    rw [Op.writes_map] at hquiet ⊢
    rw [Op.next_map] at hq
    rcases TrackProc.next_cases hop' with ⟨-, rfl⟩ | ⟨ok, t, -, -, rfl⟩ | ⟨cop, -, hcode, rfl⟩ |
      ⟨e, -, rfl⟩
    · exact ⟨rfl, .inl hq⟩
    · exact ⟨rfl, .inl hq⟩
    · rw [Op.next_map] at hq
      rw [Op.writes_map] at hquiet ⊢
      cases hn : cop.next with
      | go pc' =>
        rw [hn] at hq
        obtain ⟨hfresh, hnone⟩ := TrackCall.step_selecting hcode hn hq
        exact ⟨hquiet hnone, .inr ⟨hfresh, hnone⟩⟩
      | done r =>
        rw [hn] at hq
        obtain ⟨n, hpc⟩ := (TrackCall.step_records hcode).done r hn
        have hq : q ∈ p.pc.selecting := hq
        rw [hpc] at hq
        cases hq
      | raised e =>
        rw [hn] at hq
        refine ⟨?_, .inl hq⟩
        obtain hsame | ⟨-, -, hws, -⟩ := TrackCall.step_owed hcode
        · simpa [hn, Flow.owed] using hsame
        · rw [hws]
          rfl
    · exact ⟨rfl, .inl hq⟩
  | worker pc =>
    obtain ⟨op', -, rfl⟩ := Option.map_eq_some_iff.mp h
    rw [Op.next_map] at hq
    cases hq
  | subscription call pc =>
    obtain ⟨op', -, rfl⟩ := Option.map_eq_some_iff.mp h
    rw [Op.next_map] at hq
    cases hn : op'.next <;> rw [hn] at hq <;> cases hq
  | finished =>
    cases x <;> simp only [next, reduceCtorEq, Option.some.injEq] at h
    subst h
    cases hq

theorem Party.owed_of_selecting {p : Party} {q : Enqueue} (h : q ∈ p.selecting) : p.owed = [] := by
  cases p with
  | track p =>
    obtain ⟨call, pc, status, task⟩ := p
    cases pc with
    | enqueue q' epc =>
      cases epc with
      | selectAffected => rfl
      | _ => cases h
    | _ => cases h
  | _ => cases h

theorem Party.enqueue_of_selecting {p : Party} {q : Enqueue} (h : q ∈ p.selecting) :
    q ∈ p.enqueue? := by
  cases p with
  | track p =>
    obtain ⟨call, pc, status, task⟩ := p
    cases pc with
    | enqueue q' epc =>
      cases epc with
      | selectAffected => exact h
      | _ => cases h
    | _ => cases h
  | _ => cases h

theorem SubscriptionCall.step_ids {call : SubscriptionCall} {pc : SubscriptionPc}
    {op : Op Write LockKey Empty (Flow SubscriptionPc Unit)} (h : call.step pc v x = some op) :
    (op.writes.flatMap Write.subscriptionIds).Sublist [v.fresh] := by
  cases pc <;> cases x <;> cases call <;>
    simp only [step, reduceCtorEq, Option.some.injEq] at h <;> subst h <;>
    simp [Op.writes, Write.subscriptionIds]

/-- A party inserts subscriptions under the identifier it is given. -/
theorem Party.step_subscriptionIds {p : Party} {op : Op Write LockKey Effect Party}
    (h : p.next cfg v x = some op) :
    (op.writes.flatMap Write.subscriptionIds).Sublist [v.fresh] := by
  have hnone : (∀ w ∈ op.writes, w.table ≠ .subscriptions) →
      (op.writes.flatMap Write.subscriptionIds).Sublist [v.fresh] := by
    intro hws
    have hnil : op.writes.flatMap Write.subscriptionIds = [] := by
      refine List.flatMap_eq_nil_iff.mpr fun w hw => ?_
      cases w with
      | insertSubscription row => exact absurd rfl (hws _ hw)
      | _ => rfl
    rw [hnil]
    exact List.nil_sublist _
  cases p with
  | track p =>
    obtain ⟨op', hop', rfl⟩ := Option.map_eq_some_iff.mp h
    refine hnone ?_
    rw [Op.writes_map]
    exact TrackProc.step_ne_subscriptions hop'
  | worker pc =>
    obtain ⟨op', hop', rfl⟩ := Option.map_eq_some_iff.mp h
    refine hnone fun w hw => ?_
    rw [Op.writes_map] at hw
    rcases WorkerPc.step_table hop' w hw with ht | ht | ht <;> rw [ht] <;> decide
  | subscription call pc =>
    obtain ⟨op', hop', rfl⟩ := Option.map_eq_some_iff.mp h
    rw [Op.writes_map]
    exact SubscriptionCall.step_ids hop'
  | finished =>
    cases x <;> simp only [next, reduceCtorEq, Option.some.injEq] at h
    subst h
    exact List.nil_sublist _

end Steps

/-! ### Runs -/

section Runs

variable {ι : Type*} [DecidableEq ι] {cfg : Config} {db : Db} {fresh : Uuid} {s : World ι}
  {good : World ι → ι × Input → Prop}

/-- Identifiers of subscriptions are used once. -/
structure Db.SubscriptionIds (db : Db) (fresh : Uuid) : Prop where
  nodup : (db.subscriptions.map (·.id)).Nodup
  below : ∀ sub ∈ db.subscriptions, sub.id < fresh

theorem Run.subscription_ids (hdb : db.SubscriptionIds fresh)
    (hs : Run (program cfg).step good (Initial db fresh) s) : (subscriptionIds cfg).Unique s := by
  refine Run.names_nodup (fun s hs => ?_) (fun s i x op hop => ?_) hs
  · have hreserved : ∀ i, (subscriptionIds cfg).reserved (s.own i) = [] := by
      intro i
      simp [Keyed.reserved, State.own, hs.pending i, subscriptionIds]
    have hstored : (subscriptionIds cfg).stored s.db = db.subscriptions.map (·.id) := by
      rw [hs.db]
      rfl
    refine ⟨⟨hstored ▸ hdb.nodup, fun i => ?_, fun i j _ k hk => ?_⟩, ?_⟩
    · rw [hreserved, hstored, List.append_nil]
      exact hdb.nodup
    · rw [hreserved] at hk
      cases hk
    · rintro n (hn | ⟨i, ⟨w, hw, -⟩ | hn⟩)
      · have hmem : n ∈ (subscriptionIds cfg).stored s.db := hn
        rw [hstored] at hmem
        obtain ⟨sub, hsub, rfl⟩ := List.mem_map.mp hmem
        rw [hs.fresh]
        exact hdb.below sub hsub
      · rw [hs.pending i] at hw
        cases hw
      · cases hn
  · rw [show (subscriptionIds cfg).owed op.next = [] from rfl, List.append_nil]
    exact (Party.step_subscriptionIds hop).subperm

/-- Events that have been given out, and no two rows for one event and one subscription. -/
structure Db.NotifiedOnce (db : Db) (fresh : Uuid) : Prop where
  nodup : (db.outbox.map (·.webhookKey)).Nodup
  below : ∀ row ∈ db.outbox, ∀ e ∈ row.payload.eventId, e < fresh

/-- The webhooks of an open transaction are about the event of the party. -/
theorem Run.pending_webhooks (hs : Run (program cfg).step good (Initial db fresh) s) (i : ι)
    {k : WebhookKey} (hk : k ∈ (s.pending i).flatMap Write.webhookKeys) :
    ∃ q ∈ (s.loc i).enqueue?, k.1 = some q.eventId := by
  obtain ⟨w, hw, hk⟩ := List.mem_flatMap.mp hk
  cases w with
  | insertOutbox row =>
    obtain rfl := List.mem_singleton.mp hk
    obtain ⟨q, hq, hpayload⟩ := Run.pending_payload hs i row hw
    exact ⟨q, hq, by rw [OutboxRow.webhookKey, hpayload]; rfl⟩
  | _ => cases hk

theorem Party.owed_event {p : Party} {k : WebhookKey} (hk : k ∈ p.owed) :
    ∃ q ∈ p.enqueue?, k.1 = some q.eventId := by
  cases p with
  | track p =>
    obtain ⟨call, pc, status, task⟩ := p
    cases pc with
    | enqueue q pc =>
      obtain ⟨sub, -, rfl⟩ := List.mem_map.mp hk
      exact ⟨q, rfl, rfl⟩
    | _ => cases hk
  | _ => cases hk

/-- What is reserved for a party is about its event. -/
theorem Run.reserved_webhooks (hs : Run (program cfg).step good (Initial db fresh) s) (i : ι)
    {k : WebhookKey} (hk : k ∈ (webhooks cfg).reserved (s.own i)) :
    ∃ q ∈ (s.loc i).enqueue?, k.1 = some q.eventId := by
  obtain hk | hk := List.mem_append.mp hk
  · exact Run.pending_webhooks hs i hk
  · exact Party.owed_event hk

/-- Before it selects the subscriptions, a request has no webhook. -/
theorem Run.unannounced (hdb : db.NotifiedOnce fresh)
    (hs : Run (program cfg).step good (Initial db fresh) s) :
    (∀ k ∈ (webhooks cfg).stored s.db, ∀ e ∈ k.1, e < s.fresh) ∧
    ∀ i, ∀ q ∈ (s.loc i).selecting, (s.pending i).flatMap Write.webhookKeys = [] ∧
      ∀ k ∈ (webhooks cfg).stored s.db, k.1 ≠ some q.eventId := by
  refine Run.invariant (I := fun s => (∀ k ∈ (webhooks cfg).stored s.db, ∀ e ∈ k.1, e < s.fresh) ∧
    ∀ i, ∀ q ∈ (s.loc i).selecting, (s.pending i).flatMap Write.webhookKeys = [] ∧
      ∀ k ∈ (webhooks cfg).stored s.db, k.1 ≠ some q.eventId) ?_ ?_ hs
  · intro s hs
    refine ⟨fun k hk e he => ?_, fun i q hq => ?_⟩
    · rw [hs.db] at hk
      obtain ⟨row, hrow, rfl⟩ := List.mem_map.mp hk
      rw [hs.fresh]
      exact hdb.below row hrow e he
    · have hstart := hs.starting i
      cases hloc : s.loc i with
      | track p =>
        rw [hloc] at hstart hq
        cases hstart
        cases hq
      | _ =>
        rw [hloc] at hq
        cases hq
  · rintro s ⟨i, x⟩ t hs ⟨hbelow, hselecting⟩ - hstep
    obtain ⟨op, hop, hst⟩ := step_cases hstep
    have hevents := Run.events hdb.below hs
    have hfresh : t.fresh = s.fresh + 1 := by
      rw [show t.fresh = t.toShared.fresh from rfl, hst.shared, Op.fresh_shared]
    refine ⟨fun k hk e he => ?_, fun j q hq => ?_⟩
    · rw [hfresh]
      obtain hk | hk := Keyed.mem_stored_step hst hk
      · exact Nat.lt_succ_of_lt (hbelow k hk e he)
      · obtain ⟨q, hq, hkq⟩ := Run.pending_webhooks hs i hk
        obtain rfl : e = q.eventId := Option.some.inj ((Option.mem_def.mp he).symm.trans hkq)
        exact Nat.lt_succ_of_lt (hevents.busy i _ ⟨q, hq, rfl⟩).1
    by_cases hj : j = i
    · subst hj
      rw [hst.loc] at hq
      obtain ⟨hws, hbefore⟩ := Party.step_selecting hop hq
      have hpending : (s.pending j).flatMap Write.webhookKeys = [] := by
        obtain hq | ⟨-, hnone⟩ := hbefore
        · exact (hselecting j q hq).1
        · refine List.eq_nil_iff_forall_not_mem.mpr fun k hk => ?_
          obtain ⟨q', hq', -⟩ := Run.pending_webhooks hs j hk
          rw [hnone] at hq'
          cases hq'
      refine ⟨?_, fun k hk => ?_⟩
      · rw [hst.pending]
        cases op with
        | exec ks ws l =>
          rw [Op.pendingAfter, List.flatMap_append, hpending]
          exact hws
        | emit e l => exact hpending
        | _ => rfl
      · obtain hk | hk := Keyed.mem_stored_step hst hk
        · obtain hq | ⟨hnew, -⟩ := hbefore
          · exact (hselecting j q hq).2 k hk
          · intro hkq
            exact Nat.lt_irrefl _ (hnew ▸ hbelow k hk _ hkq)
        · exact absurd (hpending.subst hk) List.not_mem_nil
    · rw [hst.loc_other hj] at hq
      rw [hst.pending_other hj]
      refine ⟨(hselecting j q hq).1, fun k hk hkq => ?_⟩
      obtain hk | hk := Keyed.mem_stored_step hst hk
      · exact (hselecting j q hq).2 k hk hkq
      · obtain ⟨q', hq', hkq'⟩ := Run.pending_webhooks hs i hk
        have hsame : q'.eventId = q.eventId := Option.some.inj (hkq'.symm.trans hkq)
        exact hj (hevents.exclusive j i q.eventId ⟨q, Party.enqueue_of_selecting hq, rfl⟩
          ⟨q', hq', hsame⟩)

/-- **No two webhooks for one event and one subscription**, in the outbox and in what any party is
going to add. -/
theorem Run.webhook_keys (hdb : db.NotifiedOnce fresh) (hsubs : db.SubscriptionIds fresh)
    (hs : Run (program cfg).step good (Initial db fresh) s) : (webhooks cfg).Unique s := by
  refine Run.keys_nodup (fun s hs => ?_) (fun s i x op hr _ _ hop _ => ?_) hs
  · have hreserved : ∀ i, (webhooks cfg).reserved (s.own i) = [] := by
      intro i
      have howed : (s.loc i).owed = [] := by
        have hstart := hs.starting i
        cases hloc : s.loc i with
        | track p =>
          rw [hloc] at hstart
          cases hstart
          rfl
        | _ => rfl
      simp [Keyed.reserved, State.own, hs.pending i, webhooks, howed]
    have hstored : ((webhooks cfg).stored s.db).Nodup := by
      rw [hs.db]
      exact hdb.nodup
    refine ⟨hstored, fun i => ?_, fun i j _ k hk => ?_⟩
    · rw [hreserved, List.append_nil]
      exact hstored
    · rw [hreserved] at hk
      cases hk
  · obtain hspent | ⟨q, hq, hws, affected, hsub, howed⟩ := Party.step_owed hop
    · exact ⟨[], hspent.subperm, .nil, by simp⟩
    · have hevents := Run.events hdb.below hr
      obtain ⟨-, hunannounced⟩ := Run.unannounced hdb hr
      obtain ⟨hpending, hstored⟩ := hunannounced i q hq
      have hkeys : op.next.owed = affected.map q.webhookKey := howed
      refine ⟨affected.map q.webhookKey, ?_, ?_, fun k hk => ?_⟩
      · rw [hws, show (webhooks cfg).owed op.next = affected.map q.webhookKey from hkeys]
        exact (List.sublist_append_left _ _).subperm
      · -- the subscriptions in sight have identifiers of their own
        have hids : ((s.view (program cfg) i).db.subscriptions.map (·.id)).Nodup := by
          have hnodup := (Run.subscription_ids hsubs hr).nodup i
          rw [Keyed.reserved, ← List.append_assoc, ← Keyed.stored_applyAll] at hnodup
          exact (List.nodup_append.mp hnodup).1
        refine List.Nodup.of_map Prod.snd ?_
        rw [List.map_map]
        exact hids.sublist (hsub.map _)
      · obtain ⟨sub, hsub, rfl⟩ := List.mem_map.mp hk
        refine ⟨fun hk => hstored _ hk rfl, fun j hj => ?_⟩
        by_cases hji : j = i
        · subst hji
          obtain hj | hj := List.mem_append.mp hj
          · exact absurd (hpending.subst hj) List.not_mem_nil
          · have hnone : (s.loc j).owed = [] := Party.owed_of_selecting hq
            exact absurd (hnone.subst hj) List.not_mem_nil
        · obtain ⟨q', hq', hkq⟩ := Run.reserved_webhooks hr j hj
          exact hji (hevents.exclusive j i q.eventId ⟨q', hq', (Option.some.inj hkq).symm⟩
            ⟨q, Party.enqueue_of_selecting hq, rfl⟩)

end Runs

/-! ### The version of an event -/

section Versions

variable {cfg : Config}

/-- Nothing but a request becomes a request. -/
theorem Party.track_of_next {p : Party} {v : DbView} {x : Input}
    {op : Op Write LockKey Effect Party} (h : p.next cfg v x = some op) {p' : TrackProc}
    (hp' : op.next = .track p') : ∃ p'', p = .track p'' := by
  cases p with
  | track p => exact ⟨p, rfl⟩
  | worker pc =>
    obtain ⟨op', -, rfl⟩ := Option.map_eq_some_iff.mp h
    rw [Op.next_map] at hp'
    cases hp'
  | subscription call pc =>
    obtain ⟨op', -, rfl⟩ := Option.map_eq_some_iff.mp h
    rw [Op.next_map] at hp'
    cases hn : op'.next <;> rw [hn] at hp' <;> cases hp'
  | finished =>
    cases x <;> simp only [next, reduceCtorEq, Option.some.injEq] at h
    subst h
    cases hp'

theorem Party.exists_track_of_running {p : Party} (h : p.running = true) : ∃ p', p = .track p' := by
  cases p with
  | track p => exact ⟨p, rfl⟩
  | _ => cases h

/-- A request gets the arguments of `_enqueue_webhook_outbox` when it has stored the label. -/
theorem TrackCall.step_enqueue {call : TrackCall} {pc : TrackPc} {v : DbView} {x : Input}
    {op : Op Write LockKey Effect (Flow TrackPc TrackResult)} (h : call.step cfg pc v x = some op)
    {pc' : TrackPc} (hgo : op.next = .go pc') {q : Enqueue} (hq : q ∈ pc'.enqueue?) :
    q ∈ pc.enqueue? ∨ pc = .setClassification q.drift := by
  obtain hsame | ⟨hnone, d, hd⟩ := ((step_records h).leads pc' hgo).enqueue
  · exact .inl (hsame ▸ hq)
  · rw [hd] at hq
    cases hq
    cases step_move h with
    | classifies d' =>
      cases hgo
      cases hd
      exact .inr rfl
    | upserts pc hop =>
      obtain ⟨ks, ws, next, rfl, hmove⟩ := Upsert.step_move hop
      cases hmove <;> cases hgo <;>
        first | cases hd | (rw [call.afterUpsert_enqueue] at hd; cases hd)
    | storesSnapshot u | skipsSnapshot u =>
      cases hgo
      rw [call.afterSnapshot_enqueue] at hd
      cases hd
    | enqueues => cases hnone
    | _ => cases hgo <;> cases hd

variable {ι : Type*} {db : Db} {fresh : Uuid} {s : World ι} {good : World ι → ι × Input → Prop}

/-- The version that a request announces belongs to its endpoint. -/
theorem Party.inserted_of_enqueue {p : Party} {i : ι} {w : Shared Db Effect ι}
    (h : p.Recorded cfg i w) {q : Enqueue} (hq : q ∈ p.enqueue?) : q.drift.upserted.Inserted := by
  cases p with
  | track p =>
    have hreports := TrackProc.Recorded.reports h
    obtain ⟨call, pc, status, task⟩ := p
    cases pc with
    | enqueue q' epc =>
      cases hq
      exact hreports
    | commit n r =>
      cases n with
      | none => cases hq
      | some n =>
        cases hq
        exact hreports.1
    | _ => cases hq
  | _ => cases hq

/-- A webhook in the outbox was there at the beginning, or some request has inserted it and the
version that it announces is stored. -/
def Origin (db : Db) (s : World ι) (row : OutboxRow) : Prop :=
  (∃ row' ∈ db.outbox, row'.payload = row.payload) ∨
    ∃ i, ∃ q ∈ (s.loc i).enqueue?, row.payload = q.payload ∧
      s.db.Stores q.drift.upserted.record.stored

variable [DecidableEq ι]

/-- A request that serves subscriptions sees the version that it announces, unless an inline
delivery has lost its transaction. -/
theorem Run.announced_stored (hdb : db.registry.Valid fresh)
    (hs : Run (program cfg).step KeepsRegistration (Initial db fresh) s) (i : ι) :
    ∀ q ∈ (s.loc i).enqueue?, (s.loc i).running = true →
      (s.view (program cfg) i).db.Stores q.drift.upserted.record.stored := by
  have hs' : Run (program cfg).step (fun s a => KeepsRegistration s a ∧
      ∀ i, (s.loc i).Writes cfg s.db (versionWrites (s.pending i))) (Initial db fresh) s :=
    hs.mono fun t a ht hgood => ⟨hgood, Run.version_writes hdb ht⟩
  refine (Run.noninterference (P := program cfg) (G := fun _ => True)
    (A := fun _ w o => ∀ q ∈ o.loc.enqueue?, o.loc.running = true →
      (o.view (program cfg) w).Stores q.drift.upserted.record.stored) ?_ ?_ ?_ hs').2 i
  · intro s hs
    refine ⟨trivial, fun i q hq => ?_⟩
    have hstart := hs.starting i
    rw [show (s.own i).loc = s.loc i from rfl] at hq
    cases hloc : s.loc i with
    | track p =>
      rw [hloc] at hstart hq
      cases hstart
      cases hq
    | _ =>
      rw [hloc] at hq
      cases hq
  · intro s i x op hgood _ hA hop _
    refine ⟨trivial, fun q hq hrun => ?_⟩
    -- what the party sees it sees afterwards, unless it rolls back
    have hkeep : (∀ l, op ≠ .rollback l) →
        (s.view (program cfg) i).db.Stores q.drift.upserted.record.stored →
        ((op.own (s.own i)).view (program cfg)
          (op.shared (program cfg) i (s.pending i) s.toShared)).Stores
            q.drift.upserted.record.stored := by
      intro hop hstored
      have hview := Op.view_own (program cfg) s.toShared (s.own i) i hop
      rw [show (s.own i).pending = s.pending i from rfl] at hview
      rw [hview]
      exact (stores_applyAll cfg op.writes _ _).mpr (.inl hstored)
    rw [show (op.own (s.own i)).loc = op.next from rfl] at hq hrun
    by_cases hp : ∃ p, s.loc i = .track p
    · obtain ⟨p, hp⟩ := hp
      have hforgets := hgood.1
      have hwrites := hgood.2 i
      have hA := hA i
      rw [show (program cfg).next = Party.next cfg from rfl, hp] at hop
      rw [KeepsRegistration, hp] at hforgets
      rw [hp] at hwrites
      rw [show (s.own i).loc = .track p from hp] at hA
      obtain ⟨op', hop', rfl⟩ := Option.map_eq_some_iff.mp hop
      rcases TrackProc.next_cases hop' with ⟨-, rfl⟩ | ⟨ok, t, -, -, rfl⟩ | ⟨cop, hst, hcode, rfl⟩ |
        ⟨e, -, rfl⟩
      · exact absurd hrun (by simp [Op.next, Op.map, Party.running, p.halt_running])
      · exact hkeep (by simp [Op.map]) (hA q hq hrun)
      · rw [Op.next_map, Op.next_map] at hq hrun
        cases hn : cop.next with
        | go pc' =>
          rw [hn] at hq
          have hnot : ∀ l, cop ≠ .rollback l := by
            intro l hl
            subst hl
            cases TrackCall.answerMove hcode with
            | goesOn _ hkeep => exact hkeep _ rfl
            | forgets hx =>
              rw [hx p (by simp [TrackProc.running, hst]) rfl] at hforgets
              cases hforgets
          refine hkeep (fun l hl => ?_) ?_
          · cases cop <;> cases hl
            exact hnot _ rfl
          · obtain hq | hpc := TrackCall.step_enqueue hcode hn hq
            · exact hA q hq (by simp [Party.running, TrackProc.running, hst])
            · have hregistered := hwrites.1 (by simp [TrackProc.running, hst])
              rw [hpc] at hregistered
              obtain ⟨c, -, hws⟩ := hregistered
              have hmem :
                  .insertVersion q.drift.upserted.record.stored ∈ versionWrites (s.pending i) := by
                rw [hws, Registry.registration]
                exact List.mem_append_right _ (List.mem_singleton_self _)
              exact (stores_applyAll cfg _ _ _).mpr (.inr ⟨_, List.mem_of_mem_filter hmem, rfl⟩)
        | done r => rw [hn] at hrun; cases hrun
        | raised e => rw [hn] at hrun; cases hrun
      · cases hrun
    · obtain ⟨p', hp'⟩ := Party.exists_track_of_running hrun
      exact absurd (Party.track_of_next hop hp') hp
  · intro s i j x op _ _ _ hA _ q hq hrun
    have hbefore := (stores_applyAll cfg _ _ _).mp (hA j q hq hrun)
    exact (stores_applyAll cfg _ _ _).mpr (hbefore.imp_left (stores_shared op _))

theorem Party.enqueue_kept {p : Party} {v : DbView} {x : Input} {op : Op Write LockKey Effect Party}
    (h : p.next cfg v x = some op) {q : Enqueue} (hq : q ∈ p.enqueue?) : q ∈ op.next.enqueue? := by
  obtain hsame | ⟨hnone, -⟩ := (Party.step_events h).2
  · exact hsame ▸ hq
  · rw [hnone] at hq
    cases hq

/-- Only a running request commits webhooks. -/
theorem Party.running_of_enqueue {p : Party} {v : DbView} {x : Input} {f : Party}
    (h : p.next cfg v x = some (.commit f)) {q : Enqueue} (hq : q ∈ p.enqueue?) :
    p.running = true := by
  cases p with
  | track p =>
    obtain ⟨op', hop', hmap⟩ := Option.map_eq_some_iff.mp h
    rcases TrackProc.next_cases hop' with ⟨-, rfl⟩ | ⟨ok, t, -, -, rfl⟩ | ⟨op, hst, -, rfl⟩ |
      ⟨e, -, rfl⟩
    · cases hmap
    · cases hmap
    · simp [running, TrackProc.running, hst]
    · cases hmap
  | _ => cases hq

theorem Party.registered_of_enqueue {p : Party} {q : Enqueue} (hq : q ∈ p.enqueue?) :
    p.registered = some q.drift.upserted.record.id := by
  cases p with
  | track p =>
    obtain ⟨call, pc, status, task⟩ := p
    cases pc with
    | enqueue q' epc =>
      cases hq
      rfl
    | commit n r =>
      cases n with
      | none => cases hq
      | some n =>
        cases hq
        rfl
    | _ => cases hq
  | _ => cases hq

theorem Run.outbox_origin (hdb : db.registry.Valid fresh)
    (hs : Run (program cfg).step KeepsRegistration (Initial db fresh) s) :
    ∀ row ∈ s.db.outbox, Origin db s row := by
  refine Run.invariant (I := fun s => ∀ row ∈ s.db.outbox, Origin db s row) ?_ ?_ hs
  · intro s hs row hrow
    rw [hs.db] at hrow
    exact .inl ⟨row, hrow, rfl⟩
  · rintro s ⟨i, x⟩ t hs hI hgood hstep row hrow
    obtain ⟨op, hop, hst⟩ := step_cases hstep
    have henqueue : ∀ j, ∀ q ∈ (s.loc j).enqueue?, q ∈ (t.loc j).enqueue? := by
      intro j q hq
      by_cases hj : j = i
      · subst hj
        rw [hst.loc]
        exact Party.enqueue_kept hop hq
      · rw [hst.loc_other hj]
        exact hq
    have hstores : ∀ r, s.db.Stores r → t.db.Stores r := by
      intro r hr
      rw [show t.db = (op.shared (program cfg) i (s.pending i) s.toShared).db from
        congrArg Shared.db hst.shared]
      exact stores_shared op r hr
    -- the webhook was there, or the party commits it
    have hcases : (∃ row' ∈ s.db.outbox, row'.payload = row.payload) ∨
        (∃ l, op = .commit l) ∧ ∃ row', .insertOutbox row' ∈ s.pending i ∧
          row'.payload = row.payload := by
      rw [hst.db] at hrow
      cases op with
      | commit l =>
        exact ((outbox_applyAll cfg (fun _ p => p = row.payload) (s.pending i) s.db).mp
          ⟨row, hrow, rfl⟩).imp_right fun h => ⟨⟨l, rfl⟩, h⟩
      | _ => exact .inl ⟨row, hrow, rfl⟩
    obtain ⟨row', hrow', hpayload⟩ | ⟨⟨l, rfl⟩, row', hrow', hpayload⟩ := hcases
    · obtain ⟨r, hr, heq⟩ | ⟨j, q, hq, heq, hstored⟩ := hI row' hrow'
      · exact .inl ⟨r, hr, heq.trans hpayload⟩
      · exact .inr ⟨j, q, henqueue j q hq, hpayload ▸ heq, hstores _ hstored⟩
    · obtain ⟨q, hq, heq⟩ := Run.pending_payload hs i row' hrow'
      refine .inr ⟨i, q, henqueue i q hq, hpayload ▸ heq, ?_⟩
      rw [hst.db]
      exact Run.announced_stored hdb hs i q hq (Party.running_of_enqueue hop hq)

/-- Versions are registered under new identifiers. -/
theorem Run.registered_new (hs : Run (program cfg).step good (Initial db fresh) s) :
    fresh ≤ s.fresh ∧ ∀ i, ∀ id ∈ versionIds (s.own i), fresh ≤ id := by
  refine Run.invariant (I := fun s => fresh ≤ s.fresh ∧ ∀ i, ∀ id ∈ versionIds (s.own i),
    fresh ≤ id) ?_ ?_ hs
  · intro s hs
    refine ⟨hs.fresh.ge, fun i id hid => ?_⟩
    obtain ⟨row, hrow, -⟩ | hid := hid
    · rw [show (s.own i).pending = s.pending i from rfl, hs.pending i] at hrow
      cases hrow
    · rw [show (s.own i).loc = s.loc i from rfl, (hs.starting i).registered] at hid
      cases hid
  · rintro s ⟨i, x⟩ t - ⟨hle, hI⟩ - hstep
    obtain ⟨op, hop, hst⟩ := step_cases hstep
    have hfresh : t.fresh = s.fresh + 1 := by
      rw [show t.fresh = t.toShared.fresh from rfl, hst.shared, Op.fresh_shared]
    refine ⟨hfresh ▸ hle.trans (Nat.le_succ _), fun j id hid => ?_⟩
    by_cases hj : j = i
    · subst hj
      rw [hst.self] at hid
      obtain hid | rfl := versionIds_own (o := s.own j) (v := s.view (program cfg) j) hop hid
      · exact hI j id hid
      · exact hle
    · rw [hst.other j hj] at hid
      exact hI j id hid

/-- The versions of the beginning are still there. -/
theorem Run.versions_kept (hdb : db.registry.Valid fresh)
    (hs : Run (program cfg).step good (Initial db fresh) s) :
    ∀ r ∈ db.versions, ∃ r' ∈ s.db.versions, r.Retains r' := by
  refine Run.invariant (I := fun s => ∀ r ∈ db.versions, ∃ r' ∈ s.db.versions, r.Retains r')
    ?_ ?_ hs
  · intro s hs r hr
    exact ⟨r, hs.db ▸ hr, .refl r⟩
  · intro s a t hs hI _ hstep r hr
    obtain ⟨r', hr', hret⟩ := hI r hr
    obtain ⟨r'', hr'', hret'⟩ := (Run.step_versions hdb hs hstep).retains hr'
    exact ⟨r'', hr'', hret.trans hret'⟩

/-- The version that a webhook announces is stored, and tells whether the webhook is a new one. -/
theorem Origin.version {row : OutboxRow} (hdb : db.registry.Valid fresh) (hsound : db.Sound)
    (hs : Run (program cfg).step good (Initial db fresh) s) (h : Origin db s row) :
    ∃ r ∈ s.db.versions, r.versionKey = row.payload.versionKey ∧
      ((∃ row' ∈ db.outbox, row'.payload = row.payload) ∧ r.id < fresh ∨
        ∃ i, ∃ q ∈ (s.loc i).enqueue?, row.payload = q.payload ∧
          (s.loc i).registered = some r.id ∧ fresh ≤ r.id) := by
  obtain ⟨row', hrow', hpayload⟩ | ⟨i, q, hq, hpayload, r, hr, hfixed⟩ := h
  · obtain ⟨r, hr, hkey⟩ := hsound row' hrow'
    obtain ⟨r', hr', hret⟩ := Run.versions_kept hdb hs r hr
    obtain ⟨hid, he, hversion, -⟩ := VersionRow.mk.inj hret.fixed_eq
    refine ⟨r', hr', ?_, .inl ⟨⟨row', hrow', hpayload⟩, ?_⟩⟩
    · rw [← hpayload, ← hkey]
      exact Prod.ext he hversion
    · have hlt : r.link.id < fresh := hdb.versionFresh _ (List.mem_map.mpr ⟨r, hr, rfl⟩)
      exact lt_of_eq_of_lt hid hlt
  · obtain ⟨hid, he, hversion, -⟩ := VersionRow.mk.inj hfixed
    have hregistered := Party.registered_of_enqueue hq
    rw [show q.drift.upserted.record.id = r.id from hid.symm] at hregistered
    refine ⟨r, hr, ?_, .inr ⟨i, q, hq, hpayload, hregistered, ?_⟩⟩
    · have hendpoint := (Party.inserted_of_enqueue (Run.recorded hs i) hq).endpoint
      rw [hpayload]
      exact Prod.ext (he.trans hendpoint) hversion
    · exact (Run.registered_new hs).2 i r.id (.inr hregistered)

/-- **Webhooks of one version are of one event.** -/
theorem Run.version_event (hdb : db.registry.Valid fresh) (hsound : db.Sound)
    (hevents : ∀ row ∈ db.outbox, ∀ row' ∈ db.outbox,
      row.payload.versionKey = row'.payload.versionKey → row.payload.eventId = row'.payload.eventId)
    (hs : Run (program cfg).step KeepsRegistration (Initial db fresh) s) :
    ∀ row ∈ s.db.outbox, ∀ row' ∈ s.db.outbox, row.payload.versionKey = row'.payload.versionKey →
      row.payload.eventId = row'.payload.eventId := by
  intro row hrow row' hrow' hkey
  have horigin := Run.outbox_origin hdb hs
  obtain ⟨hv, -⟩ := Run.registry_holds hdb hs
  obtain ⟨r, hr, hrkey, hfrom⟩ := (horigin row hrow).version hdb hsound hs
  obtain ⟨r', hr', hrkey', hfrom'⟩ := (horigin row' hrow').version hdb hsound hs
  obtain ⟨he, hversion⟩ := Prod.mk.inj ((hrkey.trans hkey).trans hrkey'.symm)
  obtain rfl := hv.number_unique hr hr' he.symm hversion.symm
  obtain ⟨⟨old, hold, hpayload⟩, hlt⟩ | ⟨i, q, hq, hpayload, hregistered, hle⟩ := hfrom <;>
    obtain ⟨⟨old', hold', hpayload'⟩, hlt'⟩ | ⟨j, q', hq', hpayload', hregistered', hle'⟩ := hfrom'
  · rw [← hpayload, ← hpayload'] at hkey ⊢
    exact hevents old hold old' hold' hkey
  · exact absurd hlt (Nat.not_lt.mpr hle')
  · exact absurd hlt' (Nat.not_lt.mpr hle)
  · obtain rfl := (Run.version_ids hs).exclusive i j r'.id (.inr hregistered) (.inr hregistered')
    rw [hpayload, hpayload', Option.mem_unique hq hq']

/-- **Notified once.** The outbox never has two webhooks for one event and one subscription. Unless
the commit of an inline delivery fails, it never has two for one version and one subscription
either: all webhooks of a version are of one event. -/
theorem notified_once (hdb : db.registry.Valid fresh) (hsubs : db.SubscriptionIds fresh)
    (honce : db.NotifiedOnce fresh) (hsound : db.Sound)
    (hevents : ∀ row ∈ db.outbox, ∀ row' ∈ db.outbox,
      row.payload.versionKey = row'.payload.versionKey → row.payload.eventId = row'.payload.eventId)
    (hs : Reachable (program cfg).step (Initial db fresh) s) :
    (s.db.outbox.Pairwise fun row row' =>
      ¬(row.payload.eventId = row'.payload.eventId ∧ row.subscriptionId = row'.subscriptionId)) ∧
    (Run (program cfg).step (fun s a => cfg.inlineDelivery = true → KeepsRegistration s a)
        (Initial db fresh) s →
      s.db.outbox.Pairwise fun row row' =>
        row.payload.versionKey = row'.payload.versionKey →
          row.payload.eventId = row'.payload.eventId ∧
            row.subscriptionId ≠ row'.subscriptionId) := by
  have hkeys := (Run.webhook_keys honce hsubs hs).stored
  have hpairs : s.db.outbox.Pairwise fun row row' => row.webhookKey ≠ row'.webhookKey :=
    List.pairwise_map.mp hkeys
  refine ⟨hpairs.imp fun hne hsame => hne (Prod.ext hsame.1 hsame.2), fun hgood => ?_⟩
  have hkept : Run (program cfg).step KeepsRegistration (Initial db fresh) s := by
    refine hgood.mono fun t a ht hg => ?_
    cases hon : cfg.inlineDelivery with
    | true => exact hg hon
    | false => exact (Run.offline hon ht a.1).not_forgets a.2
  have hevent := Run.version_event hdb hsound hevents hkept
  refine hpairs.imp_of_mem fun hrow hrow' hne hversion => ?_
  have hsame := hevent _ hrow _ hrow' hversion
  exact ⟨hsame, fun hsub => hne (Prod.ext hsame hsub)⟩

end Versions

theorem sampleEndpoint_valid : sampleEndpoint.registry.Valid 10 where
  endpointIds := by decide
  endpointFresh := by decide
  versionIds := by decide
  versionFresh := by decide
  owner := by decide
  chain e := by
    by_cases he : e = 1
    · subst he
      exact ⟨[(2, "old")], by decide, by decide⟩
    · refine ⟨[], .nil, List.eq_nil_iff_forall_not_mem.mpr fun l hl => he ?_⟩
      have hmem := Registry.mem_chain.mp hl
      exact congrArg Prod.fst (List.mem_singleton.mp hmem)

/-- A request that delivers inline to two subscriptions. -/
theorem notified_once_two :
    ∃ s : World Unit, s.db.outbox.map (·.subscriptionId) = [3, 4] ∧
      s.db.outbox.Pairwise fun row row' =>
        row.payload.versionKey = row'.payload.versionKey →
          row.payload.eventId = row'.payload.eventId ∧
            row.subscriptionId ≠ row'.subscriptionId := by
  have hrun : (exec (program (sampleConfig true)).step sampleAlone
      (deliverFirst ++ deliverSecond)).map (fun s => s.db.outbox.map (·.subscriptionId)) =
        some [3, 4] := by
    decide +kernel
  obtain ⟨s, hs, hrows⟩ := Option.map_eq_some_iff.mp hrun
  have hgood : Along (program (sampleConfig true)).step
      (fun s a => (sampleConfig true).inlineDelivery = true → KeepsRegistration s a) sampleAlone
      (deliverFirst ++ deliverSecond) := by
    decide +kernel
  have hvalid : sampleTwo.registry.Valid 10 := sampleEndpoint_valid
  have hsound : sampleTwo.Sound := by simp [Db.Sound, sampleTwo, sampleEndpoint]
  exact ⟨s, hrows, (notified_once hvalid ⟨by decide, by decide⟩ ⟨by decide, by decide⟩
    hsound (by decide) (reachable_of_exec sampleAlone_initial hs)).2
    (Run.of_exec (.start sampleAlone_initial) hgood hs)⟩

end Driftgate.Runtime
