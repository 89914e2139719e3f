import Driftgate.Runtime.Names
import Driftgate.Runtime.DlqReplay

/-!
# Deliveries that are given up

A delivery is given up when its row is FAILED. Then there is a dead letter for its event and its
consumer, and the dead letter holds the event: whoever has written it, it was written for this event
id, and an event id belongs to one payload.

A replay of that dead letter posts the event, but the target is that of the consumer's newest
subscription of the endpoint. A consumer with two subscriptions of an endpoint has one dead letter
for an event that neither of them got, and one of them is not served by replaying it.
-/

namespace Driftgate.Runtime

open Driftgate.ReadCommitted Driftgate.Transition

/-! ### What a step owes -/

/-- The committed tables after an operation. -/
def tablesAfter {ε ℓ : Type*} (cfg : Config) (ws : List Write) (db : Db) :
    Op Write LockKey ε ℓ → Db
  | .commit _ => (program cfg).applyAll ws db
  | _ => db

/-- An operation that leaves good facts about what comes next, where it may name the new identifier.
Nothing is owed at a commit. -/
def Fits {ε ℓ : Type*} (cfg : Config) (good : ℓ → Names → Db → List Write → Prop) (names : Names)
    (db : Db) (fresh : Uuid) (ws : List Write) (op : Op Write LockKey ε ℓ) : Prop :=
  ∃ names', names.Grows names' ∧ names'.Sound (fresh + 1) ∧
    good op.next names' (tablesAfter cfg ws db op) (op.pendingAfter ws) ∧
    ∀ next, op = .commit next → Transaction names db none ws

section Fits

variable {ε ε' ℓ ℓ' : Type*} {cfg : Config} {names : Names} {db : Db} {fresh : Uuid}
  {ws : List Write} {good : ℓ → Names → Db → List Write → Prop}

theorem keeps_tablesAfter (cfg : Config) (ws : List Write) (db : Db) (op : Op Write LockKey ε ℓ) :
    db.Keeps (tablesAfter cfg ws db op) := by
  cases op with
  | commit next => exact .applyAll cfg ws db
  | _ => exact .refl db

theorem tablesAfter_map (f : ℓ → ℓ') (g : ε → ε') (op : Op Write LockKey ε ℓ) :
    tablesAfter cfg ws db (op.map f g) = tablesAfter cfg ws db op := by
  cases op <;> rfl

/-- A coroutine inside another one. -/
theorem Fits.map {good' : ℓ' → Names → Db → List Write → Prop} {op : Op Write LockKey ε ℓ}
    (h : Fits cfg good names db fresh ws op) {f : ℓ → ℓ'} {g : ε → ε'}
    (hf : ∀ l names' db' ws', names.Grows names' → db.Keeps db' → good l names' db' ws' →
      good' (f l) names' db' ws') : Fits cfg good' names db fresh ws (op.map f g) := by
  obtain ⟨names', hgrows, hsound, hnext, hcommits⟩ := h
  refine ⟨names', hgrows, hsound, ?_, fun next hcommit => ?_⟩
  · rw [Op.next_map, tablesAfter_map, Op.pendingAfter_map]
    exact hf _ _ _ _ hgrows (keeps_tablesAfter cfg ws db op) hnext
  · cases op with
    | commit l => exact hcommits l rfl
    | _ => cases hcommit

/-- A step that names nothing. -/
theorem Fits.stay (hs : names.Sound fresh) {op : Op Write LockKey ε ℓ}
    (hnext : good op.next names (tablesAfter cfg ws db op) (op.pendingAfter ws))
    (hcommit : ∀ next, op = .commit next → Transaction names db none ws) :
    Fits cfg good names db fresh ws op :=
  ⟨names, .refl names, hs.succ, hnext, hcommit⟩

/-- A step that names the new identifier. -/
theorem Fits.give (hs : names.Sound fresh) (n : Named)
    (hn : ∀ p, n = .event p → p.eventId = some fresh) {op : Op Write LockKey ε ℓ}
    (hnext : names.Grows (names.give fresh n) → names.give fresh n fresh = some n →
      good op.next (names.give fresh n) (tablesAfter cfg ws db op) (op.pendingAfter ws))
    (hcommit : ∀ next, op ≠ .commit next) : Fits cfg good names db fresh ws op :=
  ⟨names.give fresh n, hs.grows_give n, hs.give hn,
    hnext (hs.grows_give n) (names.give_self fresh n), fun next h => absurd h (hcommit next)⟩

end Fits

/-! ### Deliveries -/

/-- Before its last commit a delivery has written the dead letter it is to leave. -/
def DeliverPc.Facts (d : Delivery) (ws : List Write) : DeliverPc → Prop
  | .commitFailure => d.persistDlq = true → ∃ letter, .upsertDlq letter ∈ ws ∧
      letter.eventId = d.eventId ∧ letter.consumerId = d.subscription.consumerId
  | _ => True

/-- What holds after a step of a delivery. -/
def Delivery.After (d : Delivery) : Flow DeliverPc Bool → Names → Db → List Write → Prop
  | .go pc, names, db, ws => Transaction names db none ws ∧ pc.Facts d ws
  | .done ok, names, db, ws => Transaction names db none ws ∧ (d.persistDlq = true → ok = false →
      db.DeadLetter d.eventId d.subscription.consumerId 0)
  | .raised _, _, _, _ => True

section Steps

variable {cfg : Config} {names : Names} {db : Db} {ws : List Write} {v : DbView} {x : Input}

theorem Transaction.attempt (h : Transaction names db none ws) (d : Delivery) (id : Uuid)
    (success : Bool) (reason : Option String) (attempt : ℕ) :
    Transaction names db none (ws ++ [d.insertAttempt id success reason attempt]) :=
  h.plain fun _ hw => by
    rw [List.mem_singleton.mp hw]
    rfl

theorem Delivery.afterFailure_facts (d : Delivery) (n : ℕ) (reason : String) (ws : List Write) :
    (d.afterFailure n reason).Facts d ws := by
  rw [afterFailure]
  split
  · split
    · trivial
    · rename_i hpersist
      exact fun h => absurd h hpersist
  · trivial

/-- The dead letter of a delivery. -/
theorem Delivery.letter_facts {d : Delivery} {id : Uuid} (hd : d.Facts names id) {fresh : Uuid}
    (hfresh : names fresh = some (.letter d.eventId d.subscription.consumerId)) (reason : String)
    (n : ℕ) : Transaction names db none [d.upsertDlq fresh reason n] := by
  obtain ⟨⟨sub, hw⟩, hendpoint⟩ := hd
  exact .letter ⟨hfresh, hw.event, hendpoint⟩

theorem Delivery.step_fits (cfg : Config) {d : Delivery} {id : Uuid} {pc : DeliverPc}
    {op : Op Write LockKey Post (Flow DeliverPc Bool)} (hs : names.Sound v.fresh)
    (hd : d.Facts names id) (ht : Transaction names db none ws) (hpc : pc.Facts d ws)
    (h : d.step pc v x = some op) : Fits cfg d.After names db v.fresh ws op := by
  have hnil : Transaction names db none (ws ++ []) := (List.append_nil ws).symm ▸ ht
  cases step_move h with
  | answered n code =>
    refine .stay hs ⟨ht, ?_⟩ (by simp)
    split <;> trivial
  | unanswered => exact .stay hs ⟨ht, trivial⟩ (by simp)
  | success => exact .stay hs ⟨ht.attempt d _ _ _ _, trivial⟩ (by simp)
  | successRaises => exact .stay hs ⟨hnil, trivial⟩ (by simp)
  | delivered => exact .stay hs ⟨.nil .., fun _ hok => by cases hok⟩ fun _ _ => ht
  | deliveredRaises => exact .stay hs ⟨.nil .., trivial⟩ (by simp)
  | failure n reason =>
    exact .stay hs ⟨ht.attempt d _ _ _ _, d.afterFailure_facts n reason _⟩ (by simp)
  | deadLetter reason =>
    refine .give hs (.letter d.eventId d.subscription.consumerId) (by simp) (fun hg hself => ?_)
      (by simp)
    refine ⟨(ht.mono hg (.refl db)).append (letter_facts (hd.mono hg) hself reason _) (by simp),
      fun _ => ⟨_, List.mem_append_right _ (List.mem_singleton_self _), rfl, rfl⟩⟩
  | givenUp =>
    refine .stay hs ⟨.nil .., fun hpersist _ => ?_⟩ fun _ _ => ht
    obtain ⟨letter, hmem, he, hc⟩ := hpc hpersist
    exact he ▸ hc ▸ deadLetter_applyAll cfg hmem db
  | failureRaises | deadLetterRaises | givenUpRaises => exact .stay hs trivial (by simp)

end Steps

/-! ### Inline deliveries -/

/-- A subscription that the webhooks of a drift are for. -/
structure Enqueue.Serves (q : Enqueue) (names : Names) (db : Db) (sub : SubscriptionRow) : Prop where
  row : sub.Facts names
  endpoint : sub.endpointId = q.payload.endpointId
  active : sub.active = true
  known : ∃ k, db.subscriber sub.id = some k

/-- What is known of the webhook under way. When its delivery has failed it has its dead letter. -/
def EnqueuePc.Facts (q : Enqueue) (names : Names) (db : Db) (ws : List Write) : EnqueuePc → Prop
  | .deliver _ sub _ id pc =>
    names id = some (.webhook sub.id q.payload) ∧ pc.Facts (q.delivery sub) ws
  | .updateOutbox _ sub _ id ok => names id = some (.webhook sub.id q.payload) ∧
      (ok = false → db.DeadLetter q.eventId sub.consumerId 0)
  | _ => True

/-- What holds inside `_enqueue_webhook_outbox`. -/
structure Enqueue.Holds (q : Enqueue) (pc : EnqueuePc) (names : Names) (db : Db) (ws : List Write) :
    Prop where
  event : names q.eventId = some (.event q.payload)
  serves : ∀ sub ∈ pc.toServe, q.Serves names db sub
  transaction : Transaction names db none ws
  underway : pc.Facts q names db ws

/-- What holds after a step of it. -/
def Enqueue.After (q : Enqueue) :
    Flow EnqueuePc (List SubscriptionRow) → Names → Db → List Write → Prop
  | .go pc, names, db, ws => q.Holds pc names db ws
  | .done _, names, db, ws => Transaction names db none ws
  | .raised _, _, _, _ => True

theorem Enqueue.Serves.mono {q : Enqueue} {names names' : Names} {db db' : Db}
    {sub : SubscriptionRow} (h : q.Serves names db sub) (hn : names.Grows names')
    (hk : db.Keeps db') : q.Serves names' db' sub := by
  obtain ⟨k, hknown⟩ := h.known
  exact ⟨hn _ _ h.row, h.endpoint, h.active, k, hk.subscriber _ k hknown⟩

theorem Enqueue.Holds.mono {q : Enqueue} {pc : EnqueuePc} {names names' : Names} {db db' : Db}
    {ws : List Write} (h : q.Holds pc names db ws) (hn : names.Grows names') (hk : db.Keeps db') :
    q.Holds pc names' db' ws where
  event := hn _ _ h.event
  serves sub hsub := (h.serves sub hsub).mono hn hk
  transaction := h.transaction.mono hn hk
  underway := by
    have hunderway := h.underway
    cases pc with
    | deliver affected sub rest id pc => exact ⟨hn _ _ hunderway.1, hunderway.2⟩
    | updateOutbox affected sub rest id ok =>
      exact ⟨hn _ _ hunderway.1, fun hok => hk.deadLetter _ _ _ (hunderway.2 hok)⟩
    | _ => trivial

section Steps

variable {cfg : Config} {names : Names} {db : Db} {ws : List Write} {v : DbView} {x : Input}
  {q : Enqueue}

theorem Enqueue.Serves.webhook {sub : SubscriptionRow} (h : q.Serves names db sub) {id : Uuid}
    (hevent : names q.eventId = some (.event q.payload))
    (hid : names id = some (.webhook sub.id q.payload)) :
    names.Webhook id sub.id q.payload q.eventId sub.consumerId :=
  ⟨hid, rfl, hevent, h.endpoint ▸ h.row⟩

theorem Enqueue.Serves.delivery_facts {sub : SubscriptionRow} (h : q.Serves names db sub) {id : Uuid}
    (hevent : names q.eventId = some (.event q.payload))
    (hid : names id = some (.webhook sub.id q.payload)) : (q.delivery sub).Facts names id :=
  ⟨⟨sub.id, h.webhook hevent hid⟩, rfl⟩

/-- The head of the loop. -/
theorem Enqueue.next_after {affected rest : List SubscriptionRow}
    (hevent : names q.eventId = some (.event q.payload))
    (hrest : ∀ sub ∈ rest, q.Serves names db sub) (ht : Transaction names db none ws) :
    q.After (next affected rest) names db ws := by
  cases rest with
  | nil => exact ht
  | cons sub rest => exact ⟨hevent, hrest, ht, trivial⟩

/-- The affected subscriptions are committed, as no request writes any. -/
theorem Enqueue.affected_serves (cfg : Config) (htables : TableFacts names db db)
    (ht : Transaction names db none ws) (hws : ∀ w ∈ ws, w.table ≠ .subscriptions)
    {sub : SubscriptionRow} {newVersion : ℕ} {severity : String}
    (hsub : sub ∈ ((program cfg).applyAll ws db).affectedSubscriptions q.drift.upserted.endpointId
      newVersion severity) : q.Serves names db sub := by
  have hactive := Db.affectedSubscriptions_active hsub
  obtain ⟨hmem, hcond⟩ := List.mem_filter.mp hsub
  refine ⟨(htables.applyAll cfg ht).subs sub hmem, ?_, hactive, ?_⟩
  · simp only [Bool.and_eq_true, decide_eq_true_eq] at hcond
    exact hcond.1.1.1
  · rw [subscriptions_applyAll cfg hws] at hmem
    exact Db.exists_subscriber hmem

/-- The row of a subscription is inserted, under a fresh identifier that names its webhook. -/
theorem Enqueue.insert_fits {affected rest : List SubscriptionRow} {sub : SubscriptionRow}
    (hs : names.Sound v.fresh) (h : q.Holds (.insertOutbox affected sub rest) names db ws)
    (now : Time) {next : Flow EnqueuePc (List SubscriptionRow)}
    (hnext : ∀ names', names' q.eventId = some (.event q.payload) →
      (∀ s ∈ sub :: rest, q.Serves names' db s) →
      names' v.fresh = some (.webhook sub.id q.payload) →
      Transaction names' db none (ws ++ [.insertOutbox (q.newRow v.fresh now sub)]) →
      q.After next names' db (ws ++ [.insertOutbox (q.newRow v.fresh now sub)])) :
    Fits cfg q.After names db v.fresh ws (.exec (ε := Effect) [.outboxRow v.fresh]
      [.insertOutbox (q.newRow v.fresh now sub)] next) := by
  refine .give hs (.webhook sub.id q.payload) (by simp) (fun hg hself => ?_) (by simp)
  have h := h.mono hg (.refl db)
  have hsub : q.Serves _ db sub := h.serves sub List.mem_cons_self
  have hrow : (q.newRow v.fresh now sub).Facts (names.give v.fresh _) db :=
    ⟨rfl, ⟨_, _, hsub.webhook h.event hself⟩, hsub.known⟩
  exact hnext _ h.event h.serves hself (h.transaction.append (.row hrow (by simp [newRow])) (by simp))

theorem Enqueue.step_fits {pc : EnqueuePc}
    {op : Op Write LockKey Effect (Flow EnqueuePc (List SubscriptionRow))}
    (hs : names.Sound v.fresh) (htables : TableFacts names db db) (h : q.Holds pc names db ws)
    (hws : ∀ w ∈ ws, w.table ≠ .subscriptions) (hv : v.db = (program cfg).applyAll ws db)
    (hop : q.step cfg pc v x = some op) : Fits cfg q.After names db v.fresh ws op := by
  have hnil : Transaction names db none (ws ++ []) := (List.append_nil ws).symm ▸ h.transaction
  cases step_move hop with
  | selects affected haffected =>
    refine .stay hs (next_after h.event (fun sub hsub => ?_) hnil) (by simp)
    rw [haffected, hv] at hsub
    exact affected_serves cfg htables h.transaction hws hsub
  | inserts affected sub rest =>
    refine insert_fits hs h _ fun names' hevent hserves _ ht => ?_
    exact next_after hevent (fun s hmem => hserves s (List.mem_cons_of_mem _ hmem)) ht
  | insertsActive affected sub rest =>
    exact insert_fits hs h _ fun names' hevent hserves hself ht =>
      ⟨hevent, hserves, ht, hself, trivial⟩
  | insertsInactive affected sub rest _ hinactive =>
    have hactive := (h.serves sub List.mem_cons_self).active
    rw [hinactive] at hactive
    cases hactive
  | delivers affected sub rest id pc hd =>
    have hsub : q.Serves names db sub := h.serves sub List.mem_cons_self
    refine (Delivery.step_fits cfg hs (hsub.delivery_facts h.event h.underway.1) h.transaction
      h.underway.2 hd).map fun f names' db' ws' hn hk hf => ?_
    have hserves : ∀ s ∈ sub :: rest, q.Serves names' db' s :=
      fun s hmem => (h.serves s hmem).mono hn hk
    cases f with
    | go pc => exact ⟨hn _ _ h.event, hserves, hf.1, hn _ _ h.underway.1, hf.2⟩
    | done ok => exact ⟨hn _ _ h.event, hserves, hf.1, hn _ _ h.underway.1, hf.2 rfl⟩
    | raised e => trivial
  | updates affected sub rest id ok =>
    have hsub : q.Serves names db sub := h.serves sub List.mem_cons_self
    have hchange : Transaction names db none [.updateOutbox id (finalChange ok)] := by
      refine .change fun hstatus => ?_
      have hok : ok = false := by
        cases ok with
        | true => cases hstatus
        | false => rfl
      exact ⟨_, _, _, _, hsub.webhook h.event h.underway.1, .inl (h.underway.2 hok)⟩
    refine .stay hs (next_after h.event (fun s hmem => ?_)
      (h.transaction.append hchange (by simp))) (by simp)
    exact h.serves s (List.mem_cons_of_mem _ hmem)
  | selectRaises | insertRaises | updateRaises => exact .stay hs trivial (by simp)

end Steps

/-! ### Requests -/

/-- What holds inside the code of a request. -/
def TrackPc.Facts (names : Names) (db : Db) (ws : List Write) : TrackPc → Prop
  | .enqueue q pc => q.Holds pc names db ws
  | _ => Transaction names db none ws

/-- What holds after a step of it. -/
def TrackPc.After : Flow TrackPc TrackResult → Names → Db → List Write → Prop
  | .go pc, names, db, ws => pc.Facts names db ws
  | .done _, names, db, ws => Transaction names db none ws
  | .raised _, _, _, _ => True

/-- When the code of a request has ended, its transaction does not matter. -/
def TrackProc.Facts (p : TrackProc) (names : Names) (db : Db) (ws : List Write) : Prop :=
  p.status = .running → p.pc.Facts names db ws

section Steps

variable {cfg : Config} {names : Names} {db : Db} {ws : List Write} {v : DbView} {x : Input}

theorem TrackPc.Facts.transaction {pc : TrackPc} (h : pc.Facts names db ws) :
    Transaction names db none ws := by
  cases pc with
  | enqueue q pc => exact Enqueue.Holds.transaction h
  | _ => exact h

theorem TrackPc.Facts.mono {pc : TrackPc} {names' : Names} {db' : Db} (h : pc.Facts names db ws)
    (hn : names.Grows names') (hk : db.Keeps db') : pc.Facts names' db' ws := by
  cases pc with
  | enqueue q pc => exact Enqueue.Holds.mono h hn hk
  | _ => exact Transaction.mono hn hk h

theorem Write.ofRegistry.plain {w : Write} (h : w.ofRegistry) : w.plain = true := by
  cases w with
  | insertOutbox row => cases h.outboxId
  | updateOutbox id change => cases h.outboxId
  | insertSubscription row => exact absurd rfl h.ne_subscriptions
  | upsertDlq row =>
    obtain ht | ht := h <;> cases ht
  | _ => rfl

/-- The code of a request up to the loop: a drift gets its event id. -/
theorem TrackCall.before_enqueue_fits {call : TrackCall} {pc : TrackPc}
    {op : Op Write LockKey Effect (Flow TrackPc TrackResult)} (hs : names.Sound v.fresh)
    (ht : Transaction names db none ws) (hpc : pc.enqueueing = false)
    (hop : call.step cfg pc v x = some op) : Fits cfg TrackPc.After names db v.fresh ws op := by
  obtain ⟨hnext, hkind⟩ := step_before_enqueue hpc hop
  have hquiet : (∀ next, op ≠ .commit next) ∧ tablesAfter cfg ws db op = db ∧
      Transaction names db none (op.pendingAfter ws) := by
    obtain ⟨ks, ws', next, rfl, hws⟩ | ⟨e, next, rfl, -⟩ := hkind
    · exact ⟨by simp, rfl, ht.plain fun w hw => (hws w hw).plain⟩
    · exact ⟨by simp, rfl, ht⟩
  obtain ⟨hcommit, htables, ht'⟩ := hquiet
  have hplain : TrackPc.After op.next names db (op.pendingAfter ws) →
      Fits cfg TrackPc.After names db v.fresh ws op := fun hafter =>
    .stay hs (by rw [htables]; exact hafter) fun next h => absurd h (hcommit next)
  cases hgo : op.next with
  | done r => exact hplain (by rw [hgo]; exact ht')
  | raised e => exact hplain (by rw [hgo]; trivial)
  | go pc' =>
    cases pc' with
    | enqueue q pc' =>
      obtain ⟨rfl, hevent⟩ : pc' = .selectAffected ∧ q.eventId = v.fresh := hnext _ hgo
      refine .give hs (.event q.payload) (fun p hp => ?_) (fun hg hself => ?_) hcommit
      · cases hp
        exact congrArg some hevent
      · rw [hgo, htables]
        exact ⟨hevent ▸ hself, by simp [EnqueuePc.toServe], ht'.mono hg (.refl db), trivial⟩
    | _ => exact hplain (by rw [hgo]; exact ht')

theorem TrackCall.step_fits {call : TrackCall} {pc : TrackPc}
    {op : Op Write LockKey Effect (Flow TrackPc TrackResult)} (hs : names.Sound v.fresh)
    (htables : TableFacts names db db) (h : pc.Facts names db ws)
    (hws : ∀ w ∈ ws, w.table ≠ .subscriptions) (hv : v.db = (program cfg).applyAll ws db)
    (hop : call.step cfg pc v x = some op) : Fits cfg TrackPc.After names db v.fresh ws op := by
  by_cases hearly : pc.enqueueing = false
  · exact before_enqueue_fits hs h.transaction hearly hop
  cases pc with
  | enqueue q pc =>
    obtain ⟨qop, hq, rfl⟩ := Option.map_eq_some_iff.mp hop
    refine (Enqueue.step_fits hs htables h hws hv hq).map fun f names' db' ws' _ _ hf => ?_
    cases f <;> exact hf
  | commit n r =>
    cases x <;> simp only [step, reduceCtorEq, Option.some.injEq] at hop <;> subst hop
    · exact .stay hs (.nil ..) fun _ _ => h
    · exact .stay hs trivial (by simp)
  | _ => exact absurd rfl hearly

theorem TrackProc.step_fits {p : TrackProc} {op : Op Write LockKey Effect TrackProc}
    (hs : names.Sound v.fresh) (htables : TableFacts names db db) (h : p.Facts names db ws)
    (hws : ∀ w ∈ ws, w.table ≠ .subscriptions) (hv : v.db = (program cfg).applyAll ws db)
    (hop : p.next cfg v x = some op) :
    Fits cfg TrackProc.Facts names db v.fresh ws op := by
  obtain ⟨-, rfl⟩ | ⟨ok, t, -, -, rfl⟩ | ⟨cop, hrun, hcode, rfl⟩ | ⟨e, -, rfl⟩ := next_cases hop
  · refine .stay hs (fun hrun => absurd hrun ?_) (by simp)
    obtain ⟨call, pc, status, task⟩ := p
    cases status <;> simp [Op.next, halt]
  · exact .stay hs h (by simp)
  · refine (TrackCall.step_fits hs htables (h hrun) hws hv hcode).map fun f names' db' ws' _ _ hf => ?_
    cases f with
    | go pc => exact fun _ => hf
    | done r => exact fun hrun' => by cases hrun'
    | raised e => exact fun hrun' => by cases hrun'
  · exact .stay hs (fun hrun => by cases hrun) (by simp)

end Steps

/-! ### Workers -/

/-- The rows that a worker has read and is not done with. -/
def WorkerPc.items (pc : WorkerPc) : List OutboxRow := pc.underway.toList ++ pc.batch

/-- No subscription is ever gone. -/
def Conclusion.Facts (names : Names) (id : Uuid) : Conclusion → Prop
  | .gone => False
  | .exhausted args => args.Facts names id
  | _ => True

/-- What is known of the delivery under way. Between the final status of an exhausted row and its
dead letter, the dead letter is owed. -/
def WorkerPc.Delivering (names : Names) (db : Db) (ws : List Write) : WorkerPc → Prop
  | .deliver item _ _ args pc =>
    args.Facts names item.id ∧ Transaction names db none ws ∧ pc.Facts args ws
  | .conclude item _ _ how => how.Facts names item.id ∧ Transaction names db none ws
  | .upsertDlq item _ _ args => args.Facts names item.id ∧ Transaction names db (some args) ws
  | .closeFailed => True
  | _ => Transaction names db none ws

/-- What holds of a worker. -/
structure WorkerPc.Facts (pc : WorkerPc) (names : Names) (db : Db) (ws : List Write) : Prop where
  rows : ∀ item ∈ pc.items, item.Facts names db
  delivering : pc.Delivering names db ws

section Steps

variable {cfg : Config} {names : Names} {db : Db} {ws : List Write} {v : DbView} {x : Input}

theorem Conclusion.Facts.mono {how : Conclusion} {names' : Names} (hn : names.Grows names')
    {id : Uuid} (h : how.Facts names id) : how.Facts names' id := by
  cases how with
  | exhausted args => exact Delivery.Facts.mono hn h
  | _ => exact h

theorem WorkerPc.Facts.mono {pc : WorkerPc} {names' : Names} {db' : Db} (h : pc.Facts names db ws)
    (hn : names.Grows names') (hk : db.Keeps db') : pc.Facts names' db' ws where
  rows item hitem := (h.rows item hitem).mono hn hk
  delivering := by
    have hd := h.delivering
    cases pc with
    | deliver item rest n args pc => exact ⟨hd.1.mono hn, hd.2.1.mono hn hk, hd.2.2⟩
    | conclude item rest n how => exact ⟨Conclusion.Facts.mono hn hd.1, hd.2.mono hn hk⟩
    | upsertDlq item rest n args => exact ⟨hd.1.mono hn, hd.2.mono hn hk⟩
    | closeFailed => trivial
    | _ => exact Transaction.mono hn hk hd

/-- A worker that has read no more rows. -/
theorem WorkerPc.Facts.next {pc pc' : WorkerPc} {db' : Db} {ws' : List Write}
    (h : pc.Facts names db ws) (hk : db.Keeps db') (hitems : ∀ item ∈ pc'.items, item ∈ pc.items)
    (hdelivering : pc'.Delivering names db' ws') : pc'.Facts names db' ws' :=
  ⟨fun item hitem => (h.rows item (hitems item hitem)).mono (.refl names) hk, hdelivering⟩

theorem WorkerPc.nextItem_items (n : ℕ) (items : List OutboxRow) :
    (nextItem n items).items = items := by
  cases items <;> rfl

theorem WorkerPc.nextItem_delivering (n : ℕ) (items : List OutboxRow)
    (ht : Transaction names db none ws) : (nextItem n items).Delivering names db ws := by
  cases items <;> exact ht

theorem WorkerPc.afterDelivery_facts {item : OutboxRow} {args : Delivery}
    (hargs : args.Facts names item.id) (ok : Bool) :
    (afterDelivery item args ok).Facts names item.id := by
  rw [afterDelivery]
  split
  · trivial
  · split
    · exact hargs
    · trivial

/-- After a step of the delivery of an item. -/
theorem WorkerPc.delivering_facts {item : OutboxRow} {rest : List OutboxRow} {n : ℕ}
    {args : Delivery} {f : Flow DeliverPc Bool}
    (hrows : ∀ row ∈ item :: rest, row.Facts names db) (hargs : args.Facts names item.id)
    (hf : args.After f names db ws) : (delivering item rest n args f).Facts names db ws := by
  cases f with
  | go pc => exact ⟨hrows, hargs, hf⟩
  | done ok => exact ⟨hrows, afterDelivery_facts hargs ok, hf.1⟩
  | raised e => exact ⟨by simp [delivering, items, underway, batch], trivial⟩

/-- The subscription of an item is there, and its consumer is the webhook's. -/
theorem WorkerPc.select_facts (cfg : Config) {item : OutboxRow} (hitem : item.Facts names db)
    (htables : TableFacts names db db) (ht : Transaction names db none ws) (fresh : Uuid) :
    ∃ sub, ((program cfg).applyAll ws db).subscriptions.find? (·.id = item.subscriptionId) =
      some sub ∧ (delivery item sub fresh).Facts names item.id := by
  obtain ⟨k, hk⟩ := hitem.known
  obtain ⟨sub, hfind, -⟩ :=
    Option.map_eq_some_iff.mp ((Db.Keeps.applyAll cfg ws db).subscriber _ k hk)
  refine ⟨sub, hfind, ?_⟩
  have hid : sub.id = item.subscriptionId := by simpa using List.find?_some hfind
  have hsub := (htables.applyAll cfg ht).subs sub (List.mem_of_find?_eq_some hfind)
  obtain ⟨e, c, hw⟩ := hitem.named
  rw [SubscriptionRow.Facts, hid, hw.subscription] at hsub
  simp only [Option.some.injEq, Named.subscription.injEq] at hsub
  obtain ⟨rfl, -⟩ := hsub
  refine ⟨⟨item.subscriptionId, ?_⟩, hitem.endpoint⟩
  show names.Webhook _ _ _ (item.payload.eventId.getD fresh) _
  rw [hw.known]
  exact hw

/-- The final status of an item; if it is exhausted, its dead letter is owed. -/
theorem WorkerPc.conclude_fits {item : OutboxRow} {rest : List OutboxRow} {n : ℕ} {how : Conclusion}
    {now : Time} {op : Op Write LockKey Effect WorkerPc} (hs : names.Sound v.fresh)
    (h : (conclude item rest n how).Facts names db ws)
    (hop : (conclude item rest n how).step v (.proceed now) = some op) :
    Fits cfg WorkerPc.Facts names db v.fresh ws op := by
  obtain rfl := Option.some.inj hop
  obtain ⟨hhow, ht⟩ : how.Facts names item.id ∧ Transaction names db none ws := h.delivering
  have hplain : (conclusionChange item now how).status ≠ .failed →
      Transaction names db none (ws ++ [.updateOutbox item.id (conclusionChange item now how)]) :=
    fun hstatus => ht.plain (by simp [Write.plain, hstatus])
  cases how with
  | gone => exact hhow.elim
  | delivered => exact .stay hs ⟨h.rows, hplain (by simp [conclusionChange])⟩ (by simp)
  | retry => exact .stay hs ⟨h.rows, hplain (by simp [conclusionChange])⟩ (by simp)
  | exhausted args =>
    refine .stay hs ⟨h.rows, hhow, ht.append (.change fun _ => ?_) (by simp)⟩ (by simp)
    obtain ⟨⟨sub, hw⟩, -⟩ := hhow
    exact ⟨sub, _, _, _, hw, .inr (.inr ⟨args, rfl, rfl, rfl⟩)⟩

theorem WorkerPc.step_fits {pc : WorkerPc} {op : Op Write LockKey Effect WorkerPc}
    (hs : names.Sound v.fresh) (htables : TableFacts names db db) (h : pc.Facts names db ws)
    (hv : v.db = (program cfg).applyAll ws db) (hop : pc.step v x = some op) :
    Fits cfg WorkerPc.Facts names db v.fresh ws op := by
  have hended : Fits cfg WorkerPc.Facts names db v.fresh ws
      (.rollback (ε := Effect) ended) :=
    .stay hs ⟨by simp [items, underway, batch, Op.next], .nil ..⟩ (by simp)
  by_cases hdeliver : ∃ item rest n args dpc, pc = .deliver item rest n args dpc
  · obtain ⟨item, rest, n, args, dpc, rfl⟩ := hdeliver
    obtain ⟨-, rfl⟩ | ⟨dop, hd, rfl⟩ := deliver_cases hop
    · exact hended
    obtain ⟨hargs, ht, hdpc⟩ := h.delivering
    refine (Delivery.step_fits cfg hs hargs ht hdpc hd).map fun f names' db' ws' hn hk hf => ?_
    exact delivering_facts (fun row hrow => (h.rows row hrow).mono hn hk) (hargs.mono hn) hf
  have hnot : ∀ item rest n args dpc, pc ≠ .deliver item rest n args dpc :=
    fun item rest n args dpc hpc => hdeliver ⟨item, rest, n, args, dpc, hpc⟩
  by_cases hcrash : x.crash = true
  · obtain rfl | rfl := step_crash hop hcrash hnot
    · exact hended
    · exact .stay hs ⟨by simp [items, underway, batch, Op.next], trivial⟩ (by simp)
  obtain ⟨now, rfl⟩ := step_proceed hop (Bool.eq_false_of_not_eq_true hcrash) hnot
  cases pc with
  | deliver item rest n args dpc => exact absurd rfl (hnot item rest n args dpc)
  | poll =>
    obtain rfl := Option.some.inj hop
    have ht : Transaction names db none ws := h.delivering
    refine .stay hs ⟨fun item hitem => ?_, nextItem_delivering _ _ (ht.plain (by simp))⟩ (by simp)
    rw [Op.next, nextItem_items] at hitem
    refine (htables.applyAll cfg ht).rows item ?_
    rw [← hv]
    exact (mem_selectBatch hitem).1
  | markDelivering item rest n =>
    obtain rfl := Option.some.inj hop
    have ht : Transaction names db none ws := h.delivering
    exact .stay hs ⟨h.rows, ht.plain (by simp [Write.plain])⟩ (by simp)
  | commitMark item rest n =>
    obtain rfl := Option.some.inj hop
    exact .stay hs (h.next (.applyAll cfg ws db) (fun _ hitem => hitem) (.nil ..)) fun _ _ =>
      h.delivering
  | selectSubscription item rest n =>
    have ht : Transaction names db none ws := h.delivering
    obtain ⟨sub, hfind, hargs⟩ :=
      select_facts cfg (h.rows item List.mem_cons_self) htables ht v.fresh
    simp only [step, hv, hfind, Option.some.injEq] at hop
    subst hop
    refine .stay hs (delivering_facts h.rows hargs ?_) (by simp)
    obtain hstart | hstart := (delivery item sub v.fresh).start_cases <;> rw [hstart]
    · exact ⟨ht.plain (by simp), trivial⟩
    · exact ⟨ht.plain (by simp), fun hpersist => by cases hpersist⟩
  | conclude item rest n how =>
    exact conclude_fits hs h hop
  | upsertDlq item rest n args =>
    obtain rfl := Option.some.inj hop
    refine .give hs (.letter args.eventId args.subscription.consumerId) (by simp)
      (fun hg hself => ?_) (by simp)
    obtain ⟨hargs, ht⟩ := (h.mono hg (.refl db)).delivering
    refine ⟨(h.mono hg (.refl db)).rows, ht.append (Delivery.letter_facts hargs hself _ _) ?_⟩
    intro d hd
    cases hd
    exact ⟨_, rfl, rfl, rfl⟩
  | commitItem item rest n =>
    obtain rfl := Option.some.inj hop
    refine .stay hs (h.next (.applyAll cfg ws db) (fun row hrow => ?_)
      (nextItem_delivering _ _ (.nil ..))) fun _ _ => h.delivering
    rw [Op.next, nextItem_items] at hrow
    exact List.mem_cons_of_mem _ hrow
  | countPending n =>
    obtain rfl := Option.some.inj hop
    have ht : Transaction names db none ws := h.delivering
    exact .stay hs ⟨h.rows, ht.plain (by simp)⟩ (by simp)
  | close n =>
    obtain rfl := Option.some.inj hop
    refine .stay hs ?_ (by simp)
    show (if n = 0 then sleep else poll : WorkerPc).Facts names db []
    split <;> exact ⟨by simp [items, underway, batch], .nil ..⟩
  | closeFailed =>
    obtain rfl := Option.some.inj hop
    exact .stay hs ⟨h.rows, .nil ..⟩ (by simp)
  | sleep =>
    obtain rfl := Option.some.inj hop
    have ht : Transaction names db none ws := h.delivering
    exact .stay hs ⟨h.rows, ht.plain (by simp)⟩ (by simp)
  | ended => cases hop

end Steps

/-! ### Parties -/

/-- What holds of a party. -/
def Party.Facts (p : Party) (names : Names) (db : Db) (ws : List Write) : Prop :=
  match p with
  | .track p => p.Facts names db ws
  | .worker pc => pc.Facts names db ws
  | .subscription _ _ => Transaction names db none ws
  | .finished => True

section Steps

variable {cfg : Config} {names : Names} {db : Db} {ws : List Write} {v : DbView} {x : Input}

theorem Party.Facts.mono {p : Party} {names' : Names} {db' : Db} (h : p.Facts names db ws)
    (hn : names.Grows names') (hk : db.Keeps db') : p.Facts names' db' ws := by
  cases p with
  | track p => exact fun hrun => TrackPc.Facts.mono (h hrun) hn hk
  | worker pc => exact WorkerPc.Facts.mono h hn hk
  | subscription call pc => exact Transaction.mono hn hk h
  | finished => trivial

theorem Party.Starting.facts {p : Party} (h : p.Starting) : p.Facts names db [] := by
  cases h with
  | track call => exact fun _ => .nil ..
  | worker => exact ⟨by simp [WorkerPc.items, WorkerPc.underway, WorkerPc.batch], .nil ..⟩
  | subscription call => exact .nil ..

theorem SubscriptionCall.step_fits {call : SubscriptionCall} {pc : SubscriptionPc}
    {op : Op Write LockKey Empty (Flow SubscriptionPc Unit)} (hs : names.Sound v.fresh)
    (ht : Transaction names db none ws) (hop : call.step pc v x = some op) :
    Fits cfg (fun f => (Party.subscribing call f).Facts) names db v.fresh ws op := by
  cases pc with
  | write =>
    cases x <;> cases call <;> simp only [step, reduceCtorEq, Option.some.injEq] at hop <;> subst hop
    · rename_i row
      refine .give hs (.subscription row.consumerId row.endpointId) (by simp) (fun hg hself => ?_)
        (by simp)
      exact (ht.mono hg (.refl db)).append (.subscription hself) (by simp)
    · exact .stay hs (ht.plain (by simp [Write.plain])) (by simp)
    · exact .stay hs trivial (by simp)
    · exact .stay hs trivial (by simp)
  | commit =>
    cases x <;> simp only [step, reduceCtorEq, Option.some.injEq] at hop <;> subst hop
    · exact .stay hs trivial fun _ _ => ht
    · exact .stay hs trivial (by simp)

/-- **One step of a party.** -/
theorem Party.step_fits {p : Party} {op : Op Write LockKey Effect Party} (hs : names.Sound v.fresh)
    (htables : TableFacts names db db) (h : p.Facts names db ws)
    (hws : ∀ p', p = .track p' → ∀ w ∈ ws, w.table ≠ .subscriptions)
    (hv : v.db = (program cfg).applyAll ws db) (hop : p.next cfg v x = some op) :
    Fits cfg Party.Facts names db v.fresh ws op := by
  cases p with
  | track p =>
    obtain ⟨op', hop', rfl⟩ := Option.map_eq_some_iff.mp hop
    exact (TrackProc.step_fits hs htables h (hws p rfl) hv hop').map fun _ _ _ _ _ _ hf => hf
  | worker pc =>
    obtain ⟨op', hop', rfl⟩ := Option.map_eq_some_iff.mp hop
    exact (WorkerPc.step_fits hs htables h hv hop').map fun _ _ _ _ _ _ hf => hf
  | subscription call pc =>
    obtain ⟨op', hop', rfl⟩ := Option.map_eq_some_iff.mp hop
    exact (SubscriptionCall.step_fits hs h hop').map fun _ _ _ _ _ _ hf => hf
  | finished =>
    cases x <;> simp only [next, reduceCtorEq, Option.some.injEq] at hop
    subst hop
    exact .stay hs trivial (by simp)

end Steps

/-! ### Every run -/

section Runs

variable {ι : Type*} [DecidableEq ι] {cfg : Config} {db : Db} {fresh : Uuid} {s : World ι}

/-- Subscriptions only, and nothing to be delivered yet. -/
structure Db.Unqueued (db : Db) (fresh : Uuid) : Prop where
  outbox : db.outbox = []
  dlq : db.dlq = []
  nodup : (db.subscriptions.map (·.id)).Nodup
  used : ∀ sub ∈ db.subscriptions, sub.id < fresh

/-- No request writes subscriptions. -/
theorem Run.track_tables {good : World ι → ι × Input → Prop}
    (hs : Run (program cfg).step good (Initial db fresh) s) (i : ι) :
    ∀ p, s.loc i = .track p → ∀ w ∈ s.pending i, w.table ≠ .subscriptions := by
  refine Run.process_invariant (P := program cfg) (A := fun _ o => ∀ p, o.loc = .track p →
    ∀ w ∈ o.pending, w.table ≠ .subscriptions) (fun s hs i p _ w hw => ?_) ?_ hs i
  · rw [show (s.own i).pending = [] from hs.pending i] at hw
    cases hw
  · intro s i x op _ hA hop p' hnext w hw
    have hop : (s.loc i).next cfg (s.view (program cfg) i) x = some op := hop
    have hkind : ∃ p, s.loc i = .track p ∧ ∀ w ∈ op.writes, w.table ≠ .subscriptions := by
      cases hloc : s.loc i with
      | track p =>
        rw [hloc] at hop
        obtain ⟨op', hop', rfl⟩ := Option.map_eq_some_iff.mp hop
        rw [Op.writes_map]
        exact ⟨p, rfl, TrackProc.step_ne_subscriptions hop'⟩
      | worker pc =>
        rw [hloc] at hop
        obtain ⟨op', -, rfl⟩ := Option.map_eq_some_iff.mp hop
        cases (Op.next_map _ _ op').symm.trans hnext
      | subscription call pc =>
        rw [hloc] at hop
        obtain ⟨op', -, rfl⟩ := Option.map_eq_some_iff.mp hop
        have hnext := (Op.next_map _ _ op').symm.trans hnext
        cases hf : op'.next <;> rw [hf] at hnext <;> cases hnext
      | finished =>
        rw [hloc] at hop
        cases x <;> simp only [Party.next, reduceCtorEq, Option.some.injEq] at hop
        subst hop
        cases hnext
    obtain ⟨p, hloc, hwrites⟩ := hkind
    have hpending : ∀ w ∈ s.pending i, w.table ≠ .subscriptions := hA p hloc
    have hw : w ∈ op.pendingAfter (s.pending i) := hw
    cases op with
    | exec ks ws next =>
      obtain hw | hw := List.mem_append.mp hw
      · exact hpending w hw
      · exact hwrites w hw
    | emit e next => exact hpending w hw
    | commit next => cases hw
    | rollback next => cases hw

/-- The subscriptions of a new system have their names. -/
theorem Db.Unqueued.facts (h : db.Unqueued fresh) :
    ∃ names : Names, names.Sound fresh ∧ DbFacts names db := by
  have hnamed : ∀ id n, (db.subscriber id).map (fun k => Named.subscription k.1 k.2) = some n →
      ∃ sub ∈ db.subscriptions, sub.id = id ∧ n = .subscription sub.consumerId sub.endpointId := by
    intro id n hn
    obtain ⟨k, hk, rfl⟩ := Option.map_eq_some_iff.mp hn
    obtain ⟨sub, hfind, rfl⟩ := Option.map_eq_some_iff.mp hk
    exact ⟨sub, List.mem_of_find?_eq_some hfind, by simpa using List.find?_some hfind, rfl⟩
  refine ⟨fun id => (db.subscriber id).map fun k => .subscription k.1 k.2, ⟨fun id n hn => ?_,
    fun id p hp => ?_⟩, ⟨⟨?_, ?_, fun sub hsub => ?_⟩, ?_⟩⟩
  · obtain ⟨sub, hsub, rfl, -⟩ := hnamed id n hn
    exact h.used sub hsub
  · obtain ⟨sub, -, -, hevent⟩ := hnamed id _ hp
    cases hevent
  · simp [h.outbox]
  · simp [h.dlq]
  · obtain ⟨k, hk⟩ := Db.exists_subscriber hsub
    obtain ⟨r, hfind, rfl⟩ := Option.map_eq_some_iff.mp hk
    have hid : r.id = sub.id := by simpa using List.find?_some hfind
    obtain rfl : r = sub :=
      List.inj_on_of_nodup_map h.nodup (List.mem_of_find?_eq_some hfind) hsub hid
    rw [SubscriptionRow.Facts, hk, Option.map_some]
  · simp [h.outbox]

/-- **The facts hold along every run**, whatever the parties and however they fail. -/
theorem Run.facts (hdb : db.Unqueued fresh)
    (hs : Reachable (program cfg).step (Initial db fresh) s) :
    ∃ names : Names, names.Sound s.fresh ∧ DbFacts names s.db ∧
      ∀ i, (s.loc i).Facts names s.db (s.pending i) := by
  refine Run.invariant (I := fun s : World ι => ∃ names : Names, names.Sound s.fresh ∧
    DbFacts names s.db ∧ ∀ i, (s.loc i).Facts names s.db (s.pending i)) ?_ ?_ hs
  · intro s hs
    obtain ⟨names, hsound, hfacts⟩ := hdb.facts
    refine ⟨names, hs.fresh ▸ hsound, hs.db ▸ hfacts, fun i => ?_⟩
    rw [hs.pending i]
    exact (hs.starting i).facts
  · rintro s ⟨i, x⟩ t hrun ⟨names, hsound, hfacts, hparties⟩ - hstep
    obtain ⟨op, hop, hst⟩ := step_cases hstep
    obtain ⟨names', hgrows, hsound', hnext, hcommits⟩ :=
      Party.step_fits (v := s.view (program cfg) i) hsound hfacts.toTableFacts (hparties i)
        (Run.track_tables hrun i) rfl hop
    have hfresh : t.fresh = s.fresh + 1 := by
      rw [hst.shared, Op.fresh_shared]
    have htables : t.db = tablesAfter cfg (s.pending i) s.db op := by
      rw [hst.shared]
      cases op <;> rfl
    refine ⟨names', hfresh ▸ hsound', ?_, fun j => ?_⟩
    · rw [htables]
      cases op with
      | commit next => exact (hfacts.commit cfg (hcommits next rfl)).mono hgrows
      | _ => exact hfacts.mono hgrows
    · rw [htables]
      by_cases hj : j = i
      · subst hj
        rw [hst.loc, hst.pending]
        exact hnext
      · rw [hst.loc_other hj, hst.pending_other hj]
        exact (hparties j).mono hgrows (keeps_tablesAfter cfg _ _ op)

/-! ### Replaying what was given up -/

/-- The newest subscription of an endpoint and a consumer is active and has this target. -/
def Db.Targets (db : Db) (endpointId : Uuid) (consumerId targetUrl : String) : Prop :=
  ∃ newest, db.newestSubscription endpointId consumerId = some newest ∧ newest.active = true ∧
    newest.targetUrl = targetUrl

omit [DecidableEq ι] in
/-- The event can be posted to a target from the dead letters of the consumers with that target. -/
theorem TableFacts.rePosts_iff {names : Names} (h : TableFacts names db db)
    (hs : names.Sound fresh) {e : Uuid} {payload : WebhookPayload}
    (he : names e = some (.event payload)) {targetUrl : String} :
    (∃ entry ∈ db.dlq, ∀ documents, RePosts db ⟨entry.id, documents⟩ targetUrl payload) ↔
      ∃ c, db.DeadLetter e c 0 ∧ db.Targets payload.endpointId c targetUrl := by
  constructor
  · rintro ⟨_, _, hposts⟩
    obtain ⟨entry, newest, hfind, hnewest, hactive, hurl, rfl⟩ :=
      Runtime.rePosts_iff.mp (hposts false)
    have hmem : entry ∈ db.dlq := List.mem_of_find?_eq_some hfind
    have hfacts := h.entries entry hmem
    have hkey : entry.eventId = e :=
      Option.some.inj ((hs.event _ _ hfacts.event).symm.trans (hs.event _ _ he))
    exact ⟨entry.consumerId, ⟨entry, hmem, hkey, rfl, Nat.zero_le _⟩, newest,
      hfacts.endpoint ▸ hnewest, hactive, hurl⟩
  · rintro ⟨c, ⟨entry, hmem, rfl, rfl, -⟩, newest, hnewest, hactive, hurl⟩
    have hsome : (db.dlqEntry entry.id).isSome = true :=
      List.find?_isSome.mpr ⟨entry, hmem, by simp⟩
    obtain ⟨found, hfind⟩ := Option.isSome_iff_exists.mp hsome
    have hid : found.id = entry.id := by simpa using List.find?_some hfind
    have hfound := h.entries found (List.mem_of_find?_eq_some hfind)
    -- the identifier of a dead letter was given to its event and its consumer
    have hkey : found.eventId = entry.eventId ∧ found.consumerId = entry.consumerId := by
      have hrow := (hid ▸ hfound.row).symm.trans (h.entries entry hmem).row
      simpa using hrow
    have hevent : found.event = payload := by
      have heq := hfound.event.symm.trans (hkey.1.symm ▸ he)
      simpa using heq
    refine ⟨entry, hmem, fun documents => Runtime.rePosts_iff.mpr ⟨found, newest, hfind, ?_, hactive,
      hurl, hevent⟩⟩
    rw [hfound.endpoint, hkey.2, hevent]
    exact hnewest

/-- **Recovering a delivery that was given up.** The event of a FAILED row can be posted to its
subscription from a dead letter exactly if the newest subscription of the consumer at the endpoint,
or that of another consumer that the event has a dead letter for, is active and has the target of
the subscription. -/
theorem given_up_recoverable (hdb : db.Unqueued fresh)
    (hs : Reachable (program cfg).step (Initial db fresh) s) {row : OutboxRow}
    (hrow : row ∈ s.db.outbox) (hfailed : row.status = .failed) {sub : SubscriptionRow}
    (hsub : sub ∈ s.db.subscriptions) (hid : sub.id = row.subscriptionId) :
    ∃ e, row.payload.eventId = some e ∧
      ((∃ entry ∈ s.db.dlq, ∀ documents,
          RePosts s.db ⟨entry.id, documents⟩ sub.targetUrl row.payload) ↔
        s.db.Targets sub.endpointId sub.consumerId sub.targetUrl ∨
          ∃ c, c ≠ sub.consumerId ∧ s.db.DeadLetter e c 0 ∧
            s.db.Targets sub.endpointId c sub.targetUrl) := by
  obtain ⟨names, hsound, hfacts, -⟩ := Run.facts hdb hs
  obtain ⟨id, payload, e, c, hw, hletter⟩ := hfacts.failed row hrow hfailed
  obtain ⟨e', c', hw'⟩ := (hfacts.rows row hrow).named
  have hnamed : id = row.subscriptionId ∧ payload = row.payload := by
    simpa using hw.row.symm.trans hw'.row
  obtain ⟨rfl, rfl⟩ := hnamed
  have hsubscriber : c = sub.consumerId ∧ row.payload.endpointId = sub.endpointId := by
    have hsubfacts := hfacts.subs sub hsub
    rw [SubscriptionRow.Facts, hid, hw.subscription] at hsubfacts
    simpa using hsubfacts
  obtain ⟨rfl, hendpoint⟩ := hsubscriber
  have hdead : s.db.DeadLetter e sub.consumerId 0 := by
    obtain hdead | ⟨letter, hmem, -⟩ | ⟨d, hd, -⟩ := hletter
    · exact hdead
    · cases hmem
    · cases hd
  refine ⟨e, hw.known, ?_⟩
  rw [hfacts.toTableFacts.rePosts_iff hsound hw.event, hendpoint]
  constructor
  · rintro ⟨c, hc, htargets⟩
    by_cases heq : c = sub.consumerId
    · exact .inl (heq ▸ htargets)
    · exact .inr ⟨c, heq, hc, htargets⟩
  · rintro (htargets | ⟨c, -, hc, htargets⟩)
    · exact ⟨_, hdead, htargets⟩
    · exact ⟨c, hc, htargets⟩

end Runs

/-! ### A consumer with one subscription, and with two -/

/-- Two subscriptions of one consumer, with different targets. -/
def sampleShared : Db :=
  { sampleEndpoint with
    subscriptions := [sampleSubscription 3 1,
      { sampleSubscription 3 1 with id := 4, targetUrl := "http://consumer/other", createdAt := 4 }] }

/-- A request that submits a new schema, alone. -/
def sampleGivenUp (db : Db) : World Unit := worldOf db 10 fun _ => sampleRequest sampleNew

theorem sampleGivenUp_initial (db : Db) : Initial db 10 (sampleGivenUp db) :=
  worldOf_initial fun _ => .track _

/-- Up to the POST of the first webhook, which is answered 500. -/
def refuseFirst : List (Unit × Input) := List.replicate 14 ((), .proceed 0) ++ [((), .answer 500)]

/-- The records of a failure, the final update, and the next statement. -/
def recordFailure : List (Unit × Input) := List.replicate 5 ((), .proceed 0)

/-- What there is to recover and to recover it from. -/
structure Recovery where
  /-- The rows of the outbox. -/
  rows : List (Uuid × OutboxStatus)
  /-- The endpoints and consumers of the dead letters. -/
  letters : List (Uuid × String)
  subscriptions : List (Uuid × Uuid × String × String)
  /-- The newest subscription of the consumer. -/
  newest : Option (Bool × String)
  deriving DecidableEq

def recovery (s : World Unit) : Recovery where
  rows := s.db.outbox.map fun r => (r.subscriptionId, r.status)
  letters := s.db.dlq.map fun r => (r.endpointId, r.consumerId)
  subscriptions := s.db.subscriptions.map fun r => (r.id, r.endpointId, r.consumerId, r.targetUrl)
  newest := (s.db.newestSubscription 1 "consumer 3").map fun r => (r.active, r.targetUrl)

/-- A row that was given up, and its subscription. -/
theorem exists_given_up {s : World Unit} (hrow : (3, .failed) ∈ (recovery s).rows)
    (hsub : (3, 1, "consumer 3", "http://consumer/hook") ∈ (recovery s).subscriptions) :
    ∃ row ∈ s.db.outbox, row.status = .failed ∧ ∃ sub ∈ s.db.subscriptions,
      sub.id = row.subscriptionId ∧ sub.endpointId = 1 ∧ sub.consumerId = "consumer 3" ∧
      sub.targetUrl = "http://consumer/hook" := by
  obtain ⟨row, hrow, hkey⟩ := List.mem_map.mp hrow
  obtain ⟨sub, hsub, hsubkey⟩ := List.mem_map.mp hsub
  simp only [Prod.mk.injEq] at hkey hsubkey
  exact ⟨row, hrow, hkey.2, sub, hsub, hsubkey.1.trans hkey.1.symm, hsubkey.2⟩

/-- The only subscription of a consumer is served by a replay. -/
theorem given_up_recoverable_alone : ∃ s : World Unit,
    Reachable (program (sampleConfig true)).step (Initial sampleEndpoint 10) s ∧
    ∃ row ∈ s.db.outbox, row.status = .failed ∧ ∃ sub ∈ s.db.subscriptions,
      sub.id = row.subscriptionId ∧ ∃ entry ∈ s.db.dlq, ∀ documents,
        RePosts s.db ⟨entry.id, documents⟩ sub.targetUrl row.payload := by
  have hrun : (exec (program (sampleConfig true)).step (sampleGivenUp sampleEndpoint)
      (refuseFirst ++ recordFailure)).map recovery =
        some ⟨[(3, .failed)], [(1, "consumer 3")], [(3, 1, "consumer 3", "http://consumer/hook")],
          some (true, "http://consumer/hook")⟩ := by
    decide +kernel
  obtain ⟨s, hs, hend⟩ := Option.map_eq_some_iff.mp hrun
  obtain ⟨row, hrow, hfailed, sub, hsub, hid, hendpoint, hconsumer, hurl⟩ :=
    exists_given_up (s := s) (by rw [hend]; simp) (by rw [hend]; simp)
  obtain ⟨newest, hnewest, htarget⟩ :=
    Option.map_eq_some_iff.mp (congrArg Recovery.newest hend)
  obtain ⟨hactive, htarget⟩ := Prod.mk.inj htarget
  have hreach := reachable_of_exec (sampleGivenUp_initial sampleEndpoint) hs
  have hdb : sampleEndpoint.Unqueued 10 := ⟨rfl, rfl, by decide, by decide⟩
  obtain ⟨e, -, hiff⟩ := given_up_recoverable hdb hreach hrow hfailed hsub hid
  refine ⟨s, hreach, row, hrow, hfailed, sub, hsub, hid, hiff.mpr (.inl ⟨newest, ?_, hactive, ?_⟩)⟩
  · rw [hendpoint, hconsumer]
    exact hnewest
  · exact htarget.trans hurl.symm

/-- Both subscriptions of a consumer are given up. There is one dead letter, and a replay of it posts
to the newer one: nothing posts the event to the target of the other. -/
theorem older_subscription_not_recoverable : ¬∀ s : World Unit,
    Reachable (program (sampleConfig true)).step (Initial sampleShared 10) s →
    ∀ row ∈ s.db.outbox, row.status = .failed → ∀ sub ∈ s.db.subscriptions,
      sub.id = row.subscriptionId → ∃ entry ∈ s.db.dlq, ∀ documents,
        RePosts s.db ⟨entry.id, documents⟩ sub.targetUrl row.payload := by
  intro h
  have hrun : (exec (program (sampleConfig true)).step (sampleGivenUp sampleShared)
      (refuseFirst ++ recordFailure ++ [((), .answer 500)] ++ recordFailure)).map recovery =
        some ⟨[(3, .failed), (4, .failed)], [(1, "consumer 3")],
          [(3, 1, "consumer 3", "http://consumer/hook"),
            (4, 1, "consumer 3", "http://consumer/other")],
          some (true, "http://consumer/other")⟩ := by
    decide +kernel
  obtain ⟨s, hs, hend⟩ := Option.map_eq_some_iff.mp hrun
  obtain ⟨row, hrow, hfailed, sub, hsub, hid, -, -, htarget⟩ :=
    exists_given_up (s := s) (by rw [hend]; simp) (by rw [hend]; simp)
  obtain ⟨_, _, hposts⟩ :=
    h s (reachable_of_exec (sampleGivenUp_initial sampleShared) hs) row hrow hfailed sub hsub hid
  obtain ⟨entry, newest, hfind, hlookup, -, hurl, -⟩ := rePosts_iff.mp (hposts false)
  have hletters := congrArg Recovery.letters hend
  have hnewest := congrArg Recovery.newest hend
  have hentry : (entry.endpointId, entry.consumerId) ∈
      s.db.dlq.map fun r => (r.endpointId, r.consumerId) :=
    List.mem_map_of_mem (List.mem_of_find?_eq_some hfind)
  rw [show (s.db.dlq.map fun r => (r.endpointId, r.consumerId)) = _ from hletters,
    List.mem_singleton, Prod.mk.injEq] at hentry
  rw [hentry.1, hentry.2] at hlookup
  simp only [recovery, hlookup, Option.map_some, Option.some.injEq, Prod.mk.injEq] at hnewest
  have hsame := hnewest.2.symm.trans (hurl.trans htarget)
  revert hsame
  decide

end Driftgate.Runtime
