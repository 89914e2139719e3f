import Driftgate.Runtime.Announcements

/-!
# Lost notifications

A request inserts a webhook for every affected subscription in the transaction that registers the
version, so both are committed together, unless it delivers inline. An inline delivery commits in the
middle of the loop over the subscriptions: the version and the webhooks so far. If the request then
fails, the remaining subscriptions get no webhook, and the fast path takes the version for known from
then on.

The proof follows the loop. A request with a version in sight has inserted the webhooks of all
subscriptions but those still before it, and once the version is committed, those webhooks are
committed as well. Nobody else can commit the version, because its identifier is fresh.
-/

namespace Driftgate.Runtime

open Driftgate.ReadCommitted Driftgate.Transition

/-! ### The loop over the subscriptions -/

/-- How far a request has got with the webhooks of a notice. -/
structure Round where
  notice : Notice
  /-- Subscriptions whose webhook is not inserted. -/
  unseen : List SubscriptionRow
  /-- Subscriptions whose webhook may not be committed when the version is. -/
  unsaved : List SubscriptionRow

/-- The row of the version that the round is about. -/
def Notice.versionId (n : Notice) : Uuid := n.enqueue.drift.upserted.record.id

def EnqueuePc.round (q : Enqueue) : EnqueuePc → Option Round
  | .selectAffected => none
  | .insertOutbox affected sub rest => some ⟨⟨q, affected⟩, sub :: rest, sub :: rest⟩
  | .deliver affected sub rest _ _ => some ⟨⟨q, affected⟩, rest, sub :: rest⟩
  | .updateOutbox affected _ rest _ _ => some ⟨⟨q, affected⟩, rest, rest⟩

def TrackPc.round : TrackPc → Option Round
  | .enqueue q pc => pc.round q
  | .commit (some n) _ => some ⟨n, [], []⟩
  | _ => none

/-- The row of the version that a request has registered. -/
def TrackPc.registers : TrackPc → Option Uuid
  | .storeSnapshot u => if u.inserted then some u.record.id else none
  | .selectPrior u _ => some u.record.id
  | .storeDiff d => some d.upserted.record.id
  | .setClassification d => some d.upserted.record.id
  | .enqueue q _ => some q.drift.upserted.record.id
  | .commit (some n) _ => some n.versionId
  | _ => none

/-- A version row has the identifier. -/
def Db.HasVersionId (db : Db) (id : Uuid) : Prop := ∃ row ∈ db.versions, row.id = id

instance (db : Db) (id : Uuid) : Decidable (db.HasVersionId id) :=
  inferInstanceAs (Decidable (∃ row ∈ db.versions, row.id = id))

/-- The outbox has a webhook of the notice for the subscription. -/
def Db.Notifies (db : Db) (n : Notice) (sub : SubscriptionRow) : Prop :=
  ∃ row ∈ db.outbox, row.subscriptionId = sub.id ∧ row.payload = n.enqueue.payload

theorem hasVersionId_applyAll (cfg : Config) (ws : List Write) (db : Db) (id : Uuid) :
    ((program cfg).applyAll ws db).HasVersionId id ↔
      db.HasVersionId id ∨ ∃ row, .insertVersion row ∈ ws ∧ row.id = id :=
  versions_applyAll (·.id = id) (fun _ => Iff.rfl) (fun _ _ => Iff.rfl) cfg ws db

theorem notifies_applyAll (cfg : Config) (ws : List Write) (db : Db) (n : Notice)
    (sub : SubscriptionRow) :
    ((program cfg).applyAll ws db).Notifies n sub ↔
      db.Notifies n sub ∨ ∃ row, .insertOutbox row ∈ ws ∧
        row.subscriptionId = sub.id ∧ row.payload = n.enqueue.payload :=
  outbox_applyAll cfg (fun id p => id = sub.id ∧ p = n.enqueue.payload) ws db

theorem notifies_applyAll_of_notifies (cfg : Config) (ws : List Write) {db : Db} {n : Notice}
    {sub : SubscriptionRow} (h : db.Notifies n sub) :
    ((program cfg).applyAll ws db).Notifies n sub :=
  (notifies_applyAll cfg ws db n sub).mpr (.inl h)

section Condition

variable {ι : Type*}

/-- The version whose webhooks a request has not all committed. -/
def Party.notifying : Party → Option Uuid
  | .track p => p.pc.round.bind fun r => if r.unsaved.isEmpty then none else some r.notice.versionId
  | _ => none

/-- The condition that a request whose version row is committed does not fail, or lose its
transaction, before the webhooks of all selected subscriptions are committed. -/
def FinishesRound (s : World ι) (a : ι × Input) : Prop :=
  (s.loc a.1).loses a.2 = true → ∀ id ∈ (s.loc a.1).notifying, ¬s.db.HasVersionId id

instance (s : World ι) (a : ι × Input) : Decidable (FinishesRound s a) :=
  inferInstanceAs (Decidable (_ → _))

end Condition

/-! ### Steps of a request -/

/-- Everything that a step of a request's code can do to its round. `fresh` is the identifier of a
new row. -/
inductive RoundMove (cfg : Config) (pc : TrackPc) (fresh : Uuid) (x : Input) :
    Op Write LockKey Effect (Flow TrackPc TrackResult) → Prop
  /-- Before the round: the version may be registered. -/
  | before {ks : List LockKey} {ws : List Write} {pc' : TrackPc} (round : pc.round = none)
      (next_round : pc'.round = none) (ids : ∀ row, .insertVersion row ∈ ws → row.id = fresh)
      (registers : ∀ id ∈ pc'.registers,
        id ∈ pc.registers ∨ ∃ row, .insertVersion row ∈ ws ∧ row.id = id) :
      RoundMove cfg pc fresh x (.exec ks ws (.go pc'))
  | tell {e : Effect} {pc' : TrackPc} (round : pc'.round = pc.round)
      (registers : ∀ id ∈ pc'.registers, id ∈ pc.registers) :
      RoundMove cfg pc fresh x (.emit e (.go pc'))
  | select {ks : List LockKey} {pc' : TrackPc} (n : Notice) (round : pc.round = none)
      (next_round : pc'.round = some ⟨n, n.affected, n.affected⟩)
      (active : ∀ sub ∈ n.affected, sub.active = true)
      (registers : pc.registers = some n.versionId ∧ pc'.registers = some n.versionId) :
      RoundMove cfg pc fresh x (.exec ks [] (.go pc'))
  | insert {ks : List LockKey} {row : OutboxRow} {pc' : TrackPc} (n : Notice)
      (sub : SubscriptionRow) (rest : List SubscriptionRow)
      (round : pc.round = some ⟨n, sub :: rest, sub :: rest⟩)
      (next_round : sub.active = true → pc'.round = some ⟨n, rest,
        if cfg.inlineDelivery then sub :: rest else rest⟩)
      (webhook : row.subscriptionId = sub.id ∧ row.payload = n.enqueue.payload)
      (registers : pc.registers = some n.versionId ∧ pc'.registers = some n.versionId) :
      RoundMove cfg pc fresh x (.exec ks [.insertOutbox row] (.go pc'))
  | keep {ks : List LockKey} {ws : List Write} {pc' : TrackPc}
      (writes : ∀ w ∈ ws, w.adds = false) (round : pc'.round = pc.round)
      (registers : pc'.registers = pc.registers) : RoundMove cfg pc fresh x (.exec ks ws (.go pc'))
  | save {pc' : TrackPc} (n : Notice) (sub : SubscriptionRow) (rest : List SubscriptionRow)
      (round : pc.round = some ⟨n, rest, sub :: rest⟩) (next_round : pc'.round = some ⟨n, rest, rest⟩)
      (registers : pc.registers = some n.versionId ∧ pc'.registers = some n.versionId) :
      RoundMove cfg pc fresh x (.commit (.go pc'))
  | finish {r : TrackResult} (round : ∀ r ∈ pc.round, r.unseen = []) :
      RoundMove cfg pc fresh x (.commit (.done r))
  | rollback {pc' : TrackPc} (cause : pc.tolerates = false ∧ ∃ reason, x = .raise reason)
      (unsaved : ∀ r ∈ pc.round, r.unsaved ≠ []) (round : pc'.round = pc.round)
      (registers : pc'.registers = pc.registers) :
      RoundMove cfg pc fresh x (.rollback (.go pc'))
  | fail {ks : List LockKey} {ws : List Write} {e : Exc}
      (cause : pc.round = none ∨ pc.tolerates = false ∧ ∃ reason, x = .raise reason)
      (ids : ∀ row, .insertVersion row ∈ ws → row.id = fresh) :
      RoundMove cfg pc fresh x (.exec ks ws (.raised e))

/-- `upsert_schema_version` inserts the version that it returns as inserted, under a fresh
identifier. -/
theorem Upsert.step_inserts {cfg : Config} {u : Upsert} {pc : UpsertPc} {v : DbView} {x : Input}
    {op : Op Write LockKey Empty (Flow UpsertPc Upserted)} (h : u.step cfg pc v x = some op) :
    (∀ row, .insertVersion row ∈ op.writes → row.id = v.fresh) ∧
      ∀ r, op.next = .done r → r.inserted = true → .insertVersion r.record.stored ∈ op.writes := by
  obtain ⟨ks, ws, next, rfl, hmove⟩ := step_move h
  cases hmove with
  | versionInserted hfree =>
    refine ⟨fun row hrow => ?_, fun r hr _ => ?_⟩
    · cases List.mem_singleton.mp hrow
      rfl
    · cases hr
      exact List.mem_singleton_self _
  | _ =>
    refine ⟨by simp [Op.writes], fun r hr hinserted => ?_⟩
    cases hr <;> cases hinserted

theorem TrackCall.afterSnapshot_round (cfg : Config) (call : TrackCall) (u : Upserted) :
    (call.afterSnapshot cfg u).round = none := by
  rw [afterSnapshot]
  split <;> rfl

theorem TrackCall.afterSnapshot_registers (cfg : Config) (call : TrackCall) (u : Upserted) :
    ∀ id ∈ (call.afterSnapshot cfg u).registers, u.inserted = true ∧ id = u.record.id := by
  intro id hid
  rw [afterSnapshot] at hid
  split at hid
  · exact ⟨‹_›, (Option.some.inj hid).symm⟩
  · cases hid

theorem TrackCall.afterUpsert_round (cfg : Config) (call : TrackCall) (u : Upserted) :
    (call.afterUpsert cfg u).round = none := by
  rw [afterUpsert]
  split
  · rfl
  · exact call.afterSnapshot_round cfg u

theorem TrackCall.afterUpsert_registers (cfg : Config) (call : TrackCall) (u : Upserted) :
    ∀ id ∈ (call.afterUpsert cfg u).registers, u.inserted = true ∧ id = u.record.id := by
  intro id hid
  rw [afterUpsert] at hid
  split at hid
  · simp only [TrackPc.registers, Option.mem_ite_none_right] at hid
    exact ⟨hid.1, (Option.some.inj hid.2).symm⟩
  · exact call.afterSnapshot_registers cfg u id hid

/-- At the head of the loop the remaining webhooks are neither inserted nor committed. -/
theorem TrackCall.enqueueing_round (cfg : Config) (call : TrackCall) (q : Enqueue)
    (affected rest : List SubscriptionRow) :
    ∃ pc, call.enqueueing cfg q (Enqueue.next affected rest) = .go pc ∧
      pc.round = some ⟨⟨q, affected⟩, rest, rest⟩ ∧
      pc.registers = some q.drift.upserted.record.id := by
  cases rest with
  | nil => exact ⟨_, rfl, rfl, rfl⟩
  | cons sub rest => exact ⟨_, rfl, rfl, rfl⟩

theorem RoundMove.enqueue {cfg : Config} {call : TrackCall} {q : Enqueue} {pc : EnqueuePc}
    {v : DbView} {x : Input} {op : Op Write LockKey Effect (Flow EnqueuePc (List SubscriptionRow))}
    (h : q.step cfg pc v x = some op) :
    RoundMove cfg (.enqueue q pc) v.fresh x (op.map (call.enqueueing cfg q) id) := by
  cases Enqueue.step_move h with
  | selects affected haffected =>
    obtain ⟨pc', hgo, hround, hregisters⟩ := call.enqueueing_round cfg q affected affected
    simp only [Op.map, hgo]
    refine .select ⟨q, affected⟩ rfl hround (fun sub hsub => ?_) ⟨rfl, hregisters⟩
    rw [haffected] at hsub
    exact Db.affectedSubscriptions_active hsub
  | inserts affected sub rest hoff =>
    obtain ⟨pc', hgo, hround, hregisters⟩ := call.enqueueing_round cfg q affected rest
    simp only [Op.map, hgo]
    exact .insert ⟨q, affected⟩ sub rest rfl (fun _ => by simp [hoff, hround]) ⟨rfl, rfl⟩
      ⟨rfl, hregisters⟩
  | insertsActive affected sub rest hon =>
    exact .insert ⟨q, affected⟩ sub rest rfl (fun _ => by rw [if_pos hon]; rfl) ⟨rfl, rfl⟩ ⟨rfl, rfl⟩
  | insertsInactive affected sub rest _ hinactive =>
    refine .insert ⟨q, affected⟩ sub rest rfl (fun hactive => ?_) ⟨rfl, rfl⟩ ⟨rfl, rfl⟩
    rw [hinactive] at hactive
    cases hactive
  | delivers affected sub rest id pc hd =>
    cases Delivery.step_move hd with
    | answered | unanswered => exact .tell rfl fun _ h => h
    | success | failure => exact .keep (by simp [Delivery.insertAttempt, Write.adds]) rfl rfl
    | deadLetter => exact .keep (by simp [Delivery.upsertDlq, Write.adds]) rfl rfl
    | successRaises => exact .keep (by simp) rfl rfl
    | delivered | givenUp => exact .save ⟨q, affected⟩ sub rest rfl rfl ⟨rfl, rfl⟩
    | deliveredRaises =>
      exact .rollback ⟨rfl, _, rfl⟩ (by simp [TrackPc.round, EnqueuePc.round]) rfl rfl
    | failureRaises | deadLetterRaises | givenUpRaises =>
      exact .fail (.inr ⟨rfl, _, rfl⟩) (by simp)
  | updates affected sub rest id ok =>
    obtain ⟨pc', hgo, hround, hregisters⟩ := call.enqueueing_round cfg q affected rest
    simp only [Op.map, hgo]
    exact .keep (by simp [Write.adds]) hround hregisters
  | selectRaises => exact .fail (.inl rfl) (by simp)
  | insertRaises | updateRaises => exact .fail (.inr ⟨rfl, _, rfl⟩) (by simp)

/-- **What a step of a request does with its round.** -/
theorem TrackCall.roundMove {cfg : Config} {call : TrackCall} {pc : TrackPc} {v : DbView}
    {x : Input} {op : Op Write LockKey Effect (Flow TrackPc TrackResult)}
    (h : call.step cfg pc v x = some op) : RoundMove cfg pc v.fresh x op := by
  have hregisters : ∀ u, ∀ id ∈ (call.afterSnapshot cfg u).registers,
      id ∈ (TrackPc.storeSnapshot u).registers := by
    intro u id hid
    obtain ⟨hinserted, rfl⟩ := call.afterSnapshot_registers cfg u id hid
    simp [TrackPc.registers, hinserted]
  cases step_move h with
  | upserts pc hop =>
    obtain ⟨hids, hinserts⟩ := Upsert.step_inserts hop
    obtain ⟨ks, ws, next, rfl, -⟩ := Upsert.step_exec hop
    cases next with
    | go pc' => exact .before rfl rfl hids (by simp [TrackPc.registers])
    | done u =>
      refine .before rfl (call.afterUpsert_round cfg u) hids fun id hid => .inr ?_
      obtain ⟨hinserted, rfl⟩ := call.afterUpsert_registers cfg u id hid
      exact ⟨u.record.stored, hinserts u rfl hinserted, rfl⟩
    | raised e => exact .fail (.inl rfl) hids
  | storesSnapshot u => exact .tell (call.afterSnapshot_round cfg u) (hregisters u)
  | skipsSnapshot u =>
    exact .before rfl (call.afterSnapshot_round cfg u) (by simp)
      fun id hid => .inl (hregisters u id hid)
  | storesDiff d => exact .tell rfl fun _ h => h
  | comparesStored | compares | skipsDiff | classifies =>
    exact .before rfl rfl (by simp) fun _ h => .inl h
  | enqueues q pc hop => exact RoundMove.enqueue hop
  | commits n r =>
    refine .finish fun r hr => ?_
    cases n with
    | none => cases hr
    | some n => cases hr; rfl
  | comparisonFails | priorMissing | priorRaises | classifyRaises => exact .fail (.inl rfl) (by simp)
  | commitRaises => exact .fail (.inr ⟨rfl, _, rfl⟩) (by simp)

/-! ### Every version row has one author -/

/-- A new version row gets a fresh identifier, and a request names no version row but the one it has
registered. -/
theorem RoundMove.ids {cfg : Config} {pc : TrackPc} {fresh : Uuid} {x : Input}
    {op : Op Write LockKey Effect (Flow TrackPc TrackResult)} (h : RoundMove cfg pc fresh x op) :
    (∀ row, .insertVersion row ∈ op.writes → row.id = fresh) ∧
      ∀ pc', op.next = .go pc' → ∀ id ∈ pc'.registers,
        id ∈ pc.registers ∨ ∃ row, .insertVersion row ∈ op.writes ∧ row.id = id := by
  have hsame : ∀ {pc' : TrackPc} {ws : List Write}, pc'.registers = pc.registers →
      ∀ pc'', (Flow.go pc' : Flow TrackPc TrackResult) = .go pc'' → ∀ id ∈ pc''.registers,
        id ∈ pc.registers ∨ ∃ row, .insertVersion row ∈ ws ∧ row.id = id := by
    intro pc' ws heq pc'' hgo id hid
    cases hgo
    rw [heq] at hid
    exact .inl hid
  cases h with
  | before round next_round ids registers =>
    refine ⟨ids, fun pc' hgo => ?_⟩
    cases hgo
    exact registers
  | tell round registers =>
    refine ⟨by simp [Op.writes], fun pc' hgo id hid => ?_⟩
    cases hgo
    exact .inl (registers id hid)
  | select n round next_round active registers =>
    exact ⟨by simp [Op.writes], hsame (registers.2.trans registers.1.symm)⟩
  | insert n sub rest round next_round webhook registers =>
    exact ⟨by simp [Op.writes], hsame (registers.2.trans registers.1.symm)⟩
  | keep writes round registers =>
    exact ⟨fun row hrow => (by cases writes _ hrow), hsame registers⟩
  | save n sub rest round next_round registers =>
    exact ⟨by simp [Op.writes], hsame (registers.2.trans registers.1.symm)⟩
  | finish round => exact ⟨by simp [Op.writes], fun pc' hgo => (by cases hgo)⟩
  | rollback cause unsaved round registers => exact ⟨by simp [Op.writes], hsame registers⟩
  | fail cause ids => exact ⟨ids, fun pc' hgo => (by cases hgo)⟩

/-- The version row that a party has registered. -/
def Party.registered : Party → Option Uuid
  | .track p => p.pc.registers
  | _ => none

theorem Party.step_ids {cfg : Config} {p : Party} {v : DbView} {x : Input}
    {op : Op Write LockKey Effect Party} (h : p.next cfg v x = some op) :
    (∀ row, .insertVersion row ∈ op.writes → row.id = v.fresh) ∧
      ∀ id ∈ op.next.registered,
        id ∈ p.registered ∨ ∃ row, .insertVersion row ∈ op.writes ∧ row.id = id := by
  have hquiet : ∀ {ws : List Write}, (∀ w ∈ ws, w.adds = false) →
      ∀ row, .insertVersion row ∈ ws → row.id = v.fresh :=
    fun hws row hrow => (by cases hws _ hrow)
  cases p with
  | track p =>
    obtain ⟨op', hop', rfl⟩ := Option.map_eq_some_iff.mp h
    rw [Op.writes_map, Op.next_map]
    obtain ⟨rfl, rfl⟩ | ⟨ok, t, rfl, ht, rfl⟩ | ⟨cop, hrun, hcode, rfl⟩ | ⟨e, hst, rfl⟩ :=
      TrackProc.next_cases hop'
    · exact ⟨by simp [Op.writes], fun id hid => .inl hid⟩
    · exact ⟨by simp [Op.writes], fun id hid => .inl hid⟩
    · rw [Op.writes_map, Op.next_map]
      obtain ⟨hids, hregisters⟩ := (TrackCall.roundMove hcode).ids
      refine ⟨hids, fun id hid => ?_⟩
      cases hn : cop.next with
      | go pc' =>
        rw [hn] at hid
        exact hregisters pc' hn id hid
      | _ =>
        rw [hn] at hid
        exact .inl hid
    · exact ⟨by simp [Op.writes], fun id hid => .inl hid⟩
  | worker pc =>
    obtain ⟨op', hop', rfl⟩ := Option.map_eq_some_iff.mp h
    rw [Op.writes_map, Op.next_map]
    exact ⟨hquiet (WorkerPc.step_payloads hop').2.2, fun id hid => (by cases hid)⟩
  | subscription call pc =>
    obtain ⟨op', hop', rfl⟩ := Option.map_eq_some_iff.mp h
    rw [Op.writes_map, Op.next_map]
    refine ⟨hquiet fun w hw => ?_, fun id hid => ?_⟩
    · have ht := SubscriptionCall.step_table hop' w hw
      exact Write.adds_of_table (by simp [ht]) (by simp [ht])
    · cases hn : op'.next <;> rw [hn] at hid <;> cases hid
  | finished =>
    cases x <;> simp only [Party.next, reduceCtorEq, Option.some.injEq] at h
    subst h
    exact ⟨by simp [Op.writes], fun id hid => (by cases hid)⟩

theorem Party.Starting.registered {p : Party} (h : p.Starting) : p.registered = none := by
  cases h <;> rfl

/-- The version rows that a party has inserted or registered. -/
def versionIds (o : Own Write LockKey Party) : Set Uuid :=
  {id | (∃ row, .insertVersion row ∈ o.pending ∧ row.id = id) ∨ id ∈ o.loc.registered}

/-- Version rows as things in hand. They never change hands. -/
def versionOwnership (ι : Type*) : Ownership Db Write LockKey Effect Party ι Uuid where
  inHand := versionIds
  Free := fun _ _ => True
  Busy := fun id w _ => id < w.fresh

theorem versionIds_own {cfg : Config} {o : Own Write LockKey Party} {v : DbView} {x : Input}
    {op : Op Write LockKey Effect Party} (h : o.loc.next cfg v x = some op) {id : Uuid}
    (hid : id ∈ versionIds (op.own o)) : id ∈ versionIds o ∨ id = v.fresh := by
  obtain ⟨hids, hregistered⟩ := Party.step_ids h
  have hpending : ∀ row, .insertVersion row ∈ op.pendingAfter o.pending →
      .insertVersion row ∈ o.pending ∨ row.id = v.fresh := by
    intro row hrow
    cases op with
    | exec ks ws next =>
      obtain hrow | hrow := List.mem_append.mp hrow
      · exact .inl hrow
      · exact .inr (hids row hrow)
    | emit e next => exact .inl hrow
    | commit next => cases hrow
    | rollback next => cases hrow
  obtain ⟨row, hrow, hid⟩ | hid := hid
  · obtain hrow | hfresh := hpending row hrow
    · exact .inl (.inl ⟨row, hrow, hid⟩)
    · exact .inr (hid.symm.trans hfresh)
  · obtain hid | ⟨row, hrow, hid⟩ := hregistered id hid
    · exact .inl (.inr hid)
    · exact .inr (hid.symm.trans (hids row hrow))

section Ids

variable {ι : Type*} [DecidableEq ι] {cfg : Config} {db : Db} {fresh : Uuid}

/-- **Authors.** In every run no two parties have inserted or registered one version row. -/
theorem Run.version_ids {good : World ι → ι × Input → Prop} {s : World ι}
    (hs : Run (program cfg).step good (Initial db fresh) s) : (versionOwnership ι).Holds s := by
  refine Run.ownership ?_ ?_ hs
  · intro s hs
    have hempty : ∀ i id, id ∉ versionIds (s.own i) := by
      intro i id hid
      obtain ⟨row, hrow, -⟩ | hid := hid
      · rw [show (s.own i).pending = s.pending i from rfl, hs.pending i] at hrow
        cases hrow
      · rw [show (s.own i).loc = s.loc i from rfl, (hs.starting i).registered] at hid
        cases hid
    exact ⟨fun i j id hid => absurd hid (hempty i id), fun _ _ => trivial,
      fun i id hid => absurd hid (hempty i id)⟩
  · intro s i x op _ hI _ hop _
    have hids : ∀ id ∈ versionIds (op.own (s.own i)), id ∈ versionIds (s.own i) ∨ id = s.fresh :=
      fun id hid => versionIds_own (o := s.own i) (v := s.view (program cfg) i) hop hid
    constructor
    · intro id hid hnew j hj hidj
      obtain hold | rfl := hids id hid
      · exact hnew hold
      · exact Nat.lt_irrefl _ (hI.busy j _ hidj)
    · intro id hid
      show id < (op.shared (program cfg) i (s.pending i) s.toShared).fresh
      rw [Op.fresh_shared]
      obtain hold | rfl := hids id hid
      · exact Nat.lt_succ_of_lt (hI.busy i id hold)
      · exact Nat.lt_succ_self _
    · exact fun _ _ _ => trivial
    · refine fun id _ _ => ⟨fun _ => trivial, fun o hb => ?_⟩
      show id < (op.shared (program cfg) i (s.pending i) s.toShared).fresh
      rw [Op.fresh_shared]
      exact Nat.lt_succ_of_lt hb

end Ids

/-! ### The invariant -/

/-- When the version is stored, the outbox has the webhooks of all affected subscriptions but some. -/
def Db.Covers (db : Db) (n : Notice) (but : List SubscriptionRow) : Prop :=
  db.HasVersionId n.versionId → ∀ sub ∈ n.affected, sub ∈ but ∨ db.Notifies n sub

theorem Db.Covers.mono {db db' : Db} {n : Notice} {but : List SubscriptionRow}
    (h : db.Covers n but) (hid : db'.HasVersionId n.versionId → db.HasVersionId n.versionId)
    (hnotifies : ∀ sub, db.Notifies n sub → db'.Notifies n sub) : db'.Covers n but :=
  fun hversion sub hsub => (h (hid hversion) sub hsub).imp_right (hnotifies sub)

theorem Db.Covers.of_not {db : Db} {n : Notice} (h : ¬db.HasVersionId n.versionId)
    (but : List SubscriptionRow) : db.Covers n but :=
  fun hid => absurd hid h

theorem TrackPc.registers_of_round {pc : TrackPc} {r : Round} (h : pc.round = some r) :
    pc.registers = some r.notice.versionId := by
  cases pc with
  | enqueue q pc => cases pc <;> cases h <;> rfl
  | commit n result =>
    cases n with
    | none => cases h
    | some n => cases h; rfl
  | _ => cases h

section Invariant

variable (cfg : Config) (db : Db) (ws : List Write)

/-- What holds of a running request with the open transaction `ws`. -/
structure TrackPc.OnRound (pc : TrackPc) : Prop where
  before : pc.round = none → ∀ id ∈ pc.registers, ¬db.HasVersionId id
  seen : ∀ r ∈ pc.round, ((program cfg).applyAll ws db).Covers r.notice r.unseen
  saved : ∀ r ∈ pc.round, db.Covers r.notice r.unsaved
  active : ∀ r ∈ pc.round, ∀ sub ∈ r.unsaved, sub.active = true
  /-- Without inline delivery the version is committed at the end. -/
  offline : cfg.inlineDelivery = false → ∀ r ∈ pc.round,
    r.unsaved = r.unseen ∧ ¬db.HasVersionId r.notice.versionId

/-- What holds of a request. -/
def TrackProc.Notifies (p : TrackProc) : Prop :=
  if p.running then p.pc.OnRound cfg db ws else ∀ r ∈ p.pc.round, db.Covers r.notice []

def Party.NotifiesAll (o : Own Write LockKey Party) : Prop :=
  match o.loc with
  | .track p => p.Notifies cfg db o.pending
  | _ => True

end Invariant

theorem TrackProc.notifies_of_running {cfg : Config} {db : Db} {ws : List Write} {p : TrackProc}
    (hp : p.running = true) : p.Notifies cfg db ws ↔ p.pc.OnRound cfg db ws := by
  rw [Notifies, if_pos hp]

theorem TrackProc.notifies_of_ended {cfg : Config} {db : Db} {ws : List Write} {p : TrackProc}
    (hp : p.running = false) : p.Notifies cfg db ws ↔ ∀ r ∈ p.pc.round, db.Covers r.notice [] := by
  rw [Notifies, hp]
  exact Iff.rfl

variable {cfg : Config} {db : Db} {ws : List Write}

/-! ### Steps of the others -/

/-- Other parties add webhooks, and they do not add the version. -/
theorem TrackPc.OnRound.mono {pc : TrackPc} {db' : Db} (h : pc.OnRound cfg db ws)
    (hid : ∀ id ∈ pc.registers, db'.HasVersionId id → db.HasVersionId id)
    (hnotifies : ∀ n sub, db.Notifies n sub → db'.Notifies n sub) : pc.OnRound cfg db' ws := by
  have hround : ∀ r ∈ pc.round, db'.HasVersionId r.notice.versionId →
      db.HasVersionId r.notice.versionId := fun r hr => hid _ (registers_of_round hr)
  constructor
  · exact fun hnone id hr hv => h.before hnone id hr (hid id hr hv)
  · intro r hr
    refine (h.seen r hr).mono (fun hv => ?_) fun sub hsub => ?_
    · rw [hasVersionId_applyAll] at hv ⊢
      exact hv.imp_left (hround r hr)
    · rw [notifies_applyAll] at hsub ⊢
      exact hsub.imp_left (hnotifies _ sub)
  · exact fun r hr => (h.saved r hr).mono (hround r hr) (hnotifies _)
  · exact h.active
  · exact fun hoff r hr => ⟨(h.offline hoff r hr).1, fun hv => (h.offline hoff r hr).2 (hround r hr hv)⟩

theorem TrackProc.Notifies.mono {p : TrackProc} {db' : Db} (h : p.Notifies cfg db ws)
    (hid : ∀ id ∈ p.pc.registers, db'.HasVersionId id → db.HasVersionId id)
    (hnotifies : ∀ n sub, db.Notifies n sub → db'.Notifies n sub) : p.Notifies cfg db' ws := by
  cases hp : p.running with
  | true =>
    rw [notifies_of_running hp] at h ⊢
    exact h.mono hid hnotifies
  | false =>
    rw [notifies_of_ended hp] at h ⊢
    exact fun r hr => (h r hr).mono (hid _ (TrackPc.registers_of_round hr)) (hnotifies _)

/-! ### Steps of a request keep the invariant -/

section Self

variable {p : TrackProc} {x : Input} {fresh : Uuid}

/-- A request that fails, where its version is not committed or all webhooks are. -/
theorem TrackPc.OnRound.ended {pc : TrackPc} (h : pc.OnRound cfg db ws)
    (hgood : cfg.inlineDelivery = true → ∀ r ∈ pc.round, r.unsaved ≠ [] →
      ¬db.HasVersionId r.notice.versionId) : ∀ r ∈ pc.round, db.Covers r.notice [] := by
  intro r hr
  cases hinline : cfg.inlineDelivery with
  | false => exact .of_not (h.offline hinline r hr).2 []
  | true =>
    by_cases hunsaved : r.unsaved = []
    · exact hunsaved ▸ h.saved r hr
    · exact .of_not (hgood hinline r hr hunsaved) []

/-- The state after a step of a request's code. -/
theorem TrackProc.Notifies.code {op : Op Write LockKey Effect (Flow TrackPc TrackResult)}
    (hp : p.running = true) (h : p.pc.OnRound cfg db ws)
    (hfresh : ∀ row ∈ db.versions, row.id < fresh)
    (hgood : cfg.inlineDelivery = true → (Party.track p).loses x = true →
      ∀ r ∈ p.pc.round, r.unsaved ≠ [] → ¬db.HasVersionId r.notice.versionId)
    (hmove : RoundMove cfg p.pc fresh x op) :
    (p.after cfg op.next).Notifies cfg
      (match op with | .commit _ => (program cfg).applyAll ws db | _ => db) (op.pendingAfter ws) := by
  have hgo : ∀ {pc' : TrackPc} {db' : Db} {ws' : List Write}, pc'.OnRound cfg db' ws' →
      (p.after cfg (.go pc')).Notifies cfg db' ws' :=
    fun h' => (notifies_of_running (after_running hp _)).mpr h'
  have hloses : p.pc.tolerates = false → (∃ reason, x = .raise reason) →
      (Party.track p).loses x = true := by
    rintro ht ⟨reason, hx⟩
    rw [hx]
    simp [Party.loses, hp, ht]
  -- the round goes on as before
  have hsame : ∀ {pc' : TrackPc} {ws' : List Write}, pc'.round = p.pc.round →
      (∀ id ∈ pc'.registers, id ∈ p.pc.registers) →
      (∀ r ∈ p.pc.round, ((program cfg).applyAll ws' db).Covers r.notice r.unseen) →
      pc'.OnRound cfg db ws' := by
    intro pc' ws' hround hregisters hseen
    exact ⟨fun hnone id hid => h.before (hround ▸ hnone) id (hregisters id hid), hround ▸ hseen,
      hround ▸ h.saved, hround ▸ h.active, hround ▸ h.offline⟩
  cases hmove with
  | before round next_round ids registers =>
    rename_i ks ws' pc'
    have hnone : ∀ {P : Round → Prop}, ∀ r ∈ pc'.round, P r := by
      intro P r hr
      rw [next_round] at hr
      cases hr
    refine hgo ⟨fun _ id hid => ?_, hnone, hnone, hnone, fun _ => hnone⟩
    obtain hid | ⟨row, hrow, hid⟩ := registers id hid
    · exact h.before round id hid
    · rintro ⟨row', hrow', hid'⟩
      have hlt := hfresh row' hrow'
      rw [hid', ← hid, ids row hrow] at hlt
      exact Nat.lt_irrefl _ hlt
  | tell round registers => exact hgo (hsame round registers h.seen)
  | select n round next_round active registers =>
    rename_i ks pc'
    have hr : ∀ {P : Round → Prop}, P ⟨n, n.affected, n.affected⟩ → ∀ r ∈ pc'.round, P r := by
      intro P hP r hr
      rw [next_round] at hr
      cases hr
      exact hP
    refine hgo ⟨fun hnone => ?_, hr ?_, hr ?_, hr active, fun _ => hr ⟨rfl, ?_⟩⟩
    · rw [next_round] at hnone
      cases hnone
    · exact fun _ sub hsub => .inl hsub
    · exact fun _ sub hsub => .inl hsub
    · exact h.before round _ registers.1
  | insert n sub rest round next_round webhook registers =>
    rename_i ks row pc'
    have hactive := h.active _ round
    have hround := next_round (hactive sub List.mem_cons_self)
    have hr : ∀ {P : Round → Prop}, P ⟨n, rest, if cfg.inlineDelivery then sub :: rest else rest⟩ →
        ∀ r ∈ pc'.round, P r := by
      intro P hP r hr
      rw [hround] at hr
      cases hr
      exact hP
    refine hgo ⟨fun hnone => ?_, hr ?_, hr ?_, hr fun sub' hsub' => hactive sub' ?_,
      fun hoff => hr ⟨?_, (h.offline hoff _ round).2⟩⟩
    · rw [hround] at hnone
      cases hnone
    · intro hv sub' hsub'
      show sub' ∈ rest ∨ ((program cfg).applyAll (ws ++ [.insertOutbox row]) db).Notifies n sub'
      rw [notifies_applyAll]
      have hv' : ((program cfg).applyAll ws db).HasVersionId n.versionId := by
        rw [hasVersionId_applyAll] at hv ⊢
        simpa [Op.pendingAfter] using hv
      obtain hrest | hnotified := h.seen _ round hv' sub' hsub'
      · obtain rfl | hrest := List.mem_cons.mp hrest
        · exact .inr (.inr ⟨row, by simp, webhook⟩)
        · exact .inl hrest
      · rw [notifies_applyAll] at hnotified
        refine .inr (hnotified.imp_right ?_)
        rintro ⟨row', hrow', hmatch⟩
        exact ⟨row', List.mem_append_left _ hrow', hmatch⟩
    · cases hinline : cfg.inlineDelivery with
      | true => exact h.saved ⟨n, sub :: rest, sub :: rest⟩ round
      | false => exact .of_not (h.offline hinline _ round).2 _
    · split at hsub'
      · exact hsub'
      · exact List.mem_cons_of_mem _ hsub'
    · rw [hoff]
      rfl
  | keep writes round registers =>
    rename_i ks ws' pc'
    refine hgo (hsame round (fun id hid => registers ▸ hid) fun r hr => (h.seen r hr).mono ?_ ?_)
    · intro hv
      rw [Op.pendingAfter, hasVersionId_applyAll] at hv
      rw [hasVersionId_applyAll]
      refine hv.imp_right ?_
      rintro ⟨row, hrow, hid⟩
      refine ⟨row, ?_, hid⟩
      obtain hrow | hrow := List.mem_append.mp hrow
      · exact hrow
      · cases writes _ hrow
    · intro sub hsub
      rw [Op.pendingAfter, Program.applyAll_append]
      exact notifies_applyAll_of_notifies cfg ws' hsub
  | save n sub rest round next_round registers =>
    rename_i pc'
    have hr : ∀ {P : Round → Prop}, P ⟨n, rest, rest⟩ → ∀ r ∈ pc'.round, P r := by
      intro P hP r hr
      rw [next_round] at hr
      cases hr
      exact hP
    have hseen : ((program cfg).applyAll ws db).Covers n rest := h.seen _ round
    refine hgo ⟨fun hnone => ?_, hr hseen, hr hseen, hr fun sub' hsub' => ?_, fun hoff => ?_⟩
    · rw [next_round] at hnone
      cases hnone
    · exact h.active _ round sub' (List.mem_cons_of_mem sub hsub')
    · exact absurd (h.offline hoff _ round).1 (List.cons_ne_self sub rest)
  | finish round =>
    refine (notifies_of_ended rfl).mpr fun r hr => ?_
    have hseen := h.seen r hr
    rw [round r hr] at hseen
    exact hseen
  | rollback cause unsaved round registers =>
    rename_i pc'
    refine hgo (hsame round (fun id hid => registers ▸ hid) fun r hr => ?_)
    cases hinline : cfg.inlineDelivery with
    | false => exact .of_not (h.offline hinline r hr).2 _
    | true => exact .of_not (hgood hinline (hloses cause.1 cause.2) r hr (unsaved r hr)) _
  | fail cause ids =>
    refine (notifies_of_ended rfl).mpr ?_
    obtain hnone | ⟨ht, hx⟩ := cause
    · intro r hr
      rw [show r ∈ p.pc.round from hr] at hnone
      cases hnone
    · exact h.ended fun hinline => hgood hinline (hloses ht hx)

theorem TrackProc.Notifies.next {v : DbView} {op : Op Write LockKey Effect TrackProc}
    (h : p.Notifies cfg db ws) (hfresh : ∀ row ∈ db.versions, row.id < v.fresh)
    (hgood : cfg.inlineDelivery = true → (Party.track p).loses x = true →
      ∀ r ∈ p.pc.round, r.unsaved ≠ [] → ¬db.HasVersionId r.notice.versionId)
    (hop : p.next cfg v x = some op) :
    op.next.Notifies cfg
      (match op with | .commit _ => (program cfg).applyAll ws db | _ => db) (op.pendingAfter ws) := by
  obtain ⟨rfl, rfl⟩ | ⟨ok, t, rfl, ht, rfl⟩ | ⟨cop, hrun, hcode, rfl⟩ | ⟨e, hst, rfl⟩ :=
    next_cases hop
  · refine (notifies_of_ended p.halt_running).mpr ?_
    cases hp : p.running with
    | true =>
      rw [notifies_of_running hp] at h
      exact h.ended fun hinline => hgood hinline hp
    | false => exact (notifies_of_ended hp).mp h
  · exact h
  · have hp : p.running = true := by rw [running, hrun]
    have hstep := code hp ((notifies_of_running hp).mp h) hfresh hgood (TrackCall.roundMove hcode)
    cases cop <;> exact hstep
  · have hp : p.running = false := by rw [running, hst]
    exact (notifies_of_ended rfl).mpr ((notifies_of_ended hp).mp h)

end Self

theorem Party.NotifiesAll.next {o : Own Write LockKey Party} {v : DbView} {x : Input}
    {op : Op Write LockKey Effect Party} (h : Party.NotifiesAll cfg db o)
    (hfresh : ∀ row ∈ db.versions, row.id < v.fresh)
    (hgood : cfg.inlineDelivery = true → o.loc.loses x = true →
      ∀ id ∈ o.loc.notifying, ¬db.HasVersionId id)
    (hop : o.loc.next cfg v x = some op) :
    Party.NotifiesAll cfg
      (match op with | .commit _ => (program cfg).applyAll o.pending db | _ => db) (op.own o) := by
  obtain ⟨p, pending, held⟩ := o
  cases p with
  | track p =>
    obtain ⟨op', hop', rfl⟩ := Option.map_eq_some_iff.mp hop
    have hstep := TrackProc.Notifies.next h hfresh (fun hinline hloses r hr hunsaved => ?_) hop'
    · cases op' <;> exact hstep
    · refine hgood hinline hloses _ ?_
      simp [notifying, show p.pc.round = some r from hr, hunsaved]
  | worker pc =>
    obtain ⟨op', -, rfl⟩ := Option.map_eq_some_iff.mp hop
    cases op' <;> trivial
  | subscription call pc =>
    obtain ⟨op', -, rfl⟩ := Option.map_eq_some_iff.mp hop
    have hidle : ∀ f db' ws ks, NotifiesAll cfg db' ⟨subscribing call f, ws, ks⟩ := by
      intro f db' ws ks
      cases f <;> trivial
    cases op' <;> exact hidle _ _ _ _
  | finished =>
    cases x <;> simp only [Party.next, reduceCtorEq, Option.some.injEq] at hop
    subst hop
    trivial

/-! ### Every run -/

section Runs

variable {ι : Type*} [DecidableEq ι] {fresh : Uuid} {s : World ι}

theorem Run.notifies_all (hdb : ∀ row ∈ db.versions, row.id < fresh)
    (hs : Run (program cfg).step (fun s a => cfg.inlineDelivery = true → FinishesRound s a)
      (Initial db fresh) s) (i : ι) : Party.NotifiesAll cfg s.db (s.own i) := by
  have hs' : Run (program cfg).step (fun s a => (cfg.inlineDelivery = true → FinishesRound s a) ∧
      (versionOwnership ι).Holds s) (Initial db fresh) s :=
    hs.mono fun t a ht hgood => ⟨hgood, Run.version_ids ht⟩
  refine (Run.noninterference (G := fun w => ∀ row ∈ w.db.versions, row.id < w.fresh)
    (A := fun _ w o => Party.NotifiesAll cfg w.db o) ?_ ?_ ?_ hs').2 i
  · intro s hs
    refine ⟨?_, fun i => ?_⟩
    · show ∀ row ∈ s.db.versions, row.id < s.fresh
      rwa [hs.db, hs.fresh]
    · have hstart := hs.starting i
      show Party.NotifiesAll cfg s.db ⟨s.loc i, s.pending i, _⟩
      cases hloc : s.loc i with
      | track p =>
        rw [hloc] at hstart
        cases hstart
        refine (TrackProc.notifies_of_running rfl).mpr ?_
        exact ⟨by simp [TrackProc.start, TrackPc.registers],
          by simp [TrackProc.start, TrackPc.round], by simp [TrackProc.start, TrackPc.round],
          by simp [TrackProc.start, TrackPc.round], by simp [TrackProc.start, TrackPc.round]⟩
      | _ => trivial
  · intro s i x op hgood hfresh hA hop _
    refine ⟨?_, ?_⟩
    · intro row hrow
      rw [Op.fresh_shared]
      cases op with
      | commit next =>
        obtain ⟨row', hrow', hid⟩ | ⟨row', hrow', hid⟩ :=
          (hasVersionId_applyAll cfg (s.pending i) s.db row.id).mp ⟨row, hrow, rfl⟩
        · exact hid ▸ Nat.lt_succ_of_lt (hfresh row' hrow')
        · exact Nat.lt_succ_of_lt (hgood.2.busy i row.id (.inl ⟨row', hrow', hid⟩))
      | _ => exact Nat.lt_succ_of_lt (hfresh row hrow)
    · have hnext := (hA i).next (v := s.view (program cfg) i) hfresh hgood.1 hop
      cases op <;> exact hnext
  · intro s i j x op hj hgood _ hA hop
    have hA := hA j
    show Party.NotifiesAll cfg _ ⟨s.loc j, s.pending j, _⟩
    cases hloc : s.loc j with
    | track p =>
      rw [Party.NotifiesAll, show (s.own j).loc = .track p from hloc] at hA
      refine TrackProc.Notifies.mono hA (fun id hid hv => ?_) fun n sub hsub => ?_
      · cases op with
        | commit next =>
          obtain hv | ⟨row, hrow, hrid⟩ := (hasVersionId_applyAll cfg (s.pending i) s.db id).mp hv
          · exact hv
          · refine absurd (hgood.2.exclusive j i id (.inr ?_) (.inl ⟨row, hrow, hrid⟩)) hj
            rw [show (s.own j).loc = .track p from hloc]
            exact hid
        | _ => exact hv
      · cases op with
        | commit next => exact notifies_applyAll_of_notifies cfg (s.pending i) hsub
        | _ => exact hsub
    | _ => trivial

/-- **No lost notification.** In every run in which, with inline delivery, no request whose version
row is committed fails or loses its transaction before the webhooks of all selected subscriptions
are committed: when a request has ended and the version row it has registered is committed, the
outbox has a webhook of that version for every selected subscription. -/
theorem selected_subscriptions_notified (hdb : ∀ row ∈ db.versions, row.id < fresh)
    (hs : Run (program cfg).step (fun s a => cfg.inlineDelivery = true → FinishesRound s a)
      (Initial db fresh) s) {i : ι} {p : TrackProc} (hloc : s.loc i = .track p)
    (hended : p.running = false) {r : Round} (hr : p.pc.round = some r)
    (hcommitted : s.db.HasVersionId r.notice.versionId) :
    ∀ sub ∈ r.notice.affected, ∃ row ∈ s.db.outbox,
      row.subscriptionId = sub.id ∧ row.payload = r.notice.enqueue.payload := by
  intro sub hsub
  have h := Run.notifies_all hdb hs i
  rw [Party.NotifiesAll, show (s.own i).loc = .track p from hloc] at h
  have hcovers := (TrackProc.notifies_of_ended hended).mp h r hr
  exact (hcovers hcommitted sub hsub).resolve_left List.not_mem_nil

end Runs

/-! ### An endpoint with two subscriptions -/

def sampleTwo : Db :=
  { sampleEndpoint with subscriptions := [sampleSubscription 3 1, sampleSubscription 4 1] }

/-- A request that submits a new schema, alone. -/
def sampleAlone : World Unit := worldOf sampleTwo 10 fun _ => sampleRequest sampleNew

theorem sampleAlone_initial : Initial sampleTwo 10 sampleAlone := worldOf_initial fun _ => .track _

/-- The first webhook is delivered and its success record committed. -/
def deliverFirst : List (Unit × Input) :=
  List.replicate 14 ((), .proceed 0) ++ [((), .answer 200)] ++ List.replicate 2 ((), .proceed 0)

/-- The final update, the second webhook, and the commit of the request. -/
def deliverSecond : List (Unit × Input) :=
  List.replicate 2 ((), .proceed 0) ++ [((), .answer 500)] ++ List.replicate 5 ((), .proceed 0)

/-- What is left of the request: whether it runs, the subscriptions it has selected, whether its
version is committed, and the subscriptions with a committed webhook. -/
def outcome (s : World Unit) : Option (Bool × List Uuid × Bool × List Uuid) :=
  match s.loc () with
  | .track p => p.pc.round.map fun r => (p.running, r.notice.affected.map (·.id),
      decide (s.db.HasVersionId r.notice.versionId), s.db.outbox.map (·.subscriptionId))
  | _ => none

theorem outcome_some {s : World Unit} {o : Bool × List Uuid × Bool × List Uuid}
    (h : outcome s = some o) : ∃ p r, s.loc () = .track p ∧ p.pc.round = some r ∧
      p.running = o.1 ∧ r.notice.affected.map (·.id) = o.2.1 ∧
      decide (s.db.HasVersionId r.notice.versionId) = o.2.2.1 ∧
      s.db.outbox.map (·.subscriptionId) = o.2.2.2 := by
  rw [outcome] at h
  split at h
  · obtain ⟨r, hr, rfl⟩ := Option.map_eq_some_iff.mp h
    exact ⟨_, r, ‹_›, hr, rfl, rfl, rfl, rfl⟩
  · cases h

/-- A request that returns has webhooks for both subscriptions, delivered or not. -/
theorem selected_subscriptions_notified_two : ∃ s : World Unit,
    Run (program (sampleConfig true)).step
      (fun s a => (sampleConfig true).inlineDelivery = true → FinishesRound s a)
      (Initial sampleTwo 10) s ∧
    ∃ p r, s.loc () = .track p ∧ p.pc.round = some r ∧ r.notice.affected.map (·.id) = [3, 4] ∧
      ∀ sub ∈ r.notice.affected, ∃ row ∈ s.db.outbox,
        row.subscriptionId = sub.id ∧ row.payload = r.notice.enqueue.payload := by
  have hrun : (exec (program (sampleConfig true)).step sampleAlone
      (deliverFirst ++ deliverSecond)).map outcome = some (some (false, [3, 4], true, [3, 4])) := by
    decide +kernel
  obtain ⟨s, hs, hout⟩ := Option.map_eq_some_iff.mp hrun
  obtain ⟨p, r, hloc, hr, hended, haffected, hversion, -⟩ := outcome_some hout
  have hgood : Along (program (sampleConfig true)).step
      (fun s a => (sampleConfig true).inlineDelivery = true → FinishesRound s a) sampleAlone
      (deliverFirst ++ deliverSecond) := by
    decide +kernel
  have hreach := Run.of_exec (.start sampleAlone_initial) hgood hs
  exact ⟨s, hreach, p, r, hloc, hr, haffected,
    selected_subscriptions_notified (by decide) hreach hloc hended hr (of_decide_eq_true hversion)⟩

/-- The process stops after the first webhook is delivered: the version is committed, and the second
subscription has no webhook. -/
theorem second_subscription_lost : ¬∀ s : World Unit,
    Reachable (program (sampleConfig true)).step (Initial sampleTwo 10) s →
    ∀ i p r, s.loc i = .track p → p.running = false → p.pc.round = some r →
      s.db.HasVersionId r.notice.versionId → ∀ sub ∈ r.notice.affected,
        ∃ row ∈ s.db.outbox, row.subscriptionId = sub.id ∧ row.payload = r.notice.enqueue.payload := by
  intro h
  have hrun : (exec (program (sampleConfig true)).step sampleAlone
      (deliverFirst ++ [((), .stop)])).map outcome = some (some (false, [3, 4], true, [3])) := by
    decide +kernel
  obtain ⟨s, hs, hout⟩ := Option.map_eq_some_iff.mp hrun
  obtain ⟨p, r, hloc, hr, hended, haffected, hversion, hrows⟩ := outcome_some hout
  obtain ⟨sub, hsub, hid⟩ := List.mem_map.mp
    (show 4 ∈ r.notice.affected.map (·.id) by simp [haffected])
  obtain ⟨row, hrow, hrid, -⟩ := h s (reachable_of_exec sampleAlone_initial hs) () p r hloc hended hr
    (of_decide_eq_true hversion) sub hsub
  have hmem := List.mem_map_of_mem (f := (·.subscriptionId)) hrow
  rw [hrows, hrid, hid] at hmem
  revert hmem
  decide

end Driftgate.Runtime
