import Driftgate.Runtime.DeliveryRuns
import Driftgate.Runtime.DriftReport
import Driftgate.Runtime.Rows

/-!
# Announced versions

A request announces the version it has registered before it commits it: in a document, in the POSTs
of an inline delivery, and in an event that a detached task may publish at once. Nothing takes an
announcement back. If the request then fails, its transaction is rolled back and the version that
was announced never exists.

A request that does not fail between an announcement and the commit of its version keeps the
promise. A worker only announces versions that are committed, since it reads its webhooks from
committed rows.
-/

namespace Driftgate.Runtime

open Driftgate.ReadCommitted Driftgate.Transition

/-! ### Stored versions -/

/-- A version of an endpoint: the identifier of the endpoint and the number. -/
abbrev VersionKey := Uuid × ℕ

def VersionRow.versionKey (r : VersionRow) : VersionKey := (r.endpointId, r.version)

def Upserted.versionKey (u : Upserted) : VersionKey := (u.endpointId, u.record.version)

def Drift.versionKey (d : Drift) : VersionKey := d.upserted.versionKey

def DriftEvent.versionKey (e : DriftEvent) : VersionKey := (e.endpointId, e.newVersion)

def WebhookPayload.versionKey (p : WebhookPayload) : VersionKey := (p.endpointId, p.newVersion)

/-- The version has a row in `contract_schema_versions`. -/
def Db.HasVersion (db : Db) (k : VersionKey) : Prop := ∃ row ∈ db.versions, row.versionKey = k

instance (db : Db) (k : VersionKey) : Decidable (db.HasVersion k) :=
  inferInstanceAs (Decidable (∃ row ∈ db.versions, row.versionKey = k))

/-- Every webhook in the outbox is about a stored version. -/
def Db.Sound (db : Db) : Prop := ∀ row ∈ db.outbox, db.HasVersion row.payload.versionKey

/-- A transaction sees the versions that are committed and those it has inserted. -/
theorem hasVersion_applyAll (cfg : Config) (ws : List Write) (db : Db) (k : VersionKey) :
    ((program cfg).applyAll ws db).HasVersion k ↔
      db.HasVersion k ∨ ∃ row, .insertVersion row ∈ ws ∧ row.versionKey = k :=
  versions_applyAll (·.versionKey = k) (fun _ => Iff.rfl) (fun _ _ => Iff.rfl) cfg ws db

theorem hasVersion_applyAll_of_hasVersion (cfg : Config) (ws : List Write) {db : Db}
    {k : VersionKey} (h : db.HasVersion k) : ((program cfg).applyAll ws db).HasVersion k :=
  (hasVersion_applyAll cfg ws db k).mpr (.inl h)

/-- What a transaction sees it still sees when others have committed more versions. -/
theorem hasVersion_applyAll_mono (cfg : Config) {ws : List Write} {db db' : Db} {k : VersionKey}
    (hdb : ∀ k, db.HasVersion k → db'.HasVersion k)
    (h : ((program cfg).applyAll ws db).HasVersion k) :
    ((program cfg).applyAll ws db').HasVersion k := by
  rw [hasVersion_applyAll] at h ⊢
  exact h.imp_left (hdb k)

/-- A transaction whose own webhooks are about versions it sees sees only such webhooks. -/
theorem Db.Sound.applyAll {cfg : Config} {db : Db} {ws : List Write} (h : db.Sound)
    (hws : ∀ row, .insertOutbox row ∈ ws →
      ((program cfg).applyAll ws db).HasVersion row.payload.versionKey) :
    ((program cfg).applyAll ws db).Sound := by
  intro row hrow
  obtain ⟨r, hr, hpayload⟩ | ⟨r, hr, hpayload⟩ :=
    (outbox_applyAll cfg (fun _ p => p = row.payload) ws db).mp ⟨row, hrow, rfl⟩
  · rw [← hpayload]
    exact hasVersion_applyAll_of_hasVersion cfg ws (h r hr)
  · rw [← hpayload]
    exact hws r hr

/-! ### Announcements -/

/-- The version that an effect announces. An event the publisher has not accepted announces
nothing. -/
def Effect.announces : Effect → Option VersionKey
  | .snapshotStored _ _ => none
  | .diffStored drift => some drift.versionKey
  | .posted _ post => some post.payload.versionKey
  | .published event ok => if ok then some event.versionKey else none

/-- The version of the event that a request has scheduled. -/
def TrackProc.scheduled (p : TrackProc) : Option VersionKey :=
  p.task.map fun t => t.event.versionKey

def Party.scheduled : Party → Option VersionKey
  | .track p => p.scheduled
  | _ => none

/-- The version that a request has found or registered. -/
def TrackPc.versionKey : TrackPc → Option VersionKey
  | .upsert _ => none
  | .storeSnapshot u => some u.versionKey
  | .selectPrior u _ => some u.versionKey
  | .storeDiff d => some d.versionKey
  | .setClassification d => some d.versionKey
  | .enqueue q _ => some q.drift.versionKey
  | .commit notice _ => notice.map fun n => n.enqueue.drift.versionKey

/-- The version that an inline delivery has posted, up to the commit of the success record. -/
def TrackPc.posted : TrackPc → Option VersionKey
  | .enqueue q (.deliver _ _ _ _ pc) => if pc.answered then some q.drift.versionKey else none
  | _ => none

/-- Whether the request goes on in the same transaction when what it waits for raises. A failed
commit of a success record is caught as well, but the transaction is lost. -/
def TrackPc.tolerates : TrackPc → Bool
  | .storeSnapshot _ => true
  | .storeDiff _ => true
  | .enqueue _ (.deliver _ _ _ _ (.post _)) => true
  | .enqueue _ (.deliver _ _ _ _ (.insertSuccess _)) => true
  | _ => false

/-- Whether an input makes a request fail or lose its transaction. -/
def Party.loses : Party → Input → Bool
  | .track p, .stop => p.running
  | .track p, .raise _ => p.running && !p.pc.tolerates
  | _, _ => false

section Condition

variable {ι : Type*}

/-- The condition that no request fails or loses its transaction while a version that it has
announced, or whose event it has scheduled, is not committed. An event that is only scheduled is
lost with its process. -/
def KeepsPromises (s : World ι) (a : ι × Input) : Prop :=
  (s.loc a.1).loses a.2 = true →
    (∀ e ∈ s.trace, e.1 = a.1 → ∀ k ∈ e.2.announces, s.db.HasVersion k) ∧
    (a.2 ≠ .stop → ∀ k ∈ (s.loc a.1).scheduled, s.db.HasVersion k)

instance [DecidableEq ι] (s : World ι) (a : ι × Input) : Decidable (KeepsPromises s a) :=
  inferInstanceAs (Decidable (_ → _ ∧ (_ → _)))

end Condition

/-! ### Steps of a request -/

/-- Everything that a step of a request's code can do to the version it is about. -/
inductive TrackMove (cfg : Config) (pc : TrackPc) (db : Db) (x : Input) :
    Op Write LockKey Effect (Flow TrackPc TrackResult) → Prop
  | work {ks : List LockKey} {ws : List Write} {pc' : TrackPc}
      (version : ∀ k ∈ pc'.versionKey,
        k ∈ pc.versionKey ∨ ((program cfg).applyAll ws db).HasVersion k)
      (rows : ∀ row, .insertOutbox row ∈ ws → row.payload.versionKey ∈ pc.versionKey)
      (early : pc'.early = true → pc.early = true) (posted : ∀ k ∈ pc'.posted, k ∈ pc.posted) :
      TrackMove cfg pc db x (.exec ks ws (.go pc'))
  | tell {e : Effect} {pc' : TrackPc} (announces : ∀ k ∈ e.announces, k ∈ pc.versionKey)
      (version : ∀ k ∈ pc'.versionKey, k ∈ pc.versionKey)
      (early : pc'.early = true → pc.early = true ∧ e.announces = none)
      (posted : ∀ k ∈ pc'.posted, k ∈ e.announces) :
      TrackMove cfg pc db x (.emit e (.go pc'))
  | commit {f : Flow TrackPc TrackResult} (returns : ∀ e, f ≠ .raised e)
      (version : ∀ pc', f = .go pc' →
        pc'.versionKey = pc.versionKey ∧ pc'.early = false ∧ pc'.posted = none) :
      TrackMove cfg pc db x (.commit f)
  | rollback {pc' : TrackPc} (cause : pc.tolerates = false ∧ ∃ reason, x = .raise reason)
      (version : pc'.versionKey = pc.posted ∧ pc'.early = false ∧ pc'.posted = none) :
      TrackMove cfg pc db x (.rollback (.go pc'))
  | fail {ks : List LockKey} {ws : List Write} {e : Exc}
      (cause : pc.early = true ∨ pc.tolerates = false ∧ ∃ reason, x = .raise reason)
      (rows : ∀ row, .insertOutbox row ∈ ws → row.payload.versionKey ∈ pc.versionKey) :
      TrackMove cfg pc db x (.exec ks ws (.raised e))

/-- What `upsert_schema_version` returns is a version that the request sees. -/
theorem Upsert.step_done {cfg : Config} {u : Upsert} {pc : UpsertPc} {v : DbView} {x : Input}
    {op : Op Write LockKey Empty (Flow UpsertPc Upserted)} (h : u.step cfg pc v x = some op)
    {r : Upserted} (hr : op.next = .done r) :
    ((program cfg).applyAll op.writes v.db).HasVersion r.versionKey := by
  have hfound : ∀ {e : Uuid} {row : VersionRow}, v.db.versionOf e u.fingerprint = some row →
      v.db.HasVersion (Upserted.versionKey ⟨e, row, false⟩) := by
    intro e row hrow
    obtain ⟨he, -⟩ : row.endpointId = e ∧ row.fingerprint = u.fingerprint := by
      simpa using List.find?_some hrow
    exact ⟨row, List.mem_of_find?_eq_some hrow, congrArg (fun e => (e, row.version)) he⟩
  obtain ⟨ks, ws, next, rfl, hmove⟩ := step_move h
  cases hmove with
  | fastFound hrow | found current hrow =>
    cases hr
    exact hfound hrow
  | versionInserted hfree =>
    cases hr
    exact (hasVersion_applyAll ..).mpr (.inr ⟨_, List.mem_singleton_self _, rfl⟩)
  | _ => cases hr

theorem TrackCall.afterSnapshot_versionKey (cfg : Config) (call : TrackCall) (u : Upserted) :
    ∀ k ∈ (call.afterSnapshot cfg u).versionKey, k = u.versionKey := by
  intro k hk
  rw [afterSnapshot] at hk
  split at hk
  · exact (Option.some.inj hk).symm
  · cases hk

theorem TrackCall.afterSnapshot_posted (cfg : Config) (call : TrackCall) (u : Upserted) :
    (call.afterSnapshot cfg u).posted = none := by
  rw [afterSnapshot]
  split <;> rfl

theorem TrackCall.afterUpsert_versionKey (cfg : Config) (call : TrackCall) (u : Upserted) :
    ∀ k ∈ (call.afterUpsert cfg u).versionKey, k = u.versionKey := by
  intro k hk
  rw [afterUpsert] at hk
  split at hk
  · exact (Option.some.inj hk).symm
  · exact call.afterSnapshot_versionKey cfg u k hk

theorem TrackCall.afterUpsert_posted (cfg : Config) (call : TrackCall) (u : Upserted) :
    (call.afterUpsert cfg u).posted = none := by
  rw [afterUpsert]
  split
  · rfl
  · exact call.afterSnapshot_posted cfg u

/-- The code of a request after a step of `_enqueue_webhook_outbox`. -/
def TrackCall.enqueueing (cfg : Config) (call : TrackCall) (q : Enqueue) :
    Flow EnqueuePc (List SubscriptionRow) → Flow TrackPc TrackResult :=
  Flow.bind (.enqueue q) fun affected => .go (call.afterEnqueue cfg q affected)

/-- At the head of the loop a request is about the same version. -/
theorem TrackCall.enqueueing_next (cfg : Config) (call : TrackCall) (q : Enqueue)
    (affected rest : List SubscriptionRow) :
    ∃ pc, call.enqueueing cfg q (Enqueue.next affected rest) = .go pc ∧
      pc.versionKey = some q.drift.versionKey ∧ pc.early = false ∧ pc.posted = none := by
  cases rest with
  | nil => exact ⟨_, rfl, rfl, rfl, rfl⟩
  | cons sub rest => exact ⟨_, rfl, rfl, rfl, rfl⟩

theorem TrackMove.enqueue {cfg : Config} {call : TrackCall} {q : Enqueue} {pc : EnqueuePc}
    {v : DbView} {x : Input} {op : Op Write LockKey Effect (Flow EnqueuePc (List SubscriptionRow))}
    (h : q.step cfg pc v x = some op) :
    TrackMove cfg (.enqueue q pc) v.db x (op.map (call.enqueueing cfg q) id) := by
  have hsame : ∀ pc' : TrackPc, pc'.versionKey = some q.drift.versionKey →
      ∀ k ∈ pc'.versionKey, k ∈ (TrackPc.enqueue q pc).versionKey := by
    intro pc' hpc' k hk
    rw [hpc'] at hk
    exact hk
  have hrows : ∀ now id sub row, Write.insertOutbox row ∈ [Write.insertOutbox (q.newRow id now sub)] →
      row.payload.versionKey ∈ some q.drift.versionKey := by
    intro now id sub row hrow
    cases List.mem_singleton.mp hrow
    rfl
  cases Enqueue.step_move h with
  | selects affected =>
    obtain ⟨pc', hgo, hversion, hearly, hposted⟩ := call.enqueueing_next cfg q affected affected
    simp only [Op.map, hgo]
    exact .work (fun k hk => .inl (hsame pc' hversion k hk)) (by simp) (by simp [hearly])
      (by simp [hposted])
  | inserts affected sub rest =>
    obtain ⟨pc', hgo, hversion, hearly, hposted⟩ := call.enqueueing_next cfg q affected rest
    simp only [Op.map, hgo]
    exact .work (fun k hk => .inl (hsame pc' hversion k hk)) (hrows _ _ _) (by simp [hearly])
      (by simp [hposted])
  | insertsActive | insertsInactive =>
    exact .work (fun k hk => .inl hk) (hrows _ _ _) (by simp [TrackPc.early])
      (by simp [TrackPc.posted, DeliverPc.answered])
  | delivers affected sub rest id pc hd =>
    cases Delivery.step_move hd with
    | answered n code =>
      refine .tell (fun k hk => hk) (fun k hk => hk) (by simp [TrackPc.early]) fun k hk => ?_
      simp only [TrackPc.posted, Option.mem_ite_none_right] at hk
      exact hk.2
    | unanswered n reason =>
      exact .tell (fun k hk => hk) (fun k hk => hk) (by simp [TrackPc.early])
        (by simp [TrackPc.posted, DeliverPc.answered])
    | success n =>
      exact .work (fun k hk => .inl hk) (by simp [Delivery.insertAttempt])
        (by simp [TrackPc.early]) fun k hk => hk
    | successRaises n reason =>
      exact .work (fun k hk => .inl hk) (by simp) (by simp [TrackPc.early])
        (by simp [TrackPc.posted, DeliverPc.answered])
    | deliveredRaises n reason => exact .rollback ⟨rfl, _, rfl⟩ ⟨rfl, rfl, rfl⟩
    | failure n reason =>
      exact .work (fun k hk => .inl hk) (by simp [Delivery.insertAttempt]) (by simp [TrackPc.early])
        (by simp [TrackPc.posted, (q.delivery sub).afterFailure_answered n reason])
    | deadLetter reason =>
      exact .work (fun k hk => .inl hk) (by simp [Delivery.upsertDlq])
        (by simp [TrackPc.early]) (by simp [TrackPc.posted, DeliverPc.answered])
    | delivered | givenUp =>
      refine .commit (fun e he => (by cases he)) fun pc' hgo => ?_
      cases hgo
      exact ⟨rfl, rfl, rfl⟩
    | failureRaises | deadLetterRaises | givenUpRaises =>
      exact .fail (.inr ⟨rfl, _, rfl⟩) (by simp)
  | updates affected sub rest id ok =>
    obtain ⟨pc', hgo, hversion, hearly, hposted⟩ := call.enqueueing_next cfg q affected rest
    simp only [Op.map, hgo]
    exact .work (fun k hk => .inl (hsame pc' hversion k hk)) (by simp) (by simp [hearly])
      (by simp [hposted])
  | selectRaises | insertRaises | updateRaises => exact .fail (.inr ⟨rfl, _, rfl⟩) (by simp)

/-- **What a step of a request does with its version.** -/
theorem TrackCall.trackMove {cfg : Config} {call : TrackCall} {pc : TrackPc} {v : DbView}
    {x : Input} {op : Op Write LockKey Effect (Flow TrackPc TrackResult)}
    (h : call.step cfg pc v x = some op) : TrackMove cfg pc v.db x op := by
  cases step_move h with
  | upserts pc hop =>
    obtain ⟨ks, ws, next, rfl, hws⟩ := Upsert.step_exec hop
    have hrows : ∀ row, .insertOutbox row ∈ ws → row.payload.versionKey ∈ (none : Option VersionKey) := by
      intro row hrow
      cases (hws _ hrow).outboxId
    cases next with
    | go pc' => exact .work (by simp [TrackPc.versionKey]) hrows (fun _ => rfl) (by simp [TrackPc.posted])
    | done u =>
      refine .work (fun k hk => .inr ?_) hrows (fun _ => rfl) ?_
      · rw [call.afterUpsert_versionKey cfg u k hk]
        exact Upsert.step_done hop rfl
      · rw [call.afterUpsert_posted]
        simp
    | raised e => exact .fail (.inl rfl) hrows
  | storesSnapshot u =>
    refine .tell (by simp [Effect.announces]) (fun k hk => ?_) (fun _ => ⟨rfl, rfl⟩) ?_
    · rw [call.afterSnapshot_versionKey cfg u k hk]
      rfl
    · rw [call.afterSnapshot_posted]
      simp
  | skipsSnapshot u =>
    refine .work (fun k hk => .inl ?_) (by simp) (fun _ => rfl) ?_
    · rw [call.afterSnapshot_versionKey cfg u k hk]
      rfl
    · rw [call.afterSnapshot_posted]
      simp
  | comparesStored | compares =>
    exact .work (fun k hk => .inl hk) (by simp) (fun _ => rfl) (by simp [TrackPc.posted])
  | storesDiff d =>
    exact .tell (fun k hk => hk) (fun k hk => hk) (by simp [TrackPc.early]) (by simp [TrackPc.posted])
  | skipsDiff | classifies =>
    exact .work (fun k hk => .inl hk) (by simp) (by simp [TrackPc.early]) (by simp [TrackPc.posted])
  | enqueues q pc hop => exact TrackMove.enqueue hop
  | commits n r => exact .commit (by simp) (by simp)
  | comparisonFails | priorMissing | priorRaises => exact .fail (.inl rfl) (by simp)
  | classifyRaises | commitRaises => exact .fail (.inr ⟨rfl, _, rfl⟩) (by simp)

/-! ### Steps of a worker -/

/-- A write that adds a version or a webhook. -/
def Write.adds : Write → Bool
  | .insertVersion _ => true
  | .insertOutbox _ => true
  | _ => false

theorem Write.adds_of_table {w : Write} (h : w.table ≠ .versions) (h' : w.table ≠ .outbox) :
    w.adds = false := by
  cases w <;> first | rfl | exact absurd rfl h | exact absurd rfl h'

def payloads (item : OutboxRow) (rest : List OutboxRow) : List WebhookPayload :=
  (item :: rest).map (·.payload)

/-- The webhooks that a worker has in memory. -/
def WorkerPc.payloads : WorkerPc → List WebhookPayload
  | .markDelivering item rest _ => Runtime.payloads item rest
  | .commitMark item rest _ => Runtime.payloads item rest
  | .selectSubscription item rest _ => Runtime.payloads item rest
  | .deliver item rest _ args _ => args.payload :: Runtime.payloads item rest
  | .conclude item rest _ _ => Runtime.payloads item rest
  | .upsertDlq item rest _ _ => Runtime.payloads item rest
  | .commitItem item rest _ => Runtime.payloads item rest
  | _ => []

/-- The webhooks that are left are among those of the batch. -/
theorem WorkerPc.nextItem_payloads {n : ℕ} {items : List OutboxRow} {q : WebhookPayload}
    (h : q ∈ (nextItem n items).payloads) : ∃ row ∈ items, row.payload = q := by
  cases items with
  | nil => cases h
  | cons item rest => exact List.mem_map.mp h

theorem WorkerPc.delivering_payloads {item : OutboxRow} {rest : List OutboxRow} {n : ℕ}
    {args : Delivery} {f : Flow DeliverPc Bool} {q : WebhookPayload}
    (h : q ∈ (delivering item rest n args f).payloads) :
    q = args.payload ∨ q ∈ Runtime.payloads item rest := by
  cases f with
  | go pc => exact List.mem_cons.mp h
  | done ok => exact .inr h
  | raised e => cases h

/-- A delivery posts its payload. -/
theorem Delivery.step_emit {d : Delivery} {pc : DeliverPc} {v : DbView} {x : Input} {post : Post}
    {next : Flow DeliverPc Bool} (h : d.step pc v x = some (.emit post next)) :
    post.payload = d.payload := by
  cases step_move h <;> rfl

/-- **What a step of a worker does with webhooks.** It takes them from the outbox, posts those it
has, and adds neither versions nor webhooks. -/
theorem WorkerPc.step_payloads {pc : WorkerPc} {v : DbView} {x : Input}
    {op : Op Write LockKey Effect WorkerPc} (h : pc.step v x = some op) :
    (∀ q ∈ op.next.payloads, q ∈ pc.payloads ∨ ∃ row ∈ v.db.outbox, row.payload = q) ∧
    (∀ e next, op = .emit e next → ∃ q ∈ pc.payloads, e.announces = some q.versionKey) ∧
    ∀ w ∈ op.writes, w.adds = false := by
  by_cases hdeliver : ∃ item rest n args dpc, pc = .deliver item rest n args dpc
  · obtain ⟨item, rest, n, args, dpc, rfl⟩ := hdeliver
    obtain ⟨-, rfl⟩ | ⟨op', hop', rfl⟩ := deliver_cases h
    · simp [Op.next, Op.writes, payloads]
    · refine ⟨fun q hq => .inl ?_, fun e next he => ?_, fun w hw => ?_⟩
      · rw [Op.next_map] at hq
        exact List.mem_cons.mpr (delivering_payloads hq)
      · cases op' with
        | emit post next' =>
          cases he
          refine ⟨args.payload, List.mem_cons_self, ?_⟩
          rw [← Delivery.step_emit hop']
          rfl
        | _ => cases he
      · rw [Op.writes_map] at hw
        obtain ht | ht := Delivery.step_table hop' w hw <;>
          exact Write.adds_of_table (by simp [ht]) (by simp [ht])
  have hnot : ∀ item rest n args dpc, pc ≠ .deliver item rest n args dpc :=
    fun item rest n args dpc hpc => hdeliver ⟨item, rest, n, args, dpc, hpc⟩
  by_cases hx : x.crash = true
  · obtain rfl | rfl := step_crash h hx hnot <;> simp [Op.next, Op.writes, payloads]
  · obtain ⟨now, rfl⟩ := step_proceed h (Bool.eq_false_of_not_eq_true hx) hnot
    cases pc with
    | deliver item rest n args dpc => exact absurd rfl (hnot item rest n args dpc)
    | poll =>
      obtain rfl := Option.some.inj h
      refine ⟨fun q hq => .inr ?_, by simp, by simp [Op.writes]⟩
      obtain ⟨row, hrow, hq⟩ := nextItem_payloads hq
      exact ⟨row, (mem_selectBatch hrow).1, hq⟩
    | selectSubscription item rest n =>
      simp only [step] at h
      split at h <;> obtain rfl := Option.some.inj h
      · exact ⟨fun q hq => .inl hq, by simp, by simp [Op.writes]⟩
      · refine ⟨fun q hq => .inl ?_, by simp, by simp [Op.writes]⟩
        obtain rfl | hq := delivering_payloads hq
        · exact List.mem_cons_self
        · exact hq
    | conclude item rest n how =>
      obtain rfl := Option.some.inj h
      refine ⟨fun q hq => .inl ?_, by simp, by simp [Op.writes, Write.adds]⟩
      cases how <;> exact hq
    | commitItem item rest n =>
      obtain rfl := Option.some.inj h
      refine ⟨fun q hq => .inl ?_, by simp, by simp [Op.writes]⟩
      exact List.mem_cons_of_mem _ (List.mem_map.mpr (nextItem_payloads hq))
    | close n =>
      obtain rfl := Option.some.inj h
      refine ⟨fun q hq => ?_, by simp, by simp [Op.writes]⟩
      simp only [Op.next] at hq
      split at hq <;> cases hq
    | ended => cases h
    | _ =>
      obtain rfl := Option.some.inj h
      exact ⟨fun q hq => .inl hq, by simp, by
        simp [Op.writes, Write.adds, deadLetter, Delivery.upsertDlq]⟩

/-! ### The invariant -/

section Invariant

variable {ι : Type*} (cfg : Config) (i : ι) (w : Shared Db Effect ι)

/-- The database that a request vouches for: what it sees while it runs, and what is committed once
it has ended. -/
def TrackProc.base (p : TrackProc) (ws : List Write) : Db :=
  if p.running then (program cfg).applyAll ws w.db else w.db

/-- What holds of the request `i` with the open transaction `ws`. -/
structure TrackProc.Truthful (p : TrackProc) (ws : List Write) : Prop where
  announced : ∀ e ∈ w.trace, e.1 = i → ∀ k ∈ e.2.announces, (p.base cfg w ws).HasVersion k
  scheduled : ∀ k ∈ p.scheduled, (p.base cfg w ws).HasVersion k
  known : p.running = true → ∀ k ∈ p.pc.versionKey, ((program cfg).applyAll ws w.db).HasVersion k
  enqueued : ∀ row, .insertOutbox row ∈ ws →
    ((program cfg).applyAll ws w.db).HasVersion row.payload.versionKey
  /-- Before the comparison nothing has been announced. -/
  early : p.running = true → p.pc.early = true →
    p.scheduled = none ∧ ∀ e ∈ w.trace, e.1 = i → e.2.announces = none
  posted : p.running = true → ∀ k ∈ p.pc.posted, ∃ e ∈ w.trace, e.1 = i ∧ k ∈ e.2.announces

/-- What holds of every other party: it has announced committed versions only, and the webhooks it
has in memory are about committed versions. -/
structure Party.Cautious (p : Party) (ws : List Write) : Prop where
  announced : ∀ e ∈ w.trace, e.1 = i → ∀ k ∈ e.2.announces, w.db.HasVersion k
  payloads : ∀ pc, p = .worker pc → ∀ q ∈ pc.payloads, w.db.HasVersion q.versionKey
  writes : ∀ w ∈ ws, w.adds = false

def Party.Truthful (o : Own Write LockKey Party) : Prop :=
  match o.loc with
  | .track p => p.Truthful cfg i w o.pending
  | p => p.Cautious i w o.pending

end Invariant

variable {ι : Type*} {cfg : Config} {i : ι} {w : Shared Db Effect ι} {ws : List Write}

theorem TrackProc.base_of_running {p : TrackProc} (h : p.running = true) :
    p.base cfg w ws = (program cfg).applyAll ws w.db := by
  rw [base, if_pos h]

theorem TrackProc.base_of_ended {p : TrackProc} (h : p.running = false) :
    p.base cfg w ws = w.db := by
  rw [base, h]
  rfl

theorem TrackProc.base_of_hasVersion (p : TrackProc) {k : VersionKey} (h : w.db.HasVersion k) :
    (p.base cfg w ws).HasVersion k := by
  rw [base]
  split
  · exact hasVersion_applyAll_of_hasVersion cfg ws h
  · exact h

/-- A transaction that adds no versions sees those that are committed. -/
theorem hasVersion_of_adds {k : VersionKey} {db : Db} (hws : ∀ w ∈ ws, w.adds = false)
    (h : ((program cfg).applyAll ws db).HasVersion k) : db.HasVersion k := by
  obtain h | ⟨row, hrow, -⟩ := (hasVersion_applyAll cfg ws db k).mp h
  · exact h
  · cases hws _ hrow

/-! ### Steps of the others -/

/-- An operation of another party commits versions and adds to the trace, no more. -/
structure Grows (w w' : Shared Db Effect ι) (i : ι) : Prop where
  db : ∀ k, w.db.HasVersion k → w'.db.HasVersion k
  trace : ∀ e, e ∈ w.trace → e ∈ w'.trace
  own : ∀ e ∈ w'.trace, e.1 = i → e ∈ w.trace

theorem Op.hasVersion_shared (op : Op Write LockKey Effect Party) {k : VersionKey}
    (h : w.db.HasVersion k) : (op.shared (program cfg) i ws w).db.HasVersion k := by
  cases op with
  | commit next => exact hasVersion_applyAll_of_hasVersion cfg ws h
  | _ => exact h

theorem Op.mem_trace_shared (op : Op Write LockKey Effect Party) (e : ι × Effect) :
    e ∈ (op.shared (program cfg) i ws w).trace ↔
      e ∈ w.trace ∨ ∃ effect next, op = .emit effect next ∧ e = (i, effect) := by
  cases op with
  | emit effect next =>
    show e ∈ w.trace ++ [(i, effect)] ↔ _
    simp
  | _ => simp [Op.shared]

theorem Op.grows {j : ι} (op : Op Write LockKey Effect Party) (hj : j ≠ i) :
    Grows w (op.shared (program cfg) i ws w) j where
  db := fun k h => Op.hasVersion_shared op h
  trace := fun e h => (Op.mem_trace_shared op e).mpr (.inl h)
  own := by
    intro e h he
    obtain h | ⟨effect, next, -, rfl⟩ := (Op.mem_trace_shared op e).mp h
    · exact h
    · exact absurd he.symm hj

theorem TrackProc.Truthful.grows {w' : Shared Db Effect ι} {p : TrackProc}
    (h : p.Truthful cfg i w ws) (hg : Grows w w' i) : p.Truthful cfg i w' ws := by
  have hbase : ∀ k, (p.base cfg w ws).HasVersion k → (p.base cfg w' ws).HasVersion k := by
    intro k hk
    by_cases hp : p.running = true
    · rw [base_of_running hp] at hk ⊢
      exact hasVersion_applyAll_mono cfg hg.db hk
    · rw [base_of_ended (Bool.eq_false_of_not_eq_true hp)] at hk ⊢
      exact hg.db k hk
  constructor
  · exact fun e he hi k hk => hbase k (h.announced e (hg.own e he hi) hi k hk)
  · exact fun k hk => hbase k (h.scheduled k hk)
  · exact fun hp k hk => hasVersion_applyAll_mono cfg hg.db (h.known hp k hk)
  · exact fun row hrow => hasVersion_applyAll_mono cfg hg.db (h.enqueued row hrow)
  · intro hp he
    exact ⟨(h.early hp he).1, fun e hm hi => (h.early hp he).2 e (hg.own e hm hi) hi⟩
  · intro hp k hk
    obtain ⟨e, hm, he⟩ := h.posted hp k hk
    exact ⟨e, hg.trace e hm, he⟩

theorem Party.Cautious.grows {w' : Shared Db Effect ι} {p : Party} (h : p.Cautious i w ws)
    (hg : Grows w w' i) : p.Cautious i w' ws where
  announced := fun e he hi k hk => hg.db k (h.announced e (hg.own e he hi) hi k hk)
  payloads := fun pc hp q hq => hg.db _ (h.payloads pc hp q hq)
  writes := h.writes

theorem Party.Truthful.grows {w' : Shared Db Effect ι} {o : Own Write LockKey Party}
    (h : Party.Truthful cfg i w o) (hg : Grows w w' i) : Party.Truthful cfg i w' o := by
  obtain ⟨p, pending, held⟩ := o
  cases p with
  | track p => exact TrackProc.Truthful.grows h hg
  | _ => exact Party.Cautious.grows h hg

/-! ### Steps of a request keep the invariant -/

/-- A request that has ended. -/
theorem TrackProc.Truthful.ended {p : TrackProc} (hp : p.running = false)
    (announced : ∀ e ∈ w.trace, e.1 = i → ∀ k ∈ e.2.announces, w.db.HasVersion k)
    (scheduled : ∀ k ∈ p.scheduled, w.db.HasVersion k)
    (enqueued : ∀ row, .insertOutbox row ∈ ws →
      ((program cfg).applyAll ws w.db).HasVersion row.payload.versionKey) :
    p.Truthful cfg i w ws := by
  refine ⟨?_, ?_, ?_, enqueued, ?_, ?_⟩
  · rwa [base_of_ended hp]
  · rwa [base_of_ended hp]
  all_goals
    intro h
    rw [hp] at h
    cases h

/-- Reaching the end of `track_contract` schedules an event about the version of the request. -/
theorem TrackProc.after_scheduled {p : TrackProc} {pc : TrackPc} {k : VersionKey}
    (h : k ∈ (p.after cfg (.go pc)).scheduled) :
    k ∈ p.scheduled ∨ pc.early = false ∧ k ∈ pc.versionKey := by
  cases pc with
  | commit notice result =>
    cases notice with
    | none => exact .inl h
    | some n => exact .inr ⟨rfl, h⟩
  | _ => exact .inl h

theorem TrackProc.after_running {p : TrackProc} (hp : p.running = true) (pc : TrackPc) :
    (p.after cfg (.go pc)).running = true := hp

/-- While the version of a request is not lost, a step keeps the invariant. -/
theorem TrackProc.Truthful.go {p : TrackProc} {w' : Shared Db Effect ι} {ws' : List Write}
    {pc : TrackPc} (h : p.Truthful cfg i w ws) (hp : p.running = true)
    (hview : ∀ k, ((program cfg).applyAll ws w.db).HasVersion k →
      ((program cfg).applyAll ws' w'.db).HasVersion k)
    (announced : ∀ e ∈ w'.trace, e.1 = i → e ∈ w.trace ∨ ∀ k ∈ e.2.announces, k ∈ p.pc.versionKey)
    (trace : ∀ e ∈ w.trace, e ∈ w'.trace)
    (known : ∀ k ∈ pc.versionKey,
      k ∈ p.pc.versionKey ∨ ((program cfg).applyAll ws' w'.db).HasVersion k)
    (enqueued : ∀ row, .insertOutbox row ∈ ws' →
      .insertOutbox row ∈ ws ∨ row.payload.versionKey ∈ p.pc.versionKey)
    (early : pc.early = true → p.pc.early = true ∧
      ∀ e ∈ w'.trace, e.1 = i → e ∈ w.trace ∨ e.2.announces = none)
    (posted : ∀ k ∈ pc.posted, k ∈ p.pc.posted ∨ ∃ e ∈ w'.trace, e.1 = i ∧ k ∈ e.2.announces) :
    (p.after cfg (.go pc)).Truthful cfg i w' ws' := by
  have hknown : ∀ k ∈ p.pc.versionKey, ((program cfg).applyAll ws' w'.db).HasVersion k :=
    fun k hk => hview k (h.known hp k hk)
  have hbefore : p.base cfg w ws = (program cfg).applyAll ws w.db := base_of_running hp
  have hbase : (p.after cfg (.go pc)).base cfg w' ws' = (program cfg).applyAll ws' w'.db :=
    base_of_running (after_running hp pc)
  have hknown' : ∀ k ∈ pc.versionKey, ((program cfg).applyAll ws' w'.db).HasVersion k :=
    fun k hk => (known k hk).elim (hknown k) id
  constructor
  · intro e he hi k hk
    rw [hbase]
    obtain hm | hm := announced e he hi
    · exact hview k (hbefore ▸ h.announced e hm hi k hk)
    · exact hknown k (hm k hk)
  · intro k hk
    rw [hbase]
    obtain hk | ⟨-, hk⟩ := after_scheduled hk
    · exact hview k (hbefore ▸ h.scheduled k hk)
    · exact hknown' k hk
  · exact fun _ => hknown'
  · intro row hrow
    obtain hrow | hrow := enqueued row hrow
    · exact hview _ (h.enqueued row hrow)
    · exact hknown _ hrow
  · intro _ he
    obtain ⟨hpc, htrace⟩ := early he
    obtain ⟨hscheduled, hnone⟩ := h.early hp hpc
    refine ⟨Option.eq_none_iff_forall_not_mem.mpr fun k hk => ?_, fun e hm hi => ?_⟩
    · obtain hk | ⟨hno, -⟩ := after_scheduled hk
      · rw [hscheduled] at hk
        cases hk
      · rw [show pc.early = true from he] at hno
        cases hno
    · obtain hm | hm := htrace e hm hi
      · exact hnone e hm hi
      · exact hm
  · intro _ k hk
    obtain hk | hk := posted k hk
    · obtain ⟨e, hm, he⟩ := h.posted hp k hk
      exact ⟨e, trace e hm, he⟩
    · exact hk

section Self

variable {p : TrackProc} {v : DbView} {x : Input} (h : p.Truthful cfg i w ws)
  (hgood : (Party.track p).loses x = true →
    (∀ e ∈ w.trace, e.1 = i → ∀ k ∈ e.2.announces, w.db.HasVersion k) ∧
    (x ≠ .stop → ∀ k ∈ p.scheduled, w.db.HasVersion k))

include h hgood in
theorem TrackProc.Truthful.code {op : Op Write LockKey Effect (Flow TrackPc TrackResult)}
    (hp : p.running = true) (hv : v.db = (program cfg).applyAll ws w.db)
    (hop : p.call.step cfg p.pc v x = some op) :
    (p.after cfg op.next).Truthful cfg i
      ((op.map (fun f => Party.track (p.after cfg f)) id).shared (program cfg) i ws w)
      (op.pendingAfter ws) := by
  have hloses : p.pc.tolerates = false → (∃ reason, x = .raise reason) →
      (∀ e ∈ w.trace, e.1 = i → ∀ k ∈ e.2.announces, w.db.HasVersion k) ∧
      ∀ k ∈ p.scheduled, w.db.HasVersion k := by
    intro ht ⟨reason, hx⟩
    subst hx
    obtain ⟨hannounced, hscheduled⟩ := hgood (by simp [Party.loses, hp, ht])
    exact ⟨hannounced, hscheduled (by simp)⟩
  have hbase : p.base cfg w ws = (program cfg).applyAll ws w.db := base_of_running hp
  have hmove := TrackCall.trackMove hop
  rw [hv] at hmove
  cases hmove with
  | work version rows early posted =>
    rename_i ks ws' pc'
    have hview : ∀ k, ((program cfg).applyAll ws w.db).HasVersion k →
        ((program cfg).applyAll (ws ++ ws') w.db).HasVersion k := by
      intro k hk
      rw [Program.applyAll_append]
      exact hasVersion_applyAll_of_hasVersion cfg ws' hk
    refine h.go hp hview (fun e hm _ => .inl hm) (fun e hm => hm) (fun k hk => ?_)
      (fun row hrow => ?_) (fun he => ⟨early he, fun e hm _ => .inl hm⟩)
      (fun k hk => .inl (posted k hk))
    · refine (version k hk).imp_right fun hnew => ?_
      rw [show Op.pendingAfter ws (.exec ks ws' (Flow.go pc' : Flow TrackPc TrackResult) :
        Op Write LockKey Effect _) = ws ++ ws' from rfl, Program.applyAll_append]
      exact hnew
    · exact (List.mem_append.mp hrow).imp_right (rows row)
  | tell announces version early posted =>
    rename_i e pc'
    have hsplit : ∀ e' ∈ w.trace ++ [(i, e)], e' ∈ w.trace ∨ e' = (i, e) := fun e' hm =>
      (List.mem_append.mp hm).imp_right List.mem_singleton.mp
    refine h.go hp (fun k hk => hk) (fun e' hm _ => ?_) (fun e' hm => List.mem_append_left _ hm)
      (fun k hk => .inl (version k hk)) (fun row hrow => .inl hrow) (fun he => ?_) (fun k hk => ?_)
    · refine (hsplit e' hm).imp_right fun heq k hk => ?_
      rw [heq] at hk
      exact announces k hk
    · refine ⟨(early he).1, fun e' hm _ => (hsplit e' hm).imp_right fun heq => ?_⟩
      rw [heq]
      exact (early he).2
    · exact .inr ⟨(i, e), List.mem_append_right _ (List.mem_singleton_self _), rfl, posted k hk⟩
  | commit returns version =>
    rename_i f
    cases f with
    | go pc' =>
      obtain ⟨hversion, hearly, hposted⟩ := version pc' rfl
      refine h.go hp (fun k hk => hk) (fun e hm _ => .inl hm) (fun e hm => hm)
        (fun k hk => .inl (hversion ▸ hk)) (fun row hrow => by cases hrow)
        (fun he => ?_) (fun k hk => ?_)
      · rw [hearly] at he
        cases he
      · rw [hposted] at hk
        cases hk
    | done r =>
      refine .ended rfl (fun e hm hi k hk => ?_) (fun k hk => ?_) (fun row hrow => by cases hrow)
      · show ((program cfg).applyAll ws w.db).HasVersion k
        rw [← hbase]
        exact h.announced e hm hi k hk
      · show ((program cfg).applyAll ws w.db).HasVersion k
        rw [← hbase]
        exact h.scheduled k hk
    | raised e => exact absurd rfl (returns e)
  | rollback cause version =>
    rename_i pc'
    obtain ⟨hannounced, hscheduled⟩ := hloses cause.1 cause.2
    obtain ⟨hversion, hearly, hposted⟩ := version
    -- the transaction is lost, but the version has been posted and so is committed
    have hknown : ∀ k ∈ pc'.versionKey, w.db.HasVersion k := by
      intro k hk
      rw [hversion] at hk
      obtain ⟨e, hm, hi, hk⟩ := h.posted hp k hk
      exact hannounced e hm hi k hk
    constructor
    · exact fun e hm hi k hk => base_of_hasVersion _ (hannounced e hm hi k hk)
    · intro k hk
      refine base_of_hasVersion _ ?_
      obtain hk | ⟨-, hk⟩ := after_scheduled hk
      · exact hscheduled k hk
      · exact hknown k hk
    · exact fun _ => hknown
    · exact fun row hrow => by cases hrow
    · intro _ he
      rw [show pc'.early = true from he] at hearly
      cases hearly
    · intro _ k hk
      rw [show k ∈ pc'.posted from hk] at hposted
      cases hposted
  | fail cause rows =>
    rename_i ks ws' e
    have hcommitted : (∀ e ∈ w.trace, e.1 = i → ∀ k ∈ e.2.announces, w.db.HasVersion k) ∧
        ∀ k ∈ p.scheduled, w.db.HasVersion k := by
      obtain he | ⟨ht, hx⟩ := cause
      · obtain ⟨hscheduled, hnone⟩ := h.early hp he
        refine ⟨fun e hm hi k hk => ?_, fun k hk => ?_⟩
        · rw [hnone e hm hi] at hk
          cases hk
        · rw [hscheduled] at hk
          cases hk
      · exact hloses ht hx
    refine .ended rfl hcommitted.1 hcommitted.2 fun row hrow => ?_
    show ((program cfg).applyAll (ws ++ ws') w.db).HasVersion _
    rw [Program.applyAll_append]
    refine hasVersion_applyAll_of_hasVersion cfg ws' ?_
    obtain hrow | hrow := List.mem_append.mp hrow
    · exact h.enqueued row hrow
    · exact h.known hp _ (rows row hrow)

theorem TrackProc.halt_running (p : TrackProc) : p.halt.running = false := by
  obtain ⟨call, pc, status, task⟩ := p
  cases status <;> rfl

theorem TrackProc.called_scheduled {p : TrackProc} {t : PublishTask} {ok : Bool} {k : VersionKey}
    (ht : p.task = some t) (hk : k ∈ TrackProc.scheduled { p with task := t.called ok }) :
    k ∈ p.scheduled := by
  rw [scheduled, ht]
  simp only [scheduled, PublishTask.called] at hk
  split at hk
  · cases hk
  · exact hk

include h hgood in
/-- **A request keeps its promises.** -/
theorem TrackProc.Truthful.next {op : Op Write LockKey Effect TrackProc}
    (hv : v.db = (program cfg).applyAll ws w.db) (hop : p.next cfg v x = some op) :
    op.next.Truthful cfg i ((op.map Party.track id).shared (program cfg) i ws w)
      (op.pendingAfter ws) := by
  have hended : p.running = false → p.base cfg w ws = w.db := base_of_ended
  obtain ⟨rfl, rfl⟩ | ⟨ok, t, rfl, ht, rfl⟩ | ⟨cop, hrun, hcode, rfl⟩ | ⟨e, hst, rfl⟩ :=
    next_cases hop
  · refine .ended p.halt_running (fun e hm hi k hk => ?_) (fun k hk => by cases hk)
      (fun row hrow => by cases hrow)
    cases hp : p.running with
    | true => exact (hgood hp).1 e hm hi k hk
    | false => exact hended hp ▸ h.announced e hm hi k hk
  · have hsplit : ∀ e' ∈ w.trace ++ [(i, Effect.published t.event ok)],
        e' ∈ w.trace ∨ e' = (i, Effect.published t.event ok) := fun e' hm =>
      (List.mem_append.mp hm).imp_right List.mem_singleton.mp
    have hevent : p.scheduled = some t.event.versionKey := by
      rw [TrackProc.scheduled, ht]
      rfl
    constructor
    · intro e' hm hi k hk
      obtain hm | rfl := hsplit e' hm
      · exact h.announced e' hm hi k hk
      · simp only [Effect.announces, Option.mem_ite_none_right] at hk
        refine h.scheduled k ?_
        rw [hevent]
        exact hk.2
    · exact fun k hk => h.scheduled k (called_scheduled ht hk)
    · exact h.known
    · exact h.enqueued
    · intro hp he
      rw [(h.early hp he).1] at hevent
      cases hevent
    · intro hp k hk
      obtain ⟨e', hm, he⟩ := h.posted hp k hk
      exact ⟨e', List.mem_append_left _ hm, he⟩
  · have hp : p.running = true := by rw [running, hrun]
    have hstep := h.code hgood hp hv hcode
    cases cop <;> exact hstep
  · have hp : p.running = false := by rw [running, hst]
    refine .ended rfl (fun e hm hi k hk => ?_) (fun k hk => ?_) (fun row hrow => by cases hrow)
    · exact hended hp ▸ h.announced e hm hi k hk
    · exact hended hp ▸ h.scheduled k hk

end Self

/-! ### Steps of the other parties keep it -/

theorem Party.Cautious.step {p : Party} {op : Op Write LockKey Effect Party}
    (h : p.Cautious i w ws)
    (emits : ∀ e next, op = .emit e next → ∀ k ∈ e.announces, w.db.HasVersion k)
    (payloads : ∀ pc, op.next = .worker pc → ∀ q ∈ pc.payloads, w.db.HasVersion q.versionKey)
    (writes : ∀ w ∈ op.writes, w.adds = false) :
    op.next.Cautious i (op.shared (program cfg) i ws w) (op.pendingAfter ws) where
  announced := by
    intro e hm hi k hk
    refine Op.hasVersion_shared op ?_
    obtain hm | ⟨effect, next, hop, rfl⟩ := (Op.mem_trace_shared op e).mp hm
    · exact h.announced e hm hi k hk
    · exact emits effect next hop k hk
  payloads := fun pc hp q hq => Op.hasVersion_shared op (payloads pc hp q hq)
  writes := by
    intro w' hw'
    cases op with
    | exec ks ws' next =>
      obtain hw' | hw' := List.mem_append.mp hw'
      · exact h.writes w' hw'
      · exact writes w' hw'
    | emit e next => exact h.writes w' hw'
    | commit next => cases hw'
    | rollback next => cases hw'

/-- **The other parties announce committed versions.** -/
theorem Party.Cautious.next {p : Party} {v : DbView} {x : Input} {op : Op Write LockKey Effect Party}
    (h : p.Cautious i w ws) (hsound : w.db.Sound) (hp : ∀ t, p ≠ .track t)
    (hv : v.db = (program cfg).applyAll ws w.db) (hop : p.next cfg v x = some op) :
    (∀ t, op.next ≠ .track t) ∧
      op.next.Cautious i (op.shared (program cfg) i ws w) (op.pendingAfter ws) := by
  cases p with
  | track t => exact absurd rfl (hp t)
  | worker pc =>
    obtain ⟨op', hop', rfl⟩ := Option.map_eq_some_iff.mp hop
    obtain ⟨hpayloads, hemits, hwrites⟩ := WorkerPc.step_payloads hop'
    have hview : v.db.Sound := by
      rw [hv]
      exact hsound.applyAll fun row hrow => (by cases h.writes _ hrow)
    rw [Op.next_map]
    refine ⟨by simp, Op.next_map Party.worker id op' ▸ h.step ?_ ?_ ?_⟩
    · intro e next he k hk
      cases op' with
      | emit e' next' =>
        cases he
        obtain ⟨q, hq, hannounces⟩ := hemits _ _ rfl
        obtain rfl : q.versionKey = k := Option.some.inj (hannounces.symm.trans hk)
        exact h.payloads pc rfl q hq
      | _ => cases he
    · intro pc' hpc' q hq
      rw [Op.next_map] at hpc'
      cases hpc'
      obtain hq | ⟨row, hrow, rfl⟩ := hpayloads q hq
      · exact h.payloads pc rfl q hq
      · have hk := hview row hrow
        rw [hv] at hk
        exact hasVersion_of_adds h.writes hk
    · rwa [Op.writes_map]
  | subscription call pc =>
    obtain ⟨op', hop', rfl⟩ := Option.map_eq_some_iff.mp hop
    have hnext : (∀ t, subscribing call op'.next ≠ .track t) ∧
        ∀ pc', subscribing call op'.next ≠ .worker pc' := by
      cases op'.next <;> simp [subscribing]
    refine ⟨fun t ht => ?_, h.step (fun e next he => ?_) (fun pc' hpc' => ?_) fun w' hw' => ?_⟩
    · rw [Op.next_map] at ht
      exact hnext.1 t ht
    · cases op' with
      | emit e' next' => exact e'.elim
      | _ => cases he
    · rw [Op.next_map] at hpc'
      exact absurd hpc' (hnext.2 pc')
    · rw [Op.writes_map] at hw'
      have ht := SubscriptionCall.step_table hop' w' hw'
      exact Write.adds_of_table (by simp [ht]) (by simp [ht])
  | finished =>
    cases x <;> simp only [Party.next, reduceCtorEq, Option.some.injEq] at hop
    subst hop
    exact ⟨by simp [Op.next], h.step (by simp) (by simp [Op.next]) (by simp [Op.writes])⟩

theorem Party.Cautious.truthful {o : Own Write LockKey Party} (hp : ∀ t, o.loc ≠ .track t)
    (h : o.loc.Cautious i w o.pending) : Party.Truthful cfg i w o := by
  obtain ⟨p, pending, held⟩ := o
  cases p with
  | track t => exact absurd rfl (hp t)
  | _ => exact h

/-- **What one step preserves.** -/
theorem Party.Truthful.next {o : Own Write LockKey Party} {v : DbView} {x : Input}
    {op : Op Write LockKey Effect Party} (h : Party.Truthful cfg i w o) (hsound : w.db.Sound)
    (hgood : o.loc.loses x = true →
      (∀ e ∈ w.trace, e.1 = i → ∀ k ∈ e.2.announces, w.db.HasVersion k) ∧
      (x ≠ .stop → ∀ k ∈ o.loc.scheduled, w.db.HasVersion k))
    (hv : v.db = o.view (program cfg) w) (hop : o.loc.next cfg v x = some op) :
    Party.Truthful cfg i (op.shared (program cfg) i o.pending w) (op.own o) := by
  obtain ⟨p, pending, held⟩ := o
  by_cases hp : ∃ t, p = .track t
  · obtain ⟨t, rfl⟩ := hp
    obtain ⟨op', hop', rfl⟩ := Option.map_eq_some_iff.mp hop
    have hstep := TrackProc.Truthful.next h hgood hv hop'
    cases op' <;> exact hstep
  · have hnot : ∀ t, p ≠ .track t := fun t ht => hp ⟨t, ht⟩
    have hcautious : p.Cautious i w pending := by
      cases p with
      | track t => exact absurd rfl (hnot t)
      | _ => exact h
    obtain ⟨hnext, hstep⟩ := hcautious.next hsound hnot hv hop
    exact Party.Cautious.truthful (o := op.own _) hnext hstep

/-- The webhooks of an open transaction are about versions that it sees. -/
theorem Party.Truthful.enqueued {o : Own Write LockKey Party} (h : Party.Truthful cfg i w o)
    (row : OutboxRow) (hrow : .insertOutbox row ∈ o.pending) :
    (o.view (program cfg) w).HasVersion row.payload.versionKey := by
  obtain ⟨p, pending, held⟩ := o
  cases p with
  | track t => exact TrackProc.Truthful.enqueued h row hrow
  | _ => cases Party.Cautious.writes h _ hrow

/-! ### Every run -/

theorem Party.Starting.truthful {o : Own Write LockKey Party} (h : o.loc.Starting)
    (htrace : w.trace = []) (hpending : o.pending = []) : Party.Truthful cfg i w o := by
  obtain ⟨p, pending, held⟩ := o
  obtain rfl : pending = [] := hpending
  have hnone : ∀ e ∈ w.trace, e.1 = i → ∀ k ∈ e.2.announces, w.db.HasVersion k := by
    simp [htrace]
  cases h with
  | track call =>
    refine ⟨?_, ?_, ?_, ?_, ?_, ?_⟩
    · simp [htrace]
    · simp [TrackProc.scheduled, TrackProc.start]
    · simp [TrackProc.start, TrackPc.versionKey]
    · simp
    · exact fun _ _ => ⟨rfl, by simp [htrace]⟩
    · simp [TrackProc.start, TrackPc.posted]
  | worker => exact ⟨hnone, fun pc hpc q hq => (by cases hpc; cases hq), by simp⟩
  | subscription call => exact ⟨hnone, by simp, by simp⟩

section Runs

variable [DecidableEq ι] {db : Db} {fresh : Uuid} {s : World ι}

theorem Run.truthful (hdb : db.Sound)
    (hs : Run (program cfg).step KeepsPromises (Initial db fresh) s) (i : ι) :
    Party.Truthful cfg i s.toShared (s.own i) := by
  refine (Run.noninterference (G := fun w => w.db.Sound)
    (A := fun i w o => Party.Truthful cfg i w o) ?_ ?_ ?_ hs).2 i
  · intro s hs
    refine ⟨?_, fun i => Party.Starting.truthful (hs.starting i) hs.trace (hs.pending i)⟩
    show s.db.Sound
    rwa [hs.db]
  · intro s i x op hgood hsound hA hop _
    refine ⟨?_, (hA i).next hsound hgood rfl hop⟩
    cases op with
    | commit next => exact hsound.applyAll (hA i).enqueued
    | _ => exact hsound
  · exact fun s i j x op hj _ _ hA _ => (hA j).grows (Op.grows op hj)

/-- **No phantom announcement.** In every run in which no request fails, or loses its transaction,
while a version that it has announced or whose event it has scheduled is not committed, every
announced version is committed or in the open transaction of the running request that has announced
it. -/
theorem announced_version_committed (hdb : db.Sound)
    (hs : Run (program cfg).step KeepsPromises (Initial db fresh) s) {i : ι} {e : Effect}
    (he : (i, e) ∈ s.trace) {k : VersionKey} (hk : e.announces = some k) :
    s.db.HasVersion k ∨ (s.loc i).running = true ∧
      ((s.own i).view (program cfg) s.toShared).HasVersion k := by
  have h := Run.truthful hdb hs i
  cases hp : s.loc i with
  | track p =>
    rw [Party.Truthful, show (s.own i).loc = .track p from hp] at h
    have hbase := h.announced (i, e) he rfl k hk
    by_cases hrun : p.running = true
    · rw [TrackProc.base_of_running hrun] at hbase
      exact .inr ⟨hrun, hbase⟩
    · rw [TrackProc.base_of_ended (Bool.eq_false_of_not_eq_true hrun)] at hbase
      exact .inl hbase
  | _ =>
    rw [Party.Truthful, show (s.own i).loc = _ from hp] at h
    exact .inl (h.announced (i, e) he rfl k hk)

/-- The request of the sample pair, from its arrival to its return. -/
def trackInline : List (Fin 2 × Input) := deliverInline ++ List.replicate 2 (0, .proceed 0)

/-- A request that does not fail: the version it has announced is committed. -/
theorem announced_version_committed_inline : ∃ s : World (Fin 2),
    Run (program (sampleConfig true)).step KeepsPromises (Initial sampleEndpoint 10) s ∧
    (∃ e, (0, e) ∈ s.trace ∧ e.announces = some (1, 2)) ∧ s.db.HasVersion (1, 2) := by
  have hrun : (exec (program (sampleConfig true)).step samplePair trackInline).map
      (fun s => (s.trace.map fun e => (e.1, e.2.announces), (s.loc 0).running)) =
        some ([(0, none), (0, some (1, 2)), (0, some (1, 2))], false) := by
    decide +kernel
  obtain ⟨s, hs, hend⟩ := Option.map_eq_some_iff.mp hrun
  obtain ⟨htrace, hended⟩ := Prod.mk.inj hend
  have hgood : Along (program (sampleConfig true)).step KeepsPromises samplePair trackInline := by
    decide +kernel
  have hreach := Run.of_exec (.start samplePair_initial) hgood hs
  obtain ⟨⟨i, e⟩, he, hk⟩ := List.mem_map.mp
    (show (0, some (1, 2)) ∈ s.trace.map fun e => (e.1, e.2.announces) by simp [htrace])
  obtain ⟨rfl, hk⟩ := Prod.mk.inj hk
  refine ⟨s, hreach, ⟨e, he, hk⟩, ?_⟩
  obtain h | ⟨hrunning, -⟩ := announced_version_committed (by simp [Db.Sound, sampleEndpoint]) hreach he hk
  · exact h
  · rw [hended] at hrunning
    cases hrunning

/-- A request stores the difference, then a statement raises and the session is closed: the version
in the document is never committed. -/
theorem announced_version_lost : ¬∀ s : World (Fin 2),
    Reachable (program (sampleConfig true)).step (Initial sampleEndpoint 10) s →
    ∀ i e k, (i, e) ∈ s.trace → e.announces = some k →
      s.db.HasVersion k ∨ (s.loc i).running = true ∧
        ((s.own i).view (program (sampleConfig true)) s.toShared).HasVersion k := by
  intro h
  have hrun : (exec (program (sampleConfig true)).step samplePair
      (List.replicate 11 (0, .proceed 0) ++ [(0, .raise "timeout"), (0, .proceed 0)])).map
      (fun s => (s.trace.map fun e => (e.1, e.2.announces),
        decide (s.db.HasVersion (1, 2)), (s.loc 0).running)) =
        some ([(0, none), (0, some (1, 2))], false, false) := by
    decide +kernel
  obtain ⟨s, hs, hend⟩ := Option.map_eq_some_iff.mp hrun
  obtain ⟨htrace, hlost⟩ := Prod.mk.inj hend
  obtain ⟨hversion, hended⟩ := Prod.mk.inj hlost
  obtain ⟨⟨i, e⟩, he, hk⟩ := List.mem_map.mp
    (show (0, some (1, 2)) ∈ s.trace.map fun e => (e.1, e.2.announces) by simp [htrace])
  obtain ⟨rfl, hk⟩ := Prod.mk.inj hk
  obtain hcommitted | ⟨hrunning, -⟩ := h s (reachable_of_exec samplePair_initial hs) 0 e (1, 2) he hk
  · exact of_decide_eq_false hversion hcommitted
  · rw [hended] at hrunning
    cases hrunning

end Runs

end Driftgate.Runtime
