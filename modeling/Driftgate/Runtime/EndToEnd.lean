import Driftgate.Runtime.Drained
import Driftgate.Runtime.NotifiedOnce

/-!
# From a request to its subscribers

A request that returns has committed the version it announces together with a webhook for every
subscription it has selected. When the outbox is drained, each of these webhooks has been answered
2xx once and last, or there is a dead letter for it: nobody affected by a drift is left without one
or the other, and nobody is told twice.
-/

namespace Driftgate.Runtime

open Driftgate.ReadCommitted Driftgate.Transition

/-! ### What a returned request has committed -/

/-- A request returns with its commit. -/
theorem TrackCall.step_returns {cfg : Config} {call : TrackCall} {pc : TrackPc} {v : DbView}
    {x : Input} {op : Op Write LockKey Effect (Flow TrackPc TrackResult)}
    (h : call.step cfg pc v x = some op) {r : TrackResult} (hr : op.next = .done r) :
    op = .commit (.done r) := by
  obtain ⟨n, rfl⟩ := (TrackCall.step_records h).done r hr
  cases x <;> simp only [step, reduceCtorEq, Option.some.injEq] at h <;> subst h
  · cases hr
    rfl
  · cases hr

section Returned

variable {ι : Type*} [DecidableEq ι] {cfg : Config} {db : Db} {fresh : Uuid} {s : World ι}

/-- The version that a returned request announces is stored. -/
theorem Run.returned_stored (hdb : db.registry.Valid fresh)
    (hs : Run (program cfg).step KeepsRegistration (Initial db fresh) s) (i : ι) :
    ∀ p r, s.loc i = .track p → p.status = .returned r → ∀ q ∈ p.pc.enqueue?,
      s.db.Stores q.drift.upserted.record.stored := by
  have hs' : Run (program cfg).step (fun s a => KeepsRegistration s a ∧
      ∀ i, ∀ q ∈ (s.loc i).enqueue?, (s.loc i).running = true →
        (s.view (program cfg) i).db.Stores q.drift.upserted.record.stored) (Initial db fresh) s :=
    hs.mono fun t a ht hgood => ⟨hgood, Run.announced_stored hdb ht⟩
  refine (Run.noninterference (P := program cfg) (G := fun _ => True)
    (A := fun _ w o => ∀ p r, o.loc = .track p → p.status = .returned r → ∀ q ∈ p.pc.enqueue?,
      w.db.Stores q.drift.upserted.record.stored) ?_ ?_ ?_ hs').2 i
  · intro s hs
    refine ⟨trivial, fun i p r hp hr => ?_⟩
    have hstart := hs.starting i
    rw [show s.loc i = .track p from hp] at hstart
    cases hstart
    cases hr
  · intro s i x op hgood _ hA hop _
    refine ⟨trivial, fun p' r hp' hr q hq => ?_⟩
    rw [show (op.own (s.own i)).loc = op.next from rfl] at hp'
    by_cases hp : ∃ p, s.loc i = .track p
    · obtain ⟨p, hp⟩ := hp
      have hstored := hgood.2 i
      rw [show (program cfg).next = Party.next cfg from rfl, hp] at hop
      rw [hp] at hstored
      obtain ⟨op', hop', rfl⟩ := Option.map_eq_some_iff.mp hop
      rw [Op.next_map, Party.track.injEq] at hp'
      subst hp'
      rcases TrackProc.next_cases hop' with ⟨-, rfl⟩ | ⟨ok, t, -, -, rfl⟩ | ⟨cop, hst, hcode, rfl⟩ |
        ⟨e, -, rfl⟩
      · have hbefore : p.status = .returned r := by
          cases hst : p.status <;> simp [Op.next, TrackProc.halt, hst] at hr
          rw [hr]
        exact hA i p r hp hbefore q hq
      · exact hA i p r hp hr q hq
      · rw [Op.next_map] at hr hq
        cases hn : cop.next with
        | go pc => rw [hn] at hr; cases hst.symm.trans hr
        | raised e => rw [hn] at hr; cases hr
        | done r' =>
          rw [hn] at hq
          obtain rfl := TrackCall.step_returns hcode hn
          exact hstored q hq (by simp [Party.running, TrackProc.running, hst])
      · cases hr
    · exact absurd (Party.track_of_next hop hp') hp
  · intro s i j x op _ _ _ hA _ p r hp hr q hq
    exact stores_shared op _ (hA j p r hp hr q hq)

end Returned

/-! ### What is posted -/

/-- A committed row was there with its payload, or the transaction has inserted it. -/
theorem outbox_applyAll_origin (cfg : Config) (ws : List Write) (db : Db) {row : OutboxRow}
    (h : row ∈ ((program cfg).applyAll ws db).outbox) :
    (∃ row' ∈ db.outbox, row'.id = row.id ∧ row'.payload = row.payload) ∨
      ∃ row', .insertOutbox row' ∈ ws ∧ row'.id = row.id := by
  refine (program cfg).applyAll_induction (I := fun db' => ∀ row ∈ db'.outbox,
    (∃ row' ∈ db.outbox, row'.id = row.id ∧ row'.payload = row.payload) ∨
      ∃ row', .insertOutbox row' ∈ ws ∧ row'.id = row.id) ?_ ?_ row h
  · exact fun row hrow => .inl ⟨row, hrow, rfl, rfl⟩
  · intro w hw db' hI row hrow
    cases w with
    | insertOutbox new =>
      obtain hrow | hrow := List.mem_append.mp hrow
      · exact hI row hrow
      · rw [List.mem_singleton.mp hrow]
        exact .inr ⟨new, hw, rfl⟩
    | updateOutbox id change =>
      obtain ⟨r, hr, rfl⟩ := List.mem_map.mp hrow
      have hr' := hI r hr
      split
      · exact hr'
      · exact hr'
    | _ => exact hI row hrow

/-- What a worker delivers. -/
def WorkerPc.Delivers (pc : WorkerPc) : Prop :=
  ∀ item rest n args dpc, pc = .deliver item rest n args dpc → args.payload = item.payload

theorem WorkerPc.nextItem_delivers (n : ℕ) (items : List OutboxRow) : (nextItem n items).Delivers := by
  cases items <;> simp [nextItem, Delivers]

theorem WorkerPc.delivering_delivers {item : OutboxRow} {rest : List OutboxRow} {n : ℕ}
    {args : Delivery} (h : args.payload = item.payload) (f : Flow DeliverPc Bool) :
    (delivering item rest n args f).Delivers := by
  intro item' rest' n' args' dpc hpc
  cases f with
  | go pc =>
    cases hpc
    exact h
  | _ => cases hpc

/-- A worker delivers what its item says. -/
theorem WorkerPc.Delivers.next {pc : WorkerPc} {v : DbView} {x : Input}
    {op : Op Write LockKey Effect WorkerPc} (h : pc.Delivers) (hop : pc.step v x = some op) :
    op.next.Delivers := by
  cases pc with
  | deliver item rest n args dpc =>
    obtain ⟨-, rfl⟩ | ⟨op', -, rfl⟩ := deliver_cases hop
    · simp [Op.next, Delivers]
    · rw [Op.next_map]
      exact delivering_delivers (h _ _ _ _ _ rfl) _
  | poll =>
    cases x <;> simp only [step, reduceCtorEq, Option.some.injEq] at hop <;> subst hop <;>
      first | exact nextItem_delivers _ _ | simp [Op.next, Delivers]
  | selectSubscription item rest n =>
    cases x <;> simp only [step, reduceCtorEq, Option.some.injEq] at hop
    · split at hop <;> obtain rfl := Option.some.inj hop
      · simp [Op.next, Delivers]
      · exact delivering_delivers rfl _
    all_goals subst hop; simp [Op.next, Delivers]
  | commitItem item rest n =>
    cases x <;> simp only [step, reduceCtorEq, Option.some.injEq] at hop <;> subst hop <;>
      first | exact nextItem_delivers _ _ | simp [Op.next, Delivers]
  | conclude item rest n how =>
    cases x <;> simp only [step, reduceCtorEq, Option.some.injEq] at hop <;> subst hop <;>
      cases how <;> simp [Op.next, Delivers]
  | close n =>
    cases x <;> simp only [step, reduceCtorEq, Option.some.injEq] at hop <;> subst hop <;>
      by_cases hn : n = 0 <;> simp [Op.next, Delivers, hn]
  | _ =>
    cases x <;> simp only [step, reduceCtorEq, Option.some.injEq] at hop <;> subst hop <;>
      simp [Op.next, Delivers]

/-- Only a delivery posts. -/
theorem WorkerPc.step_posted {pc : WorkerPc} {v : DbView} {x : Input} {id : Uuid} {post : Post}
    {next : WorkerPc} (h : pc.step v x = some (.emit (.posted id post) next)) :
    ∃ item rest n args dpc, pc = .deliver item rest n args dpc ∧ item.id = id ∧
      post.payload = args.payload := by
  by_cases hdeliver : ∃ item rest n args dpc, pc = .deliver item rest n args dpc
  · obtain ⟨item, rest, n, args, dpc, rfl⟩ := hdeliver
    obtain ⟨-, hop⟩ | ⟨op', hop', heq⟩ := deliver_cases h
    · cases hop
    · refine ⟨item, rest, n, args, dpc, rfl, ?_⟩
      cases Delivery.step_move hop' with
      | answered | unanswered =>
        cases heq
        exact ⟨rfl, rfl⟩
      | _ => cases heq
  · cases pc with
    | deliver item rest n args dpc => exact absurd ⟨item, rest, n, args, dpc, rfl⟩ hdeliver
    | selectSubscription item rest n =>
      cases x <;> simp only [step, reduceCtorEq, Option.some.injEq] at h
      split at h <;> cases h
    | _ => cases x <;> simp [step] at h

section Posts

variable {ι : Type*} [DecidableEq ι] {cfg : Config} {db : Db} {fresh : Uuid} {worker : ι}
  {s : World ι}

theorem Run.worker_delivers {good : World ι → ι × Input → Prop}
    (hs : Run (program cfg).step good (Initial db fresh) s) (i : ι) {pc : WorkerPc}
    (hloc : s.loc i = .worker pc) : pc.Delivers := by
  refine Run.process_invariant (P := program cfg)
    (A := fun _ o => ∀ pc, o.loc = .worker pc → pc.Delivers) ?_ ?_ hs i pc hloc
  · intro s hs i pc hpc
    have hstart := hs.starting i
    rw [show s.loc i = .worker pc from hpc] at hstart
    cases hstart
    simp [WorkerPc.Delivers]
  · intro s i x op _ hA hop pc' hpc'
    rw [show (op.own (s.own i)).loc = op.next from rfl] at hpc'
    rw [show (program cfg).next = Party.next cfg from rfl] at hop
    cases hloc : s.loc i with
    | worker pc =>
      rw [hloc] at hop
      obtain ⟨op', hop', rfl⟩ := Option.map_eq_some_iff.mp hop
      rw [Op.next_map, Party.worker.injEq] at hpc'
      exact hpc' ▸ (hA pc hloc).next hop'
    | track p =>
      rw [hloc] at hop
      obtain ⟨op', -, rfl⟩ := Option.map_eq_some_iff.mp hop
      rw [Op.next_map] at hpc'
      cases hpc'
    | subscription call pc =>
      rw [hloc] at hop
      obtain ⟨op', -, rfl⟩ := Option.map_eq_some_iff.mp hop
      rw [Op.next_map] at hpc'
      cases hn : op'.next <;> rw [hn] at hpc' <;> cases hpc'
    | finished =>
      rw [hloc] at hop
      cases x <;> simp only [Party.next, reduceCtorEq, Option.some.injEq] at hop
      subst hop
      cases hpc'

/-- **POSTs carry the payload of their row.** -/
theorem Run.posts_payload (hoff : cfg.inlineDelivery = false) (hdb : db.Enqueued fresh)
    (hs : Run (program cfg).step (Undisturbed worker)
      (fun s => Initial db fresh s ∧ OnlyWorker worker s) s) :
    ∀ row ∈ s.db.outbox, ∀ post ∈ postsFor s.trace row.id, post.payload = row.payload := by
  refine Run.invariant (I := fun s => ∀ row ∈ s.db.outbox, ∀ post ∈ postsFor s.trace row.id,
    post.payload = row.payload) ?_ ?_ hs
  · intro s hs row _ post hpost
    rw [hs.1.trace] at hpost
    cases hpost
  · rintro s ⟨i, x⟩ t hs hI hgood hstep row hrow post hpost
    obtain ⟨op, hop, hst⟩ := step_cases hstep
    obtain ⟨hG, hA⟩ := Run.tends hoff hdb hs
    have hinit : Run (program cfg).step (Undisturbed worker) (Initial db fresh) s :=
      hs.of_init fun _ h => h.1
    rw [hst.db] at hrow
    rw [show t.trace = (op.shared (program cfg) i (s.pending i) s.toShared).trace from
      congrArg Shared.trace hst.shared] at hpost
    have hold : (∃ row' ∈ s.db.outbox, row'.id = row.id ∧ row'.payload = row.payload) ∨
        ∃ row', .insertOutbox row' ∈ s.pending i ∧ row'.id = row.id := by
      cases op with
      | commit l => exact outbox_applyAll_origin cfg (s.pending i) s.db hrow
      | _ => exact .inl ⟨row, hrow, rfl, rfl⟩
    cases op with
    | emit e l =>
      rw [show (Op.emit e l : Op Write LockKey Effect Party).shared (program cfg) i (s.pending i)
        s.toShared = { s.toShared with trace := s.trace ++ [(i, e)], fresh := s.fresh + 1 } from
          rfl, postsFor_append] at hpost
      obtain hpost | hpost := List.mem_append.mp hpost
      · exact hI row hrow post hpost
      · have hfor : e.postFor row.id = some post := Option.mem_toList.mp hpost
        cases e with
        | posted id p =>
          obtain ⟨rfl, rfl⟩ : id = row.id ∧ p = post := by
            simpa [Effect.postFor] using hfor
          by_cases hworker : ∃ pc, s.loc i = .worker pc
          · obtain ⟨pc, hloc⟩ := hworker
            rw [show (program cfg).next = Party.next cfg from rfl, hloc] at hop
            obtain ⟨op', hop', hmap⟩ := Option.map_eq_some_iff.mp hop
            obtain ⟨e', l', rfl, rfl⟩ : ∃ e' l', op' = .emit e' l' ∧ e' = .posted row.id p := by
              cases op' <;> cases hmap
              exact ⟨_, _, rfl, rfl⟩
            obtain ⟨item, rest, n, args, dpc, rfl, hid, hp⟩ := WorkerPc.step_posted hop'
            obtain ⟨hmem, -⟩ := ((hA i).works _ hloc).2.underway item rfl
            rw [hp, Run.worker_delivers hinit i hloc item rest n args dpc rfl,
              ← List.inj_on_of_nodup_map hG.nodup hmem hrow hid]
          · have hno : ∀ pc, s.loc i ≠ .worker pc := fun pc hpc => hworker ⟨pc, hpc⟩
            have hquiet := (Party.step_adds hoff (Run.offline hoff hinit i) hno hop).1.quiet _ l rfl
            cases hquiet
        | _ => cases hfor
    | _ =>
      obtain ⟨row', hrow', hid, hpayload⟩ | ⟨row', hrow', hid⟩ := hold
      · rw [← hpayload]
        exact hI row' hrow' post (hid ▸ hpost)
      · -- nothing has been posted for a new row
        obtain ⟨q, hq, -⟩ := Run.pending_payload hinit i row' hrow'
        have hno : ∀ pc, s.loc i ≠ .worker pc := by
          intro pc hpc
          rw [hpc] at hq
          cases hq
        have hmem : row' ∈ insertedRows (s.pending i) := List.mem_filterMap.mpr ⟨_, hrow', rfl⟩
        have hnone := hG.posts_eq_nil (((hA i).adds hno).rows.apart row' hmem)
        rw [hid] at hnone
        have hposted : post ∈ postsFor s.trace row.id := hpost
        rw [hnone] at hposted
        cases hposted

/-- **From a request to its subscribers.** Without inline delivery, with one worker that nothing
disturbs: when the outbox is drained and a request has returned, there is exactly one webhook for
each subscription it has selected. All its POSTs carry the payload of the drift, and either just the
last one was answered 2xx, or none was and there is a dead letter for the consumer that counts all
the attempts. -/
theorem drained_notifications (hoff : cfg.inlineDelivery = false) (hdb : db.Enqueued fresh)
    (hregistry : db.registry.Valid fresh) (hsubs : db.SubscriptionIds fresh)
    (honce : db.NotifiedOnce fresh)
    (hs : Run (program cfg).step (Undisturbed worker)
      (fun s => Initial db fresh s ∧ OnlyWorker worker s) s)
    (hdrained : Drained worker s) {i : ι} {p : TrackProc} {n : Notice} {r r' : TrackResult}
    (hloc : s.loc i = .track p) (hpc : p.pc = .commit (some n) r)
    (hreturned : p.status = .returned r') :
    ∀ sub ∈ n.affected, ∃ row ∈ s.db.outbox,
      (row.subscriptionId = sub.id ∧ row.payload = n.enqueue.payload) ∧
      (∀ row' ∈ s.db.outbox, row'.subscriptionId = sub.id →
        row'.payload.eventId = some n.enqueue.eventId → row' = row) ∧
      (∀ post ∈ postsFor s.trace row.id, post.payload = n.enqueue.payload) ∧
      (row.status = .delivered ∧ (∃ failures last, postsFor s.trace row.id = failures ++ [last] ∧
          last.answer.ok = true ∧ ∀ post ∈ failures, post.answer.ok = false) ∨
        row.status = .failed ∧ (∀ post ∈ postsFor s.trace row.id, post.answer.ok = false) ∧
          ∃ consumerId endpointId, s.db.subscriber sub.id = some (consumerId, endpointId) ∧
            s.db.DeadLetter n.enqueue.eventId consumerId row.maxAttempts) := by
  intro sub hsub
  have hinit : Run (program cfg).step (Undisturbed worker) (Initial db fresh) s :=
    hs.of_init fun _ h => h.1
  have hkept : Run (program cfg).step KeepsRegistration (Initial db fresh) s :=
    hinit.mono fun t a ht _ => (Run.offline hoff ht a.1).not_forgets a.2
  -- the version is stored, and with it the webhook
  have hstored : s.db.HasVersionId n.versionId := by
    obtain ⟨v, hv, hfixed⟩ := Run.returned_stored hregistry hkept i p r' hloc hreturned n.enqueue
      (by rw [hpc]; rfl)
    exact ⟨v, hv, (VersionRow.mk.inj hfixed).1⟩
  have hversions : ∀ row ∈ db.versions, row.id < fresh := fun row hrow =>
    hregistry.versionFresh _ (List.mem_map.mpr ⟨row, hrow, rfl⟩)
  have hfinishes : Run (program cfg).step
      (fun s a => cfg.inlineDelivery = true → FinishesRound s a) (Initial db fresh) s :=
    hinit.mono fun t a _ _ hon => absurd (hon.symm.trans hoff) (by decide)
  have hall := Run.notifies_all hversions hfinishes i
  rw [Party.NotifiesAll, show (s.own i).loc = .track p from hloc] at hall
  have hended : p.running = false := by rw [TrackProc.running, hreturned]
  have hcovers := (TrackProc.notifies_of_ended hended).mp hall ⟨n, [], []⟩ (by rw [hpc]; rfl)
  obtain ⟨row, hrow, hid, hpayload⟩ := (hcovers hstored sub hsub).resolve_left List.not_mem_nil
  have hevent : row.payload.eventId = some n.enqueue.eventId := congrArg _ hpayload
  refine ⟨row, hrow, ⟨hid, hpayload⟩, fun row' hrow' hid' hevent' => ?_, fun post hpost => ?_, ?_⟩
  · refine List.inj_on_of_nodup_map (Run.webhook_keys honce hsubs hinit).stored hrow' hrow ?_
    exact Prod.ext (hevent'.trans hevent.symm) (hid'.trans hid.symm)
  · rw [← hpayload]
    exact Run.posts_payload hoff hdb hs row hrow post hpost
  · have hsettled := ((Run.tends hoff hdb hs).2 worker).settled rfl row hrow (by
      rw [show (s.own worker).loc = s.loc worker from rfl, hdrained.1]
      exact (Option.some_ne_none _).symm)
    cases hsettled.situation with
    | pending hstatus =>
      obtain h | h := hdrained.2 row hrow <;> cases hstatus.symm.trans h
    | delivered hstatus _ hanswered => exact .inl ⟨hstatus, hanswered⟩
    | failed hstatus _ hunanswered hdead =>
      obtain ⟨e, c, ep, he, hc, hletter⟩ := hdead
      obtain rfl := Option.some.inj (he.symm.trans hevent)
      exact .inr ⟨hstatus, hunanswered, c, ep, hid ▸ hc, hletter⟩

end Posts

/-! ### A request and a worker -/

theorem sampleEndpoint_enqueued : sampleEndpoint.Enqueued 10 := by
  constructor <;> simp [sampleEndpoint]

/-- The request returns, then the worker delivers its webhook. -/
def trackThenDeliver : List (Fin 2 × Input) :=
  List.replicate 15 (0, .proceed 0) ++ List.replicate 4 (1, .proceed 0) ++ [(1, .answer 200)] ++
    List.replicate 4 (1, .proceed 0)

/-- What is left of the request and of the outbox. -/
def returnedNotice (s : World (Fin 2)) : Option (List Uuid) :=
  match s.loc 0 with
  | .track ⟨_, .commit (some n) _, .returned _, _⟩ =>
    if (s.loc 1).processing = none ∧ ∀ row ∈ s.db.outbox, row.status = .delivered then
      some (n.affected.map (·.id))
    else none
  | _ => none

theorem returnedNotice_some {s : World (Fin 2)} {ids : List Uuid} (h : returnedNotice s = some ids) :
    Drained 1 s ∧ ∃ p n r r', s.loc 0 = .track p ∧ p.pc = .commit (some n) r ∧
      p.status = .returned r' ∧ n.affected.map (·.id) = ids := by
  rw [returnedNotice] at h
  split at h
  · rename_i call n r r' task hloc
    obtain ⟨⟨hprocessing, hstatus⟩, hids⟩ := Option.ite_none_right_eq_some.mp h
    exact ⟨⟨hprocessing, fun row hrow => .inl (hstatus row hrow)⟩, _, n, r, r', hloc, rfl, rfl,
      Option.some.inj hids⟩
  · cases h

/-- A request with one subscription: its webhook is delivered. -/
theorem drained_notifications_pair : ∃ (s : World (Fin 2)) (p : TrackProc) (n : Notice),
    s.loc 0 = .track p ∧ n.affected.map (·.id) = [3] ∧ ∀ sub ∈ n.affected, ∃ row ∈ s.db.outbox,
      (row.subscriptionId = sub.id ∧ row.payload = n.enqueue.payload) ∧
      (∀ row' ∈ s.db.outbox, row'.subscriptionId = sub.id →
        row'.payload.eventId = some n.enqueue.eventId → row' = row) ∧
      (∀ post ∈ postsFor s.trace row.id, post.payload = n.enqueue.payload) ∧
      (row.status = .delivered ∧ (∃ failures last, postsFor s.trace row.id = failures ++ [last] ∧
          last.answer.ok = true ∧ ∀ post ∈ failures, post.answer.ok = false) ∨
        row.status = .failed ∧ (∀ post ∈ postsFor s.trace row.id, post.answer.ok = false) ∧
          ∃ consumerId endpointId, s.db.subscriber sub.id = some (consumerId, endpointId) ∧
            s.db.DeadLetter n.enqueue.eventId consumerId row.maxAttempts) := by
  have hrun : (exec (program (sampleConfig false)).step samplePair trackThenDeliver).bind
      returnedNotice = some [3] := by
    decide +kernel
  obtain ⟨s, hs, hend⟩ := Option.bind_eq_some_iff.mp hrun
  have hgood : Along (program (sampleConfig false)).step (Undisturbed 1) samplePair
      trackThenDeliver := by
    decide +kernel
  obtain ⟨hdrained, p, n, r, r', hloc, hpc, hreturned, hids⟩ := returnedNotice_some hend
  have honly : OnlyWorker 1 samplePair := by
    refine Fin.forall_fin_two.mpr ⟨fun pc hpc => ?_, fun _ _ => rfl⟩
    exact absurd hpc (by simp [samplePair, worldOf, sampleRequest])
  have hreach : Run (program (sampleConfig false)).step (Undisturbed 1)
      (fun s => Initial sampleEndpoint 10 s ∧ OnlyWorker 1 s) s :=
    Run.of_exec (.start ⟨samplePair_initial, honly⟩) hgood hs
  exact ⟨s, p, n, hloc, hids, drained_notifications rfl sampleEndpoint_enqueued
    sampleEndpoint_valid ⟨by decide, by decide⟩ ⟨by decide, by decide⟩ hreach hdrained hloc hpc
    hreturned⟩

end Driftgate.Runtime
