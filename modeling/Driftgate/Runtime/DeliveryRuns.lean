import Driftgate.Runtime.Delivered

/-!
# Deliveries along runs

What the ownership of rows means for the two ways of delivering. Without inline delivery only the
workers post, and a row is answered 2xx at most once as long as a worker marks only PENDING rows.
With inline delivery a worker must also keep off the rows that an inline call is about to update;
then the final status of every row tells whether it was answered 2xx.

Both conditions are needed: each theorem is followed by a run without a crash that breaks what it
says.
-/

namespace Driftgate.Runtime

open Driftgate.ReadCommitted Driftgate.Transition

variable {ι : Type*}

/-- Nobody crashes. A POST may raise at any time. -/
def NoCrash (s : World ι) (a : ι × Input) : Prop :=
  a.2.crash = true → (s.loc a.1).survives a.2 = true

/-! ### Without inline delivery -/

/-- A party that delivers no row inline. -/
def Party.offline : Party → Prop
  | .track p => p.pc.stage = none
  | _ => True

theorem Party.offline.not_exposes {p : Party} (h : p.offline) (id : Uuid) :
    p.exposes id = false := by
  cases p with
  | track p =>
    obtain ⟨call, pc, status, task⟩ := p
    have hpc : pc.stage = none := h
    cases status <;> simp [exposes, stage, hpc]
  | worker pc => cases pc <;> simp [exposes, stage, WorkerPc.stage]
  | _ => rfl

theorem Enqueue.next_stage (affected rest : List SubscriptionRow) {pc : EnqueuePc}
    (h : Enqueue.next affected rest = .go pc) : pc.stage = none := by
  cases rest with
  | nil => cases h
  | cons sub rest => cases h; rfl

/-- Without inline delivery the loop over the subscriptions only inserts. -/
theorem Enqueue.step_offline {cfg : Config} (hoff : cfg.inlineDelivery = false) {q : Enqueue}
    {pc : EnqueuePc} {v : DbView} {x : Input}
    {op : Op Write LockKey Effect (Flow EnqueuePc (List SubscriptionRow))}
    (hpc : pc.stage = none) (h : q.step cfg pc v x = some op) {pc' : EnqueuePc}
    (hgo : op.next = .go pc') : pc'.stage = none := by
  cases step_move h with
  | selects | inserts => exact next_stage _ _ hgo
  | insertsActive _ _ _ hon | insertsInactive _ _ _ hon =>
    rw [hoff] at hon
    cases hon
  | selectRaises | insertRaises => cases hgo
  | delivers | updates | updateRaises => cases hpc

theorem TrackProc.offline_after {cfg : Config} {p : TrackProc} {f : Flow TrackPc TrackResult}
    (hp : p.pc.stage = none) (hf : ∀ pc, f = .go pc → pc.stage = none) :
    (p.after cfg f).pc.stage = none := by
  cases f with
  | go pc => exact hf pc rfl
  | _ => exact hp

theorem Party.offline.next {cfg : Config} (hoff : cfg.inlineDelivery = false) {p : Party}
    {v : DbView} {x : Input} {op : Op Write LockKey Effect Party} (h : p.offline)
    (hop : p.next cfg v x = some op) : op.next.offline := by
  cases p with
  | track p =>
    obtain ⟨op', hop', rfl⟩ := Option.map_eq_some_iff.mp hop
    obtain ⟨-, rfl⟩ | ⟨ok, t, -, -, rfl⟩ | ⟨cop, -, hcode, rfl⟩ | ⟨e, -, rfl⟩ :=
      TrackProc.next_cases hop'
    · exact h
    · exact h
    · rw [Op.next_map, Op.next_map]
      refine TrackProc.offline_after h fun pc hgo => ?_
      by_cases hearly : p.pc.enqueueing = false
      · exact ((TrackCall.step_before_enqueue hearly hcode).1 pc hgo).stage
      · have hpc : p.pc.stage = none := h
        cases hp : p.pc with
        | enqueue q epc =>
          rw [hp] at hpc hcode
          obtain ⟨eop, heop, rfl⟩ := Option.map_eq_some_iff.mp hcode
          rw [Op.next_map] at hgo
          cases hn : eop.next with
          | go epc' =>
            rw [hn] at hgo
            cases hgo
            exact Enqueue.step_offline hoff hpc heop hn
          | done affected => rw [hn] at hgo; cases hgo; rfl
          | raised e => rw [hn] at hgo; cases hgo
        | commit n r =>
          rw [hp] at hcode
          cases x <;> simp only [TrackCall.step, reduceCtorEq, Option.some.injEq] at hcode <;>
            subst hcode <;> cases hgo
        | _ => simp [hp, TrackPc.enqueueing] at hearly
    · exact h
  | worker pc =>
    obtain ⟨op', -, rfl⟩ := Option.map_eq_some_iff.mp hop
    rw [Op.next_map]
    trivial
  | subscription call pc =>
    obtain ⟨op', -, rfl⟩ := Option.map_eq_some_iff.mp hop
    rw [Op.next_map]
    cases op'.next <;> trivial
  | finished =>
    cases x <;> simp only [Party.next, reduceCtorEq, Option.some.injEq] at hop
    subst hop
    trivial

variable [DecidableEq ι]

theorem Run.offline {cfg : Config} (hoff : cfg.inlineDelivery = false)
    {good : World ι → ι × Input → Prop} {db : Db} {fresh : Uuid} {s : World ι}
    (hs : Run (program cfg).step good (Initial db fresh) s) (i : ι) : (s.loc i).offline := by
  refine Run.process_invariant (A := fun _ o => o.loc.offline) ?_ ?_ hs i
  · intro s hs i
    show (s.loc i).offline
    have hstart := hs.starting i
    cases hloc : s.loc i with
    | track p =>
      rw [hloc] at hstart
      cases hstart
      rfl
    | _ => trivial
  · exact fun s i x op _ h hop => Party.offline.next hoff h hop

/-- **At most one successful delivery.** Without inline delivery, in every run in which a worker
marks only rows whose committed status is PENDING and nobody crashes with a row in hand, every row
of the outbox gets at most one POST that is answered 2xx. -/
theorem delivered_at_most_once {cfg : Config} (hoff : cfg.inlineDelivery = false) {db : Db}
    {fresh : Uuid} (hdb : ∀ row ∈ db.outbox, row.id < fresh) {s : World ι}
    (hs : Run (program cfg).step (fun s a => Calm s a ∧ MarksPending s a) (Initial db fresh) s)
    (id : Uuid) : (s.trace.filter fun e => e.2.okPostOf = some id).length ≤ 1 := by
  have hguarded : Run (program cfg).step Guarded (Initial db fresh) s :=
    hs.mono fun t a ht hgood => ⟨hgood.1, hgood.2, fun id _ j => (Run.offline hoff ht j).not_exposes id⟩
  exact (Run.never_repeated hdb hguarded id).length_le

/-! ### A batch of two rows -/

/-- A subscription that takes every drift of an endpoint. -/
def sampleSubscription (id endpointId : Uuid) : SubscriptionRow where
  id := id
  consumerId := s!"consumer {id}"
  endpointId := endpointId
  targetUrl := "http://consumer/hook"
  severityThreshold := "SAFE"
  schemaVersion := none
  active := true
  createdAt := id

/-- A pending row for the subscription 3 of the endpoint 9. -/
def samplePending (id : Uuid) : OutboxRow where
  id := id
  subscriptionId := 3
  endpointId := 9
  payload := ⟨some 8, 9, .breaking, 2, []⟩
  status := .pending
  attempts := 0
  maxAttempts := 5
  nextRetryAt := 0
  createdAt := id

/-- Two pending rows. -/
def sampleBatch : Db where
  subscriptions := [sampleSubscription 3 9]
  outbox := [samplePending 1, samplePending 2]

/-- From the mark to the final commit of a row that is answered 2xx. -/
def deliverRow (i : ℕ) : List (ℕ × Input) :=
  List.replicate 3 (i, .proceed 0) ++ [(i, .answer 200)] ++ List.replicate 4 (i, .proceed 0)

/-- One worker delivers a row. -/
theorem delivered_at_most_once_alone : ∃ s : World ℕ,
    Run (program (sampleConfig false)).step (fun s a => Calm s a ∧ MarksPending s a)
      (Initial sampleBatch 10) s ∧
    s.db.outboxStatus 1 = some .delivered ∧
    (s.trace.filter fun e => e.2.okPostOf = some 1).length ≤ 1 := by
  have hrun : (exec (program (sampleConfig false)).step (sampleWorld sampleBatch 10 [])
      ((0, .proceed 0) :: deliverRow 0)).map (fun s => s.db.outboxStatus 1) =
        some (some .delivered) := by
    decide
  obtain ⟨s, hs, hstatus⟩ := Option.map_eq_some_iff.mp hrun
  have hgood : Along (program (sampleConfig false)).step (fun s a => Calm s a ∧ MarksPending s a)
      (sampleWorld sampleBatch 10 []) ((0, .proceed 0) :: deliverRow 0) := by
    decide
  have hreach := Run.of_exec (.start (sampleWorld_initial (by simp))) hgood hs
  exact ⟨s, hreach, hstatus, delivered_at_most_once rfl (by decide) hreach 1⟩

/-- One worker selects two rows and commits the mark of the first; another one delivers the second;
then the first worker delivers it as well. -/
theorem delivered_twice : ¬∀ s : World ℕ,
    Run (program (sampleConfig false)).step NoCrash (Initial sampleBatch 10) s →
    ∀ id, (s.trace.filter fun e => e.2.okPostOf = some id).length ≤ 1 := by
  intro h
  have hrun : (exec (program (sampleConfig false)).step (sampleWorld sampleBatch 10 [])
      (List.replicate 3 (0, .proceed 0) ++ (1, .proceed 0) :: deliverRow 1 ++
        [(0, .proceed 0), (0, .answer 200)] ++ List.replicate 4 (0, .proceed 0) ++
          deliverRow 0)).map
      (fun s => (s.trace.filter fun e => e.2.okPostOf = some 2).length) = some 2 := by
    decide
  obtain ⟨s, hs, htwo⟩ := Option.map_eq_some_iff.mp hrun
  have hreach : Run (program (sampleConfig false)).step NoCrash (Initial sampleBatch 10) s := by
    have hcalm : Run (program (sampleConfig false)).step (fun _ a => a.2.crash = false)
        (Initial sampleBatch 10) s :=
      Run.of_exec (.start (sampleWorld_initial (by simp))) (Along.of_labels (by decide) _) hs
    refine hcalm.mono fun t a _ ha hc => ?_
    rw [ha] at hc
    cases hc
  have hle := h s hreach 2
  rw [htwo] at hle
  omega

/-! ### With inline delivery -/

/-- A party that has no row under way: a request that has ended, a worker between two polls. -/
def Party.done : Party → Bool
  | .track p =>
    match p.status with
    | .running => false
    | .closing _ => false
    | _ => true
  | .worker pc =>
    match pc with
    | .poll => true
    | .countPending _ => true
    | .close _ => true
    | .closeFailed => true
    | .sleep => true
    | .ended => true
    | _ => false
  | _ => true

theorem Party.handling_of_done {p : Party} (h : p.done = true) : p.handling = false := by
  cases p with
  | track p =>
    obtain ⟨call, pc, status, task⟩ := p
    cases status <;> first | rfl | cases h
  | worker pc => cases pc <;> first | rfl | cases h
  | _ => rfl

/-- **Agreement.** In every run in which a worker marks only rows whose committed status is PENDING
and that no inline call is about to update, and nobody crashes with a row in hand, no row is posted
again after a 2xx answer. When all are done, a row is DELIVERED exactly if it was answered 2xx (or
was DELIVERED at the start). -/
theorem inline_and_worker_agree (cfg : Config) {db : Db} {fresh : Uuid}
    (hdb : ∀ row ∈ db.outbox, row.id < fresh) {s : World ι}
    (hs : Run (program cfg).step Guarded (Initial db fresh) s) (id : Uuid) :
    NeverRepeated id s.trace ∧ ((∀ i, (s.loc i).done = true) →
      (s.db.outboxStatus id = some .delivered ↔
        Answered id s.trace ∨ db.outboxStatus id = some .delivered)) := by
  refine ⟨Run.never_repeated hdb hs id, fun hdone => ?_⟩
  have hI := Run.row_ownership hdb hs
  have hfree : ∀ i, id ∉ rowsInHand (s.loc i) (s.pending i) := by
    intro i
    rw [rowsInHand_eq_nil hI (Party.handling_of_done (hdone i))]
    exact List.not_mem_nil
  exact (hI.free id hfree).honest

/-- An endpoint with one version and one subscription. -/
def sampleEndpoint : Db where
  endpoints := [⟨1, sampleKey⟩]
  versions := [⟨2, 1, 1, "old", Schema.canonicalize sampleOld.json, "SAFE", none, true⟩]
  subscriptions := [sampleSubscription 3 1]

/-- A request that submits a new schema, and a worker. -/
def samplePair : World (Fin 2) :=
  worldOf sampleEndpoint 10 fun i => if i = 0 then sampleRequest sampleNew else .worker .poll

theorem samplePair_initial : Initial sampleEndpoint 10 samplePair :=
  worldOf_initial fun i => by
    split
    · exact .track _
    · exact .worker

/-- The request delivers its row inline, up to the commit of the success record. -/
def deliverInline : List (Fin 2 × Input) :=
  List.replicate 14 (0, .proceed 0) ++ [(0, .answer 200)] ++ List.replicate 2 (0, .proceed 0)

/-- The request runs by itself, then the worker finds nothing to do. -/
theorem inline_and_worker_agree_in_sequence : ∃ s : World (Fin 2),
    Run (program (sampleConfig true)).step Guarded (Initial sampleEndpoint 10) s ∧
    (∀ i, (s.loc i).done = true) ∧ s.db.outboxStatus 23 = some .delivered ∧
    Answered 23 s.trace := by
  have hrun : (exec (program (sampleConfig true)).step samplePair
      (deliverInline ++ List.replicate 2 (0, .proceed 0) ++ [(1, .proceed 0)])).map
      (fun s => ((s.loc 0).done && (s.loc 1).done, s.db.outboxStatus 23)) =
        some (true, some .delivered) := by
    decide +kernel
  obtain ⟨s, hs, hend⟩ := Option.map_eq_some_iff.mp hrun
  have hgood : Along (program (sampleConfig true)).step Guarded samplePair
      (deliverInline ++ List.replicate 2 (0, .proceed 0) ++ [(1, .proceed 0)]) := by
    decide +kernel
  have hreach := Run.of_exec (.start samplePair_initial) hgood hs
  obtain ⟨hdone, hstatus⟩ := Prod.mk.inj hend
  rw [Bool.and_eq_true] at hdone
  have hall : ∀ i, (s.loc i).done = true := by
    rw [Fin.forall_fin_two]
    exact hdone
  have hagree := (inline_and_worker_agree _ (by decide) hreach 23).2 hall
  refine ⟨s, hreach, hall, hstatus, (hagree.mp hstatus).resolve_right ?_⟩
  decide

/-- The request has committed its row as PENDING and not yet updated it when the worker takes the
row and posts it again. -/
theorem inline_and_worker_repeat : ¬∀ s : World (Fin 2),
    Run (program (sampleConfig true)).step NoCrash (· = samplePair) s →
    ∀ id, NeverRepeated id s.trace ∧ ((∀ i, (s.loc i).done = true) →
      (s.db.outboxStatus id = some .delivered ↔ Answered id s.trace)) := by
  intro h
  have hrun : (exec (program (sampleConfig true)).step samplePair
      (deliverInline ++ List.replicate 4 (1, .proceed 0) ++ [(1, .answer 200)])).map
      (fun s => (s.trace.filter fun e => e.2.okPostOf = some 23).length) = some 2 := by
    decide +kernel
  obtain ⟨s, hs, htwo⟩ := Option.map_eq_some_iff.mp hrun
  have hreach : Run (program (sampleConfig true)).step NoCrash (· = samplePair) s := by
    have hcalm : Run (program (sampleConfig true)).step (fun _ a => a.2.crash = false)
        (· = samplePair) s :=
      Run.of_exec (.start rfl) (Along.of_labels (by decide) _) hs
    refine hcalm.mono fun t a _ ha hc => ?_
    rw [ha] at hc
    cases hc
  have hle := ((h s hreach 23).1).length_le
  rw [htwo] at hle
  omega

end Driftgate.Runtime
