import Driftgate.Runtime.Notifications
import Driftgate.Runtime.DriftSummary

/-!
# What a request writes down

A request writes its verdict in several places: the answer, the document of the comparison, the
event, the webhooks in the outbox. All are made from one drift, which the program counter carries
from the comparison on. `TrackProc.Recorded` says so for the documents and events of a request, and
`eventOwnership` for its webhooks: an event identifier is given to one request, and every row of the
outbox with that identifier has the payload of that request.
-/

namespace Driftgate.Runtime

open Driftgate.ReadCommitted Driftgate.Transition Driftgate.Schema

/-! ### The drift in the program counter -/

namespace TrackPc

/-- The drift that a request has found. -/
def drift? : TrackPc → Option Drift
  | .storeDiff d => some d
  | .setClassification d => some d
  | .enqueue q _ => some q.drift
  | .commit (some n) _ => some n.enqueue.drift
  | _ => none

/-- The arguments of `_enqueue_webhook_outbox`, once it is called. -/
def enqueue? : TrackPc → Option Enqueue
  | .enqueue q _ => some q
  | .commit (some n) _ => some n.enqueue
  | _ => none

theorem drift_of_enqueue {pc : TrackPc} {q : Enqueue} (h : pc.enqueue? = some q) :
    pc.drift? = some q.drift := by
  cases pc with
  | enqueue q' pc =>
    cases h
    rfl
  | commit n r =>
    cases n with
    | none => cases h
    | some n =>
      cases h
      rfl
  | _ => cases h

end TrackPc

/-- An inserted version belongs to the endpoint, and is the first one when it has no predecessor. -/
structure Upserted.Inserted (u : Upserted) : Prop where
  inserted : u.inserted = true
  endpoint : u.record.endpointId = u.endpointId
  first : u.record.previousVersionId = none → u.record.version = 1

/-- What a request has found out, as far as its answer shows it. -/
def TrackPc.Reports (cfg : Config) (call : TrackCall) : TrackPc → Prop
  | .upsert _ => True
  | .storeSnapshot u => u.inserted = true → u.Inserted
  | .selectPrior u _ => u.Inserted
  | .storeDiff d => d.upserted.Inserted
  | .setClassification d => d.upserted.Inserted
  | .enqueue q _ => q.drift.upserted.Inserted
  | .commit none r => r.compatibilityClassification = .safe ∧ (r.inserted = true → r.schemaVersion = 1)
  | .commit (some n) r => n.enqueue.drift.upserted.Inserted ∧
      r = call.driftResult n.enqueue.drift (cfg.fingerprint call.canonicalSchema) n.affected

/-- What a step of a request's code keeps of all this. -/
structure TrackPc.Leads (cfg : Config) (call : TrackCall) (fresh : Uuid) (pc pc' : TrackPc) :
    Prop where
  going : ∀ n r, pc ≠ .commit n r
  drift : ∀ d ∈ pc.drift?, pc'.drift? = some d
  enqueue : pc'.enqueue? = pc.enqueue? ∨ pc.enqueue? = none ∧ ∃ d, pc'.enqueue? = some ⟨d, fresh⟩
  reports : pc.Reports cfg call → pc'.Reports cfg call

/-- What a step of a request's code writes, tells and leads to. -/
structure RecordStep (cfg : Config) (call : TrackCall) (pc : TrackPc) (fresh : Uuid)
    (op : Op Write LockKey Effect (Flow TrackPc TrackResult)) : Prop where
  inserts : ∀ row, .insertOutbox row ∈ op.writes → ∃ q ∈ pc.enqueue?, row.payload = q.payload
  stored : ∀ d l, op = .emit (.diffStored d) l → pc.drift? = some d
  quiet : ∀ event ok l, op ≠ .emit (.published event ok) l
  leads : ∀ pc', op.next = .go pc' → pc.Leads cfg call fresh pc'
  done : ∀ r, op.next = .done r → ∃ n, pc = .commit n r

/-! ### Steps of a request -/

section Steps

variable {cfg : Config} {call : TrackCall} {v : DbView} {x : Input}

/-- `upsert_schema_version` returns a version that was there, or one it has inserted. -/
theorem Upsert.step_inserted {u : Upsert} {pc : UpsertPc}
    {op : Op Write LockKey Empty (Flow UpsertPc Upserted)} (h : u.step cfg pc v x = some op)
    {r : Upserted} (hr : op.next = .done r) (hinserted : r.inserted = true) : r.Inserted := by
  obtain ⟨ks, ws, next, rfl, hmove⟩ := step_move h
  cases hmove with
  | @versionInserted now e current hfree =>
    cases hr
    refine ⟨rfl, rfl, fun hnone => ?_⟩
    cases current with
    | none => rfl
    | some c => cases hnone
  | _ => cases hr <;> cases hinserted

theorem TrackCall.afterSnapshot_reports (cfg : Config) (call : TrackCall) {u : Upserted}
    (h : u.inserted = true → u.Inserted) : (call.afterSnapshot cfg u).Reports cfg call := by
  rw [afterSnapshot]
  split
  · exact h ‹_›
  · rename_i hno
    refine ⟨rfl, fun hinserted => (h hinserted).first ?_⟩
    cases hprevious : u.record.previousVersionId with
    | none => rfl
    | some id => exact absurd hprevious (hno id hinserted)

theorem TrackCall.afterUpsert_reports (cfg : Config) (call : TrackCall) {u : Upserted}
    (h : u.inserted = true → u.Inserted) : (call.afterUpsert cfg u).Reports cfg call := by
  rw [afterUpsert]
  split
  · exact h
  · exact call.afterSnapshot_reports cfg h

theorem TrackCall.afterSnapshot_enqueue (cfg : Config) (call : TrackCall) (u : Upserted) :
    (call.afterSnapshot cfg u).enqueue? = none := by
  rw [afterSnapshot]
  split <;> rfl

theorem TrackCall.afterUpsert_enqueue (cfg : Config) (call : TrackCall) (u : Upserted) :
    (call.afterUpsert cfg u).enqueue? = none := by
  rw [afterUpsert]
  split
  · rfl
  · exact call.afterSnapshot_enqueue cfg u

/-- In the loop over the subscriptions a request keeps its drift and its event. -/
theorem TrackCall.enqueueing_leads (q : Enqueue) (pc : EnqueuePc) (fresh : Uuid)
    {f : Flow EnqueuePc (List SubscriptionRow)} {pc' : TrackPc}
    (h : call.enqueueing cfg q f = .go pc') : (TrackPc.enqueue q pc).Leads cfg call fresh pc' := by
  cases f with
  | go pc =>
    cases h
    exact ⟨by simp, fun d hd => hd, .inl rfl, id⟩
  | done affected =>
    cases h
    exact ⟨by simp, fun d hd => hd, .inl rfl, fun h => ⟨h, rfl⟩⟩
  | raised e => cases h

/-- `_enqueue_webhook_outbox` inserts rows with its own payload, and tells nobody but by POST. -/
theorem Enqueue.step_records {q : Enqueue} {pc : EnqueuePc}
    {op : Op Write LockKey Effect (Flow EnqueuePc (List SubscriptionRow))}
    (h : q.step cfg pc v x = some op) :
    (∀ row, .insertOutbox row ∈ op.writes → row.payload = q.payload) ∧
      ∀ e l, op = .emit e l → ∃ id post, e = .posted id post := by
  cases step_move h with
  | @delivers _ _ _ _ _ _ dop hdop =>
    refine ⟨fun row hrow => ?_, fun e l he => ?_⟩
    · rw [Op.writes_map] at hrow
      obtain ht | ht := Delivery.step_table hdop _ hrow <;> cases ht
    · cases dop <;> cases he
      exact ⟨_, _, rfl⟩
  | inserts | insertsActive | insertsInactive =>
    refine ⟨fun row hrow => ?_, by simp⟩
    cases List.mem_singleton.mp hrow
    rfl
  | selects | updates | selectRaises | insertRaises | updateRaises =>
    exact ⟨by simp [Op.writes], by simp⟩

/-- **What a step of a request does with its records.** -/
theorem TrackCall.step_records {pc : TrackPc}
    {op : Op Write LockKey Effect (Flow TrackPc TrackResult)}
    (h : call.step cfg pc v x = some op) : RecordStep cfg call pc v.fresh op := by
  -- a step of one of the short statements
  have hshort : ∀ {f : Flow TrackPc TrackResult} {ks : List LockKey} {ws : List Write},
      (∀ w ∈ ws, w.table ≠ .outbox) → (∀ pc', f = .go pc' → pc.Leads cfg call v.fresh pc') →
      (∀ r, f ≠ .done r) → RecordStep cfg call pc v.fresh (.exec ks ws f) := by
    intro f ks ws hws hleads hdone
    exact ⟨fun row hrow => absurd rfl (hws _ hrow), by simp, by simp, hleads,
      fun r hr => absurd hr (hdone r)⟩
  have hraised : ∀ {ks : List LockKey} {ws : List Write} {e : Exc}, (∀ w ∈ ws, w.table ≠ .outbox) →
      RecordStep cfg call pc v.fresh (.exec ks ws (.raised e)) :=
    fun hws => hshort hws (by simp) (by simp)
  have hsnapshot : ∀ u pc', Flow.go (call.afterSnapshot cfg u) = (Flow.go pc' : Flow TrackPc TrackResult) →
      (TrackPc.storeSnapshot u).Leads cfg call v.fresh pc' := by
    intro u pc' hgo
    cases hgo
    exact ⟨by simp, by simp [TrackPc.drift?], .inl (call.afterSnapshot_enqueue cfg u),
      fun h => call.afterSnapshot_reports cfg h⟩
  have hdiff : ∀ d pc', Flow.go (TrackPc.setClassification d) = (Flow.go pc' : Flow TrackPc TrackResult) →
      (TrackPc.storeDiff d).Leads cfg call v.fresh pc' := by
    intro d pc' hgo
    cases hgo
    exact ⟨by simp, fun d' hd => hd, .inl rfl, fun h => h⟩
  cases step_move h with
  | upserts pc hop =>
    obtain ⟨ks, ws, next, rfl, hws⟩ := Upsert.step_exec hop
    have htables : ∀ w ∈ ws, w.table ≠ .outbox := by
      intro w hw ht
      obtain he | hv := hws w hw
      · exact absurd (ht.symm.trans he) (by decide)
      · exact absurd (ht.symm.trans hv) (by decide)
    cases next with
    | go pc' =>
      refine hshort htables (fun pc'' hgo => ?_) (fun r hr => by cases hr)
      cases hgo
      exact ⟨by simp, by simp [TrackPc.drift?], .inl rfl, fun _ => trivial⟩
    | done u =>
      refine hshort htables (fun pc'' hgo => ?_) (fun r hr => by cases hr)
      cases hgo
      refine ⟨by simp, by simp [TrackPc.drift?], .inl (call.afterUpsert_enqueue cfg u), fun _ => ?_⟩
      exact call.afterUpsert_reports cfg fun hi => Upsert.step_inserted hop rfl hi
    | raised e => exact hraised htables
  | storesSnapshot u => exact ⟨by simp [Op.writes], by simp, by simp, hsnapshot u, by simp [Op.next]⟩
  | skipsSnapshot u => exact hshort (by simp) (hsnapshot u) (by simp)
  | comparesStored | compares =>
    refine hshort (by simp) (fun pc' hgo => ?_) (by simp)
    cases hgo
    exact ⟨by simp, by simp [TrackPc.drift?], .inl rfl, fun h => h⟩
  | storesDiff d =>
    refine ⟨by simp [Op.writes], fun d' l he => ?_, by simp, hdiff d, by simp [Op.next]⟩
    cases he
    rfl
  | skipsDiff d => exact hshort (by simp) (hdiff d) (by simp)
  | classifies d =>
    refine hshort (by simp [Write.table]) (fun pc' hgo => ?_) (by simp)
    cases hgo
    exact ⟨by simp, fun d' hd => hd, .inr ⟨rfl, d, rfl⟩, fun h => h⟩
  | @enqueues _ q pc op' hop =>
    obtain ⟨hinserts, hemits⟩ := Enqueue.step_records hop
    have hemit : ∀ e l, op'.map (call.enqueueing cfg q) id = .emit e l →
        ∃ id post, e = .posted id post := by
      intro e l he
      cases op' with
      | emit e' l' =>
        cases he
        exact hemits _ _ rfl
      | _ => cases he
    refine ⟨fun row hrow => ⟨q, rfl, hinserts row ?_⟩, fun d l he => ?_, fun event ok l he => ?_,
      fun pc' hgo => ?_, fun r hdone => ?_⟩
    · exact Op.writes_map .. ▸ hrow
    · obtain ⟨_, _, hposted⟩ := hemit _ _ he
      cases hposted
    · obtain ⟨_, _, hposted⟩ := hemit _ _ he
      cases hposted
    · rw [Op.next_map] at hgo
      exact enqueueing_leads q pc v.fresh hgo
    · rw [Op.next_map] at hdone
      cases hnext : op'.next <;> rw [hnext] at hdone <;> cases hdone
  | commits n r =>
    refine ⟨by simp [Op.writes], by simp, by simp, by simp [Op.next], fun r' hr => ⟨n, ?_⟩⟩
    cases hr
    rfl
  | comparisonFails | priorMissing | priorRaises | classifyRaises | commitRaises =>
    exact hraised (by simp)

end Steps

/-! ### Documents and events -/

section Recorded

variable {ι : Type*}

/-- The documents and events of request `i` are about the drift in its program counter. -/
structure TrackProc.Recorded (cfg : Config) (i : ι) (w : Shared Db Effect ι) (p : TrackProc) :
    Prop where
  diff : ∀ d, (i, .diffStored d) ∈ w.trace → p.pc.drift? = some d
  event : ∀ e ok, (i, .published e ok) ∈ w.trace →
    ∃ n r, p.pc = .commit (some n) r ∧ e = p.call.driftEvent cfg n
  task : ∀ t ∈ p.task, ∃ n r, p.pc = .commit (some n) r ∧ t.event = p.call.driftEvent cfg n
  reports : p.pc.Reports cfg p.call
  returned : ∀ r, p.status = .returned r → ∃ n, p.pc = .commit n r

def Party.Recorded (cfg : Config) (i : ι) (w : Shared Db Effect ι) : Party → Prop
  | .track p => p.Recorded cfg i w
  | _ => True

variable {cfg : Config} {i : ι} {w w' : Shared Db Effect ι} {ws : List Write}

/-- What others tell is not told by the request. -/
theorem Party.Recorded.mono {p : Party} (h : p.Recorded cfg i w)
    (htrace : ∀ e, (i, e) ∈ w'.trace → (i, e) ∈ w.trace) : p.Recorded cfg i w' := by
  cases p with
  | track p =>
    exact ⟨fun d hd => h.diff d (htrace _ hd), fun e ok he => h.event e ok (htrace _ he), h.task,
      h.reports, h.returned⟩
  | _ => trivial

theorem TrackProc.halt_pc (p : TrackProc) :
    p.halt.pc = p.pc ∧ p.halt.call = p.call ∧ p.halt.task = none ∧
      ∀ r, p.halt.status = .returned r → p.status = .returned r := by
  refine ⟨rfl, rfl, rfl, fun r hr => ?_⟩
  simp only [halt] at hr
  cases hst : p.status <;> simp only [hst] at hr <;> first | exact hr | cases hr

/-- What one step of a request keeps. -/
theorem TrackProc.Recorded.next {p : TrackProc} (h : p.Recorded cfg i w) {v : DbView} {x : Input}
    {op : Op Write LockKey Effect TrackProc} (hop : p.next cfg v x = some op)
    (htrace : ∀ e, (i, e) ∈ w'.trace → (i, e) ∈ w.trace ∨ ∃ l, op = .emit e l) :
    op.next.Recorded cfg i w' := by
  obtain ⟨rfl, rfl⟩ | ⟨ok, t, rfl, ht, rfl⟩ | ⟨cop, hrun, hcode, rfl⟩ | ⟨e, hst, rfl⟩ :=
    next_cases hop
  · -- the process stops
    have hold : ∀ e, (i, e) ∈ w'.trace → (i, e) ∈ w.trace :=
      fun e he => (htrace e he).resolve_right (by simp)
    exact ⟨fun d hd => h.diff d (hold _ hd), fun e ok he => h.event e ok (hold _ he),
      by simp [Op.next, halt], h.reports, fun r hr => h.returned r (p.halt_pc.2.2.2 r hr)⟩
  · -- the task publishes
    obtain ⟨n, r, hpc, hevent⟩ := h.task t ht
    refine ⟨fun d hd => ?_, fun e ok' he => ?_, fun t' ht' => ⟨n, r, hpc, ?_⟩, h.reports, h.returned⟩
    · obtain hd | ⟨l, hl⟩ := htrace _ hd
      · exact h.diff d hd
      · cases hl
    · obtain he | ⟨l, hl⟩ := htrace _ he
      · exact h.event e ok' he
      · cases hl
        exact ⟨n, r, hpc, hevent⟩
    · have ht' : t' ∈ t.called ok := ht'
      rw [PublishTask.called] at ht'
      split at ht'
      · cases ht'
      · cases ht'
        exact hevent
  · -- the code runs
    have hstep := TrackCall.step_records hcode
    have htrace : ∀ e, (i, e) ∈ w'.trace → (i, e) ∈ w.trace ∨ ∃ l, cop = .emit e l := by
      intro e he
      refine (htrace e he).imp_right ?_
      rintro ⟨l, hl⟩
      cases cop with
      | emit e' l' =>
        cases hl
        exact ⟨l', rfl⟩
      | _ => cases hl
    have hdiff : ∀ d, (i, .diffStored d) ∈ w'.trace → p.pc.drift? = some d := by
      intro d hd
      obtain hd | ⟨l, hl⟩ := htrace _ hd
      · exact h.diff d hd
      · exact hstep.stored d l hl
    have hevent : ∀ e ok, (i, .published e ok) ∈ w'.trace →
        ∃ n r, p.pc = .commit (some n) r ∧ e = p.call.driftEvent cfg n := by
      intro e ok he
      obtain he | ⟨l, hl⟩ := htrace _ he
      · exact h.event e ok he
      · exact absurd hl (hstep.quiet e ok l)
    rw [Op.next_map]
    cases hnext : cop.next with
    | go pc' =>
      have hleads := hstep.leads pc' hnext
      refine ⟨fun d hd => hleads.drift d (hdiff d hd), fun e ok he => ?_, fun t ht => ?_,
        hleads.reports h.reports, fun r hr => ?_⟩
      · obtain ⟨n, r, hpc, -⟩ := hevent e ok he
        exact absurd hpc (hleads.going _ _)
      · have hold : t ∈ p.task → False := by
          intro ht
          obtain ⟨n, r, hpc, -⟩ := h.task t ht
          exact hleads.going _ _ hpc
        cases pc' with
        | commit n r =>
          cases n with
          | none => exact (hold ht).elim
          | some n =>
            cases ht
            exact ⟨n, r, rfl, rfl⟩
        | _ => exact (hold ht).elim
      · rw [show (p.after cfg (.go pc')).status = p.status from rfl] at hr
        obtain ⟨n, hpc⟩ := h.returned r hr
        exact absurd hpc (hleads.going _ _)
    | done r =>
      refine ⟨hdiff, hevent, h.task, h.reports, fun r' hr' => ?_⟩
      cases hr'
      exact hstep.done r hnext
    | raised e => exact ⟨hdiff, hevent, h.task, h.reports, fun r hr => by cases hr⟩
  · -- the session closes
    have hold : ∀ e, (i, e) ∈ w'.trace → (i, e) ∈ w.trace :=
      fun e he => (htrace e he).resolve_right (by simp)
    exact ⟨fun d hd => h.diff d (hold _ hd), fun e ok he => h.event e ok (hold _ he), h.task,
      h.reports, fun r hr => by cases hr⟩

theorem Party.Recorded.next {p : Party} (h : p.Recorded cfg i w) {v : DbView} {x : Input}
    {op : Op Write LockKey Effect Party} (hop : p.next cfg v x = some op) :
    op.next.Recorded cfg i (op.shared (program cfg) i ws w) := by
  have htrace : ∀ e, (i, e) ∈ (op.shared (program cfg) i ws w).trace →
      (i, e) ∈ w.trace ∨ ∃ l, op = .emit e l := by
    intro e he
    refine ((Op.mem_trace_shared op (i, e)).mp he).imp_right ?_
    rintro ⟨e', l, hop, heq⟩
    cases heq
    exact ⟨l, hop⟩
  cases p with
  | track p =>
    obtain ⟨op', hop', rfl⟩ := Option.map_eq_some_iff.mp hop
    rw [Op.next_map]
    refine TrackProc.Recorded.next h hop' fun e he => (htrace e he).imp_right fun ⟨l, hl⟩ => ?_
    cases op' with
    | emit e' l' =>
      cases hl
      exact ⟨l', rfl⟩
    | _ => cases hl
  | worker pc =>
    obtain ⟨op', hop', rfl⟩ := Option.map_eq_some_iff.mp hop
    rw [Op.next_map]
    trivial
  | subscription call pc =>
    obtain ⟨op', hop', rfl⟩ := Option.map_eq_some_iff.mp hop
    rw [Op.next_map]
    cases op'.next <;> trivial
  | finished =>
    cases x <;> simp only [Party.next, reduceCtorEq, Option.some.injEq] at hop
    subst hop
    trivial

theorem Party.Starting.recorded {p : Party} (h : p.Starting) (htrace : w.trace = []) :
    p.Recorded cfg i w := by
  cases h with
  | track call =>
    exact ⟨by simp [htrace], by simp [htrace], by simp [TrackProc.start], trivial,
      fun r hr => by cases hr⟩
  | _ => trivial

/-- **Records along every run.** -/
theorem Run.recorded [DecidableEq ι] {good : World ι → ι × Input → Prop} {db : Db} {fresh : Uuid}
    {s : World ι} (hs : Run (program cfg).step good (Initial db fresh) s) (i : ι) :
    (s.loc i).Recorded cfg i s.toShared := by
  refine (Run.noninterference (G := fun _ => True)
    (A := fun i w o => o.loc.Recorded cfg i w) ?_ ?_ ?_ hs).2 i
  · exact fun s hs => ⟨trivial, fun i => (hs.starting i).recorded hs.trace⟩
  · exact fun s i x op _ _ hA hop _ => ⟨trivial, (hA i).next hop⟩
  · intro s i j x op hj _ _ hA _
    refine (hA j).mono fun e he => ?_
    obtain he | ⟨effect, l, -, heq⟩ := (Op.mem_trace_shared op (j, e)).mp he
    · exact he
    · exact absurd (congrArg Prod.fst heq) hj

end Recorded

/-! ### Event identifiers -/

/-- The arguments of `_enqueue_webhook_outbox` of a party, once it is called. -/
def Party.enqueue? : Party → Option Enqueue
  | .track p => p.pc.enqueue?
  | _ => none

/-- Where webhooks and event identifiers come from. -/
theorem Party.step_events {cfg : Config} {p : Party} {v : DbView} {x : Input}
    {op : Op Write LockKey Effect Party} (h : p.next cfg v x = some op) :
    (∀ row, .insertOutbox row ∈ op.writes → ∃ q ∈ p.enqueue?, row.payload = q.payload) ∧
      (op.next.enqueue? = p.enqueue? ∨
        p.enqueue? = none ∧ ∃ d, op.next.enqueue? = some ⟨d, v.fresh⟩) := by
  have hquiet : ∀ {ws : List Write}, (∀ w ∈ ws, w.adds = false) → ∀ row,
      .insertOutbox row ∈ ws → ∃ q ∈ p.enqueue?, row.payload = q.payload :=
    fun hws row hrow => (by cases hws _ hrow)
  cases p with
  | track p =>
    obtain ⟨op', hop', rfl⟩ := Option.map_eq_some_iff.mp h
    rw [Op.writes_map, Op.next_map]
    obtain ⟨rfl, rfl⟩ | ⟨ok, t, rfl, ht, rfl⟩ | ⟨cop, hrun, hcode, rfl⟩ | ⟨e, hst, rfl⟩ :=
      TrackProc.next_cases hop'
    · exact ⟨by simp [Op.writes], .inl rfl⟩
    · exact ⟨by simp [Op.writes], .inl rfl⟩
    · have hstep := TrackCall.step_records hcode
      rw [Op.writes_map, Op.next_map]
      refine ⟨hstep.inserts, ?_⟩
      cases hnext : cop.next with
      | go pc' => exact (hstep.leads pc' hnext).enqueue
      | _ => exact .inl rfl
    · exact ⟨by simp [Op.writes], .inl rfl⟩
  | worker pc =>
    obtain ⟨op', hop', rfl⟩ := Option.map_eq_some_iff.mp h
    rw [Op.writes_map, Op.next_map]
    exact ⟨hquiet (WorkerPc.step_payloads hop').2.2, .inl rfl⟩
  | subscription call pc =>
    obtain ⟨op', hop', rfl⟩ := Option.map_eq_some_iff.mp h
    rw [Op.writes_map, Op.next_map]
    refine ⟨hquiet fun w hw => ?_, .inl ?_⟩
    · have ht := SubscriptionCall.step_table hop' w hw
      exact Write.adds_of_table (by simp [ht]) (by simp [ht])
    · cases op'.next <;> rfl
  | finished =>
    cases x <;> simp only [Party.next, reduceCtorEq, Option.some.injEq] at h
    subst h
    exact ⟨by simp [Op.writes], .inl rfl⟩

/-- The event identifiers that parties have been given. A row of the outbox with an identifier in
hand has the payload of its party. -/
def eventOwnership (ι : Type*) : Ownership Db Write LockKey Effect Party ι Uuid where
  inHand := fun o => {id | ∃ q ∈ o.loc.enqueue?, q.eventId = id}
  Free := fun id w => w.fresh ≤ id → ∀ row ∈ w.db.outbox, row.payload.eventId ≠ some id
  Busy := fun id w o => id < w.fresh ∧ ∀ q ∈ o.loc.enqueue?, ∀ row ∈ w.db.outbox,
    row.payload.eventId = some id → row.payload = q.payload

section Events

variable {ι : Type*} [DecidableEq ι] {cfg : Config} {db : Db} {fresh : Uuid}

/-- In an open transaction all webhooks have the payload of the party. -/
theorem Run.pending_payload {good : World ι → ι × Input → Prop} {s : World ι}
    (hs : Run (program cfg).step good (Initial db fresh) s) (i : ι) : ∀ row,
    .insertOutbox row ∈ s.pending i → ∃ q ∈ (s.loc i).enqueue?, row.payload = q.payload := by
  refine Run.process_invariant (A := fun _ o => ∀ row, .insertOutbox row ∈ o.pending →
    ∃ q ∈ o.loc.enqueue?, row.payload = q.payload) ?_ ?_ hs i
  · intro s hs i row hrow
    rw [show (s.own i).pending = s.pending i from rfl, hs.pending i] at hrow
    cases hrow
  · intro s i x op _ hA hop row hrow
    obtain ⟨hinserts, hnext⟩ := Party.step_events hop
    have hbefore : ∃ q ∈ (s.loc i).enqueue?, row.payload = q.payload := by
      cases op with
      | exec ks ws l =>
        obtain hrow | hrow := List.mem_append.mp hrow
        · exact hA row hrow
        · exact hinserts row hrow
      | emit e l => exact hA row hrow
      | commit l => cases hrow
      | rollback l => cases hrow
    obtain ⟨q, hq, hpayload⟩ := hbefore
    refine ⟨q, ?_, hpayload⟩
    obtain hsame | ⟨hnone, -⟩ := hnext
    · exact hsame ▸ hq
    · rw [hnone] at hq
      cases hq

/-- **Events.** In every run no two requests have one event identifier, and the webhooks of an event
have the payload of its request. -/
theorem Run.events {good : World ι → ι × Input → Prop}
    (hdb : ∀ row ∈ db.outbox, ∀ e ∈ row.payload.eventId, e < fresh) {s : World ι}
    (hs : Run (program cfg).step good (Initial db fresh) s) : (eventOwnership ι).Holds s := by
  refine Run.ownership ?_ ?_ hs
  · intro s hs
    have hempty : ∀ i id, id ∉ (eventOwnership ι).inHand (s.own i) := by
      rintro i id ⟨q, hq, -⟩
      have hstart := hs.starting i
      rw [show (s.own i).loc = s.loc i from rfl] at hq
      cases hloc : s.loc i with
      | track p =>
        rw [hloc] at hstart hq
        cases hstart
        cases hq
      | _ =>
        rw [hloc] at hq
        cases hq
    refine ⟨fun i j id hid => absurd hid (hempty i id), fun id _ hle row hrow he => ?_,
      fun i id hid => absurd hid (hempty i id)⟩
    rw [show s.toShared.db = s.db from rfl, hs.db] at hrow
    have hlt : id < fresh := hdb row hrow id he
    have hle : s.fresh ≤ id := hle
    rw [hs.fresh] at hle
    exact absurd hlt (Nat.not_lt.mpr hle)
  · intro s i x op hr hI _ hop _
    have hpending := Run.pending_payload hr i
    obtain ⟨-, hnext⟩ := Party.step_events hop
    -- a committed row is an old one or has the payload of the party
    have hrows : ∀ row ∈ (op.shared (program cfg) i (s.pending i) s.toShared).db.outbox,
        (∃ row' ∈ s.db.outbox, row'.payload = row.payload) ∨
          ∃ q ∈ (s.loc i).enqueue?, row.payload = q.payload := by
      intro row hrow
      cases op with
      | commit l =>
        obtain ⟨row', hrow', hp⟩ | ⟨row', hrow', hp⟩ :=
          (outbox_applyAll cfg (fun _ p => p = row.payload) (s.pending i) s.db).mp
            ⟨row, hrow, rfl⟩
        · exact .inl ⟨row', hrow', hp⟩
        · obtain ⟨q, hq, hpayload⟩ := hpending row' hrow'
          exact .inr ⟨q, hq, hp.symm.trans hpayload⟩
      | _ => exact .inl ⟨row, hrow, rfl⟩
    have hother : ∀ id, id ∉ (eventOwnership ι).inHand (s.own i) →
        ∀ row ∈ (op.shared (program cfg) i (s.pending i) s.toShared).db.outbox,
        row.payload.eventId = some id → ∃ row' ∈ s.db.outbox, row'.payload = row.payload := by
      intro id hid row hrow he
      refine (hrows row hrow).resolve_right ?_
      rintro ⟨q, hq, hpayload⟩
      refine hid ⟨q, hq, ?_⟩
      rw [hpayload] at he
      exact Option.some.inj he
    refine ⟨fun id hid hnew j hj hidj => ?_, fun id hid => ?_, fun id hid _ hle => ?_,
      fun id hid _ => ⟨fun hfree hle row hrow he => ?_, fun o hb => ⟨?_, fun q hq row hrow he => ?_⟩⟩⟩
    · obtain ⟨q, hq, rfl⟩ := hid
      obtain hsame | ⟨-, d, hd⟩ := hnext
      · exact hnew ⟨q, hsame ▸ hq, rfl⟩
      · rw [show (op.own (s.own i)).loc = op.next from rfl, hd] at hq
        cases hq
        exact Nat.lt_irrefl _ (hI.busy j _ hidj).1
    · show id < (op.shared (program cfg) i (s.pending i) s.toShared).fresh ∧ _
      rw [Op.fresh_shared]
      obtain ⟨q, hq, rfl⟩ := hid
      rw [show (op.own (s.own i)).loc = op.next from rfl] at hq ⊢
      obtain hsame | ⟨hnone, d, hd⟩ := hnext
      · rw [hsame] at hq ⊢
        obtain ⟨hlt, hbusy⟩ := hI.busy i q.eventId ⟨q, hq, rfl⟩
        refine ⟨Nat.lt_succ_of_lt hlt, fun q' hq' row hrow he => ?_⟩
        obtain ⟨row', hrow', hp⟩ | ⟨q'', hq'', hp⟩ := hrows row hrow
        · rw [← hp] at he ⊢
          exact hbusy q' hq' row' hrow' he
        · rw [hp, Option.mem_unique hq'' hq']
      · rw [hd] at hq
        cases hq
        refine ⟨Nat.lt_succ_self _, fun q' hq' row hrow he => ?_⟩
        have hnobody : ∀ j, s.fresh ∉ (eventOwnership ι).inHand (s.own j) :=
          fun j hj => Nat.lt_irrefl _ (hI.busy j s.fresh hj).1
        obtain ⟨row', hrow', hp⟩ := hother s.fresh (hnobody i) row hrow he
        rw [← hp] at he
        exact absurd he (hI.free s.fresh hnobody (Nat.le_refl _) row' hrow')
    · rw [Op.fresh_shared] at hle
      have hlt : id < s.fresh := (hI.busy i id hid).1
      exact absurd (Nat.lt_succ_of_lt hlt) (Nat.not_lt.mpr hle)
    · rw [Op.fresh_shared] at hle
      obtain ⟨row', hrow', hp⟩ := hother id hid row hrow he
      rw [← hp] at he
      exact hfree (Nat.le_of_succ_le hle) row' hrow' he
    · rw [Op.fresh_shared]
      exact Nat.lt_succ_of_lt hb.1
    · obtain ⟨row', hrow', hp⟩ := hother id hid row hrow he
      rw [← hp] at he ⊢
      exact hb.2 q hq row' hrow' he

end Events

end Driftgate.Runtime
