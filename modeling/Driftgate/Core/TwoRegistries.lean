import Driftgate.Lib.Whereabouts
import Driftgate.Core.Submission
import Driftgate.Runtime.RegistryRuns

/-!
# Two registries of endpoints

One request writes to two registries of endpoints: `contract_registry_endpoints`, which has the
namespace in its key, and `api_endpoints`, which has not. Each gives its rows identifiers of its
own. A request carries the identifier from the first to its answer, and the one from the second to
the violations it logs; no step copies one to where the other is.
-/

namespace Driftgate.Core

open Driftgate.ReadCommitted Driftgate.Transition Driftgate.Runtime

/-! ### The contract registry -/

/-- The contract endpoint that `upsert_schema_version` has found or made. -/
def upsertEndpoint : UpsertPc → Option Uuid
  | .insertEndpoint => none
  | .selectEndpoint => none
  | .fastLookup e => some e
  | .advisoryLock e => some e
  | .getCurrentSchema e => some e
  | .lookup e _ => some e
  | .unsetCurrent e _ => some e
  | .insertVersion e _ => some e

def upsertFlowEndpoint : Flow UpsertPc Upserted → Option Uuid
  | .go pc => upsertEndpoint pc
  | .done u => some u.endpointId
  | .raised _ => none

/-- The contract endpoint that a request carries. -/
def trackEndpoint : TrackPc → Option Uuid
  | .upsert pc => upsertEndpoint pc
  | .storeSnapshot u => some u.endpointId
  | .selectPrior u _ => some u.endpointId
  | .storeDiff d => some d.upserted.endpointId
  | .setClassification d => some d.upserted.endpointId
  | .enqueue q _ => some q.drift.upserted.endpointId
  | .commit _ r => some r.endpointId

def trackFlowEndpoint : Flow TrackPc TrackResult → Option Uuid
  | .go pc => trackEndpoint pc
  | .done r => some r.endpointId
  | .raised _ => none

/-- The identifiers of the contract endpoints inserted by some writes. -/
def InsertsEndpoint (ws : List Write) (n : Uuid) : Prop := ∃ row, .insertEndpoint row ∈ ws ∧ row.id = n

section Contract

variable {cfg : Config} {v : DbView} {x : Input} {n : Uuid}

/-- `upsert_schema_version` has its endpoint from the table or from the counter. -/
theorem upsert_step_endpoint {u : Upsert} {pc : UpsertPc}
    {op : Op Write LockKey Empty (Flow UpsertPc Upserted)} (hop : u.step cfg pc v x = some op) :
    (InsertsEndpoint op.writes n → n = v.fresh) ∧
      (upsertFlowEndpoint op.next = some n →
        upsertEndpoint pc = some n ∨ (∃ row ∈ v.db.endpoints, row.id = n) ∨ n = v.fresh) := by
  have hnone : ∀ {ws : List Write}, (∀ row, .insertEndpoint row ∉ ws) →
      InsertsEndpoint ws n → n = v.fresh := fun hws ⟨row, hrow, _⟩ => absurd hrow (hws row)
  obtain ⟨ks, ws, next, rfl, hmove⟩ := u.step_move hop
  cases hmove with
  | raises | endpointTaken | endpointMissing | versionTaken =>
    exact ⟨hnone (by simp [Op.writes]), fun h => by cases h⟩
  | endpointInserted =>
    refine ⟨?_, fun h => .inr (.inr (Option.some.inj h).symm)⟩
    rintro ⟨row, hrow, rfl⟩
    cases List.mem_singleton.mp hrow
    rfl
  | @endpointFound now row hrow =>
    refine ⟨hnone (by simp [Op.writes]), fun h => .inr (.inl ⟨row, ?_, Option.some.inj h⟩)⟩
    exact List.mem_of_find?_eq_some hrow
  | _ => exact ⟨hnone (by simp [Op.writes]), .inl⟩

theorem trackEndpoint_afterSnapshot (call : TrackCall) (u : Upserted) :
    trackEndpoint (call.afterSnapshot cfg u) = some u.endpointId := by
  rw [TrackCall.afterSnapshot]
  split <;> rfl

theorem trackEndpoint_afterUpsert (call : TrackCall) (u : Upserted) :
    trackEndpoint (call.afterUpsert cfg u) = some u.endpointId := by
  rw [TrackCall.afterUpsert]
  split
  · rfl
  · exact trackEndpoint_afterSnapshot call u

/-- A request has its endpoint from the table or from the counter, and keeps it. -/
theorem track_step_endpoint {call : TrackCall} {pc : TrackPc}
    {op : Op Write LockKey Effect (Flow TrackPc TrackResult)} (hop : call.step cfg pc v x = some op) :
    (InsertsEndpoint op.writes n → n = v.fresh) ∧
      (trackFlowEndpoint op.next = some n →
        trackEndpoint pc = some n ∨ (∃ row ∈ v.db.endpoints, row.id = n) ∨ n = v.fresh) := by
  have hwrites : pc.Registered → InsertsEndpoint op.writes n → n = v.fresh := by
    rintro hpc ⟨row, hrow, -⟩
    exact absurd ((TrackCall.step_registered hpc hop).1 _ hrow) Bool.noConfusion
  cases pc with
  | upsert pc =>
    obtain ⟨op', hop', rfl⟩ := Option.map_eq_some_iff.mp hop
    rw [Op.writes_map, Op.next_map]
    obtain ⟨hinserts, hendpoint⟩ := upsert_step_endpoint (n := n) hop'
    refine ⟨hinserts, fun h => hendpoint ?_⟩
    cases hnext : op'.next with
    | go pc' =>
      rw [hnext] at h
      exact h
    | done u =>
      rw [hnext] at h
      exact (trackEndpoint_afterUpsert call u).symm.trans h
    | raised e =>
      rw [hnext] at h
      cases h
  | enqueue q pc =>
    refine ⟨hwrites fun _ => TrackPc.noConfusion, fun h => .inl ?_⟩
    obtain ⟨op', hop', rfl⟩ := Option.map_eq_some_iff.mp hop
    rw [Op.next_map] at h
    cases hnext : op'.next with
    | go pc' =>
      rw [hnext] at h
      exact h
    | done affected =>
      rw [hnext] at h
      exact h
    | raised e =>
      rw [hnext] at h
      cases h
  | selectPrior u id =>
    refine ⟨hwrites fun _ => TrackPc.noConfusion, fun h => .inl ?_⟩
    cases x with
    | proceed now =>
      simp only [TrackCall.step] at hop
      split at hop
      next prior hprior =>
        cases hop
        have h : trackFlowEndpoint (call.afterPrior cfg u prior) = some n := h
        rw [TrackCall.afterPrior] at h
        split at h
        · cases h
        · dsimp only at h
          split at h <;> exact h
      next =>
        cases hop
        cases h
    | raise reason =>
      cases hop
      cases h
    | _ => cases hop
  | storeSnapshot u =>
    refine ⟨hwrites fun _ => TrackPc.noConfusion, fun h => .inl ?_⟩
    cases x <;> cases hop <;> exact (trackEndpoint_afterSnapshot call u).symm.trans h
  | _ =>
    refine ⟨hwrites fun _ => TrackPc.noConfusion, fun h => .inl ?_⟩
    cases x <;> cases hop <;> first | exact h | cases h

/-- What a party knows of the contract registry. -/
def partyKnows (p : Party) (n : Uuid) : Prop :=
  match p with
  | .track p =>
    match p.status with
    | .running => trackEndpoint p.pc = some n
    | .returned r => r.endpointId = n
    | _ => False
  | _ => False

theorem partyKnows_after {p : TrackProc} {f : Flow TrackPc TrackResult} (hrun : p.status = .running)
    (h : partyKnows (.track (p.after cfg f)) n) : trackFlowEndpoint f = some n := by
  cases f with
  | go pc =>
    simp only [partyKnows, TrackProc.after, hrun] at h
    exact h
  | done r => exact congrArg some h
  | raised e => cases h

/-- A party has the endpoints it knows or inserts from the table or from the counter. -/
theorem party_step_endpoint {p : Party} {op : Op Write LockKey Effect Party}
    (hop : p.next cfg v x = some op) (h : InsertsEndpoint op.writes n ∨ partyKnows op.next n) :
    partyKnows p n ∨ (∃ row ∈ v.db.endpoints, row.id = n) ∨ n = v.fresh := by
  have hother : ∀ ws : List Write, (∀ w ∈ ws, w.table = .outbox ∨ w.table = .attempts ∨
      w.table = .dlq ∨ w.table = .subscriptions) → ¬InsertsEndpoint ws n := by
    rintro ws hws ⟨row, hrow, -⟩
    have htable := hws _ hrow
    simp [Write.table] at htable
  cases p with
  | track p =>
    obtain ⟨op', hop', rfl⟩ := Option.map_eq_some_iff.mp hop
    rw [Op.writes_map, Op.next_map] at h
    obtain ⟨-, rfl⟩ | ⟨ok, task, -, -, rfl⟩ | ⟨op, hrun, hstep, rfl⟩ | ⟨e, hclosing, rfl⟩ :=
      TrackProc.next_cases hop'
    · obtain ⟨row, hrow, -⟩ | h := h
      · cases hrow
      · left
        have h : partyKnows (.track p.halt) n := h
        simp only [partyKnows, TrackProc.halt] at h ⊢
        cases hst : p.status with
        | returned r =>
          rw [hst] at h
          exact h
        | _ =>
          rw [hst] at h
          cases h
    · obtain ⟨row, hrow, -⟩ | h := h
      · cases hrow
      · exact .inl h
    · rw [Op.writes_map, Op.next_map] at h
      obtain ⟨hinserts, hendpoint⟩ := track_step_endpoint (n := n) hstep
      obtain h | h := h
      · exact .inr (.inr (hinserts h))
      · obtain hpc | hrest := hendpoint (partyKnows_after hrun h)
        · left
          simp only [partyKnows, hrun]
          exact hpc
        · exact .inr hrest
    · obtain ⟨row, hrow, -⟩ | h := h
      · cases hrow
      · cases h
  | worker pc =>
    obtain ⟨op', hop', rfl⟩ := Option.map_eq_some_iff.mp hop
    rw [Op.writes_map, Op.next_map] at h
    obtain h | h := h
    · refine absurd h (hother _ fun w hw => ?_)
      obtain h | h | h := WorkerPc.step_table hop' w hw
      · exact .inl h
      · exact .inr (.inl h)
      · exact .inr (.inr (.inl h))
    · cases h
  | subscription call pc =>
    obtain ⟨op', hop', rfl⟩ := Option.map_eq_some_iff.mp hop
    rw [Op.writes_map, Op.next_map] at h
    obtain h | h := h
    · exact absurd h (hother _ fun w hw => .inr (.inr (.inr (SubscriptionCall.step_table hop' w hw))))
    · cases hnext : op'.next with
      | go pc' =>
        rw [hnext] at h
        cases h
      | done u =>
        rw [hnext] at h
        cases h
      | raised e =>
        rw [hnext] at h
        cases h
  | finished =>
    cases x <;> cases hop
    obtain ⟨row, hrow, -⟩ | h := h
    · cases hrow
    · cases h

end Contract

/-! ### The legacy registry -/

/-- The legacy endpoint that a request has found or made. -/
def LegacyPc.endpoint : LegacyPc → Option Uuid
  | .lock => none
  | .selectEndpoint => none
  | .insertEndpoint => none
  | .selectSnapshot e => some e
  | .insertSnapshot e => some e
  | .commitSnapshot e _ => some e
  | .readBaseline e _ => some e
  | .clearBaselines e => some e
  | .waitClear e _ => some e
  | .setBaseline e => some e
  | .commitBaseline e => some e
  | .logViolation e _ _ _ _ => some e
  | .commitViolations e _ _ => some e

/-- The legacy endpoints named by some writes: those inserted, and those of the violations. -/
def NamesEndpoint (w : EngineWrite) (n : Uuid) : Prop :=
  match w with
  | .insertEndpoint row => row.id = n
  | .insertViolation row => row.endpointId = n
  | _ => False

section Legacy

open LegacyCall

variable {cfg : Config} {call : LegacyCall} {pc : LegacyPc} {v : EngineView} {x : Input}
  {op : Op EngineWrite EngineLock Empty (Flow LegacyPc LegacyPart)} {n : Uuid}

theorem nextViolation_endpoint (e : Uuid) (inserted : Bool) (logged : List ViolationRow)
    (rest : List DriftViolation) : (nextViolation e inserted logged rest).endpoint = some e := by
  cases rest <;> rfl

/-- A request has its legacy endpoint from the table or from the counter, and keeps it. -/
theorem LegacyCall.Move.endpoint (hop : call.Move cfg v pc x op) :
    (∀ w ∈ op.writes, NamesEndpoint w n → pc.endpoint = some n ∨ n = v.fresh) ∧
      ∀ pc', op.next = .go pc' → pc'.endpoint = some n →
        pc.endpoint = some n ∨ (∃ row ∈ v.db.apiEndpoints, row.id = n) ∨ n = v.fresh := by
  cases hop with
  | @endpointFound now row h =>
    refine ⟨by simp [Op.writes], fun pc' hgo hn => ?_⟩
    cases hgo
    exact .inr (.inl ⟨row, List.mem_of_find?_eq_some h, Option.some.inj hn⟩)
  | endpointInserted h =>
    refine ⟨fun w hw hn => ?_, fun pc' hgo hn => ?_⟩
    · cases List.mem_singleton.mp hw
      exact .inr (show v.fresh = n from hn).symm
    · cases hgo
      exact .inr (.inr (Option.some.inj hn).symm)
  | snapshotInserted h =>
    refine ⟨fun w hw hn => ?_, fun pc' hgo hn => ?_⟩
    · cases List.mem_singleton.mp hw
      cases hn
    · cases hgo
      exact .inl hn
  | readBaseline e inserted =>
    refine ⟨by simp [Op.writes], fun pc' hgo hn => .inl ?_⟩
    have hgo : call.afterBaseline cfg e inserted (v.db.activeBaseline e) = .go pc' := hgo
    cases hb : v.db.activeBaseline e with
    | none =>
      rw [hb] at hgo
      cases inserted with
      | true =>
        cases hgo
        exact hn
      | false => cases hgo
    | some baseline =>
      rw [hb] at hgo
      simp only [afterBaseline] at hgo
      split at hgo
      · cases hgo
      · cases hgo
        rwa [nextViolation_endpoint] at hn
  | logViolation e inserted d rest logged =>
    refine ⟨fun w hw hn => ?_, fun pc' hgo hn => ?_⟩
    · cases List.mem_singleton.mp hw
      exact .inl (congrArg some hn)
    · cases hgo
      rw [nextViolation_endpoint] at hn
      exact .inl hn
  | clears e =>
    refine ⟨fun w hw hn => ?_, fun pc' hgo hn => ?_⟩
    · cases List.mem_singleton.mp hw
      cases hn
    · cases hgo
      exact .inl hn
  | clearsLate e fps =>
    refine ⟨fun w hw hn => ?_, fun pc' hgo hn => ?_⟩
    · cases List.mem_singleton.mp hw
      cases hn
    · cases hgo
      exact .inl hn
  | setBaseline e =>
    refine ⟨fun w hw hn => ?_, fun pc' hgo hn => ?_⟩
    · cases List.mem_singleton.mp hw
      cases hn
    · cases hgo
      exact .inl hn
  | _ =>
    refine ⟨by simp [Op.writes], fun pc' hgo hn => ?_⟩
    cases hgo <;> exact .inl hn

end Legacy

/-! ### Both -/

/-- Where contract endpoints can be found: in their registry, and with the parties and requests that
carry one. -/
def contractEndpoints (cfg : Config) : Whereabouts (service cfg) where
  stored d n := ∃ row ∈ d.1.endpoints, row.id = n
  written w n := ∃ row, w = .inl (.insertEndpoint row) ∧ row.id = n
  known l n :=
    match l with
    | .runtime p => partyKnows p n
    | .legacy p => p.result.endpointId = n
  apply_iff w d n := by
    cases w with
    | inl w =>
      cases w with
      | insertEndpoint row =>
        show (∃ r ∈ d.1.endpoints ++ [row], r.id = n) ↔ _
        simp [or_and_right, exists_or]
      | _ =>
        simp only [Sum.inl.injEq, reduceCtorEq, false_and, exists_false, or_false]
        exact Iff.rfl
    | inr w =>
      simp only [reduceCtorEq, false_and, exists_false, or_false]
      exact Iff.rfl

/-- Where legacy endpoints can be found: in their registry, in violations, and with the requests
that carry one. -/
def legacyEndpoints (cfg : Config) : Whereabouts (service cfg) where
  stored d n := (∃ row ∈ d.2.apiEndpoints, row.id = n) ∨ ∃ row ∈ d.2.violations, row.endpointId = n
  written w n := ∃ w', w = .inr w' ∧ NamesEndpoint w' n
  known l n :=
    match l with
    | .runtime _ => False
    | .legacy p => p.status = .running ∧ p.pc.endpoint = some n
  apply_iff w d n := by
    cases w with
    | inl w =>
      simp only [reduceCtorEq, false_and, exists_false, or_false]
      exact Iff.rfl
    | inr w =>
      simp only [Sum.inr.injEq, exists_eq_left']
      cases w with
      | insertEndpoint row =>
        show (∃ r ∈ d.2.apiEndpoints ++ [row], r.id = n) ∨
          (∃ r ∈ d.2.violations, r.endpointId = n) ↔ _
        simp only [List.mem_append, List.mem_singleton, or_and_right, exists_or, exists_eq_left,
          NamesEndpoint]
        rw [or_right_comm]
      | insertViolation row =>
        show (∃ r ∈ d.2.apiEndpoints, r.id = n) ∨
          (∃ r ∈ d.2.violations ++ [row], r.endpointId = n) ↔ _
        simp only [List.mem_append, List.mem_singleton, or_and_right, exists_or, exists_eq_left,
          NamesEndpoint]
        rw [or_assoc]
      | _ =>
        show _ ↔ _ ∨ False
        rw [or_false]
        exact Iff.rfl

section Runs

open Whereabouts

variable {ι : Type*} [DecidableEq ι] {cfg : Config} {s : Service ι}

theorem contract_known_resume (p : Party) (n : Uuid) :
    (contractEndpoints cfg).known (Session.resume p) n ↔ partyKnows p n := by
  obtain hp | ⟨q, r, rfl, hstatus, hp⟩ := Session.resume_cases p
  · rw [hp]
    exact Iff.rfl
  · rw [hp]
    simp only [partyKnows, hstatus]
    exact Iff.rfl

theorem legacy_known_resume (p : Party) (n : Uuid) :
    ¬(legacyEndpoints cfg).known (Session.resume p) n := by
  obtain hp | ⟨q, r, rfl, hstatus, hp⟩ := Session.resume_cases p
  · rw [hp]
    exact id
  · rw [hp]
    rintro ⟨-, hn⟩
    cases hn

/-- A step on the contract tables brings contract endpoints from the counter only. -/
theorem left_endpoints {i : ι} {x : Input} {p : Party} {op : Op Write LockKey Effect Party}
    (hloc : s.loc i = .runtime p) (hop : p.next cfg (s.view (service cfg) i).left x = some op) {n : Uuid}
    (hn : (contractEndpoints cfg).Brought (op.map Session.resume id).inLeft n) :
    (contractEndpoints cfg).Present s n ∨ n = s.fresh := by
  have hbrought : InsertsEndpoint op.writes n ∨ partyKnows op.next n := by
    obtain ⟨w, hw, row, rfl, hn⟩ | hknown := hn
    · rw [Op.writes_inLeft, Op.writes_map] at hw
      obtain ⟨w', hw', heq⟩ := List.mem_map.mp hw
      cases heq
      exact .inl ⟨row, hw', hn⟩
    · rw [Op.next_inLeft, Op.next_map, contract_known_resume] at hknown
      exact .inr hknown
  obtain hp | hrow | hfresh := party_step_endpoint hop hbrought
  · refine .inl (.inr ⟨i, .inr ?_⟩)
    rw [hloc]
    exact hp
  · exact .inl (present_of_view hrow)
  · exact .inr hfresh

/-- A step of a legacy part brings legacy endpoints from the counter only. -/
theorem right_endpoints {i : ι} {x : Input} {p : LegacyProc}
    {op : Op EngineWrite EngineLock Effect LegacyProc} (hloc : s.loc i = .legacy p)
    (hop : p.next cfg (s.view (service cfg) i).right x = some op) {n : Uuid}
    (hn : (legacyEndpoints cfg).Brought (op.map Session.legacy id).inRight n) :
    (legacyEndpoints cfg).Present s n ∨ n = s.fresh := by
  have hcarried : p.status = .running → p.pc.endpoint = some n →
      (legacyEndpoints cfg).Present s n := by
    intro hrun hn
    refine .inr ⟨i, .inr ?_⟩
    rw [hloc]
    exact ⟨hrun, hn⟩
  have hbrought : (∃ w ∈ op.writes, NamesEndpoint w n) ∨
      (op.next.status = .running ∧ op.next.pc.endpoint = some n) := by
    obtain ⟨w, hw, w', rfl, hn⟩ | hknown := hn
    · rw [Op.writes_inRight, Op.writes_map] at hw
      obtain ⟨w₀, hw₀, heq⟩ := List.mem_map.mp hw
      cases heq
      exact .inl ⟨w', hw₀, hn⟩
    · rw [Op.next_inRight, Op.next_map] at hknown
      exact .inr hknown
  obtain ⟨-, rfl⟩ | ⟨ok, task, -, -, rfl⟩ | ⟨op', hrun, hstep, rfl⟩ | ⟨e, hclosing, rfl⟩ :=
    LegacyProc.next_cases hop
  · obtain ⟨w, hw, -⟩ | ⟨hstatus, -⟩ := hbrought
    · cases hw
    · have hstatus : p.halt.status = .running := hstatus
      rw [LegacyProc.halt] at hstatus
      revert hstatus
      cases p.status <;> exact LegacyStatus.noConfusion
  · obtain ⟨w, hw, -⟩ | ⟨hstatus, hpc⟩ := hbrought
    · cases hw
    · exact .inl (hcarried hstatus hpc)
  · rw [Op.writes_map, Op.next_map] at hbrought
    obtain ⟨hwrites, hnext⟩ := (LegacyCall.step_move hstep).endpoint (n := n)
    obtain ⟨w, hw, hn⟩ | ⟨hstatus, hpc⟩ := hbrought
    · exact (hwrites w hw hn).imp (hcarried hrun) id
    · cases hgo : op'.next with
      | go pc' =>
        rw [hgo] at hpc
        obtain hpc | hrow | hfresh := hnext pc' hgo hpc
        · exact .inl (hcarried hrun hpc)
        · exact .inl (present_of_view (W := legacyEndpoints cfg) (.inl hrow))
        · exact .inr hfresh
      | done part =>
        rw [hgo] at hstatus
        cases hstatus
      | raised e =>
        rw [hgo] at hstatus
        cases hstatus
  · obtain ⟨w, hw, -⟩ | ⟨hstatus, -⟩ := hbrought
    · cases hw
    · cases hstatus

/-- The result of the contract part never changes afterwards. -/
theorem LegacyProc.next_result {p : LegacyProc} {v : EngineView} {x : Input}
    {op : Op EngineWrite EngineLock Effect LegacyProc} (h : p.next cfg v x = some op) :
    op.next.result = p.result := by
  obtain ⟨-, rfl⟩ | ⟨ok, task, -, -, rfl⟩ | ⟨op', -, -, rfl⟩ | ⟨e, -, rfl⟩ :=
    LegacyProc.next_cases h
  · rfl
  · rfl
  · rw [Op.next_map]
    cases op'.next <;> rfl
  · rfl

/-- The identifiers of the two registries that a database has are used and different. -/
structure Apart (db : Db) (legacy : EngineDb) (fresh : Uuid) : Prop where
  contractUsed : ∀ row ∈ db.endpoints, row.id < fresh
  legacyUsed : ∀ row ∈ legacy.apiEndpoints, row.id < fresh
  loggedUsed : ∀ row ∈ legacy.violations, row.endpointId < fresh
  endpoints : ∀ row ∈ db.endpoints, ∀ row' ∈ legacy.apiEndpoints, row.id ≠ row'.id
  logged : ∀ row ∈ db.endpoints, ∀ row' ∈ legacy.violations, row.id ≠ row'.endpointId

/-- **Two registries.** No identifier is that of a contract endpoint and of a legacy one. -/
theorem endpoints_apart {db : Db} {legacy : EngineDb} {fresh : Uuid} (hdb : Apart db legacy fresh)
    {good : Service ι → ι × Input → Prop}
    (h : Run (service cfg).step good (ServiceInitial db legacy fresh) s) (n : Uuid) :
    ¬((contractEndpoints cfg).Present s n ∧ (legacyEndpoints cfg).Present s n) := by
  refine separated (W := contractEndpoints cfg) (V := legacyEndpoints cfg) ?_ ?_ h n
  · intro s hs n
    have hsession : ∀ i, (¬∃ w ∈ s.pending i, (contractEndpoints cfg).written w n) ∧
        (¬∃ w ∈ s.pending i, (legacyEndpoints cfg).written w n) ∧
        ¬(contractEndpoints cfg).known (s.loc i) n ∧ ¬(legacyEndpoints cfg).known (s.loc i) n := by
      intro i
      obtain ⟨p, hp, hstarting⟩ := hs.starting i
      rw [hs.pending i, hp]
      refine ⟨by simp, by simp, ?_, id⟩
      cases hstarting with
      | track call => exact fun hn => by cases hn
      | worker => exact id
      | subscription call => exact id
    have hcontract : (contractEndpoints cfg).Present s n → ∃ row ∈ db.endpoints, row.id = n := by
      rintro (hn | ⟨i, hn | hn⟩)
      · rw [hs.db] at hn
        exact hn
      · exact absurd hn (hsession i).1
      · exact absurd hn (hsession i).2.2.1
    have hlegacy : (legacyEndpoints cfg).Present s n →
        (∃ row ∈ legacy.apiEndpoints, row.id = n) ∨ ∃ row ∈ legacy.violations, row.endpointId = n := by
      rintro (hn | ⟨i, hn | hn⟩)
      · rw [hs.db] at hn
        exact hn
      · exact absurd hn (hsession i).2.1
      · exact absurd hn (hsession i).2.2.2
    rw [hs.fresh]
    refine ⟨fun hn => ?_, fun hn => ?_, fun ⟨hc, hl⟩ => ?_⟩
    · obtain ⟨row, hrow, rfl⟩ := hcontract hn
      exact hdb.contractUsed row hrow
    · obtain ⟨row, hrow, rfl⟩ | ⟨row, hrow, rfl⟩ := hlegacy hn
      · exact hdb.legacyUsed row hrow
      · exact hdb.loggedUsed row hrow
    · obtain ⟨row, hrow, rfl⟩ := hcontract hc
      obtain ⟨row', hrow', heq⟩ | ⟨row', hrow', heq⟩ := hlegacy hl
      · exact hdb.endpoints row hrow row' hrow' heq.symm
      · exact hdb.logged row hrow row' hrow' heq.symm
  · intro s i x op hop
    obtain ⟨p, op', hloc, hop', rfl⟩ | ⟨p, op', hloc, hop', rfl⟩ := Session.next_cases hop
    · refine .inl ⟨fun n hn => left_endpoints hloc hop' hn, ?_⟩
      rintro n (⟨w, hw, w', rfl, -⟩ | hknown)
      · rw [Op.writes_inLeft] at hw
        obtain ⟨w₀, -, heq⟩ := List.mem_map.mp hw
        cases heq
      · rw [Op.next_inLeft, Op.next_map] at hknown
        exact absurd hknown (legacy_known_resume _ n)
    · refine .inr ⟨?_, fun n hn => right_endpoints hloc hop' hn⟩
      rintro n (⟨w, hw, row, rfl, -⟩ | hknown)
      · rw [Op.writes_inRight] at hw
        obtain ⟨w₀, -, heq⟩ := List.mem_map.mp hw
        cases heq
      · rw [Op.next_inRight, Op.next_map] at hknown
        refine .inr ⟨i, .inr ?_⟩
        rw [hloc]
        exact (congrArg TrackResult.endpointId (LegacyProc.next_result hop')).symm.trans hknown

end Runs

end Driftgate.Core
