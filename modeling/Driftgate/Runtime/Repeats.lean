import Driftgate.Runtime.Announcements
import Driftgate.Runtime.AtomicRegistry
import Driftgate.Runtime.DriftReport

/-!
# Repeated submissions

Whoever submits payloads may send one again when it has not seen the answer. Once a shape is
committed for an endpoint, a `track_contract` call that brings it again finds it at its first
look-up, before it takes a lock. From there on it writes nothing, and it announces nothing: no
webhook, no event and no diff. This holds of every run (`repeats_are_silent`).
-/

namespace Driftgate.Runtime

open Driftgate.ReadCommitted Driftgate.Transition Driftgate.Schema

/-- The answer to a payload that brings nothing new: version `n` of endpoint `e`, and no drift. -/
structure TrackResult.Known (r : TrackResult) (e : Uuid) (n : ℕ) : Prop where
  endpointId : r.endpointId = e
  schemaVersion : r.schemaVersion = n
  inserted : r.inserted = false
  safe : r.compatibilityClassification = .safe
  diffs : r.diffCount = 0
  consumers : r.affectedConsumerCount = 0

/-- Version `n` of endpoint `e`, as it was found. -/
structure Upserted.Found (u : Upserted) (e : Uuid) (n : ℕ) : Prop where
  endpointId : u.endpointId = e
  version : u.record.version = n
  inserted : u.inserted = false

/-- Where a request can be whose shape is version `n` of endpoint `e`. -/
def TrackPc.Repeating (e : Uuid) (n : ℕ) : TrackPc → Prop
  | .upsert .insertEndpoint => True
  | .upsert .selectEndpoint => True
  | .upsert (.fastLookup e') => e' = e
  | .storeSnapshot u => u.Found e n
  | .commit notice r => notice = none ∧ r.Known e n
  | _ => False

/-- What a step of such a request has come to. -/
def Flow.Repeating (e : Uuid) (n : ℕ) : Flow TrackPc TrackResult → Prop
  | .go pc => pc.Repeating e n
  | .done r => r.Known e n
  | .raised _ => True

/-- Such a request. It has no event to publish. -/
def TrackProc.Repeating (p : TrackProc) (e : Uuid) (n : ℕ) : Prop :=
  p.task = none ∧
  match p.status with
  | .running => p.pc.Repeating e n
  | .returned r => r.Known e n
  | _ => True

/-- The committed versions have the shape of the call as version `n` of endpoint `e`. -/
structure TrackCall.Registered (cfg : Config) (call : TrackCall) (db : Db) (e : Uuid) (n : ℕ) :
    Prop where
  endpoint : db.endpoint? call.key = some ⟨e, call.key⟩
  version : ∃ row, db.versionOf e (cfg.fingerprint call.canonicalSchema) = some row ∧
    row.version = n

section Steps

variable {cfg : Config} {call : TrackCall} {e : Uuid} {n : ℕ} {v : DbView} {x : Input}

theorem TrackCall.plainResult_known {u : Upserted} (hu : u.Found e n) (fp : String) :
    (call.plainResult u fp).Known e n :=
  ⟨hu.endpointId, hu.version, hu.inserted, rfl, rfl, rfl⟩

theorem TrackCall.afterSnapshot_repeating {u : Upserted} (hu : u.Found e n) :
    (call.afterSnapshot cfg u).Repeating e n := by
  rw [afterSnapshot, hu.inserted]
  exact ⟨rfl, plainResult_known hu _⟩

theorem TrackCall.afterUpsert_repeating {u : Upserted} (hu : u.Found e n) :
    (call.afterUpsert cfg u).Repeating e n := by
  rw [afterUpsert]
  split
  · exact hu
  · exact afterSnapshot_repeating hu

/-- An operation that leaves no trace but the snapshot of the payload. -/
structure Op.SnapshotOnly {ℓ : Type*} (cfg : Config) (call : TrackCall) (e : Uuid)
    (op : Op Write LockKey Effect ℓ) : Prop where
  writes : op.writes = []
  emits : ∀ effect next, op = .emit effect next →
    effect = .snapshotStored e (cfg.fingerprint call.canonicalSchema)

/-- A step of the code. -/
theorem TrackCall.step_repeating {pc : TrackPc} (hpc : pc.Repeating e n)
    (hcall : call.Registered cfg v.db e n) {op : Op Write LockKey Effect (Flow TrackPc TrackResult)}
    (h : call.step cfg pc v x = some op) :
    Op.SnapshotOnly cfg call e op ∧ op.next.Repeating e n := by
  cases step_move h with
  | upserts pc hop =>
    obtain ⟨ks, ws, next, rfl, hmove⟩ := Upsert.step_move hop
    have hwrites : ws = [] ∧ ((next.bind TrackPc.upsert fun u =>
        .go (call.afterUpsert cfg u)) : Flow TrackPc TrackResult).Repeating e n := by
      cases hmove with
      | raises => exact ⟨rfl, trivial⟩
      | endpointTaken => exact ⟨rfl, trivial⟩
      | endpointInserted hnone => cases hcall.endpoint.symm.trans hnone
      | endpointFound hrow =>
        obtain rfl := Option.some.inj (hcall.endpoint.symm.trans hrow)
        exact ⟨rfl, rfl⟩
      | endpointMissing hnone => cases hcall.endpoint.symm.trans hnone
      | fastFound hrow =>
        obtain rfl := show _ = e from hpc
        obtain ⟨row', hrow', hversion⟩ := hcall.version
        obtain rfl := Option.some.inj (hrow'.symm.trans hrow)
        exact ⟨rfl, afterUpsert_repeating ⟨rfl, hversion, rfl⟩⟩
      | fastMissing hnone =>
        obtain rfl := show _ = e from hpc
        obtain ⟨row', hrow', -⟩ := hcall.version
        cases hrow'.symm.trans hnone
      | _ => exact hpc.elim
    refine ⟨⟨hwrites.1, fun effect next' he => by cases he⟩, hwrites.2⟩
  | storesSnapshot u =>
    refine ⟨⟨rfl, fun effect next' he => ?_⟩, afterSnapshot_repeating hpc⟩
    cases he
    rw [hpc.endpointId]
  | skipsSnapshot u =>
    exact ⟨⟨rfl, fun effect next' he => by cases he⟩, afterSnapshot_repeating hpc⟩
  | commits notice r => exact ⟨⟨rfl, fun effect next' he => by cases he⟩, hpc.2⟩
  | commitRaises notice r why => exact ⟨⟨rfl, fun effect next' he => by cases he⟩, trivial⟩
  | _ => exact hpc.elim

theorem TrackProc.after_repeating {p : TrackProc} (hp : p.Repeating e n) (hst : p.status = .running)
    {f : Flow TrackPc TrackResult} (hf : f.Repeating e n) : (p.after cfg f).Repeating e n := by
  obtain ⟨call, pc, status, task⟩ := p
  obtain rfl : status = .running := hst
  cases f with
  | go pc' =>
    refine ⟨?_, hf⟩
    cases pc' with
    | commit notice r =>
      obtain ⟨rfl, -⟩ := hf
      exact hp.1
    | _ => exact hp.1
  | done r => exact ⟨hp.1, hf⟩
  | raised e => exact ⟨hp.1, trivial⟩

/-- **Every step of such a request** is silent. -/
theorem TrackProc.next_repeating {p : TrackProc} (hp : p.Repeating e n)
    (hcall : p.call.Registered cfg v.db e n) {op : Op Write LockKey Effect TrackProc}
    (h : p.next cfg v x = some op) : Op.SnapshotOnly cfg p.call e op ∧ op.next.Repeating e n := by
  rcases next_cases h with ⟨-, rfl⟩ | ⟨ok, t, -, ht, -⟩ | ⟨op', hst, hop, rfl⟩ | ⟨e', hst, rfl⟩
  · refine ⟨⟨rfl, fun effect next he => by cases he⟩, ?_⟩
    obtain ⟨call, pc, status, task⟩ := p
    cases status with
    | returned r => exact ⟨rfl, hp.2⟩
    | _ => exact ⟨rfl, trivial⟩
  · rw [hp.1] at ht
    cases ht
  · have hpc : p.pc.Repeating e n := by
      have hp := hp.2
      rw [hst] at hp
      exact hp
    obtain ⟨hsilent, hnext⟩ := TrackCall.step_repeating hpc hcall hop
    refine ⟨⟨(Op.writes_map ..).trans hsilent.writes, fun effect next he => ?_⟩, ?_⟩
    · cases op' with
      | emit effect' next' =>
        cases he
        exact hsilent.emits _ _ rfl
      | _ => cases he
    · rw [Op.next_map]
      exact after_repeating hp hst hnext
  · exact ⟨⟨rfl, fun effect next he => by cases he⟩, hp.1, trivial⟩

end Steps

/-! ### Every run -/

section Runs

variable {ι : Type*} [DecidableEq ι] {cfg : Config} {db : Db} {fresh : Uuid} {s t : World ι}

/-- An endpoint keeps its row. -/
theorem endpoint?_step {a : ι × Input} (h : (program cfg).step s a = some t) {key : EndpointKey}
    {row : EndpointRow} (hrow : s.db.endpoint? key = some row) : t.db.endpoint? key = some row := by
  obtain ⟨op, -, hst⟩ := step_cases h
  rw [hst.db]
  cases op with
  | commit l =>
    show ((program cfg).applyAll (s.pending a.1) s.db).endpoint? key = some row
    rw [Db.endpoint?, endpoints_applyAll, List.find?_append]
    rw [Db.endpoint?] at hrow
    rw [hrow]
    rfl
  | _ => exact hrow

/-- What holds of a repeated submission. -/
structure Repeated (cfg : Config) (call : TrackCall) (e : Uuid) (n : ℕ) (i : ι) (s t : World ι) :
    Prop where
  endpoint : t.db.endpoint? call.key = some ⟨e, call.key⟩
  request : ∃ p, t.loc i = .track p ∧ p.call = call ∧ p.Repeating e n
  pending : t.pending i = []
  trace : ∀ effect, (i, effect) ∈ t.trace → (i, effect) ∈ s.trace ∨
    effect = .snapshotStored e (cfg.fingerprint call.canonicalSchema)

/-- **A repeated submission is silent.** When its shape is already committed for its endpoint as
version `n`, a `track_contract` call writes nothing and announces nothing, and if it returns it
returns that version and no drift. -/
theorem repeats_are_silent (hdb : db.registry.Valid fresh)
    (hs : Reachable (program cfg).step (Initial db fresh) s) {call : TrackCall} {row : VersionRow}
    (hrow : s.db.endpointVersionOf call.key (cfg.fingerprint call.canonicalSchema) = some row)
    {i : ι} (hi : s.loc i = .track (.start call))
    (ht : Reachable (program cfg).step (· = s) t) :
    t.pending i = [] ∧
    (∀ effect, (i, effect) ∈ t.trace → (i, effect) ∈ s.trace ∨
      effect = .snapshotStored row.endpointId (cfg.fingerprint call.canonicalSchema)) ∧
    ∀ p, t.loc i = .track p → p.task = none ∧
      ∀ r, p.status = .returned r → r.Known row.endpointId row.version := by
  obtain ⟨⟨e, key⟩, hendpoint, hversion⟩ := Option.bind_eq_some_iff.mp hrow
  obtain rfl : key = call.key := by simpa using List.find?_some hendpoint
  obtain rfl : row.endpointId = e := by
    have hfound := List.find?_some hversion
    simp only [Bool.and_eq_true, decide_eq_true_eq] at hfound
    exact hfound.1
  have hsilent : Repeated cfg call row.endpointId row.version i s t := by
    refine Run.invariant (I := Repeated cfg call row.endpointId row.version i s) ?_ ?_ ht
    · rintro t rfl
      refine ⟨hendpoint, ⟨_, hi, rfl, rfl, trivial⟩, ?_, fun effect h => .inl h⟩
      have hholds := (Run.registry_holds hdb hs).2 i
      rw [hi] at hholds
      exact hholds
    · rintro u ⟨j, x⟩ w hu ⟨hendpoint, ⟨p, hp, hcall, hrepeating⟩, hpending, htrace⟩ - hstep
      obtain ⟨op, hop, hst⟩ := step_cases hstep
      have hendpoint' := endpoint?_step hstep hendpoint
      by_cases hij : i = j
      · subst hij
        -- the request sees the committed rows, since it has written nothing
        have hview : (u.view (program cfg) i).db = u.db := by
          show (program cfg).applyAll (u.pending i) u.db = u.db
          rw [hpending, Program.applyAll_nil]
        obtain ⟨row', hrow', hret⟩ := Run.versionOf_retains hdb hs hu hversion
        have hregistered : p.call.Registered cfg (u.view (program cfg) i).db row.endpointId
            row.version := by
          rw [hcall, hview]
          exact ⟨hendpoint, row', hrow', (VersionRow.mk.inj hret.fixed_eq).2.2.1⟩
        rw [hp] at hop
        obtain ⟨op', hop', rfl⟩ := Option.map_eq_some_iff.mp hop
        obtain ⟨hquiet, hnext⟩ := TrackProc.next_repeating hrepeating hregistered hop'
        refine ⟨hendpoint', ⟨op'.next, hst.loc.trans (Op.next_map ..),
          (TrackProc.next_call hop').trans hcall, hnext⟩, ?_, fun effect heffect => ?_⟩
        · rw [hst.pending, hpending, Op.pendingAfter_map]
          have hwrites := hquiet.writes
          cases op' with
          | exec ks ws l => exact hwrites
          | _ => rfl
        · rw [show w.trace = w.toShared.trace from rfl, hst.shared] at heffect
          obtain hold | ⟨effect', next, hemit, heq⟩ := (Op.mem_trace_shared _ _).mp heffect
          · exact htrace effect hold
          · obtain rfl := (Prod.mk.inj heq).2
            cases op' with
            | emit effect' next' =>
              cases hemit
              exact .inr (hcall ▸ hquiet.emits _ _ rfl)
            | _ => cases hemit
      · refine ⟨hendpoint', ⟨p, (hst.loc_other hij).trans hp, hcall, hrepeating⟩,
          (hst.pending_other hij).trans hpending, fun effect heffect => ?_⟩
        rw [show w.trace = w.toShared.trace from rfl, hst.shared] at heffect
        obtain hold | ⟨effect', next, -, heq⟩ := (Op.mem_trace_shared _ _).mp heffect
        · exact htrace effect hold
        · exact absurd (Prod.mk.inj heq).1 hij
  obtain ⟨-, ⟨p, hp, -, hrepeating⟩, hpending, htrace⟩ := hsilent
  refine ⟨hpending, htrace, fun q hq => ?_⟩
  obtain rfl : p = q := Party.track.inj (hp.symm.trans hq)
  refine ⟨hrepeating.1, fun r hr => ?_⟩
  have hknown := hrepeating.2
  rw [hr] at hknown
  exact hknown

end Runs

/-- A submission of the sample payload. -/
def sampleCall : TrackCall := ⟨sampleKey, sampleOld, true⟩

/-- Its version, if that is committed. -/
def sampleRegistered (s : World ℕ) : Option VersionRow :=
  s.db.endpointVersionOf sampleCall.key
    ((sampleConfig false).fingerprint sampleCall.canonicalSchema)

/-- Two requests with one payload, one after the other: the second returns what the first has
registered. -/
theorem repeats_are_silent_twice :
    ∃ (t : World ℕ) (p : TrackProc) (r : TrackResult),
      Reachable (program (sampleConfig false)).step (Initial {} 1) t ∧ t.loc 1 = .track p ∧
        p.status = .returned r ∧ r.inserted = false ∧ r.schemaVersion = 1 := by
  have hrun : (exec (program (sampleConfig false)).step
      (sampleWorld {} 1 [sampleRequest sampleOld, sampleRequest sampleOld])
      (List.replicate 8 (0, .proceed 0))).map (fun s => ((sampleRegistered s).map (·.version),
        (exec (program (sampleConfig false)).step s (List.replicate 5 (1, .proceed 0))).map
          fun t => (t.loc 1).answer?.isSome)) = some (some 1, some true) := by decide
  obtain ⟨s, hs, hend⟩ := Option.map_eq_some_iff.mp hrun
  obtain ⟨hrow, hend⟩ := Prod.mk.inj hend
  obtain ⟨row, hrow, hversion⟩ := Option.map_eq_some_iff.mp hrow
  obtain ⟨t, ht, hanswer⟩ := Option.map_eq_some_iff.mp hend
  have hreach : Reachable (program (sampleConfig false)).step (Initial {} 1) s :=
    reachable_of_exec (sampleWorld_initial (by simp [sampleRequest, Party.Starting.track])) hs
  have hreach' : Reachable (program (sampleConfig false)).step (· = s) t := reachable_of_exec rfl ht
  have hsecond : s.loc 1 = .track (.start sampleCall) :=
    congrArg Own.loc (exec_own (by simp) hs)
  obtain ⟨-, -, hknown⟩ :=
    repeats_are_silent (Registry.valid_empty 1) hreach hrow hsecond hreach'
  obtain ⟨r, hr⟩ := Option.isSome_iff_exists.mp hanswer
  obtain ⟨p, hp, hstatus⟩ : ∃ p, t.loc 1 = .track p ∧ p.status = .returned r := by
    cases hloc : t.loc 1 with
    | track p =>
      obtain ⟨call, pc, status, task⟩ := p
      rw [hloc] at hr
      cases status with
      | returned r' =>
        obtain rfl := Option.some.inj hr
        exact ⟨_, rfl, rfl⟩
      | _ => cases hr
    | _ => rw [hloc] at hr; cases hr
  obtain ⟨-, hall⟩ := hknown p hp
  have hr := hall r hstatus
  exact ⟨t, p, r, hreach.trans hreach', hp, hstatus, hr.inserted, hr.schemaVersion.trans hversion⟩

end Driftgate.Runtime
