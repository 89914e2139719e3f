import Driftgate.Core.Baseline

/-!
# A baseline for every endpoint

A snapshot is stored in one transaction and becomes the baseline in the next, and only the request
that stored it tries. Between the two commits the endpoint depends on that request: when it fails
or its process stops, nobody else promotes anything until a payload of another shape arrives, and
every request with the same payload completes without a baseline to compare with.

As long as no request ends there, unless the endpoint has a baseline or another request is about to
make one, every endpoint with a snapshot has a baseline or a request on its way to it.
-/

namespace Driftgate.Core

open Driftgate.ReadCommitted Driftgate.Transition Driftgate.Runtime

/-- The endpoint whose baseline a request is about to set, at a point after the commit of its
snapshot. -/
def LegacyPc.promotes : LegacyPc → Option Uuid
  | .readBaseline e true => some e
  | .clearBaselines e => some e
  | .waitClear e _ => some e
  | .setBaseline e => some e
  | .commitBaseline e => some e
  | _ => none

def Session.promotes : Session → Option Uuid
  | .runtime _ => none
  | .legacy p =>
    match p.status with
    | .running => p.pc.promotes
    | _ => none

/-- Whether an input ends a request: its next statement raises, or its process stops. -/
def interrupts : Input → Bool
  | .raise _ => true
  | .stop => true
  | _ => false

/-- No request ends on its way to the baseline of an endpoint, unless there is a baseline or another
request is on its way to it. -/
def KeepsPromoting {ι : Type*} (s : Service ι) (a : ι × Input) : Prop :=
  interrupts a.2 = true → ∀ e, (s.loc a.1).promotes = some e →
    s.db.2.activeBaselines e ≠ [] ∨ ∃ j, j ≠ a.1 ∧ (s.loc j).promotes = some e

/-- A request that has its handler still to finish. -/
def Session.inFlight : Session → Bool
  | .runtime (.track p) =>
    match p.status with
    | .running => true
    | .closing _ => true
    | _ => false
  | .runtime _ => false
  | .legacy p =>
    match p.status with
    | .running => true
    | .closing _ => true
    | _ => false

/-- Every endpoint that has a snapshot has a baseline. -/
def EngineDb.HasBaselines (db : EngineDb) : Prop :=
  ∀ e, db.fingerprintsOf e ≠ [] → db.activeBaselines e ≠ []

/-! ### One step -/

section Step

variable {cfg : Config} {v : EngineView} {x : Input} {l : Session}
  {op : Op EngineWrite EngineLock Effect Session} {db : EngineDb} {held : Set EngineLock}
  {pending : List EngineWrite} {e : Uuid}

/-- A commit leaves no endpoint without its baseline. -/
theorem Settled.active_ne_nil (h : Settled db held (pending.filter EngineWrite.onSnapshots))
    (hactive : db.activeBaselines e ≠ []) :
    (engine.applyAll pending db).activeBaselines e ≠ [] := by
  obtain hsame | ⟨fp, fps, hfp, -, -, -, hrows⟩ := h.active_cases e
  · obtain ⟨r, hr⟩ := List.exists_mem_of_ne_nil _ hactive
    exact List.ne_nil_of_mem ((hsame r).mpr hr)
  · obtain ⟨r, hr, -⟩ := promote_active hrows hfp
    exact List.ne_nil_of_mem hr

/-- A request that runs on is on its way to a baseline when its next point is. -/
theorem promotes_after {p : LegacyProc} {f : Flow LegacyPc LegacyPart} (pc : LegacyPc)
    (hrun : p.status = .running) (hf : f = .go pc) (hpc : pc.promotes = some e) :
    (Session.legacy (p.after f)).promotes = some e := by
  subst hf
  show (match p.status with
    | .running => pc.promotes
    | _ => none) = some e
  rw [hrun]
  exact hpc

theorem applyAll_of_untouched (h : pending.filter EngineWrite.onSnapshots = []) :
    (engine.applyAll pending db).snapshots = db.snapshots := by
  rw [snapshots_applyAll, h]
  rfl

/-- An endpoint gets its first snapshot from a request that is then on its way to the baseline. -/
theorem Session.Move.first_snapshot (hop : Session.Move cfg v l x op)
    (hholds : l.Holds cfg db held pending)
    (hnew : (op.dbAfter engine.apply pending db).fingerprintsOf e ≠ []) :
    db.fingerprintsOf e ≠ [] ∨ op.next.promotes = some e := by
  have hnone : pending.filter EngineWrite.onSnapshots = [] →
      (engine.applyAll pending db).fingerprintsOf e ≠ [] → db.fingerprintsOf e ≠ [] := by
    intro hws
    rw [(snapshotsOf_congr (applyAll_of_untouched hws) e).1]
    exact id
  cases hop with
  | elsewhere p op =>
    have hempty : pending = [] := hholds
    subst hempty
    left
    cases op <;> exact hnew
  | stop p => exact .inl hnew
  | publish p ok effect task => exact .inl hnew
  | close hclosing => exact .inl hnew
  | @code x p op hrun hmove =>
    rw [Op.next_map]
    rw [Op.dbAfter_map] at hnew
    have hpc := hholds hrun
    generalize p.pc = pc at hmove hpc
    cases hmove with
    | commitSnapshot e' inserted =>
      cases inserted with
      | true =>
        obtain ⟨row, hws, rfl, -⟩ := hpc
        have hrows : (engine.applyAll pending db).snapshots = db.snapshots ++ [row] := by
          rw [snapshots_applyAll, hws]
          rfl
        have hnew : (engine.applyAll pending db).fingerprintsOf e ≠ [] := hnew
        rw [insertSnapshot_fingerprints hrows] at hnew
        by_cases he : row.endpointId = e
        · right
          subst he
          exact promotes_after _ hrun rfl rfl
        · rw [if_neg he, List.append_nil] at hnew
          exact .inl hnew
      | false => exact .inl (hnone hpc hnew)
    | commitBaseline e' =>
      obtain ⟨fps, hws, -⟩ := hpc
      have hrows : (engine.applyAll pending db).snapshots =
          promoteRows e' fps (p.call.fingerprint cfg) db.snapshots := by
        rw [snapshots_applyAll, hws]
        rfl
      have hnew : (engine.applyAll pending db).fingerprintsOf e ≠ [] := hnew
      rw [promote_fingerprints hrows] at hnew
      exact .inl hnew
    | commitViolations e' inserted logged => exact .inl (hnone hpc hnew)
    | _ => exact .inl hnew

/-- A request on its way to the baseline goes on, unless it ends or there is a baseline. -/
theorem Session.Move.promotes_next (hop : Session.Move cfg v l x op)
    (hview : v.db = engine.applyAll pending db) (hholds : l.Holds cfg db held pending)
    (hgo : interrupts x = false) (he : l.promotes = some e) :
    op.next.promotes = some e ∨ (op.dbAfter engine.apply pending db).activeBaselines e ≠ [] := by
  cases hop with
  | elsewhere p op => cases he
  | stop p => cases hgo
  | publish p ok effect task => exact .inl he
  | @close x p _ hclosing =>
    rw [promotes, hclosing] at he
    cases he
  | @code x p op hrun hmove =>
    rw [promotes, hrun] at he
    rw [Op.next_map, Op.dbAfter_map]
    have hpc := hholds hrun
    generalize p.pc = pc at hmove hpc he
    cases hmove with
    | raises => cases hgo
    | readBaseline e' inserted =>
      cases inserted with
      | true =>
        cases he
        by_cases hactive : db.activeBaselines e = []
        · have hseen : v.db.activeBaselines e = [] := by
            rw [hview, (snapshotsOf_congr (applyAll_of_untouched hpc.1) e).2, hactive]
          have hread : v.db.activeBaseline e = none := by
            rw [EngineDb.activeBaseline, hseen]
            rfl
          refine .inl (promotes_after (.clearBaselines e) hrun ?_ rfl)
          rw [hread]
          rfl
        · exact .inr hactive
      | false => cases he
    | waits e' => exact .inl (promotes_after _ hrun rfl he)
    | clears e' => exact .inl (promotes_after _ hrun rfl he)
    | clearsLate e' fps => exact .inl (promotes_after _ hrun rfl he)
    | setBaseline e' => exact .inl (promotes_after _ hrun rfl he)
    | commitBaseline e' =>
      obtain ⟨fps, hws, hstored, -⟩ := hpc
      have hrows : (engine.applyAll pending db).snapshots =
          promoteRows e' fps (p.call.fingerprint cfg) db.snapshots := by
        rw [snapshots_applyAll, hws]
        rfl
      obtain ⟨r, hr, -⟩ := promote_active hrows hstored
      cases he
      exact .inr (List.ne_nil_of_mem hr)
    | _ => cases he

end Step

/-! ### Runs -/

section Runs

variable {ι : Type*} [DecidableEq ι] {cfg : Config} {contract : Db} {legacy : EngineDb}
  {fresh : Uuid} {s : Service ι}

/-- Every endpoint with a snapshot has a baseline, or a request is on its way to it. -/
theorem baseline_or_promoting (hdb : legacy.Unique) (hbase : legacy.HasBaselines)
    (h : Run (service cfg).step KeepsPromoting (ServiceInitial contract legacy fresh) s) (e : Uuid)
    (he : s.db.2.fingerprintsOf e ≠ []) :
    s.db.2.activeBaselines e ≠ [] ∨ ∃ i, (s.loc i).promotes = some e := by
  revert e
  refine Run.invariant (I := fun s => ∀ e, s.db.2.fingerprintsOf e ≠ [] →
    s.db.2.activeBaselines e ≠ [] ∨ ∃ i, (s.loc i).promotes = some e) ?_ ?_ h
  · intro s hs e he
    rw [hs.db] at he ⊢
    exact .inl (hbase e he)
  · rintro s ⟨i, x⟩ t hrun hI hgood hstep e he
    obtain ⟨op, hop, hst⟩ := service_step_move hstep
    have hholds : (s.loc i).Holds cfg s.db.2 (s.right.own i).held (s.right.pending i) :=
      (snapshots_run hdb hrun).2 i
    have hdb' : t.db.2 = op.dbAfter engine.apply (s.right.pending i) s.db.2 := hst.db
    have hloc : t.loc i = op.next := hst.loc
    rw [hdb'] at he ⊢
    have hkeep : s.db.2.activeBaselines e ≠ [] →
        (op.dbAfter engine.apply (s.right.pending i) s.db.2).activeBaselines e ≠ [] := by
      intro hactive
      obtain hsame | ⟨hcommit, hs, -⟩ := hop.db_cases hholds
      · rwa [hsame]
      · rw [hcommit]
        exact hs.active_ne_nil hactive
    have hothers : (∃ j, j ≠ i ∧ (s.loc j).promotes = some e) → ∃ j, (t.loc j).promotes = some e := by
      rintro ⟨j, hj, hpromotes⟩
      refine ⟨j, ?_⟩
      rwa [show t.loc j = s.loc j from hst.loc_other hj]
    obtain hold | hnext := hop.first_snapshot hholds he
    · obtain hactive | ⟨j, hpromotes⟩ := hI e hold
      · exact .inl (hkeep hactive)
      · by_cases hj : j = i
        · subst hj
          cases hx : interrupts x with
          | true =>
            obtain hactive | hother := hgood hx e hpromotes
            · exact .inl (hkeep hactive)
            · exact .inr (hothers hother)
          | false =>
            obtain hnext | hactive := hop.promotes_next rfl hholds hx hpromotes
            · exact .inr ⟨j, hloc ▸ hnext⟩
            · exact .inl hactive
        · exact .inr (hothers ⟨j, hj, hpromotes⟩)
    · exact .inr ⟨i, hloc ▸ hnext⟩

/-- **A baseline for every endpoint**, when no request is in its legacy part and none has ended on
its way to the baseline. -/
theorem baseline_exists (hdb : legacy.Unique) (hbase : legacy.HasBaselines)
    (h : Run (service cfg).step KeepsPromoting (ServiceInitial contract legacy fresh) s)
    (hidle : ∀ i p, s.loc i = .legacy p → p.running = false) (e : Uuid)
    (he : s.db.2.fingerprintsOf e ≠ []) : s.db.2.activeBaselines e ≠ [] := by
  refine (baseline_or_promoting hdb hbase h e he).resolve_right ?_
  rintro ⟨i, hi⟩
  cases hloc : s.loc i with
  | runtime p =>
    rw [hloc] at hi
    cases hi
  | legacy p =>
    have hstatus := hidle i p hloc
    rw [hloc, Session.promotes] at hi
    rw [LegacyProc.running] at hstatus
    cases hst : p.status with
    | running =>
      rw [hst] at hstatus
      cases hstatus
    | _ =>
      rw [hst] at hi
      cases hi

/-- A run goes on as long as no request is interrupted. -/
theorem keepsPromoting_exec {init : Service ι → Prop} {t : Service ι} {as : List (ι × Input)}
    (hs : Run (service cfg).step KeepsPromoting init s) (hall : ∀ a ∈ as, interrupts a.2 = false)
    (he : exec (service cfg).step s as = some t) :
    Run (service cfg).step KeepsPromoting init t := by
  have hrun : Run (service cfg).step (fun _ a => interrupts a.2 = false) (· = s) t :=
    Run.of_exec (.start rfl) (Along.of_labels hall s) he
  refine hs.trans (hrun.mono fun _ a _ ha hinterrupts => ?_)
  rw [ha] at hinterrupts
  cases hinterrupts

/-- Two requests have stored the first snapshots of an endpoint. The process of the second stops
there, and the first completes. -/
theorem baseline_exists_stopped : ∃ (s : Service ℕ) (e : Uuid),
    Run (service (sampleConfig false)).step KeepsPromoting (ServiceInitial {} {} 1) s ∧
      s.db.2.fingerprintsOf e ≠ [] ∧ s.db.2.activeBaselines e ≠ [] := by
  let before := goOn 0 14 ++ goOn 1 19
  let after := goOn 0 4
  have hrun : (exec (service (sampleConfig false)).step (sampleService [sampleOld, sampleNew])
      before).map (fun u => ((u.loc 0).promotes, (u.loc 1).promotes,
        (exec (service (sampleConfig false)).step u ((1, .stop) :: after)).map fun s =>
          (s.db.2.fingerprintsOf 11, (List.range 2).all fun i => !(s.loc i).inFlight))) =
      some (some 11, some 11, some (["id:int;name:string;", "id:int;"], true)) := by
    decide +kernel
  obtain ⟨u, hu, hmiddle⟩ := Option.map_eq_some_iff.mp hrun
  obtain ⟨hfirst, hsecond, hend⟩ := by simpa only [Prod.mk.injEq] using hmiddle
  obtain ⟨s, hs, houtcome⟩ := Option.map_eq_some_iff.mp hend
  obtain ⟨hstored, hidle⟩ := Prod.mk.inj houtcome
  have hothers : ∀ i, s.loc (i + 2) = .runtime (.worker .poll) := fun i =>
    (congrArg Own.loc (exec_own (by simp [after, goOn]) hs)).trans
      (sample_others hu (by decide) (Nat.le_add_left 2 i))
  obtain ⟨w, hw, hs⟩ := Option.bind_eq_some_iff.mp hs
  have hu' := keepsPromoting_exec (.start (sampleService_initial _)) (by decide) hu
  have hstop : KeepsPromoting u (1, .stop) := fun _ e he => by
    rw [hsecond] at he
    exact .inr ⟨0, Nat.zero_ne_one, hfirst.trans he⟩
  have hreach := keepsPromoting_exec (hu'.next hstop hw) (by decide) hs
  have hne : s.db.2.fingerprintsOf 11 ≠ [] := by
    rw [hstored]
    exact List.cons_ne_nil _ _
  refine ⟨s, 11, hreach, hne, baseline_exists EngineDb.unique_empty.1
    (fun e he => absurd rfl he) hreach (fun i p hp => ?_) 11 hne⟩
  by_cases hi : i < 2
  · have hnot := List.all_eq_true.mp hidle i (List.mem_range.mpr hi)
    rw [hp, Bool.not_eq_true'] at hnot
    rw [LegacyProc.running]
    rw [Session.inFlight] at hnot
    cases hstatus : p.status with
    | running =>
      rw [hstatus] at hnot
      cases hnot
    | _ => rfl
  · obtain ⟨j, rfl⟩ := Nat.exists_eq_add_of_le' (not_lt.mp hi)
    rw [hothers j] at hp
    cases hp

/-- The process of a request stops when its snapshot is stored and not yet the baseline; another
request with the same payload completes. -/
theorem baseline_missing : ¬∀ s : Service ℕ,
    Reachable (service (sampleConfig false)).step (ServiceInitial {} {} 1) s →
      (∀ i, (s.loc i).inFlight = false) → ∀ i r, (s.loc i).response? = some r →
      s.db.2.activeBaselines r.legacyEndpointId ≠ [] := by
  intro h
  let run := goOn 0 14 ++ [(0, .stop)] ++ goOn 1 10
  have hrun : (exec (service (sampleConfig false)).step (sampleService [sampleOld, sampleOld])
      run).map (fun s => ((s.loc 0).inFlight, (s.loc 1).inFlight,
        (s.loc 1).response?.map (·.legacyEndpointId),
        (s.db.2.activeBaselines 11).isEmpty)) = some (false, false, some 11, true) := by
    decide
  obtain ⟨s, hs, houtcome⟩ := Option.map_eq_some_iff.mp hrun
  obtain ⟨hfirst, hsecond, hresponse, hactive⟩ := by simpa only [Prod.mk.injEq] using houtcome
  obtain ⟨r, hr, hendpoint⟩ := Option.map_eq_some_iff.mp hresponse
  refine h s (reachable_of_exec (sampleService_initial _) hs) (fun i => ?_) 1 r hr ?_
  · match i with
    | 0 => exact hfirst
    | 1 => exact hsecond
    | i + 2 =>
      rw [sample_others hs (by decide) (Nat.le_add_left 2 i)]
      rfl
  · rw [hendpoint]
    exact List.isEmpty_iff.mp hactive

/-- A step of a request that has written nothing yet, and does not write or lock now. -/
theorem quiet_step {i : ι} {p : LegacyProc} (now : Time)
    (op : Op EngineWrite EngineLock Empty (Flow LegacyPc LegacyPart)) (hloc : s.loc i = .legacy p)
    (hrun : p.status = .running) (hpending : s.right.pending i = [])
    (hop : ∀ v : EngineView, v.db = s.db.2 → p.call.step cfg p.pc v (.proceed now) = some op)
    (hquiet : op.locks = [] ∧ op.writes = []) :
    ∃ t, (service cfg).step s (i, .proceed now) = some t ∧ t.loc i = .legacy (p.after op.next) ∧
      t.right.pending i = [] ∧ t.db.2 = s.db.2 := by
  have hview : (s.right.view engine i).db = s.db.2 := by
    show engine.applyAll (s.right.pending i) s.db.2 = s.db.2
    rw [hpending]
    rfl
  obtain ⟨t, ht⟩ := legacy_step_enabled _ hloc hrun (hop _ hview) fun k hk => by
    rw [hquiet.1] at hk
    cases hk
  obtain ⟨hloc', hpending', -, hdb'⟩ := legacy_step hloc hrun (hop _ hview) ht
  rw [hpending] at hpending' hdb'
  refine ⟨t, ht, hloc', hpending'.trans ?_, hdb'.trans ?_⟩
  · cases op with
    | exec ks ws l => exact hquiet.2
    | _ => rfl
  · cases op <;> rfl

/-- A lost baseline stays lost: a request whose snapshot is stored already completes without one,
and leaves the tables as they are. -/
theorem resubmission_completes {i : ι} {p : LegacyProc} {row : ApiEndpointRow} {now : Time}
    (hloc : s.loc i = .legacy p) (hrun : p.status = .running) (hpc : p.pc = .selectEndpoint)
    (hpending : s.right.pending i = []) (hrow : s.db.2.endpoint? p.call.key = some row)
    (hstored : p.call.fingerprint cfg ∈ s.db.2.fingerprintsOf row.id)
    (hnone : s.db.2.activeBaselines row.id = []) :
    ∃ t, exec (service cfg).step s (List.replicate 4 (i, .proceed now)) = some t ∧
      t.loc i = .legacy { p with
        pc := .readBaseline row.id false
        status := .returned ⟨row.id, false, []⟩ } ∧
      t.db.2 = s.db.2 := by
  obtain ⟨s₁, h₁, hloc₁, hpending₁, hdb₁⟩ := quiet_step now
    (.exec [] [] (.go (.selectSnapshot row.id))) hloc hrun hpending
    (fun v hv => by rw [hpc, LegacyCall.step, hv, hrow]) ⟨rfl, rfl⟩
  obtain ⟨s₂, h₂, hloc₂, hpending₂, hdb₂⟩ := quiet_step now
    (.exec [] [] (.go (.commitSnapshot row.id false))) hloc₁ hrun hpending₁
    (fun v hv => if_pos (by rwa [hv, hdb₁, hasSnapshot_iff])) ⟨rfl, rfl⟩
  obtain ⟨s₃, h₃, hloc₃, hpending₃, hdb₃⟩ := quiet_step now
    (.commit (.go (.readBaseline row.id false))) hloc₂ hrun hpending₂
    (fun v hv => rfl) ⟨rfl, rfl⟩
  have hread : ∀ v : EngineView, v.db = s₃.db.2 → v.db.activeBaseline row.id = none := by
    intro v hv
    rw [hv, hdb₃, hdb₂, hdb₁, EngineDb.activeBaseline, hnone]
    rfl
  obtain ⟨s₄, h₄, hloc₄, -, hdb₄⟩ := quiet_step now
    (.exec [] [] (.done ⟨row.id, false, []⟩)) hloc₃ hrun hpending₃
    (fun v hv => congrArg (fun b => some (Op.exec [] [] (p.call.afterBaseline cfg row.id false b)))
      (hread v hv)) ⟨rfl, rfl⟩
  refine ⟨s₄, ?_, hloc₄, by rw [hdb₄, hdb₃, hdb₂, hdb₁]⟩
  show ((service cfg).step s _).bind _ = _
  rw [h₁]
  show ((service cfg).step s₁ _).bind _ = _
  rw [h₂]
  show ((service cfg).step s₂ _).bind _ = _
  rw [h₃]
  show ((service cfg).step s₃ _).bind _ = _
  rw [h₄]
  rfl

end Runs

end Driftgate.Core
