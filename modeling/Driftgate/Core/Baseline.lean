import Driftgate.Core.SnapshotRuns

/-!
# One active baseline

The `UPDATE` that clears the flags changes the snapshots that are committed when it starts. While it
waits for one of them, another request can store a snapshot, get ahead of it and make that one the
baseline; the `UPDATE` then goes through without it, and the request that issued it adds a second
baseline. In every run in which a waiting `UPDATE` never overlooks a baseline in this way there is
at most one, because two requests that promote their snapshots both need the lock of the oldest
snapshot of the endpoint.
-/

namespace Driftgate.Core

open Driftgate.ReadCommitted Driftgate.Transition Driftgate.Runtime

/-- The active baselines that a waiting `UPDATE` has not selected. -/
def LegacyProc.overlooked (db : EngineDb) (p : LegacyProc) : List SnapshotRow :=
  match p.status, p.pc with
  | .running, .waitClear e fps => (db.activeBaselines e).filter (·.fingerprint ∉ fps)
  | _, _ => []

def overlooked {ι : Type*} (s : Service ι) (i : ι) : List SnapshotRow :=
  match s.loc i with
  | .runtime _ => []
  | .legacy p => p.overlooked s.db.2

/-- Whether an input lets a statement go through. -/
def proceeds : Input → Bool
  | .proceed _ => true
  | _ => false

/-- A waiting `UPDATE` that goes through has all active baselines among its rows. -/
def SeesBaselines {ι : Type*} (s : Service ι) (a : ι × Input) : Prop :=
  proceeds a.2 = true → (overlooked s a.1).isEmpty = true

instance {ι : Type*} (s : Service ι) (a : ι × Input) : Decidable (SeesBaselines s a) :=
  inferInstanceAs (Decidable (_ → _))

theorem mem_overlooked {ι : Type*} {s : Service ι} {i : ι} {r : SnapshotRow} :
    r ∈ overlooked s i ↔ ∃ p e fps, s.loc i = .legacy p ∧ p.status = .running ∧
      p.pc = .waitClear e fps ∧ r ∈ s.db.2.activeBaselines e ∧ r.fingerprint ∉ fps := by
  rw [overlooked]
  cases hloc : s.loc i with
  | runtime p => simp
  | legacy p =>
    obtain ⟨call, result, pc, status, task⟩ := p
    cases status <;> cases pc <;> simp [LegacyProc.overlooked]

/-! ### What the clearing transactions have selected -/

section Step

open LegacyCall

variable {cfg : Config} {call : LegacyCall} {pc : LegacyPc} {v : EngineView} {x : Input}
  {op : Op EngineWrite EngineLock Empty (Flow LegacyPc LegacyPart)} {db : EngineDb}
  {held : Set EngineLock} {ws pending : List EngineWrite} {e : Uuid} {fps : List String}

/-- Where a clearing write of an open transaction comes from. -/
theorem LegacyCall.Move.clear_mem (hop : call.Move cfg v pc x op)
    (h : .clearBaselines e fps ∈ op.pendingAfter pending) :
    .clearBaselines e fps ∈ pending ∨ (pc = .clearBaselines e ∧ fps = v.db.fingerprintsOf e) ∨
      (pc = .waitClear e fps ∧ ∃ now, x = .proceed now) := by
  have hnew : ∀ {ws' : List EngineWrite}, .clearBaselines e fps ∈ pending ++ ws' →
      .clearBaselines e fps ∉ ws' → EngineWrite.clearBaselines e fps ∈ pending :=
    fun hmem hnot => (List.mem_append.mp hmem).resolve_right hnot
  cases hop with
  | clears e' =>
    obtain hmem | hmem := List.mem_append.mp h
    · exact .inl hmem
    · cases List.mem_singleton.mp hmem
      exact .inr (.inl ⟨rfl, rfl⟩)
  | clearsLate e' fps' =>
    obtain hmem | hmem := List.mem_append.mp h
    · exact .inl hmem
    · cases List.mem_singleton.mp hmem
      exact .inr (.inr ⟨rfl, _, rfl⟩)
  | commitSnapshot => cases h
  | commitBaseline => cases h
  | commitViolations => cases h
  | _ => exact .inl (hnew h (by simp))

/-- A request whose transaction has cleared flags holds the rows it has selected. -/
theorem LegacyPc.Holds.cleared (h : pc.Holds cfg db held call ws)
    (hmem : .clearBaselines e fps ∈ ws) :
    Covers db e (call.fingerprint cfg) fps ∧ ∀ f ∈ fps, .snapshot e f ∈ held := by
  cases pc with
  | commitSnapshot e' inserted =>
    cases inserted with
    | true =>
      obtain ⟨row, rfl, -⟩ := h
      cases List.mem_singleton.mp hmem
    | false =>
      rw [show ws = [] from h] at hmem
      cases hmem
  | setBaseline e' =>
    obtain ⟨fps', rfl, -, hcovers, hlock⟩ := h
    cases List.mem_singleton.mp hmem
    exact ⟨hcovers, hlock⟩
  | commitBaseline e' =>
    obtain ⟨fps', rfl, -, hcovers, hlock⟩ := h
    obtain heq | heq := List.mem_pair.mp hmem
    · cases heq
      exact ⟨hcovers, hlock⟩
    · cases heq
  | readBaseline e' inserted =>
    rw [h.1] at hmem
    cases hmem
  | clearBaselines e' =>
    rw [h.1] at hmem
    cases hmem
  | waitClear e' fps' =>
    rw [h.1] at hmem
    cases hmem
  | _ =>
    rw [show ws = [] from h] at hmem
    cases hmem

end Step

/-- Two requests never have cleared flags of one endpoint at the same time. -/
theorem cleared_unique {ι : Type*} {s : Service ι} {i j : ι} {e : Uuid}
    {fp fp' : String} {fps fps' : List String} (hi : Covers s.db.2 e fp fps)
    (hlocki : ∀ f ∈ fps, .snapshot e f ∈ (s.right.own i).held) (hj : Covers s.db.2 e fp' fps')
    (hlockj : ∀ f ∈ fps', .snapshot e f ∈ (s.right.own j).held) : i = j := by
  obtain ⟨f, hf, hhead⟩ := hi.first
  obtain ⟨f', hf', hhead'⟩ := hj.first
  rw [hhead] at hhead'
  cases hhead'
  exact State.held_unique (hlocki f hf) (hlockj f hf')

/-- What the open transaction of a running request has selected has every active baseline. -/
def Session.Sees (db : EngineDb) (ws : List EngineWrite) : Session → Prop
  | .runtime _ => True
  | .legacy p => p.status = .running → ∀ e fps, .clearBaselines e fps ∈ ws →
    ∀ r ∈ db.activeBaselines e, r.fingerprint ∈ fps

/-! ### At most one -/

/-- All active baselines of an endpoint are one snapshot. -/
def EngineDb.OneBaseline (db : EngineDb) : Prop :=
  ∀ e, ∀ r ∈ db.activeBaselines e, ∀ r' ∈ db.activeBaselines e, r.fingerprint = r'.fingerprint

theorem activeBaselines_nodup {db : EngineDb} (hdb : db.Unique) (e : Uuid) :
    ((db.activeBaselines e).map (·.fingerprint)).Nodup := by
  have hsub : db.activeBaselines e = (db.snapshotsOf e).filter (·.isActiveBaseline) := by
    rw [EngineDb.snapshotsOf, List.filter_filter, EngineDb.activeBaselines]
    simp only [Bool.and_comm]
  rw [hsub]
  exact (hdb e).sublist (List.filter_sublist.map _)

theorem length_le_one_iff {db : EngineDb} (hdb : db.Unique) :
    (∀ e, (db.activeBaselines e).length ≤ 1) ↔ db.OneBaseline := by
  refine forall_congr' fun e => ?_
  have hnodup := activeBaselines_nodup hdb e
  generalize db.activeBaselines e = l at hnodup ⊢
  match l with
  | [] => simp
  | [r] => simp
  | r :: r' :: l =>
    constructor
    · intro hlen
      simp at hlen
    · intro hone
      simp [hone r (by simp) r' (by simp)] at hnodup

theorem one_lt_length {l : List SnapshotRow} {r r' : SnapshotRow} (hr : r ∈ l) (hr' : r' ∈ l)
    (hne : r.fingerprint ≠ r'.fingerprint) : 1 < l.length := by
  match l with
  | [a] =>
    rw [List.mem_singleton.mp hr, List.mem_singleton.mp hr'] at hne
    exact absurd rfl hne
  | _ :: _ :: _ => simp

section Commit

variable {db : EngineDb} {held : Set EngineLock} {pending : List EngineWrite}

/-- A commit leaves the baselines of an endpoint alone, or it is a promotion there. -/
theorem Settled.active_cases (h : Settled db held (pending.filter EngineWrite.onSnapshots))
    (e : Uuid) :
    (∀ r, r ∈ (engine.applyAll pending db).activeBaselines e ↔ r ∈ db.activeBaselines e) ∨
    ∃ fp fps, fp ∈ db.fingerprintsOf e ∧ Covers db e fp fps ∧ (∀ f ∈ fps, .snapshot e f ∈ held) ∧
      .clearBaselines e fps ∈ pending ∧
      (engine.applyAll pending db).snapshots = promoteRows e fps fp db.snapshots := by
  obtain hrows | ⟨row, hinactive, -, -, hrows⟩ | ⟨e', fp, fps, hfp, hcovers, hlock, hws, hrows⟩ :=
    h.cases_rows
  · left
    intro r
    rw [(snapshotsOf_congr hrows e).2]
  · left
    intro r
    rw [insertSnapshot_active hrows hinactive]
  · by_cases he : e = e'
    · subst he
      have hmem : .clearBaselines e fps ∈ pending.filter EngineWrite.onSnapshots := by
        rw [hws]
        exact List.mem_cons_self
      exact .inr ⟨fp, fps, hfp, hcovers, hlock, List.mem_of_mem_filter hmem, hrows⟩
    · exact .inl fun r => promote_active_other hrows he

/-- After a promotion that has selected every active baseline there is the promoted one only. -/
theorem promote_active_eq {db' : EngineDb} {e : Uuid} {fp : String} {fps : List String}
    (h : db'.snapshots = promoteRows e fps fp db.snapshots)
    (hsees : ∀ r ∈ db.activeBaselines e, r.fingerprint ∈ fps) {r : SnapshotRow}
    (hr : r ∈ db'.activeBaselines e) : r.fingerprint = fp := by
  obtain ⟨hmem, he, hactive⟩ := mem_activeBaselines.mp hr
  rw [h, promoteRows_eq] at hmem
  obtain ⟨r₀, hr₀, rfl⟩ := List.mem_map.mp hmem
  have he : r₀.endpointId = e := he
  by_contra hne
  have hne : r₀.fingerprint ≠ fp := hne
  simp only [promoteRow, he, hne, true_and, and_false, if_false] at hactive
  split at hactive
  · cases hactive
  next hnot => exact hnot (hsees r₀ (mem_activeBaselines.mpr ⟨hr₀, he, hactive⟩))

end Commit

section Runs

variable {ι : Type*} [DecidableEq ι] {cfg : Config} {contract : Db} {legacy : EngineDb}
  {fresh : Uuid} {s : Service ι}

/-- What a session has selected after its own step. -/
theorem Session.Move.sees {l : Session} {v : EngineView} {x : Input}
    {op : Op EngineWrite EngineLock Effect Session} {db : EngineDb} {held : Set EngineLock}
    {pending : List EngineWrite} (hop : Session.Move cfg v l x op)
    (hview : v.db = engine.applyAll pending db) (hholds : l.Holds cfg db held pending)
    (hsees : l.Sees db pending)
    (hgood : ∀ p e fps now, l = .legacy p → p.status = .running → p.pc = .waitClear e fps →
      x = .proceed now → ∀ r ∈ db.activeBaselines e, r.fingerprint ∈ fps) :
    op.next.Sees (op.dbAfter engine.apply pending db) (op.pendingAfter pending) := by
  cases hop with
  | elsewhere p op =>
    rw [Op.next_map, Op.next_bare]
    obtain hp | ⟨q, r, -, -, hp⟩ := Session.resume_cases op.next
    · rw [hp]
      trivial
    · rw [hp]
      intro _ e fps hmem
      have hnone : pending = [] := hholds
      subst hnone
      cases op <;> cases hmem
  | stop p =>
    intro _ e fps hmem
    cases hmem
  | publish p ok effect task => exact hsees
  | close hclosing =>
    intro _ e fps hmem
    cases hmem
  | @code x p op hrun hmove =>
    rw [Op.next_map]
    intro _ e fps hmem
    rw [Op.pendingAfter_map] at hmem
    have hdb : op.dbAfter EngineWrite.apply pending db = db := by
      cases op with
      | commit f => cases hmem
      | _ => rfl
    rw [Op.dbAfter_map, show op.dbAfter engine.apply pending db = db from hdb]
    obtain hmem | ⟨hpc, rfl⟩ | ⟨hpc, now, rfl⟩ := hmove.clear_mem hmem
    · exact hsees hrun e fps hmem
    · -- the rows are those that are committed
      have hnone : pending.filter EngineWrite.onSnapshots = [] := by
        have h := hholds hrun
        rw [hpc] at h
        exact h.1
      intro r hr
      rw [hview]
      have hrows : (engine.applyAll pending db).snapshots = db.snapshots := by
        rw [snapshots_applyAll, hnone]
        rfl
      rw [(snapshotsOf_congr hrows e).1]
      exact fingerprint_mem_of_active hr
    · exact hgood p e fps now rfl hrun hpc rfl

/-- **One active baseline**, in every run in which no waiting `UPDATE` overlooks one. -/
theorem one_active_baseline (hdb : legacy.Unique)
    (hone : ∀ e, (legacy.activeBaselines e).length ≤ 1)
    (h : Run (service cfg).step SeesBaselines (ServiceInitial contract legacy fresh) s) (e : Uuid) :
    (s.db.2.activeBaselines e).length ≤ 1 := by
  have hunique := (snapshots_run hdb h).1
  have hrun : Run (service cfg).step (fun s a => SeesBaselines s a ∧
      ∀ i, (s.loc i).Holds cfg s.db.2 (s.right.own i).held (s.right.pending i))
      (ServiceInitial contract legacy fresh) s :=
    h.mono fun s a hs hg => ⟨hg, (snapshots_run hdb hs).2⟩
  refine (length_le_one_iff hunique).mpr ?_ e
  refine (engine_noninterference (G := fun w => w.db.OneBaseline)
    (A := fun w o => o.loc.Sees w.db o.pending) ?_ ?_ ?_ hrun).1
  · intro s hs
    refine ⟨?_, fun i => ?_⟩
    · show s.db.2.OneBaseline
      rw [hs.db]
      exact (length_le_one_iff hdb).mp hone
    · obtain ⟨p, hp, -⟩ := hs.starting i
      show (s.loc i).Sees _ _
      rw [hp]
      trivial
  · rintro s i x op ⟨hgood, hholds⟩ hG hA hop
    rw [Op.shared_db]
    refine ⟨?_, hop.sees rfl (hholds i) (hA i) ?_⟩
    · obtain hsame | ⟨hcommit, hs, hrunning⟩ := hop.db_cases (hholds i)
      · exact hsame.symm ▸ hG
      · rw [show op.dbAfter engine.apply (s.right.pending i) s.right.db = _ from hcommit]
        intro e r hr r' hr'
        obtain hsame | ⟨fp, fps, -, -, -, hmem, hrows⟩ := hs.active_cases e
        · exact hG e r ((hsame r).mp hr) r' ((hsame r').mp hr')
        · obtain hnone | ⟨p, hp, hrun⟩ := hrunning
          · rw [hnone] at hmem
            cases hmem
          · have hsees : (s.loc i).Sees s.right.db (s.right.pending i) := hA i
            rw [hp] at hsees
            rw [promote_active_eq hrows (hsees hrun e fps hmem) hr,
              promote_active_eq hrows (hsees hrun e fps hmem) hr']
    · rintro p e fps now hp hrun hpc rfl r hr
      by_contra hnot
      have hmem : r ∈ overlooked s i := mem_overlooked.mpr ⟨p, e, fps, hp, hrun, hpc, hr, hnot⟩
      rw [List.isEmpty_iff.mp (hgood rfl)] at hmem
      cases hmem
  · rintro s i j x op hj ⟨hgood, hholds⟩ hG hA hop
    rw [Op.shared_db]
    obtain hsame | ⟨hcommit, hs, -⟩ := hop.db_cases (hholds i)
    · exact hsame.symm ▸ hA j
    · show (s.loc j).Sees (op.dbAfter engine.apply (s.right.pending i) s.right.db) (s.right.pending j)
      rw [show op.dbAfter engine.apply (s.right.pending i) s.right.db = _ from hcommit]
      have hseesj : (s.loc j).Sees s.right.db (s.right.pending j) := hA j
      have hholdsj := hholds j
      cases hp : s.loc j with
      | runtime p => trivial
      | legacy p =>
        rw [hp] at hseesj hholdsj
        intro hrun e fps hmem r hr
        obtain hsame | ⟨fp, fps', -, hcovers, hlock, -, -⟩ := hs.active_cases e
        · exact hseesj hrun e fps hmem r ((hsame r).mp hr)
        · obtain ⟨hcoversj, hlockj⟩ :=
            (hholdsj hrun).cleared (List.mem_filter.mpr ⟨hmem, rfl⟩)
          exact absurd (cleared_unique hcoversj hlockj hcovers hlock) hj

/-- Two requests promote their snapshots one after the other: the second waits for the first and
sees its baseline. -/
theorem one_active_baseline_two : ∃ (s : Service ℕ) (e : Uuid),
    Run (service (sampleConfig false)).step SeesBaselines (ServiceInitial {} {} 1) s ∧
      s.db.2.activeBaselines e ≠ [] ∧ (s.db.2.activeBaselines e).length ≤ 1 := by
  let run := goOn 0 8 ++ goOn 1 14 ++ goOn 0 7 ++ goOn 1 6 ++ goOn 0 2 ++ goOn 1 1 ++ goOn 0 1 ++
    goOn 1 3
  let start := sampleService [sampleOld, sampleNew]
  have hrun : (exec (service (sampleConfig false)).step start run).map
      (fun s => (s.db.2.activeBaselines 25).isEmpty) = some false := by
    decide +kernel
  have hgood : Along (service (sampleConfig false)).step SeesBaselines start run := by
    decide +kernel
  obtain ⟨s, hs, hactive⟩ := Option.map_eq_some_iff.mp hrun
  have hreach := Run.of_exec (.start (sampleService_initial [sampleOld, sampleNew])) hgood hs
  refine ⟨s, 25, hreach, fun hnone => ?_,
    one_active_baseline EngineDb.unique_empty.1 EngineDb.unique_empty.2 hreach 25⟩
  rw [hnone] at hactive
  cases hactive

/-- Three requests: the first has promoted its snapshot and not committed yet, the second waits for
it, the third stores its snapshot, finds no baseline, and promotes its snapshot after the commit of
the first and before the second. -/
theorem two_active_baselines : ¬∀ s : Service ℕ,
    Reachable (service (sampleConfig false)).step (ServiceInitial {} {} 1) s →
      ∀ e, (s.db.2.activeBaselines e).length ≤ 1 := by
  intro h
  let run := goOn 0 8 ++ goOn 1 14 ++ goOn 2 14 ++ goOn 0 7 ++ goOn 1 6 ++ goOn 0 2 ++ goOn 1 1 ++
    goOn 2 6 ++ goOn 0 1 ++ goOn 2 3 ++ goOn 1 3
  let start := sampleService [sampleOld, sampleNew, sampleOther]
  have hrun : (exec (service (sampleConfig false)).step start run).map
      (fun s => (s.db.2.activeBaselines 39).length) = some 2 := by
    decide +kernel
  obtain ⟨s, hs, hlen⟩ := Option.map_eq_some_iff.mp hrun
  have hone := h s (reachable_of_exec (sampleService_initial _) hs) 39
  rw [hlen] at hone
  exact absurd hone (by decide)

/-- The condition is exact: a waiting `UPDATE` that goes through without an active baseline leaves it
active, and two statements later its request has committed a second one. -/
theorem overlooked_baseline_stays (hdb : legacy.Unique)
    (h : Reachable (service cfg).step (ServiceInitial contract legacy fresh) s) {i : ι} {now : Time}
    {t : Service ι} {r : SnapshotRow} (hr : r ∈ overlooked s i)
    (hstep : (service cfg).step s (i, .proceed now) = some t) :
    ∃ e u, exec (service cfg).step t [(i, .proceed now), (i, .proceed now)] = some u ∧
      1 < (u.db.2.activeBaselines e).length := by
  obtain ⟨p, e, fps, hloc, hrun, hpc, hactive, hnot⟩ := mem_overlooked.mp hr
  have hholds : (s.loc i).Holds cfg s.db.2 (s.right.own i).held (s.right.pending i) :=
    (snapshots_run hdb h).2 i
  rw [hloc] at hholds
  have hpcholds := hholds hrun
  rw [hpc] at hpcholds
  obtain ⟨hnone, hstored, hcovers⟩ := hpcholds
  -- the clearing `UPDATE`
  have hclear : p.call.step cfg p.pc (s.right.view engine i) (.proceed now) =
      some (LegacyCall.clear e fps) := by
    rw [hpc]
    rfl
  obtain ⟨hloc₁, hpending₁, hheld₁, hdb₁⟩ := legacy_step hloc hrun hclear hstep
  have hlock : ∀ j, t.right.lock (.snapshot e (p.call.fingerprint cfg)) = some j → j = i := by
    intro j hj
    refine State.held_unique (s := t.right) (k := .snapshot e (p.call.fingerprint cfg)) hj ?_
    rw [hheld₁]
    exact .inr (List.mem_map_of_mem hcovers.own)
  -- the other `UPDATE`
  obtain ⟨u, hu⟩ := legacy_step_enabled now hloc₁ hrun rfl
    fun k hk => List.mem_singleton.mp hk ▸ hlock
  obtain ⟨hloc₂, hpending₂, -, hdb₂⟩ := legacy_step hloc₁ hrun rfl hu
  -- the commit
  obtain ⟨w, hw⟩ := legacy_step_enabled now hloc₂ hrun rfl
    fun k hk => absurd hk List.not_mem_nil
  obtain ⟨-, -, -, hdb₃⟩ := legacy_step hloc₂ hrun rfl hw
  have hpending : u.right.pending i = s.right.pending i ++ [.clearBaselines e fps] ++
      [.setBaseline e (p.call.fingerprint cfg)] := by
    rw [hpending₂, hpending₁]
    rfl
  have hrows : w.db.2.snapshots =
      promoteRows e fps (p.call.fingerprint cfg) s.db.2.snapshots := by
    rw [hdb₃, hdb₂, hdb₁]
    show (engine.applyAll (u.right.pending i) s.db.2).snapshots = _
    rw [hpending, snapshots_applyAll, List.filter_append, List.filter_append, hnone]
    rfl
  have hexec : exec (service cfg).step t [(i, .proceed now), (i, .proceed now)] = some w := by
    rw [exec, hu, Option.bind_some, exec, hw]
    rfl
  refine ⟨e, w, hexec, ?_⟩
  obtain ⟨own, hown, hfp⟩ := promote_active hrows hstored
  have hne : r.fingerprint ≠ p.call.fingerprint cfg := fun heq => hnot (heq ▸ hcovers.own)
  have hstays := promote_active_unselected hrows hactive hne hnot
  exact one_lt_length hstays hown (hfp ▸ hne)

end Runs

end Driftgate.Core
