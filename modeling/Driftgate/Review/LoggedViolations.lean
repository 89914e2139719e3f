import Driftgate.Core.TwoRegistries
import Driftgate.Review.Evidence

/-!
# Logged violations and the review

`log_drift_violations` stores the violations of a submission under the identifier of its row in
`api_endpoints`. A review asks for those of an endpoint by the identifier that `/track` has answered
and that the rest of the review works with: the one of the contract registry. No row has both, so a
review never finds a violation.
-/

namespace Driftgate.Review

open Driftgate.ReadCommitted Driftgate.Transition Driftgate.Runtime Driftgate.Schema Driftgate.Core

/-! ### The query -/

def severityName : Severity → String
  | .safe => "SAFE"
  | .risky => "RISKY"
  | .breaking => "BREAKING"

/-- The rows that `_fetch_drift_violations` selects, the latest first. -/
def driftViolations (db : EngineDb) (endpointId : Uuid) (limit : ℕ) : List ViolationRow :=
  ((db.violations.filter (·.endpointId = endpointId)).insertionSort
    fun a b => b.detectedAt ≤ a.detectedAt).take limit

/-- The item of a row. -/
def driftViolationItem (isoformat : Time → String) (index : ℕ) (row : ViolationRow) :
    EvidenceItem where
  citation := citation .driftViolation index
  kind := EvidenceKind.driftViolation.name
  summary := "severity=" ++ severityName row.severity ++ " fingerprint=" ++
    row.observedFingerprint ++ " path=" ++ row.diffPayload.1
  details :=
    [("id", .str (uuidText row.id)), ("observed_fingerprint", .str row.observedFingerprint),
      ("severity", .str (severityName row.severity)),
      ("diff_payload", .obj [("path", .str row.diffPayload.1),
        ("old", optionText row.diffPayload.2.1), ("new", optionText row.diffPayload.2.2)]),
      ("detected_at", .str (isoformat row.detectedAt))]

/-- `_fetch_drift_violations` -/
def fetchDriftViolations (isoformat : Time → String) (db : EngineDb) (endpointId : Uuid)
    (limit : ℕ) : List EvidenceItem :=
  ((driftViolations db endpointId limit).zipIdx 1).map fun e => driftViolationItem isoformat e.2 e.1

theorem mem_driftViolations {db : EngineDb} {e : Uuid} {limit : ℕ} {row : ViolationRow}
    (h : row ∈ driftViolations db e limit) : row ∈ db.violations ∧ row.endpointId = e := by
  obtain ⟨hmem, he⟩ :=
    List.mem_filter.mp ((List.perm_insertionSort _ _).mem_iff.mp (List.mem_of_mem_take h))
  exact ⟨hmem, of_decide_eq_true he⟩

/-! ### Logged violations are stored -/

theorem violations_applyAll {row : ViolationRow} {ws : List EngineWrite} {db : EngineDb} :
    row ∈ (engine.applyAll ws db).violations ↔ row ∈ db.violations ∨ .insertViolation row ∈ ws := by
  have hgain : ∀ w db, row ∈ (engine.apply w db).violations ↔
      row ∈ db.violations ∨ w = .insertViolation row := by
    intro w db
    cases w with
    | insertViolation row' =>
      show row ∈ db.violations ++ [row'] ↔ _
      simp only [List.mem_append, List.mem_singleton, EngineWrite.insertViolation.injEq, eq_comm]
    | _ =>
      simp only [reduceCtorEq, or_false]
      exact Iff.rfl
  refine (Program.applyAll_gain engine (fun db => row ∈ db.violations) hgain ws db).trans ?_
  simp only [exists_eq_right]

/-- The violations that a request has inserted in its open transaction. -/
def loggedAt : LegacyPc → List ViolationRow
  | .logViolation _ _ _ _ logged => logged
  | .commitViolations _ _ logged => logged
  | _ => []

theorem loggedAt_nextViolation (e : Uuid) (inserted : Bool) (logged : List ViolationRow)
    (rest : List DriftViolation) :
    loggedAt (LegacyCall.nextViolation e inserted logged rest) = logged := by
  cases rest <;> rfl

section Step

open LegacyCall

variable {cfg : Config} {call : LegacyCall} {pc : LegacyPc} {v : EngineView} {x : Input}
  {op : Op EngineWrite EngineLock Empty (Flow LegacyPc LegacyPart)} {db : EngineDb}
  {pending : List EngineWrite}

/-- What a step of a legacy part has logged is in its transaction, or has been committed. -/
theorem move_logged (db : EngineDb) (hop : call.Move cfg v pc x op)
    (h : ∀ row ∈ loggedAt pc, .insertViolation row ∈ pending) :
    (∀ pc', op.next = .go pc' → ∀ row ∈ loggedAt pc', .insertViolation row ∈ op.pendingAfter pending) ∧
      ∀ part, op.next = .done part → ∀ row ∈ part.logged,
        row ∈ (op.dbAfter engine.apply pending db).violations := by
  cases hop with
  | readBaseline e inserted =>
    have hcases : ∀ b, (∀ pc', call.afterBaseline cfg e inserted b = .go pc' → loggedAt pc' = []) ∧
        ∀ part, call.afterBaseline cfg e inserted b = .done part → part.logged = [] := by
      intro b
      cases b with
      | none =>
        cases inserted <;> refine ⟨fun pc' hgo => ?_, fun part hdone => ?_⟩
        · cases hgo
        · cases hdone
          rfl
        · cases hgo
          rfl
        · cases hdone
      | some baseline =>
        simp only [afterBaseline]
        split
        · refine ⟨fun pc' hgo => ?_, fun part hdone => ?_⟩
          · cases hgo
          · cases hdone
            rfl
        · refine ⟨fun pc' hgo => ?_, fun part hdone => ?_⟩
          · cases hgo
            exact loggedAt_nextViolation _ _ _ _
          · cases hdone
    obtain ⟨hgo, hdone⟩ := hcases (v.db.activeBaseline e)
    refine ⟨fun pc' hnext row hrow => ?_, fun part hnext row hrow => ?_⟩
    · rw [hgo pc' hnext] at hrow
      cases hrow
    · rw [hdone part hnext] at hrow
      cases hrow
  | @logViolation now e inserted d rest logged =>
    refine ⟨fun pc' hnext row hrow => ?_, fun part hnext => by cases hnext⟩
    cases hnext
    rw [loggedAt_nextViolation] at hrow
    obtain hrow | hrow := List.mem_append.mp hrow
    · exact List.mem_append_left _ (h row hrow)
    · rw [List.mem_singleton.mp hrow]
      exact List.mem_append_right _ (List.mem_singleton_self _)
  | commitViolations e inserted logged =>
    refine ⟨fun pc' hnext => (by cases hnext), fun part hnext row hrow => ?_⟩
    cases hnext
    exact violations_applyAll.mpr (.inr (h row hrow))
  | commitBaseline e =>
    refine ⟨fun pc' hnext => (by cases hnext), fun part hnext row hrow => ?_⟩
    cases hnext
    cases hrow
  | _ =>
    refine ⟨fun pc' hnext row hrow => ?_, fun part hnext => by cases hnext⟩
    cases hnext <;> cases hrow

end Step

/-- The violations a session has logged are in its transaction while it runs, and stored when it has
returned. -/
def sessionLogged (db : EngineDb) (pending : List EngineWrite) : Session → Prop
  | .runtime _ => True
  | .legacy p =>
    match p.status with
    | .running => ∀ row ∈ loggedAt p.pc, .insertViolation row ∈ pending
    | .returned part => ∀ row ∈ part.logged, row ∈ db.violations
    | _ => True

section Runs

variable {ι : Type*} [DecidableEq ι] {cfg : Config} {db : Db} {legacy : EngineDb} {fresh : Uuid}
  {s : Service ι}

theorem logged_stored {good : Service ι → ι × Input → Prop}
    (h : Run (service cfg).step good (ServiceInitial db legacy fresh) s) (i : ι) :
    sessionLogged s.db.2 (s.right.pending i) (s.loc i) := by
  refine (engine_noninterference (G := fun _ => True)
    (A := fun w o => sessionLogged w.db o.pending o.loc) ?_ ?_ ?_ h).2 i
  · intro s hs
    refine ⟨trivial, fun i => ?_⟩
    obtain ⟨p, hp, -⟩ := hs.starting i
    show sessionLogged _ _ (s.loc i)
    rw [hp]
    trivial
  · intro s i x op _ _ hA hop
    refine ⟨trivial, ?_⟩
    rw [Op.shared_db]
    have hold : sessionLogged s.db.2 (s.right.pending i) (s.loc i) := hA i
    have hpending : (s.right.own i).pending = s.right.pending i := rfl
    show sessionLogged _ (op.pendingAfter (s.right.own i).pending) op.next
    rw [hpending]
    generalize s.loc i = l at hop hold
    cases hop with
    | elsewhere p op =>
      rw [Op.next_map, Op.next_bare]
      obtain hp | ⟨q, r, -, -, hp⟩ := Session.resume_cases op.next
      · rw [hp]
        trivial
      · rw [hp]
        exact fun row hrow => absurd hrow List.not_mem_nil
    | stop p =>
      show sessionLogged s.db.2 [] (.legacy p.halt)
      simp only [sessionLogged, LegacyProc.halt] at hold ⊢
      cases hst : p.status with
      | returned part =>
        rw [hst] at hold
        exact hold
      | _ => trivial
    | publish p ok effect task => exact hold
    | close hclosing => trivial
    | @code x p op hrun hmove =>
      simp only [sessionLogged, hrun] at hold
      obtain ⟨hgo, hdone⟩ := move_logged s.db.2 hmove hold
      rw [Op.next_map, Op.pendingAfter_map, Op.dbAfter_map]
      cases hnext : op.next with
      | go pc' =>
        simp only [sessionLogged, LegacyProc.after, hrun]
        exact hgo pc' hnext
      | done part => exact hdone part hnext
      | raised e => trivial
  · intro s i j x op _ _ _ hA hop
    rw [Op.shared_db]
    have hold : sessionLogged s.db.2 (s.right.pending j) (s.loc j) := hA j
    show sessionLogged (op.dbAfter engine.apply (s.right.pending i) s.db.2) (s.right.pending j) (s.loc j)
    have hgrow : ∀ row ∈ s.db.2.violations,
        row ∈ (op.dbAfter engine.apply (s.right.pending i) s.db.2).violations := by
      intro row hrow
      cases op with
      | commit l => exact violations_applyAll.mpr (.inl hrow)
      | _ => exact hrow
    cases hp : s.loc j with
    | runtime p => trivial
    | legacy p =>
      rw [hp] at hold
      simp only [sessionLogged] at hold ⊢
      cases hst : p.status with
      | returned part =>
        rw [hst] at hold
        exact fun row hrow => hgrow row (hold row hrow)
      | running =>
        rw [hst] at hold
        exact hold
      | _ => trivial

/-- **Logged violations never reach the review.** A violation that an answered request has logged is
in the table, and a review of the endpoint of the answer finds none there. -/
theorem logged_violation_not_fetched (isoformat : Time → String) (hdb : Apart db legacy fresh)
    (h : Reachable (service cfg).step (ServiceInitial db legacy fresh) s) {i : ι} {p : LegacyProc}
    {part : LegacyPart} (hloc : s.loc i = .legacy p) (hstatus : p.status = .returned part)
    {row : ViolationRow} (hrow : row ∈ part.logged) :
    row ∈ s.db.2.violations ∧ ∀ limit, row ∉ driftViolations s.db.2
      (p.response part).result.endpointId limit ∧
      fetchDriftViolations isoformat s.db.2 (p.response part).result.endpointId limit = [] := by
  have hstored : row ∈ s.db.2.violations := by
    have hlogged := logged_stored h i
    rw [hloc] at hlogged
    simp only [sessionLogged, hstatus] at hlogged
    exact hlogged row hrow
  have hnone : ∀ row ∈ s.db.2.violations, row.endpointId ≠ p.result.endpointId := by
    intro row hrow heq
    refine endpoints_apart hdb h p.result.endpointId ⟨.inr ⟨i, .inr ?_⟩, .inl (.inr ⟨row, hrow, heq⟩)⟩
    rw [hloc]
    rfl
  have hempty : ∀ limit, driftViolations s.db.2 p.result.endpointId limit = [] := by
    intro limit
    refine List.eq_nil_iff_forall_not_mem.mpr fun row hrow => ?_
    obtain ⟨hmem, he⟩ := mem_driftViolations hrow
    exact hnone row hmem he
  refine ⟨hstored, fun limit => ?_⟩
  show row ∉ driftViolations s.db.2 p.result.endpointId limit ∧
    fetchDriftViolations isoformat s.db.2 p.result.endpointId limit = []
  rw [fetchDriftViolations, hempty]
  exact ⟨List.not_mem_nil, rfl⟩

end Runs

/-- What two submissions leave: what the second has logged, and what is found for its endpoint. -/
def loggedBy (s : Service ℕ) (i : ℕ) : Option (List ViolationRow × Uuid) :=
  match s.loc i with
  | .legacy p =>
    match p.status with
    | .returned part => some (part.logged, (p.response part).result.endpointId)
    | _ => none
  | .runtime _ => none

theorem loggedBy_some {s : Service ℕ} {i : ℕ} {logged : List ViolationRow} {e : Uuid}
    (h : loggedBy s i = some (logged, e)) : ∃ p part, s.loc i = .legacy p ∧
      p.status = .returned part ∧ part.logged = logged ∧ (p.response part).result.endpointId = e := by
  rw [loggedBy] at h
  cases hloc : s.loc i with
  | runtime p =>
    rw [hloc] at h
    cases h
  | legacy p =>
    rw [hloc] at h
    cases hst : p.status with
    | returned part =>
      simp only [hst, Option.some.injEq, Prod.mk.injEq] at h
      exact ⟨p, part, rfl, hst, h.1, h.2⟩
    | _ => simp only [hst, reduceCtorEq] at h

/-- A payload, and then the payload without one of its members. -/
def lostMember : Option (Service ℕ) :=
  exec (service (sampleConfig false)).step (sampleService [sampleOld, sampleNew])
    (goOn 0 18 ++ goOn 1 22)

theorem lostMember_logged : ∃ s p part row, lostMember = some s ∧ s.loc 1 = .legacy p ∧
    p.status = .returned part ∧ row ∈ part.logged ∧ row.severity = .breaking ∧
    driftViolations s.db.2 (p.response part).result.endpointId 1 = [] ∧
    s.db.2.violations.length = 1 := by
  have hrun : (lostMember.map fun s => ((loggedBy s 1).map fun l => (l.1.map (·.severity),
      (driftViolations s.db.2 l.2 1).length), s.db.2.violations.length)) =
        some (some ([.breaking], 0), 1) := by
    decide +kernel
  obtain ⟨s, hs, houtcome⟩ := Option.map_eq_some_iff.mp hrun
  obtain ⟨hlogged, hlength⟩ := Prod.mk.inj houtcome
  obtain ⟨⟨logged, e⟩, hl, hvalues⟩ := Option.map_eq_some_iff.mp hlogged
  obtain ⟨hseverity, hnone⟩ := Prod.mk.inj hvalues
  obtain ⟨p, part, hloc, hstatus, rfl, rfl⟩ := loggedBy_some hl
  obtain ⟨row, hrow, hbreaking⟩ :=
    List.mem_map.mp (hseverity ▸ List.mem_singleton_self Severity.breaking)
  exact ⟨s, p, part, row, hs, hloc, hstatus, hrow, hbreaking, List.length_eq_zero_iff.mp hnone,
    hlength⟩

/-- The second submission has lost a member: its violation is stored and not found. -/
theorem logged_violation_not_fetched_lost : ∃ (s : Service ℕ) (p : LegacyProc) (part : LegacyPart)
    (row : ViolationRow), s.loc 1 = .legacy p ∧ row ∈ part.logged ∧ row ∈ s.db.2.violations ∧
      ∀ limit, row ∉ driftViolations s.db.2 (p.response part).result.endpointId limit ∧
        fetchDriftViolations (fun _ => "") s.db.2 (p.response part).result.endpointId limit = [] := by
  obtain ⟨s, p, part, row, hs, hloc, hstatus, hrow, -⟩ := lostMember_logged
  have hempty : Apart {} {} 1 := by
    constructor <;> simp
  obtain ⟨hstored, hnone⟩ := logged_violation_not_fetched (fun _ => "") hempty
    (reachable_of_exec (sampleService_initial _) hs) hloc hstatus hrow
  exact ⟨s, p, part, row, hloc, hrow, hstored, hnone⟩

theorem logged_violation_missed : ¬∀ (s : Service ℕ) (i : ℕ) (p : LegacyProc) (part : LegacyPart),
    Reachable (service (sampleConfig false)).step (ServiceInitial {} {} 1) s →
      s.loc i = .legacy p → p.status = .returned part →
      ∀ limit, s.db.2.violations.length ≤ limit → ∀ row ∈ part.logged,
        row ∈ driftViolations s.db.2 (p.response part).result.endpointId limit := by
  intro h
  obtain ⟨s, p, part, row, hs, hloc, hstatus, hrow, -, hnone, hlength⟩ := lostMember_logged
  have hfound := h s 1 p part (reachable_of_exec (sampleService_initial _) hs) hloc hstatus 1
    (Nat.le_of_eq hlength) row hrow
  rw [hnone] at hfound
  cases hfound

end Driftgate.Review
