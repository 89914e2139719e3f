import Driftgate.Core.Submission
import Mathlib.Data.List.Infix

/-!
# Legacy parts side by side

What a request knows at each point of its legacy part, and what its open transaction has done to
`schema_snapshots`. A transaction that commits has done nothing to the table, has stored one
snapshot that the endpoint did not have, or has cleared the flags of some snapshots and set that of
its own (`Settled`); everything that a commit does to the table follows from these three cases.

Rows are never deleted, and their order is that of the commits: the fingerprints of an endpoint
after a commit begin with those before it. So the first of them never changes, and every clearing
`UPDATE` has it among its rows.
-/

namespace Driftgate.Core

open Driftgate.ReadCommitted Driftgate.Transition Driftgate.Runtime

/-! ### What a transaction has done to the snapshots -/

/-- Whether a write is to `schema_snapshots`. -/
def EngineWrite.onSnapshots : EngineWrite → Bool
  | .insertSnapshot _ => true
  | .clearBaselines _ _ => true
  | .setBaseline _ _ => true
  | _ => false

/-- The table after a write. -/
def EngineWrite.rowsAfter (w : EngineWrite) (rows : List SnapshotRow) : List SnapshotRow :=
  (w.apply { snapshots := rows }).snapshots

theorem snapshots_apply (w : EngineWrite) (db : EngineDb) :
    (w.apply db).snapshots = if w.onSnapshots then w.rowsAfter db.snapshots else db.snapshots := by
  cases w <;> rfl

/-- The table after a transaction. -/
theorem snapshots_applyAll (ws : List EngineWrite) (db : EngineDb) :
    (engine.applyAll ws db).snapshots =
      (ws.filter EngineWrite.onSnapshots).foldl (fun rows w => w.rowsAfter rows) db.snapshots := by
  induction ws generalizing db with
  | nil => rfl
  | cons w ws ih =>
    rw [Program.applyAll_cons, ih, show engine.apply w db = w.apply db from rfl, snapshots_apply]
    cases hw : w.onSnapshots with
    | true => rw [List.filter_cons_of_pos hw, List.foldl_cons, if_pos rfl]
    | false => rw [List.filter_cons_of_neg (by simp [hw]), if_neg (by simp)]

theorem snapshotsOf_congr {db db' : EngineDb} (h : db'.snapshots = db.snapshots) (e : Uuid) :
    db'.fingerprintsOf e = db.fingerprintsOf e ∧ db'.activeBaselines e = db.activeBaselines e := by
  simp only [EngineDb.fingerprintsOf, EngineDb.snapshotsOf, EngineDb.activeBaselines, h, and_self]

theorem hasSnapshot_iff {db : EngineDb} {e : Uuid} {fp : String} :
    db.hasSnapshot e fp = true ↔ fp ∈ db.fingerprintsOf e := by
  simp only [EngineDb.hasSnapshot, EngineDb.fingerprintsOf, EngineDb.snapshotsOf, List.any_eq_true,
    List.mem_map, List.mem_filter, Bool.and_eq_true, decide_eq_true_eq, and_assoc]

theorem mem_activeBaselines {db : EngineDb} {e : Uuid} {r : SnapshotRow} :
    r ∈ db.activeBaselines e ↔ r ∈ db.snapshots ∧ r.endpointId = e ∧ r.isActiveBaseline = true := by
  simp [EngineDb.activeBaselines]

/-- An active baseline is a snapshot of its endpoint. -/
theorem fingerprint_mem_of_active {db : EngineDb} {e : Uuid} {r : SnapshotRow}
    (h : r ∈ db.activeBaselines e) : r.fingerprint ∈ db.fingerprintsOf e := by
  obtain ⟨hr, he, -⟩ := mem_activeBaselines.mp h
  exact List.mem_map.mpr ⟨r, List.mem_filter.mpr ⟨hr, decide_eq_true he⟩, rfl⟩

/-- The rows that a clearing `UPDATE` of a request with fingerprint `fp` has selected: its own, and
the oldest of the endpoint. -/
structure Covers (db : EngineDb) (e : Uuid) (fp : String) (fps : List String) : Prop where
  own : fp ∈ fps
  first : ∃ f ∈ fps, (db.fingerprintsOf e).head? = some f

/-- All that a transaction can have done to the snapshots when it commits. -/
inductive Settled (db : EngineDb) (held : Set EngineLock) : List EngineWrite → Prop
  | nothing : Settled db held []
  | stored {row : SnapshotRow} (inactive : row.isActiveBaseline = false)
      (new : row.fingerprint ∉ db.fingerprintsOf row.endpointId)
      (lock : .snapshot row.endpointId row.fingerprint ∈ held) :
      Settled db held [.insertSnapshot row]
  | promoted {e : Uuid} {fp : String} {fps : List String} (stored : fp ∈ db.fingerprintsOf e)
      (covers : Covers db e fp fps) (lock : ∀ f ∈ fps, .snapshot e f ∈ held) :
      Settled db held [.clearBaselines e fps, .setBaseline e fp]

/-- What holds of a request at a point of its legacy part. `ws` are the writes of its open
transaction to the snapshots. -/
def LegacyPc.Holds (cfg : Config) (db : EngineDb) (held : Set EngineLock) (call : LegacyCall)
    (ws : List EngineWrite) : LegacyPc → Prop
  | .commitSnapshot e true =>
    ∃ row, ws = [.insertSnapshot row] ∧ row.endpointId = e ∧
      row.fingerprint = call.fingerprint cfg ∧ row.isActiveBaseline = false ∧
      call.fingerprint cfg ∉ db.fingerprintsOf e ∧ .snapshot e (call.fingerprint cfg) ∈ held
  | .readBaseline e inserted =>
    ws = [] ∧ (inserted = true → call.fingerprint cfg ∈ db.fingerprintsOf e)
  | .clearBaselines e => ws = [] ∧ call.fingerprint cfg ∈ db.fingerprintsOf e
  | .waitClear e fps =>
    ws = [] ∧ call.fingerprint cfg ∈ db.fingerprintsOf e ∧ Covers db e (call.fingerprint cfg) fps
  | .setBaseline e =>
    ∃ fps, ws = [.clearBaselines e fps] ∧ call.fingerprint cfg ∈ db.fingerprintsOf e ∧
      Covers db e (call.fingerprint cfg) fps ∧ ∀ f ∈ fps, .snapshot e f ∈ held
  | .commitBaseline e =>
    ∃ fps, ws = [.clearBaselines e fps, .setBaseline e (call.fingerprint cfg)] ∧
      call.fingerprint cfg ∈ db.fingerprintsOf e ∧ Covers db e (call.fingerprint cfg) fps ∧
      ∀ f ∈ fps, .snapshot e f ∈ held
  | _ => ws = []

/-- What holds of a session with open transaction `ws`. -/
def Session.Holds (cfg : Config) (db : EngineDb) (held : Set EngineLock) (ws : List EngineWrite) :
    Session → Prop
  | .runtime _ => ws = []
  | .legacy p => p.status = .running →
    p.pc.Holds cfg db held p.call (ws.filter EngineWrite.onSnapshots)

/-! ### What a commit does -/

section Commit

variable {db db' : EngineDb} {held : Set EngineLock} {ws : List EngineWrite} {e : Uuid} {fp : String}
  {fps : List String} {row : SnapshotRow}

/-- No snapshot is lost, and new ones come last. -/
def EngineDb.Grows (db db' : EngineDb) : Prop :=
  ∀ e, db.fingerprintsOf e <+: db'.fingerprintsOf e

theorem EngineDb.Grows.refl (db : EngineDb) : db.Grows db := fun _ => List.prefix_refl _

theorem EngineDb.Grows.mem (h : db.Grows db') (hfp : fp ∈ db.fingerprintsOf e) :
    fp ∈ db'.fingerprintsOf e :=
  (h e).subset hfp

theorem Covers.mono (h : db.Grows db') (hc : Covers db e fp fps) : Covers db' e fp fps := by
  obtain ⟨f, hf, hhead⟩ := hc.first
  refine ⟨hc.own, f, hf, ?_⟩
  obtain ⟨rest, hrest⟩ := h e
  rw [← hrest, List.head?_append, hhead, Option.some_or]

/-- All snapshots of the endpoint, if the own one is among them. -/
theorem Covers.all (h : fp ∈ db.fingerprintsOf e) : Covers db e fp (db.fingerprintsOf e) := by
  refine ⟨h, (db.fingerprintsOf e).head (List.ne_nil_of_mem h), List.head_mem _, ?_⟩
  exact List.head?_eq_some_head _

/-- A row that has its flag changed is still the same snapshot. -/
theorem fingerprints_updateWhere (p : SnapshotRow → Bool) (b : Bool) (rows : List SnapshotRow)
    (e : Uuid) :
    ((updateWhere p (fun r => { r with isActiveBaseline := b }) rows).filter
      (·.endpointId = e)).map (·.fingerprint) =
      (rows.filter (·.endpointId = e)).map (·.fingerprint) := by
  induction rows with
  | nil => rfl
  | cons r rows ih =>
    have hid : (if p r = true then { r with isActiveBaseline := b } else r).endpointId =
        r.endpointId ∧
        (if p r = true then { r with isActiveBaseline := b } else r).fingerprint =
          r.fingerprint := by
      split <;> exact ⟨rfl, rfl⟩
    rw [updateWhere] at ih ⊢
    rw [List.map_cons, List.filter_cons, List.filter_cons, hid.1]
    split
    · rw [List.map_cons, List.map_cons, hid.2, ih]
    · exact ih

theorem insertSnapshot_fingerprints (h : db'.snapshots = db.snapshots ++ [row]) (e : Uuid) :
    db'.fingerprintsOf e =
      db.fingerprintsOf e ++ if row.endpointId = e then [row.fingerprint] else [] := by
  rw [EngineDb.fingerprintsOf, EngineDb.snapshotsOf, h, List.filter_append, List.map_append]
  congr 1
  by_cases he : row.endpointId = e <;> simp [he]

theorem insertSnapshot_active (h : db'.snapshots = db.snapshots ++ [row])
    (hinactive : row.isActiveBaseline = false) (e : Uuid) :
    db'.activeBaselines e = db.activeBaselines e := by
  rw [EngineDb.activeBaselines, h, List.filter_append]
  simp [hinactive, EngineDb.activeBaselines]

/-- The two `UPDATE`s of a promotion. -/
def promoteRows (e : Uuid) (fps : List String) (fp : String) (rows : List SnapshotRow) :
    List SnapshotRow :=
  (EngineWrite.setBaseline e fp).rowsAfter ((EngineWrite.clearBaselines e fps).rowsAfter rows)

theorem promote_fingerprints (h : db'.snapshots = promoteRows e fps fp db.snapshots) (e' : Uuid) :
    db'.fingerprintsOf e' = db.fingerprintsOf e' := by
  rw [EngineDb.fingerprintsOf, EngineDb.snapshotsOf, h]
  show ((updateWhere _ _ (updateWhere _ _ db.snapshots)).filter _).map _ = _
  rw [fingerprints_updateWhere, fingerprints_updateWhere]
  rfl

/-- A snapshot after a promotion: the promoted one is active, the others that were selected are
not, and those that were not keep their flag. -/
def promoteRow (e : Uuid) (fps : List String) (fp : String) (r : SnapshotRow) : SnapshotRow :=
  { r with
    isActiveBaseline :=
      if r.endpointId = e ∧ r.fingerprint = fp then true
      else if r.endpointId = e ∧ r.fingerprint ∈ fps then false
      else r.isActiveBaseline }

theorem promoteRows_eq (rows : List SnapshotRow) :
    promoteRows e fps fp rows = rows.map (promoteRow e fps fp) := by
  show updateWhere _ _ (updateWhere _ _ rows) = _
  simp only [updateWhere, List.map_map]
  refine List.map_congr_left fun r _ => ?_
  obtain ⟨e', fp', schema, active, createdAt⟩ := r
  simp only [Function.comp_apply, promoteRow, Bool.and_eq_true, decide_eq_true_eq]
  by_cases he : e' = e
  · subst he
    by_cases hf : fp' = fp
    · subst hf
      by_cases hm : fp' ∈ fps <;> simp [hm]
    · by_cases hm : fp' ∈ fps <;> simp [hf, hm]
  · simp [he]

/-- The promoted snapshot is active afterwards. -/
theorem promote_active (h : db'.snapshots = promoteRows e fps fp db.snapshots)
    (hfp : fp ∈ db.fingerprintsOf e) : ∃ r ∈ db'.activeBaselines e, r.fingerprint = fp := by
  obtain ⟨r, hr, rfl⟩ := List.mem_map.mp hfp
  obtain ⟨hmem, he⟩ := List.mem_filter.mp hr
  have he : r.endpointId = e := of_decide_eq_true he
  refine ⟨{ r with isActiveBaseline := true }, mem_activeBaselines.mpr ⟨?_, he, rfl⟩, rfl⟩
  rw [h, promoteRows_eq]
  exact List.mem_map.mpr ⟨r, hmem, by simp [promoteRow, he]⟩

/-- So is any active baseline that was not selected. -/
theorem promote_active_unselected (h : db'.snapshots = promoteRows e fps fp db.snapshots)
    {r : SnapshotRow} (hr : r ∈ db.activeBaselines e) (hne : r.fingerprint ≠ fp)
    (hnot : r.fingerprint ∉ fps) : r ∈ db'.activeBaselines e := by
  obtain ⟨hmem, he, hactive⟩ := mem_activeBaselines.mp hr
  refine mem_activeBaselines.mpr ⟨?_, he, hactive⟩
  rw [h, promoteRows_eq]
  exact List.mem_map.mpr ⟨r, hmem, by simp [promoteRow, hne, hnot]⟩

/-- The snapshots of other endpoints stay as they are. -/
theorem promote_active_other (h : db'.snapshots = promoteRows e fps fp db.snapshots) {e' : Uuid}
    (he : e' ≠ e) {r : SnapshotRow} :
    r ∈ db'.activeBaselines e' ↔ r ∈ db.activeBaselines e' := by
  have hsame : ∀ r : SnapshotRow, r.endpointId = e' → promoteRow e fps fp r = r := by
    intro r hr
    have hne : r.endpointId ≠ e := hr ▸ he
    simp [promoteRow, hne]
  rw [mem_activeBaselines, mem_activeBaselines, h, promoteRows_eq, List.mem_map]
  constructor
  · rintro ⟨⟨r₀, hr₀, rfl⟩, hid, hactive⟩
    rw [hsame r₀ hid] at hactive ⊢
    exact ⟨hr₀, hid, hactive⟩
  · rintro ⟨hr, hid, hactive⟩
    exact ⟨⟨r, hr, hsame r hid⟩, hid, hactive⟩

/-- The table after the commit of a settled transaction. -/
theorem Settled.cases_rows (h : Settled db held (ws.filter EngineWrite.onSnapshots)) :
    (engine.applyAll ws db).snapshots = db.snapshots ∨
    (∃ row, row.isActiveBaseline = false ∧ row.fingerprint ∉ db.fingerprintsOf row.endpointId ∧
      .snapshot row.endpointId row.fingerprint ∈ held ∧
      (engine.applyAll ws db).snapshots = db.snapshots ++ [row]) ∨
    (∃ e fp fps, fp ∈ db.fingerprintsOf e ∧ Covers db e fp fps ∧ (∀ f ∈ fps, .snapshot e f ∈ held) ∧
      ws.filter EngineWrite.onSnapshots = [.clearBaselines e fps, .setBaseline e fp] ∧
      (engine.applyAll ws db).snapshots = promoteRows e fps fp db.snapshots) := by
  rw [snapshots_applyAll]
  generalize ws.filter EngineWrite.onSnapshots = sw at h ⊢
  cases h with
  | nothing => exact .inl rfl
  | @stored row inactive new lock => exact .inr (.inl ⟨row, inactive, new, lock, rfl⟩)
  | @promoted e fp fps stored covers lock =>
    exact .inr (.inr ⟨e, fp, fps, stored, covers, lock, rfl, rfl⟩)

theorem Settled.grows (h : Settled db held (ws.filter EngineWrite.onSnapshots)) :
    db.Grows (engine.applyAll ws db) := by
  intro e'
  obtain hrows | ⟨row, -, -, -, hrows⟩ | ⟨e, fp, fps, -, -, -, -, hrows⟩ := h.cases_rows
  · rw [(snapshotsOf_congr hrows e').1]
  · rw [insertSnapshot_fingerprints hrows]
    exact List.prefix_append _ _
  · rw [promote_fingerprints hrows]

/-- No endpoint has a fingerprint twice. -/
theorem Settled.nodup (h : Settled db held (ws.filter EngineWrite.onSnapshots))
    (hdb : ∀ e, (db.fingerprintsOf e).Nodup) (e' : Uuid) :
    ((engine.applyAll ws db).fingerprintsOf e').Nodup := by
  obtain hrows | ⟨row, -, hnew, -, hrows⟩ | ⟨e, fp, fps, -, -, -, -, hrows⟩ := h.cases_rows
  · rw [(snapshotsOf_congr hrows e').1]
    exact hdb e'
  · rw [insertSnapshot_fingerprints hrows]
    by_cases he : row.endpointId = e'
    · rw [if_pos he, List.nodup_append]
      refine ⟨hdb e', List.nodup_singleton _, ?_⟩
      rintro f hf f' hf' rfl
      rw [List.mem_singleton.mp hf', ← he] at hf
      exact hnew hf
    · rw [if_neg he, List.append_nil]
      exact hdb e'
  · rw [promote_fingerprints hrows]
    exact hdb e'

/-- A snapshot that a commit brings was locked by its transaction. -/
theorem Settled.new_locked (h : Settled db held (ws.filter EngineWrite.onSnapshots))
    (hfp : fp ∉ db.fingerprintsOf e) (hlock : .snapshot e fp ∉ held) :
    fp ∉ (engine.applyAll ws db).fingerprintsOf e := by
  obtain hrows | ⟨row, -, -, hrow, hrows⟩ | ⟨e₁, fp₁, fps, -, -, -, -, hrows⟩ := h.cases_rows
  · rwa [(snapshotsOf_congr hrows e).1]
  · rw [insertSnapshot_fingerprints hrows, List.mem_append]
    rintro (hmem | hmem)
    · exact hfp hmem
    · split at hmem
      next he =>
        rw [List.mem_singleton.mp hmem, ← he] at hlock
        exact hlock hrow
      next => cases hmem
  · rwa [promote_fingerprints hrows]

end Commit

/-! ### One step of a legacy part -/

section Step

open LegacyCall

variable {cfg : Config} {call : LegacyCall} {pc : LegacyPc} {v : EngineView} {x : Input}
  {op : Op EngineWrite EngineLock Empty (Flow LegacyPc LegacyPart)} {db : EngineDb}
  {held : Set EngineLock} {ws pending : List EngineWrite}

/-- A transaction that commits is settled. -/
theorem LegacyCall.Move.commit_settled (hop : call.Move cfg v pc x op)
    (h : pc.Holds cfg db held call ws) {f : Flow LegacyPc LegacyPart} (hc : op = .commit f) :
    Settled db held ws := by
  cases hop with
  | commitSnapshot e inserted =>
    cases inserted with
    | true =>
      obtain ⟨row, rfl, rfl, hfp, hinactive, hnew, hlock⟩ := h
      rw [← hfp] at hnew hlock
      exact .stored hinactive hnew hlock
    | false =>
      rw [show ws = [] from h]
      exact .nothing
  | commitBaseline e =>
    obtain ⟨fps, rfl, hstored, hcovers, hlock⟩ := h
    exact .promoted hstored hcovers hlock
  | commitViolations e inserted logged =>
    rw [show ws = [] from h]
    exact .nothing
  | _ => cases hc

/-- What a request knows survives its own step. -/
theorem LegacyCall.Move.holds (hop : call.Move cfg v pc x op)
    (hview : v.db = engine.applyAll pending db)
    (h : pc.Holds cfg db held call (pending.filter EngineWrite.onSnapshots)) {pc' : LegacyPc}
    (hnext : op.next = .go pc') :
    pc'.Holds cfg (op.dbAfter EngineWrite.apply pending db) (op.heldAfter held) call
      ((op.pendingAfter pending).filter EngineWrite.onSnapshots) := by
  -- a statement that leaves the snapshots alone sees those that are committed
  have hseen : pending.filter EngineWrite.onSnapshots = [] →
      ∀ e, v.db.fingerprintsOf e = db.fingerprintsOf e := by
    intro hnone e
    refine (snapshotsOf_congr ?_ e).1
    rw [hview, snapshots_applyAll, hnone]
    rfl
  -- a statement that writes elsewhere
  have hplain : ∀ {ws' : List EngineWrite}, ws'.filter EngineWrite.onSnapshots = [] →
      pending.filter EngineWrite.onSnapshots = [] →
      (pending ++ ws').filter EngineWrite.onSnapshots = [] := by
    intro ws' hws' hnone
    rw [List.filter_append, hws', hnone, List.append_nil]
  have hclear : ∀ {e : Uuid} {fps : List String}, pending.filter EngineWrite.onSnapshots = [] →
      call.fingerprint cfg ∈ db.fingerprintsOf e → Covers db e (call.fingerprint cfg) fps →
      (LegacyPc.setBaseline e).Holds cfg db (held ∪ {k | k ∈ fps.map (.snapshot e)}) call
        ((pending ++ [EngineWrite.clearBaselines e fps]).filter EngineWrite.onSnapshots) := by
    intro e fps hnone hstored hcovers
    refine ⟨fps, ?_, hstored, hcovers, fun f hf => .inr (List.mem_map_of_mem hf)⟩
    rw [List.filter_append, hnone]
    rfl
  cases hop with
  | raises => cases hnext
  | endpointTaken => cases hnext
  | snapshotTaken => cases hnext
  | commitBaseline => cases hnext
  | commitViolations => cases hnext
  | lock =>
    cases hnext
    exact hplain rfl h
  | endpointFound =>
    cases hnext
    exact hplain rfl h
  | endpointMissing =>
    cases hnext
    exact hplain rfl h
  | snapshotFound =>
    cases hnext
    exact hplain rfl h
  | snapshotMissing =>
    cases hnext
    exact hplain rfl h
  | endpointInserted =>
    cases hnext
    exact hplain rfl h
  | @logViolation now e inserted d rest logged =>
    have hws : (pending ++ [EngineWrite.insertViolation (newViolation v.fresh e now d)]).filter
        EngineWrite.onSnapshots = [] := hplain rfl h
    cases hnext
    cases rest <;> exact hws
  | @snapshotInserted now e hnew =>
    cases hnext
    have hfresh : call.fingerprint cfg ∉ db.fingerprintsOf e := by
      rw [← hseen h e, ← hasSnapshot_iff, hnew]
      exact Bool.false_ne_true
    refine ⟨call.newSnapshot cfg e now, ?_, rfl, rfl, rfl, hfresh, .inr (List.mem_singleton_self _)⟩
    show (pending ++ [_]).filter _ = _
    rw [List.filter_append, show pending.filter EngineWrite.onSnapshots = [] from h]
    rfl
  | commitSnapshot e inserted =>
    cases hnext
    refine ⟨rfl, fun htrue => ?_⟩
    subst htrue
    obtain ⟨row, hws, rfl, hfp, -⟩ := h
    have hrows : (engine.applyAll pending db).snapshots = db.snapshots ++ [row] := by
      rw [snapshots_applyAll, hws]
      rfl
    show _ ∈ (engine.applyAll pending db).fingerprintsOf row.endpointId
    rw [insertSnapshot_fingerprints hrows, if_pos rfl, hfp]
    exact List.mem_append_right _ (List.mem_singleton_self _)
  | readBaseline e inserted =>
    have hnext : call.afterBaseline cfg e inserted (v.db.activeBaseline e) = .go pc' := hnext
    have hws : (pending ++ []).filter EngineWrite.onSnapshots = [] := hplain rfl h.1
    cases hb : v.db.activeBaseline e with
    | none =>
      rw [hb] at hnext
      cases inserted with
      | true =>
        cases hnext
        exact ⟨hws, h.2 rfl⟩
      | false => cases hnext
    | some baseline =>
      rw [hb] at hnext
      simp only [LegacyCall.afterBaseline] at hnext
      split at hnext
      · cases hnext
      · cases hnext
        cases call.violations cfg e baseline <;> exact hws
  | waits e =>
    cases hnext
    refine ⟨hplain rfl h.1, h.2, ?_⟩
    rw [hseen h.1 e]
    exact .all h.2
  | clears e =>
    cases hnext
    refine hclear h.1 h.2 ?_
    rw [hseen h.1 e]
    exact .all h.2
  | clearsLate e fps =>
    cases hnext
    exact hclear h.1 h.2.1 h.2.2
  | setBaseline e =>
    cases hnext
    obtain ⟨fps, hws, hstored, hcovers, hlock⟩ := h
    refine ⟨fps, ?_, hstored, hcovers, fun f hf => .inl (hlock f hf)⟩
    show (pending ++ [_]).filter _ = _
    rw [List.filter_append, hws]
    rfl

end Step

/-! ### Runs -/

section Runs

variable {cfg : Config} {v : EngineView} {x : Input} {l : Session}
  {op : Op EngineWrite EngineLock Effect Session} {db : EngineDb} {held held' : Set EngineLock}
  {ws pending : List EngineWrite}

theorem Session.Move.commit_settled (hop : Session.Move cfg v l x op)
    (h : l.Holds cfg db held pending) {l' : Session} (hc : op = .commit l') :
    Settled db held (pending.filter EngineWrite.onSnapshots) := by
  cases hop with
  | elsewhere p op =>
    rw [show pending = [] from h]
    exact .nothing
  | @code x p op hrun hmove =>
    cases op with
    | commit f => exact hmove.commit_settled (h hrun) rfl
    | _ => cases hc
  | _ => cases hc

/-- Only a request that is running commits anything. -/
theorem Session.Move.commit_running (hop : Session.Move cfg v l x op)
    (h : l.Holds cfg db held pending) {l' : Session} (hc : op = .commit l') :
    pending = [] ∨ ∃ p, l = .legacy p ∧ p.status = .running := by
  cases hop with
  | elsewhere p op => exact .inl h
  | @code x p op hrun hmove => exact .inr ⟨p, rfl, hrun⟩
  | _ => cases hc

/-- The legacy tables after an operation: nothing has happened, or a settled transaction has been
committed. -/
theorem Session.Move.db_cases (hop : Session.Move cfg v l x op) (h : l.Holds cfg db held pending) :
    op.dbAfter engine.apply pending db = db ∨
      op.dbAfter engine.apply pending db = engine.applyAll pending db ∧
        Settled db held (pending.filter EngineWrite.onSnapshots) ∧
        (pending = [] ∨ ∃ p, l = .legacy p ∧ p.status = .running) := by
  cases op with
  | commit l' => exact .inr ⟨rfl, hop.commit_settled h rfl, hop.commit_running h rfl⟩
  | _ => exact .inl rfl

theorem Session.Move.holds (hop : Session.Move cfg v l x op)
    (hview : v.db = engine.applyAll pending db) (h : l.Holds cfg db held pending) :
    op.next.Holds cfg (op.dbAfter engine.apply pending db) (op.heldAfter held)
      (op.pendingAfter pending) := by
  cases hop with
  | elsewhere p op =>
    have hnone : pending = [] := h
    have hafter : ((op.bare : Op EngineWrite EngineLock Effect Party).map Session.resume
        id).pendingAfter pending = [] := by
      subst hnone
      cases op <;> rfl
    rw [hafter, Op.next_map, Op.next_bare]
    obtain hp | ⟨q, r, -, -, hp⟩ := Session.resume_cases op.next
    · rw [hp]
      rfl
    · rw [hp]
      exact fun _ => rfl
  | stop p =>
    intro hrun
    exfalso
    revert hrun
    show p.halt.status ≠ .running
    rw [LegacyProc.halt]
    cases p.status <;> exact LegacyStatus.noConfusion
  | publish p ok effect task => exact h
  | @code x p op hrun hmove =>
    simp only [Op.next_map, Op.dbAfter_map, Op.heldAfter_map, Op.pendingAfter_map]
    intro hafter
    cases hnext : op.next with
    | go pc' => exact hmove.holds hview (h hrun) hnext
    | done part =>
      rw [hnext] at hafter
      cases hafter
    | raised e =>
      rw [hnext] at hafter
      cases hafter
  | close hclosing => rintro ⟨⟩

/-- What a request knows survives the commit of another one. -/
theorem LegacyPc.Holds.other {pc : LegacyPc} {call : LegacyCall} (h : pc.Holds cfg db held call ws)
    (hs : Settled db held' (pending.filter EngineWrite.onSnapshots))
    (hlock : ∀ k ∈ held, k ∉ held') :
    pc.Holds cfg (engine.applyAll pending db) held call ws := by
  have hgrows := hs.grows
  cases pc with
  | commitSnapshot e inserted =>
    cases inserted with
    | true =>
      obtain ⟨row, hws, he, hfp, hinactive, hnew, hheld⟩ := h
      exact ⟨row, hws, he, hfp, hinactive, hs.new_locked hnew (hlock _ hheld), hheld⟩
    | false => exact h
  | readBaseline e inserted => exact ⟨h.1, fun hi => hgrows.mem (h.2 hi)⟩
  | clearBaselines e => exact ⟨h.1, hgrows.mem h.2⟩
  | waitClear e fps => exact ⟨h.1, hgrows.mem h.2.1, h.2.2.mono hgrows⟩
  | setBaseline e =>
    obtain ⟨fps, hws, hstored, hcovers, hheld⟩ := h
    exact ⟨fps, hws, hgrows.mem hstored, hcovers.mono hgrows, hheld⟩
  | commitBaseline e =>
    obtain ⟨fps, hws, hstored, hcovers, hheld⟩ := h
    exact ⟨fps, hws, hgrows.mem hstored, hcovers.mono hgrows, hheld⟩
  | _ => exact h

theorem Session.Holds.other (h : l.Holds cfg db held ws)
    (hs : Settled db held' (pending.filter EngineWrite.onSnapshots))
    (hlock : ∀ k ∈ held, k ∉ held') : l.Holds cfg (engine.applyAll pending db) held ws := by
  cases l with
  | runtime p => exact h
  | legacy p => exact fun hrun => (h hrun).other hs hlock

/-- Each snapshot is stored once. -/
def EngineDb.Unique (db : EngineDb) : Prop := ∀ e, (db.fingerprintsOf e).Nodup

variable {ι : Type*} [DecidableEq ι] {good : Service ι → ι × Input → Prop} {contract : Db}
  {fresh : Uuid} {s : Service ι}

/-- What holds along every run: each snapshot is stored once, and every request knows what its
place in the legacy part says. -/
theorem snapshots_run (hdb : db.Unique)
    (h : Run (service cfg).step good (ServiceInitial contract db fresh) s) :
    s.db.2.Unique ∧ ∀ i, (s.loc i).Holds cfg s.db.2 (s.right.own i).held (s.right.pending i) := by
  refine engine_noninterference (G := fun w => w.db.Unique)
    (A := fun w o => o.loc.Holds cfg w.db o.held o.pending) ?_ ?_ ?_ h
  · intro s hs
    refine ⟨?_, fun i => ?_⟩
    · show s.db.2.Unique
      rw [hs.db]
      exact hdb
    · obtain ⟨p, hp, -⟩ := hs.starting i
      show (s.loc i).Holds cfg _ _ (rightWrites (s.pending i))
      rw [hp, hs.pending i]
      rfl
  · intro s i x op _ hG hA hop
    refine ⟨?_, ?_⟩
    · rw [Op.shared_db]
      obtain hsame | ⟨hcommit, hs, -⟩ := hop.db_cases (hA i)
      · exact hsame.symm ▸ hG
      · exact hcommit.symm ▸ hs.nodup hG
    · rw [Op.shared_db]
      exact hop.holds rfl (hA i)
  · intro s i j x op hj _ _ hA hop
    rw [Op.shared_db]
    obtain hsame | ⟨hcommit, hs, -⟩ := hop.db_cases (hA i)
    · exact hsame.symm ▸ hA j
    · exact hcommit.symm ▸ (hA j).other hs fun k hk hk' => hj (State.held_unique hk hk')

end Runs

end Driftgate.Core
