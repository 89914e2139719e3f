import Driftgate.Runtime.RegistryRuns
import Driftgate.Runtime.Rows
import Driftgate.Runtime.StoredSchemas

/-!
# The rows of the version table

A request inserts its version with the label SAFE, compares it with the version before, and writes
the label of the comparison; only then can its transaction be committed. What a commit does to the
version table is therefore one of three things (`VersionsMove`): nothing, the first version of an
endpoint, or the next one with its final label. No transaction writes to a row that is committed,
except that it takes the flag of the current one.

So a committed row keeps everything but the flag, and every row has the label of its comparison. The
request compares what it has computed with what it reads back; comparing the two stored schemas
gives another label where a type is misread and nothing breaks.
-/

namespace Driftgate.Runtime

open Driftgate.ReadCommitted Driftgate.Transition Driftgate.Schema

/-! ### Writes to the table -/

/-- The version table after a write. -/
def Write.versions (rows : List VersionRow) (w : Write) : List VersionRow :=
  match w with
  | .insertVersion row => rows ++ [row]
  | .unsetCurrent id => updateWhere (·.id = id) (fun r => { r with isCurrent := false }) rows
  | .setClassification id c =>
    updateWhere (·.id = id) (fun r => { r with compatibilityClassification := c }) rows
  | _ => rows

/-- The writes of a transaction that the version table notices. -/
def versionWrites (ws : List Write) : List Write := ws.filter (·.table = .versions)

@[simp] theorem versionWrites_append (ws ws' : List Write) :
    versionWrites (ws ++ ws') = versionWrites ws ++ versionWrites ws' :=
  List.filter_append ..

@[simp] theorem versionWrites_nil : versionWrites [] = [] := rfl

theorem versionWrites_eq_nil {ws : List Write}
    (h : ∀ w ∈ ws, w.table = .outbox ∨ w.table = .attempts ∨ w.table = .dlq ∨
      w.table = .subscriptions) : versionWrites ws = [] := by
  refine List.filter_eq_nil_iff.mpr fun w hw => ?_
  rcases h w hw with h | h | h | h <;> simp [h]

/-- The version table after a transaction depends only on the writes it notices. -/
theorem versions_foldl (cfg : Config) (ws : List Write) (db : Db) :
    ((program cfg).applyAll ws db).versions =
      (versionWrites ws).foldl Write.versions db.versions := by
  rw [(program cfg).applyAll_project Db.versions Write.versions (fun w d => by cases w <;> rfl)]
  induction ws generalizing db with
  | nil => rfl
  | cons w ws ih =>
    rw [List.foldl_cons]
    by_cases hw : w.table = .versions
    · rw [versionWrites, List.filter_cons_of_pos (by simpa using hw), List.foldl_cons]
      exact ih { db with versions := Write.versions db.versions w }
    · have hsame : Write.versions db.versions w = db.versions := by
        cases w <;> simp_all [Write.table, Write.versions]
      rw [versionWrites, List.filter_cons_of_neg (by simpa using hw), hsame]
      exact ih db

/-! ### What never changes of a row -/

/-- A row without its flag and its label. -/
def VersionRow.fixed (r : VersionRow) : VersionRow :=
  { r with isCurrent := false, compatibilityClassification := "" }

/-- The row is stored, whatever its flag and its label are. -/
def Db.Stores (db : Db) (r : VersionRow) : Prop := ∃ x ∈ db.versions, x.fixed = r.fixed

theorem stores_applyAll (cfg : Config) (ws : List Write) (db : Db) (r : VersionRow) :
    ((program cfg).applyAll ws db).Stores r ↔
      db.Stores r ∨ ∃ row, .insertVersion row ∈ ws ∧ row.fixed = r.fixed :=
  versions_applyAll (·.fixed = r.fixed) (fun _ => Iff.rfl) (fun _ _ => Iff.rfl) cfg ws db

/-- A stored row, in a registry where identifiers are unique. -/
theorem Db.Stores.fixed_eq {db : Db} {fresh : Uuid} (hv : db.registry.Valid fresh)
    {r x : VersionRow} (h : db.Stores r) (hx : x ∈ db.versions) (hid : x.id = r.id) :
    x.fixed = r.fixed := by
  obtain ⟨y, hy, heq⟩ := h
  have hyid : y.id = r.id := (VersionRow.mk.inj heq).1
  rw [hv.version_unique hx hy (hid.trans hyid.symm), heq]

/-! ### What a transaction has written -/

section Writes

variable (cfg : Config) (db : Db)

/-- `row` is what a call inserts after the row `current`. -/
structure NewVersion (u : Upsert) (current : Option VersionRow) (row : VersionRow) : Prop where
  schema : row.canonicalSchema = u.canonicalSchema
  fingerprint : row.fingerprint = u.fingerprint
  label : row.compatibilityClassification = Compatibility.safe.name
  previous : row.previousVersionId = current.map (·.id)
  version : row.version = (current.map (·.version)).getD 0 + 1
  stored : ∀ c ∈ current,
    db.Stores c ∧ c.endpointId = row.endpointId ∧ c.fingerprint ≠ row.fingerprint

/-- `d` is the comparison of a new version with the row `c` before it. -/
structure Compares (call : TrackCall) (c : VersionRow) (d : Drift) : Prop where
  new : NewVersion db (call.upsert cfg) (some c) d.upserted.record
  oldVersion : d.oldVersion = c.version
  oldFingerprint : d.oldFingerprint = c.fingerprint
  diffs : diffAndClassify cfg.printable c.canonicalSchema call.canonicalSchema = .ok d.diffs

/-- The writes of a registration with the label of its comparison. -/
def labelled (c : VersionRow) (d : Drift) : List Write :=
  Registry.registration (some c) d.upserted.record.stored ++
    [.setClassification d.upserted.record.id d.classification.name]

/-- What `upsert_schema_version` has written of versions so far. -/
def UpsertPc.Writes (u : Upsert) (vw : List Write) : UpsertPc → Prop
  | .lookup e current => vw = [] ∧ ∀ c ∈ current, db.Stores c ∧ c.endpointId = e
  | .unsetCurrent e c =>
    vw = [] ∧ db.Stores c ∧ c.endpointId = e ∧ c.fingerprint ≠ u.fingerprint
  | .insertVersion e current => vw = Registry.retirement current ∧
      ∀ c ∈ current, db.Stores c ∧ c.endpointId = e ∧ c.fingerprint ≠ u.fingerprint
  | _ => vw = []

/-- What `upsert_schema_version` has written when it returns. -/
def Upserted.Writes (u : Upsert) (vw : List Write) (r : Upserted) : Prop :=
  (r.inserted = false ∧ vw = []) ∨ (r.inserted = true ∧ ∃ current,
    NewVersion db u current r.record ∧ vw = Registry.registration current r.record.stored)

/-- What a request has written of versions so far: from the label on its own row and no more, or
nothing that is not committed. -/
def TrackPc.Writes (call : TrackCall) (vw : List Write) : TrackPc → Prop
  | .upsert pc => pc.Writes db (call.upsert cfg) vw
  | .storeSnapshot u => u.Writes db (call.upsert cfg) vw
  | .selectPrior u id => ∃ c, c.id = id ∧ NewVersion db (call.upsert cfg) (some c) u.record ∧
      vw = Registry.registration (some c) u.record.stored
  | .storeDiff d => ∃ c, Compares cfg db call c d ∧
      vw = Registry.registration (some c) d.upserted.record.stored
  | .setClassification d => ∃ c, Compares cfg db call c d ∧
      vw = Registry.registration (some c) d.upserted.record.stored
  | .enqueue q _ => ∃ c, Compares cfg db call c q.drift ∧ (vw = [] ∨ vw = labelled c q.drift)
  | .commit (some n) _ => ∃ c, Compares cfg db call c n.enqueue.drift ∧
      (vw = [] ∨ vw = labelled c n.enqueue.drift)
  | .commit none _ => vw = [] ∨ ∃ row, NewVersion db (call.upsert cfg) none row ∧
      vw = [.insertVersion row.stored]

/-- What a request has written of versions, and what it knows when it has ended. -/
def TrackProc.Writes (p : TrackProc) (vw : List Write) : Prop :=
  (p.running = true → p.pc.Writes cfg db p.call vw) ∧ ∃ vw', p.pc.Writes cfg db p.call vw'

end Writes

/-! ### More committed rows -/

section Mono

variable {cfg : Config} {db db' : Db} {u : Upsert} {call : TrackCall} {vw : List Write}
  (hdb : ∀ r, db.Stores r → db'.Stores r)

include hdb

theorem NewVersion.mono {current : Option VersionRow} {row : VersionRow}
    (h : NewVersion db u current row) : NewVersion db' u current row :=
  { h with stored := fun c hc => (h.stored c hc).imp_left (hdb c) }

theorem Compares.mono {c : VersionRow} {d : Drift} (h : Compares cfg db call c d) :
    Compares cfg db' call c d :=
  { h with new := h.new.mono hdb }

theorem UpsertPc.Writes.mono {pc : UpsertPc} (h : pc.Writes db u vw) : pc.Writes db' u vw := by
  cases pc with
  | lookup e current => exact ⟨h.1, fun c hc => (h.2 c hc).imp_left (hdb c)⟩
  | unsetCurrent e c => exact ⟨h.1, hdb c h.2.1, h.2.2⟩
  | insertVersion e current => exact ⟨h.1, fun c hc => (h.2 c hc).imp_left (hdb c)⟩
  | _ => exact h

theorem TrackPc.Writes.mono {pc : TrackPc} (h : pc.Writes cfg db call vw) :
    pc.Writes cfg db' call vw := by
  cases pc with
  | upsert pc => exact UpsertPc.Writes.mono hdb h
  | storeSnapshot u =>
    exact h.imp_right fun ⟨hi, current, hnew, hvw⟩ => ⟨hi, current, hnew.mono hdb, hvw⟩
  | selectPrior u id =>
    obtain ⟨c, hid, hnew, hvw⟩ := h
    exact ⟨c, hid, hnew.mono hdb, hvw⟩
  | storeDiff d =>
    obtain ⟨c, hc, hvw⟩ := h
    exact ⟨c, hc.mono hdb, hvw⟩
  | setClassification d =>
    obtain ⟨c, hc, hvw⟩ := h
    exact ⟨c, hc.mono hdb, hvw⟩
  | enqueue q pc =>
    obtain ⟨c, hc, hvw⟩ := h
    exact ⟨c, hc.mono hdb, hvw⟩
  | commit notice r =>
    cases notice with
    | some n =>
      obtain ⟨c, hc, hvw⟩ := h
      exact ⟨c, hc.mono hdb, hvw⟩
    | none => exact h.imp_right fun ⟨row, hnew, hvw⟩ => ⟨row, hnew.mono hdb, hvw⟩

theorem TrackProc.Writes.mono {p : TrackProc} (h : p.Writes cfg db vw) : p.Writes cfg db' vw :=
  ⟨fun hr => TrackPc.Writes.mono hdb (h.1 hr), h.2.imp fun _ hvw => TrackPc.Writes.mono hdb hvw⟩

end Mono

/-! ### Steps of a request -/

section Steps

variable {cfg : Config} {db : Db} {vw : List Write}

/-- The current row that a request has read is no version of the new schema, if none was found. -/
theorem Db.Stores.fingerprint_ne {c : VersionRow} (h : db.Stores c) {e : Uuid} {fp : String}
    (he : c.endpointId = e) (hnone : db.versionOf e fp = none) : c.fingerprint ≠ fp := by
  obtain ⟨x, hx, heq⟩ := h
  have hfixed := VersionRow.mk.inj heq
  have hno := List.find?_eq_none.mp hnone x hx
  simp only [Bool.and_eq_true, decide_eq_true_eq, not_and] at hno
  have hxe : x.endpointId = e := hfixed.2.1.trans he
  have hxf : x.fingerprint = c.fingerprint := hfixed.2.2.2.1
  exact hxf ▸ hno hxe

theorem Db.stores_of_mem {r : VersionRow} (h : r ∈ db.versions) : db.Stores r := ⟨r, h, rfl⟩

/-- Every step of `upsert_schema_version` is a statement that keeps track of its writes. -/
theorem Upsert.step_writes {u : Upsert} {pc : UpsertPc} {v : DbView} {x : Input}
    {op : Op Write LockKey Empty (Flow UpsertPc Upserted)}
    (hview : v.db.versions = vw.foldl Write.versions db.versions) (h : pc.Writes db u vw)
    (hop : u.step cfg pc v x = some op) :
    ∃ ks new next, op = .exec ks new next ∧
      match next with
      | .go pc' => pc'.Writes db u (vw ++ versionWrites new)
      | .done r => r.Writes db u (vw ++ versionWrites new)
      | .raised _ => True := by
  obtain ⟨ks, new, next, rfl, hmove⟩ := step_move hop
  refine ⟨ks, new, next, rfl, ?_⟩
  cases hmove with
  | raises => trivial
  | endpointMissing => trivial
  | versionTaken => trivial
  | endpointTaken | endpointInserted | endpointFound | fastMissing | advisoryLock =>
    obtain rfl : vw = [] := h
    rfl
  | fastFound =>
    obtain rfl : vw = [] := h
    exact .inl ⟨rfl, rfl⟩
  | getCurrentSchema e =>
    obtain rfl : vw = [] := h
    refine ⟨rfl, fun c hc => ?_⟩
    obtain ⟨hmem, he, -⟩ := Db.currentSchema_some hc
    rw [hview] at hmem
    exact ⟨Db.stores_of_mem hmem, he⟩
  | found =>
    obtain ⟨rfl, -⟩ := h
    exact .inl ⟨rfl, rfl⟩
  | missing c hnone =>
    obtain ⟨rfl, hcurrent⟩ := h
    rw [Db.versionOf_congr (show _ = db.versions from hview)] at hnone
    obtain ⟨hc, he⟩ := hcurrent c rfl
    exact ⟨rfl, hc, he, hc.fingerprint_ne he hnone⟩
  | missingFirst =>
    obtain ⟨rfl, -⟩ := h
    exact ⟨rfl, by simp⟩
  | unsetCurrent e c =>
    obtain ⟨rfl, hc⟩ := h
    refine ⟨rfl, fun c' hc' => ?_⟩
    obtain rfl := Option.some.inj hc'
    exact hc
  | @versionInserted now e current hfree =>
    obtain ⟨rfl, hcurrent⟩ := h
    refine .inr ⟨rfl, current, ?_, rfl⟩
    exact {
      schema := rfl
      fingerprint := rfl
      label := rfl
      previous := rfl
      version := by cases current <;> rfl
      stored := hcurrent }

theorem TrackCall.afterSnapshot_writes {call : TrackCall} {u : Upserted}
    (h : u.Writes db (call.upsert cfg) vw) : (call.afterSnapshot cfg u).Writes cfg db call vw := by
  rcases h with ⟨hi, rfl⟩ | ⟨hi, current, hnew, rfl⟩
  · rw [afterSnapshot, hi]
    exact .inl rfl
  · rw [afterSnapshot, hi, hnew.previous]
    cases current with
    | some c => exact ⟨c, rfl, hnew, rfl⟩
    | none => exact .inr ⟨u.record, hnew, rfl⟩

theorem TrackCall.afterUpsert_writes {call : TrackCall} {u : Upserted}
    (h : u.Writes db (call.upsert cfg) vw) : (call.afterUpsert cfg u).Writes cfg db call vw := by
  rw [afterUpsert]
  split
  · exact h
  · exact afterSnapshot_writes h

/-- The row that is compared with is the one that was current. -/
theorem prior_fixed {fresh : Uuid} {ws : List Write} (hv : db.registry.Valid fresh)
    (hnew : ∀ row, .insertVersion row ∈ ws → ∀ x ∈ db.versions, x.id ≠ row.id)
    {c prior : VersionRow} (hc : db.Stores c)
    (hfind : ((program cfg).applyAll ws db).versions.find? (·.id = c.id) = some prior) :
    prior.fixed = c.fixed := by
  have hid : prior.id = c.id := by simpa using List.find?_some hfind
  obtain ⟨x, hx, heq⟩ | ⟨row, hrow, heq⟩ := (stores_applyAll cfg ws db prior).mp
    (Db.stores_of_mem (List.mem_of_find?_eq_some hfind))
  · rw [← heq]
    exact hc.fixed_eq hv hx ((VersionRow.mk.inj heq).1.trans hid)
  · obtain ⟨y, hy, hyc⟩ := hc
    have hrid : row.id = c.id := (VersionRow.mk.inj heq).1.trans hid
    exact absurd ((VersionRow.mk.inj hyc).1.trans hrid.symm) (hnew row hrow y hy)

/-- What a party can commit of versions: nothing, a first version, or a labelled one. -/
inductive Committable (cfg : Config) (db : Db) : List Write → Prop
  | nothing : Committable cfg db []
  | first {call : TrackCall} {row : VersionRow} : NewVersion db (call.upsert cfg) none row →
      Committable cfg db [.insertVersion row.stored]
  | next {call : TrackCall} {c : VersionRow} {d : Drift} : Compares cfg db call c d →
      Committable cfg db (labelled c d)

/-- After the comparison a request has no unlabelled version. -/
theorem Committable.of_drift {call : TrackCall} {d : Drift}
    (h : ∃ c, Compares cfg db call c d ∧ (vw = [] ∨ vw = labelled c d)) :
    Committable cfg db vw := by
  obtain ⟨c, hc, rfl | rfl⟩ := h
  · exact .nothing
  · exact .next hc

/-- **A step of a request's code.** It keeps track of what it has written of versions, and commits
no version without its label. -/
theorem TrackCall.step_writes {fresh : Uuid} {call : TrackCall} {pc : TrackPc} {v : DbView}
    {x : Input} {op : Op Write LockKey Effect (Flow TrackPc TrackResult)} {ws : List Write}
    (hv : db.registry.Valid fresh) (hview : v.db = (program cfg).applyAll ws db)
    (hnew : ∀ row, .insertVersion row ∈ ws → ∀ x ∈ db.versions, x.id ≠ row.id)
    (h : pc.Writes cfg db call (versionWrites ws)) (hop : call.step cfg pc v x = some op) :
    (∀ pc', op.next = .go pc' → pc'.Writes cfg db call (versionWrites (op.pendingAfter ws))) ∧
      ∀ f, op = .commit f → Committable cfg db (versionWrites ws) := by
  cases pc with
  | upsert pc =>
    obtain ⟨op', hop', rfl⟩ := Option.map_eq_some_iff.mp hop
    have hversions : v.db.versions = (versionWrites ws).foldl Write.versions db.versions := by
      rw [hview, versions_foldl]
    obtain ⟨ks, new, next, rfl, hnext⟩ := Upsert.step_writes hversions h hop'
    refine ⟨fun pc' hgo => ?_, by simp [Op.map]⟩
    simp only [Op.map, Op.pendingAfter, versionWrites_append]
    cases next with
    | go pc'' =>
      cases hgo
      exact hnext
    | done r =>
      cases hgo
      exact afterUpsert_writes hnext
    | raised e => cases hgo
  | storeSnapshot u =>
    cases x <;> simp only [step, reduceCtorEq, Option.some.injEq] at hop <;> subst hop <;>
      refine ⟨fun pc' hgo => ?_, by simp⟩ <;> cases hgo <;>
      simp only [Op.pendingAfter, List.append_nil] <;> exact afterSnapshot_writes h
  | selectPrior u id =>
    cases x with
    | proceed now =>
      obtain ⟨c, rfl, hc, hvw⟩ := h
      simp only [step] at hop
      split at hop
      · rename_i prior hfind
        obtain rfl := Option.some.inj hop
        refine ⟨fun pc' hgo => ?_, by simp⟩
        rw [hview] at hfind
        have hprior := VersionRow.mk.inj (prior_fixed hv hnew (hc.stored c rfl).1 hfind)
        obtain ⟨-, -, hversion, hfingerprint, hschema, -⟩ := hprior
        simp only [Op.next, afterPrior] at hgo
        simp only [Op.pendingAfter, List.append_nil]
        split at hgo
        · cases hgo
        · rename_i diffs hdiffs
          rw [hschema] at hdiffs
          have hcompares : Compares cfg db call c ⟨u, prior.version, prior.fingerprint, diffs⟩ :=
            ⟨hc, hversion, hfingerprint, hdiffs⟩
          split at hgo <;> cases hgo <;> exact ⟨c, hcompares, hvw⟩
      · obtain rfl := Option.some.inj hop
        exact ⟨fun pc' hgo => (by cases hgo), by simp⟩
    | raise reason =>
      obtain rfl := Option.some.inj hop
      exact ⟨fun pc' hgo => (by cases hgo), by simp⟩
    | _ => simp [step] at hop
  | storeDiff d =>
    cases x <;> simp only [step, reduceCtorEq, Option.some.injEq] at hop <;> subst hop <;>
      refine ⟨fun pc' hgo => ?_, by simp⟩ <;> cases hgo <;>
      simp only [Op.pendingAfter, List.append_nil] <;> exact h
  | setClassification d =>
    cases x with
    | proceed now =>
      obtain rfl := Option.some.inj hop
      obtain ⟨c, hc, hvw⟩ := h
      refine ⟨fun pc' hgo => ?_, by simp⟩
      cases hgo
      simp only [Op.pendingAfter, versionWrites_append, hvw]
      exact ⟨c, hc, .inr rfl⟩
    | raise reason =>
      obtain rfl := Option.some.inj hop
      exact ⟨fun pc' hgo => (by cases hgo), by simp⟩
    | _ => simp [step] at hop
  | enqueue q pc =>
    refine ⟨fun pc' hgo => ?_, fun _ _ => .of_drift h⟩
    obtain ⟨op', hop', rfl⟩ := Option.map_eq_some_iff.mp hop
    have hquiet : versionWrites op'.writes = [] := by
      refine versionWrites_eq_nil fun w hw => ?_
      rcases Enqueue.step_table hop' w hw with hw | hw | hw
      · exact .inl hw
      · exact .inr (.inl hw)
      · exact .inr (.inr (.inl hw))
    obtain ⟨c, hc, hvw⟩ := h
    have hafter : versionWrites (op'.pendingAfter ws) = [] ∨
        versionWrites (op'.pendingAfter ws) = labelled c q.drift := by
      cases op' with
      | exec ks new next =>
        have hquiet : versionWrites new = [] := hquiet
        simpa only [Op.pendingAfter, versionWrites_append, hquiet, List.append_nil] using hvw
      | emit e next => exact hvw
      | commit next => exact .inl rfl
      | rollback next => exact .inl rfl
    rw [Op.pendingAfter_map]
    rw [Op.next_map] at hgo
    cases hn : op'.next with
    | go pc'' =>
      rw [hn] at hgo
      cases hgo
      exact ⟨c, hc, hafter⟩
    | done affected =>
      rw [hn] at hgo
      cases hgo
      exact ⟨c, hc, hafter⟩
    | raised e =>
      rw [hn] at hgo
      cases hgo
  | commit notice r =>
    cases x <;> simp only [step, reduceCtorEq, Option.some.injEq] at hop <;> subst hop
    · refine ⟨fun pc' hgo => (by cases hgo), fun _ _ => ?_⟩
      cases notice with
      | some n => exact .of_drift h
      | none =>
        obtain hvw | ⟨row, hrow, hvw⟩ := h
        · exact hvw ▸ .nothing
        · exact hvw ▸ .first hrow
    · exact ⟨fun pc' hgo => (by cases hgo), by simp⟩

/-- What a party has written of versions. Only requests write any. -/
def Party.Writes (cfg : Config) (db : Db) (vw : List Write) : Party → Prop
  | .track p => p.Writes cfg db vw
  | _ => vw = []

/-- A party that is not a request. -/
theorem Party.step_writes_of_quiet {ws : List Write} {op : Op Write LockKey Effect Party}
    (h : versionWrites ws = []) (hw : versionWrites op.writes = [])
    (hnext : ∀ p, op.next ≠ .track p) :
    op.next.Writes cfg db (versionWrites (op.pendingAfter ws)) ∧
      ∀ f, op = .commit f → Committable cfg db (versionWrites ws) := by
  refine ⟨?_, fun _ _ => h ▸ .nothing⟩
  have hafter : versionWrites (op.pendingAfter ws) = [] := by
    cases op with
    | exec ks new next =>
      have hw : versionWrites new = [] := hw
      rw [Op.pendingAfter, versionWrites_append, h, hw, List.append_nil]
    | emit e next => exact h
    | _ => rfl
  cases hp : op.next with
  | track p => exact absurd hp (hnext p)
  | _ => exact hafter

/-- **A step of a party.** -/
theorem Party.step_writes {fresh : Uuid} {p : Party} {v : DbView} {x : Input}
    {op : Op Write LockKey Effect Party} {ws : List Write}
    (hv : db.registry.Valid fresh) (hview : v.db = (program cfg).applyAll ws db)
    (hnew : p.running = true →
      ∀ row, .insertVersion row ∈ ws → ∀ x ∈ db.versions, x.id ≠ row.id)
    (h : p.Writes cfg db (versionWrites ws)) (hop : p.next cfg v x = some op) :
    op.next.Writes cfg db (versionWrites (op.pendingAfter ws)) ∧
      ∀ f, op = .commit f → Committable cfg db (versionWrites ws) := by
  cases p with
  | track p =>
    obtain ⟨op', hop', rfl⟩ := Option.map_eq_some_iff.mp hop
    rcases TrackProc.next_cases hop' with ⟨-, rfl⟩ | ⟨ok, t, -, -, rfl⟩ | ⟨op, hst, hcode, rfl⟩ |
      ⟨e, hst, rfl⟩
    · refine ⟨⟨fun hr => ?_, h.2⟩, by simp [Op.map]⟩
      obtain ⟨call, pc, status, task⟩ := p
      cases status <;> cases hr
    · exact ⟨h, by simp [Op.map]⟩
    · have hrun : p.running = true := by simp [TrackProc.running, hst]
      obtain ⟨hgo, hcommit⟩ := TrackCall.step_writes hv hview (hnew hrun) (h.1 hrun) hcode
      rw [Op.pendingAfter_map, Op.pendingAfter_map, Op.next_map, Op.next_map]
      refine ⟨?_, fun f hf => ?_⟩
      · cases hn : op.next with
        | go pc' => exact ⟨fun _ => hgo pc' hn, _, hgo pc' hn⟩
        | done r => exact ⟨fun hr => (by cases hr), h.2⟩
        | raised e => exact ⟨fun hr => (by cases hr), h.2⟩
      · cases op with
        | commit f' => exact hcommit f' rfl
        | _ => cases hf
    · exact ⟨⟨fun hr => (by cases hr), h.2⟩, by simp [Op.map]⟩
  | worker pc =>
    obtain ⟨op', hop', rfl⟩ := Option.map_eq_some_iff.mp hop
    refine Party.step_writes_of_quiet h ?_ (by simp)
    rw [Op.writes_map]
    refine versionWrites_eq_nil fun w hw => ?_
    rcases WorkerPc.step_table hop' w hw with hw | hw | hw
    · exact .inl hw
    · exact .inr (.inl hw)
    · exact .inr (.inr (.inl hw))
  | subscription call pc =>
    obtain ⟨op', hop', rfl⟩ := Option.map_eq_some_iff.mp hop
    refine Party.step_writes_of_quiet h ?_ ?_
    · rw [Op.writes_map]
      exact versionWrites_eq_nil fun w hw =>
        .inr (.inr (.inr (SubscriptionCall.step_table hop' w hw)))
    · intro p
      rw [Op.next_map]
      cases op'.next <;> simp [subscribing]
  | finished =>
    cases x <;> simp only [next, reduceCtorEq, Option.some.injEq] at hop
    subst hop
    exact Party.step_writes_of_quiet h rfl (by simp [Op.next])

end Steps

/-- Only a running request commits versions. -/
theorem Party.running_of_commit {cfg : Config} {db : Db} {p : Party} {v : DbView} {x : Input}
    {f : Party} {vw : List Write}
    (h : p.Writes cfg db vw) (hop : p.next cfg v x = some (.commit f)) :
    p.running = true ∨ vw = [] := by
  cases p with
  | track p =>
    obtain ⟨op', hop', hmap⟩ := Option.map_eq_some_iff.mp hop
    rcases TrackProc.next_cases hop' with ⟨-, rfl⟩ | ⟨ok, t, -, -, rfl⟩ | ⟨op, hst, -, rfl⟩ |
      ⟨e, -, rfl⟩
    · cases hmap
    · cases hmap
    · exact .inl (by simp [running, TrackProc.running, hst])
    · cases hmap
  | _ => exact .inr h

/-! ### Identifiers of new rows -/

section Ids

variable {cfg : Config} {reg : Registry} {fresh : Uuid} {held : Set LockKey} {key : EndpointKey}
  {ws : List Write} {row : VersionRow}

theorem EndpointOf.not_insertVersion {e : Uuid} (h : EndpointOf reg fresh held key e ws) :
    .insertVersion row ∉ ws := by
  cases h <;> simp

theorem Registry.not_insertVersion_retirement (current : Option VersionRow) :
    .insertVersion row ∉ Registry.retirement current := by
  cases current <;> simp [Registry.retirement]

/-- The row of an open registration has a new identifier. -/
theorem Settled.new_id (h : Settled cfg reg fresh held key ws) (hrow : .insertVersion row ∈ ws) :
    ∀ x ∈ reg.entries, x.2.id ≠ row.id := by
  rcases h with rfl | ⟨e, h⟩ | h
  · cases hrow
  · exact absurd hrow h.not_insertVersion
  · obtain ⟨endpoint, lead, hfp, hlink, he, hlt, hnew, hlock⟩ := h
    rw [Registry.registration, List.mem_append, List.mem_append, List.mem_singleton] at hrow
    rcases hrow with hrow | hrow | hrow
    · exact absurd hrow endpoint.not_insertVersion
    · exact absurd hrow (Registry.not_insertVersion_retirement _)
    · cases hrow
      exact hnew

theorem TrackPc.Holds.new_id {call : TrackCall} {pc : TrackPc}
    (h : pc.Holds cfg reg fresh held call ws) (hrow : .insertVersion row ∈ ws) :
    ∀ x ∈ reg.entries, x.2.id ≠ row.id := by
  have hnotice : .insertVersion row ∈ ws.filter Registry.notices :=
    List.mem_filter.mpr ⟨hrow, rfl⟩
  cases pc with
  | upsert pc =>
    exfalso
    have hep : ∀ {e : Uuid}, ¬EndpointOf reg fresh held (call.upsert cfg).key e ws :=
      fun h => h.not_insertVersion hrow
    cases pc with
    | insertEndpoint =>
      obtain rfl : ws = [] := h
      cases hrow
    | selectEndpoint =>
      obtain rfl : ws = [] := h
      cases hrow
    | fastLookup e => exact hep h
    | advisoryLock e => exact hep h
    | getCurrentSchema e => exact hep h.1
    | lookup e current => exact hep h.1
    | unsetCurrent e c => exact hep h.1
    | insertVersion e current =>
      obtain ⟨ep, rfl, h, -⟩ := h
      rcases List.mem_append.mp hrow with hrow | hrow
      · exact h.not_insertVersion hrow
      · exact Registry.not_insertVersion_retirement _ hrow
  | _ => exact Settled.new_id h hnotice

/-- The version row that a running request has inserted is not committed. -/
theorem Party.Holds.new_id {db : Db} {p : Party} (h : p.Holds cfg db.registry fresh held ws)
    (hrun : p.running = true) (hrow : .insertVersion row ∈ ws) :
    ∀ x ∈ db.versions, x.id ≠ row.id := by
  intro x hx
  cases p with
  | track p =>
    obtain ⟨call, pc, status, task⟩ := p
    cases status with
    | running => exact TrackPc.Holds.new_id h hrow (x.endpointId, x.link) (List.mem_map_of_mem hx)
    | _ => cases hrun
  | _ => cases hrun

end Ids

/-! ### Rows of a valid registry -/

section Valid

open Driftgate.VersionLog

variable {db : Db} {fresh : Uuid} {r r' : VersionRow}

theorem Registry.Valid.mem_links (hv : db.registry.Valid fresh) (hr : r ∈ db.versions) :
    ∃ log, (log.map Prod.snd).Nodup ∧ db.registry.chain r.endpointId = links log ∧
      r.link ∈ links log := by
  obtain ⟨log, hnodup, hlog⟩ := hv.chain r.endpointId
  exact ⟨log, hnodup, hlog,
    hlog ▸ Registry.mem_chain.mpr (List.mem_map.mpr ⟨r, hr, rfl⟩)⟩

/-- Versions are numbered from 1. -/
theorem Registry.Valid.one_le_version (hv : db.registry.Valid fresh) (hr : r ∈ db.versions) :
    1 ≤ r.version := by
  obtain ⟨log, -, -, hmem⟩ := hv.mem_links hr
  obtain ⟨j, x, -, hlink⟩ := VersionLog.mem_links hmem
  have hversion : r.version = j + 1 := congrArg Link.version hlink
  omega

/-- A fingerprint is stored once for an endpoint. -/
theorem Registry.Valid.fingerprint_unique (hv : db.registry.Valid fresh) (hr : r ∈ db.versions)
    (hr' : r' ∈ db.versions) (he : r'.endpointId = r.endpointId)
    (hfp : r'.fingerprint = r.fingerprint) : r' = r := by
  obtain ⟨log, hnodup, hlog, hmem⟩ := hv.mem_links hr
  have hmem' : r'.link ∈ links log := by
    rw [← hlog, Registry.mem_chain]
    exact List.mem_map.mpr ⟨r', hr', by rw [he]⟩
  have hmarks : ((links log).map Link.mark).Nodup := by
    rw [show (links log).map Link.mark = log.map Prod.snd from linksFrom_marks _ _ _]
    exact hnodup
  have hlink : r'.link = r.link := List.inj_on_of_nodup_map hmarks hmem' hmem hfp
  exact hv.version_unique hr' hr (congrArg Link.id hlink)

/-- A version number is used once for an endpoint. -/
theorem Registry.Valid.number_unique (hv : db.registry.Valid fresh) (hr : r ∈ db.versions)
    (hr' : r' ∈ db.versions) (he : r'.endpointId = r.endpointId)
    (hversion : r'.version = r.version) : r' = r := by
  obtain ⟨log, -, hlog, hmem⟩ := hv.mem_links hr
  have hmem' : r'.link ∈ links log := by
    rw [← hlog, Registry.mem_chain]
    exact List.mem_map.mpr ⟨r', hr', by rw [he]⟩
  have hnumbers : ((links log).map Link.version).Nodup := by
    rw [show (links log).map Link.version = List.range' 1 log.length from linksFrom_versions _ _ _]
    exact List.nodup_range'
  have hlink : r'.link = r.link := List.inj_on_of_nodup_map hnumbers hmem' hmem hversion
  exact hv.version_unique hr' hr (congrArg Link.id hlink)

end Valid

/-! ### What a step does to the table -/

/-- A row is what an earlier row has become: at most the flag is gone. -/
def VersionRow.Retains (r r' : VersionRow) : Prop :=
  r' = { r with isCurrent := r'.isCurrent } ∧ (r'.isCurrent = true → r.isCurrent = true)

theorem VersionRow.Retains.refl (r : VersionRow) : r.Retains r := ⟨rfl, fun h => h⟩

theorem VersionRow.Retains.trans {r r' r'' : VersionRow} (h : r.Retains r') (h' : r'.Retains r'') :
    r.Retains r'' := by
  refine ⟨?_, fun hc => h.2 (h'.2 hc)⟩
  rw [h'.1, h.1]

theorem VersionRow.Retains.fixed_eq {r r' : VersionRow} (h : r.Retains r') : r'.fixed = r.fixed := by
  rw [h.1]
  rfl

/-- The label of a row is SAFE, or that of comparing its schema, which was not stored then, with the
version before. -/
structure VersionRow.Labelled (cfg : Config) (rows : List VersionRow) (r : VersionRow) : Prop where
  first : r.version = 1 → r.compatibilityClassification = Compatibility.safe.name
  next : ∀ k, 1 ≤ k → r.version = k + 1 → ∃ c ∈ rows, c.endpointId = r.endpointId ∧ c.version = k ∧
    ∃ p : Payload, r.canonicalSchema = jsonb (canonicalize p.json) ∧
      ∃ diffs, diffAndClassify cfg.printable c.canonicalSchema (canonicalize p.json) = .ok diffs ∧
        r.compatibilityClassification = (summarizeClassification diffs).name

/-- The row has the stored schema of a payload, and the fingerprint of the payload. -/
structure VersionRow.Describes (cfg : Config) (r : VersionRow) (p : Payload) : Prop where
  fingerprint : r.fingerprint = cfg.fingerprint (canonicalize p.json)
  schema : r.canonicalSchema = jsonb (canonicalize p.json)

/-- What a request inserts describes its payload. -/
theorem NewVersion.describes {cfg : Config} {db : Db} {call : TrackCall}
    {current : Option VersionRow} {row : VersionRow}
    (h : NewVersion db (call.upsert cfg) current row) : row.stored.Describes cfg call.payload :=
  ⟨h.fingerprint, congrArg jsonb h.schema⟩

/-- What one step can do to the version table. -/
inductive VersionsMove (cfg : Config) (rows : List VersionRow) : List VersionRow → Prop
  | same : VersionsMove cfg rows rows
  | append (retired : Uuid → Bool) {row : VersionRow} (new : ∀ x ∈ rows, x.id ≠ row.id)
      (labelled : row.Labelled cfg rows) (payload : ∃ p, row.Describes cfg p) :
      VersionsMove cfg rows
        (updateWhere (fun r => retired r.id) (fun r => { r with isCurrent := false }) rows ++ [row])

theorem updateWhere_eq_self {α : Type*} {q : α → Bool} {f : α → α} {rows : List α}
    (h : ∀ r ∈ rows, q r = false) : updateWhere q f rows = rows := by
  refine (List.map_congr_left fun r hr => ?_).trans (List.map_id rows)
  simp [h r hr]

theorem updateWhere_append {α : Type*} (q : α → Bool) (f : α → α) (rows rows' : List α) :
    updateWhere q f (rows ++ rows') = updateWhere q f rows ++ updateWhere q f rows' :=
  List.map_append

/-- A registration with its label takes the flag of the row before and adds the labelled row. -/
theorem foldl_labelled {rows : List VersionRow} {c : VersionRow} {d : Drift}
    (hnew : ∀ x ∈ rows, x.id ≠ d.upserted.record.id) :
    (labelled c d).foldl Write.versions rows =
      updateWhere (fun r => decide (r.id = c.id)) (fun r => { r with isCurrent := false }) rows ++
        [{ d.upserted.record.stored with
          compatibilityClassification := d.classification.name }] := by
  let label : VersionRow → VersionRow :=
    fun r => { r with compatibilityClassification := d.classification.name }
  let rows' :=
    updateWhere (fun r => decide (r.id = c.id)) (fun r => { r with isCurrent := false }) rows
  have hother : ∀ r ∈ rows', decide (r.id = d.upserted.record.id) = false := by
    intro r hr
    obtain ⟨y, hy, rfl⟩ := List.mem_map.mp hr
    have hid : (if decide (y.id = c.id) = true then { y with isCurrent := false } else y).id =
        y.id := by split <;> rfl
    rw [hid]
    simpa using hnew y hy
  calc (labelled c d).foldl Write.versions rows
      = updateWhere (fun r => decide (r.id = d.upserted.record.id)) label
          (rows' ++ [d.upserted.record.stored]) := rfl
    _ = rows' ++ [label d.upserted.record.stored] := by
        rw [updateWhere_append, updateWhere_eq_self hother]
        simp [updateWhere]

/-- **A commit of versions.** -/
theorem Committable.move {cfg : Config} {db : Db} {fresh : Uuid} {vw : List Write}
    (h : Committable cfg db vw) (hv : db.registry.Valid fresh)
    (hnew : ∀ row, .insertVersion row ∈ vw → ∀ x ∈ db.versions, x.id ≠ row.id) :
    VersionsMove cfg db.versions (vw.foldl Write.versions db.versions) := by
  cases h with
  | nothing => exact .same
  | @first call row hrow =>
    have hmove : VersionsMove cfg db.versions _ := .append (fun _ => false)
      (hnew row.stored (List.mem_singleton_self _))
      ⟨fun _ => hrow.label, fun k hk hversion => ?_⟩ ⟨call.payload, hrow.describes⟩
    · rwa [updateWhere_eq_self fun _ _ => rfl] at hmove
    · rw [VersionRow.stored_version, hrow.version] at hversion
      simp at hversion
      omega
  | @next call c d hd =>
    obtain ⟨⟨x, hx, heq⟩, he, -⟩ := hd.new.stored c rfl
    have hnew := hnew d.upserted.record.stored (by simp [labelled, Registry.registration])
    obtain ⟨-, hxe, hxv, -, hxs, -⟩ := VersionRow.mk.inj heq
    rw [foldl_labelled hnew]
    refine .append (fun id => decide (id = c.id)) hnew ⟨fun hone => ?_, fun k _ hk => ?_⟩
      ⟨call.payload, hd.new.describes.fingerprint, hd.new.describes.schema⟩
    · have hpos := hv.one_le_version hx
      have hversion : d.upserted.record.version = c.version + 1 := hd.new.version
      have hone : d.upserted.record.version = 1 := hone
      omega
    · have hversion : d.upserted.record.version = c.version + 1 := hd.new.version
      have hk : d.upserted.record.version = k + 1 := hk
      refine ⟨x, hx, hxe.trans he, by omega, call.payload, hd.new.describes.schema, d.diffs, ?_,
        rfl⟩
      rw [hxs]
      exact hd.diffs

/-- Committed rows stay, and lose at most their flag. -/
theorem VersionsMove.retains {cfg : Config} {rows rows' : List VersionRow}
    (h : VersionsMove cfg rows rows') {r : VersionRow} (hr : r ∈ rows) :
    ∃ r' ∈ rows', r.Retains r' := by
  cases h with
  | same => exact ⟨r, hr, .refl r⟩
  | @append retired row _ _ _ =>
    refine ⟨_, List.mem_append_left _ (List.mem_map_of_mem hr), ?_⟩
    by_cases hid : retired r.id = true
    · rw [if_pos hid]
      exact ⟨rfl, fun h => by cases h⟩
    · rw [if_neg hid]
      exact .refl r

/-- Every row of the new table is an old one, or new and labelled. -/
theorem VersionsMove.cases {cfg : Config} {rows rows' : List VersionRow}
    (h : VersionsMove cfg rows rows') {r' : VersionRow} (hr' : r' ∈ rows') :
    (∃ r ∈ rows, r.Retains r') ∨
      (r'.Labelled cfg rows ∧ ∃ p, r'.Describes cfg p) := by
  cases h with
  | same => exact .inl ⟨r', hr', .refl r'⟩
  | append _ _ hlabel hpayload =>
    rcases List.mem_append.mp hr' with hr' | hr'
    · obtain ⟨r, hr, rfl⟩ := List.mem_map.mp hr'
      refine .inl ⟨r, hr, ?_⟩
      split
      · exact ⟨rfl, fun h => by cases h⟩
      · exact .refl r
    · rw [List.mem_singleton.mp hr']
      exact .inr ⟨hlabel, hpayload⟩

/-- A label stays that of the comparison as the table grows. -/
theorem VersionRow.Labelled.retains {cfg : Config} {rows rows' : List VersionRow}
    {r r' : VersionRow} (h : r.Labelled cfg rows) (hr : r.Retains r')
    (hrows : ∀ c ∈ rows, ∃ c' ∈ rows', c.Retains c') : r'.Labelled cfg rows' := by
  rw [hr.1]
  refine ⟨h.first, fun k hk hversion => ?_⟩
  obtain ⟨c, hc, he, hv, p, hp, diffs, hdiffs, hlabel⟩ := h.next k hk hversion
  obtain ⟨c', hc', hret⟩ := hrows c hc
  have hfixed := VersionRow.mk.inj hret.fixed_eq
  refine ⟨c', hc', hfixed.2.1.trans he, hfixed.2.2.1.trans hv, p, hp, diffs, ?_, hlabel⟩
  rw [hfixed.2.2.2.2.1]
  exact hdiffs

/-- Every row has the label of its comparison. -/
def Db.Labelled (cfg : Config) (db : Db) : Prop :=
  ∀ r ∈ db.versions, r.Labelled cfg db.versions

/-- Every row describes some payload. -/
def Db.Fingerprinted (cfg : Config) (db : Db) : Prop :=
  ∀ r ∈ db.versions, ∃ p, r.Describes cfg p

/-! ### Every run -/

section Runs

variable {ι : Type*} [DecidableEq ι] {cfg : Config} {db : Db} {fresh : Uuid}

omit [DecidableEq ι] in
/-- Committed versions stay stored. -/
theorem stores_shared {w : Shared Db Effect ι} {i : ι} {ws : List Write}
    (op : Op Write LockKey Effect Party) (r : VersionRow) (h : w.db.Stores r) :
    (op.shared (program cfg) i ws w).db.Stores r := by
  cases op with
  | commit f => exact (stores_applyAll cfg ws w.db r).mpr (.inl h)
  | _ => exact h

/-- **Writes along every run.** Every party has written of versions what its code says. -/
theorem Run.version_writes {good : World ι → ι × Input → Prop} (hdb : db.registry.Valid fresh)
    {s : World ι} (hs : Run (program cfg).step good (Initial db fresh) s) :
    ∀ i, (s.loc i).Writes cfg s.db (versionWrites (s.pending i)) := by
  have hs : Run (program cfg).step (fun s _ => s.db.registry.Valid s.fresh ∧
      ∀ i, (s.loc i).Holds cfg s.db.registry s.fresh (s.own i).held (s.pending i))
      (Initial db fresh) s := hs.mono fun t a ht _ => Run.registry_holds hdb ht
  refine (Run.noninterference (P := program cfg) (G := fun _ => True)
    (A := fun _ w o => o.loc.Writes cfg w.db (versionWrites o.pending)) ?_ ?_ ?_ hs).2
  · intro s hs
    refine ⟨trivial, fun i => ?_⟩
    have hstart := hs.starting i
    simp only [State.own, hs.pending i]
    cases hloc : s.loc i with
    | track p =>
      rw [hloc] at hstart
      cases hstart
      exact ⟨fun _ => rfl, [], rfl⟩
    | _ => rfl
  · intro s i x op hgood _ hA hop _
    refine ⟨trivial, ?_⟩
    have hstep := (Party.step_writes hgood.1 rfl
      (fun hrun row hrow => (hgood.2 i).new_id hrun hrow) (hA i) hop).1
    have hmono : ∀ {p : Party} {vw}, p.Writes cfg s.db vw →
        p.Writes cfg (op.shared (program cfg) i (s.pending i) s.toShared).db vw := by
      intro p vw h
      cases p with
      | track p => exact TrackProc.Writes.mono (stores_shared op) h
      | _ => exact h
    exact hmono hstep
  · intro s i j x op _ _ _ hA _
    have h := hA j
    cases hloc : (s.own j).loc with
    | track p =>
      rw [hloc] at h
      exact TrackProc.Writes.mono (stores_shared op) h
    | _ =>
      rw [hloc] at h
      exact h

/-- **Version table moves.** Every step of every run changes the version table in one of the ways
of `VersionsMove`. -/
theorem Run.step_versions {good : World ι → ι × Input → Prop} (hdb : db.registry.Valid fresh)
    {s t : World ι} {a : ι × Input} (hs : Run (program cfg).step good (Initial db fresh) s)
    (ht : (program cfg).step s a = some t) : VersionsMove cfg s.db.versions t.db.versions := by
  obtain ⟨op, hop, hst⟩ := step_cases ht
  obtain ⟨hv, hholds⟩ := Run.registry_holds hdb hs
  have hwrites := Run.version_writes hdb hs a.1
  have hshared : t.db = (op.shared (program cfg) a.1 (s.pending a.1) s.toShared).db :=
    congrArg Shared.db hst.shared
  cases op with
  | commit f =>
    have hcommit := (Party.step_writes hv rfl
      (fun hrun row hrow => (hholds a.1).new_id hrun hrow) hwrites hop).2 f rfl
    rw [hshared, show (Op.shared (program cfg) a.1 (s.pending a.1) s.toShared (.commit f)).db =
      (program cfg).applyAll (s.pending a.1) s.db from rfl, versions_foldl]
    refine hcommit.move hv fun row hrow => ?_
    rcases Party.running_of_commit hwrites hop with hrun | hnil
    · exact (hholds a.1).new_id hrun (List.mem_of_mem_filter hrow)
    · rw [hnil] at hrow
      cases hrow
  | _ => rw [hshared]; exact .same

/-- Labels and fingerprints along every run. -/
theorem Run.versions_described {good : World ι → ι × Input → Prop}
    (hdb : db.registry.Valid fresh) {s : World ι}
    (hs : Run (program cfg).step good (Initial db fresh) s) :
    (db.Labelled cfg → s.db.Labelled cfg) ∧ (db.Fingerprinted cfg → s.db.Fingerprinted cfg) := by
  refine Run.invariant (I := fun s => (db.Labelled cfg → s.db.Labelled cfg) ∧
    (db.Fingerprinted cfg → s.db.Fingerprinted cfg)) ?_ ?_ hs
  · intro s hs
    rw [hs.db]
    exact ⟨id, id⟩
  · rintro s a t hr ⟨hlabelled, hfingerprinted⟩ - ht
    have hmove := Run.step_versions hdb hr ht
    constructor
    · intro h r' hr'
      rcases hmove.cases hr' with ⟨r, hr, hret⟩ | ⟨hnew, -⟩
      · exact (hlabelled h r hr).retains hret fun c hc => hmove.retains hc
      · exact hnew.retains (.refl r') fun c hc => hmove.retains hc
    · intro h r' hr'
      rcases hmove.cases hr' with ⟨r, hr, hret⟩ | ⟨-, hnew⟩
      · obtain ⟨p, hp⟩ := hfingerprinted h r hr
        rw [hret.1]
        exact ⟨p, hp.fingerprint, hp.schema⟩
      · exact hnew

/-- What a run makes of a committed row. -/
theorem Run.retains {good : World ι → ι × Input → Prop} (hdb : db.registry.Valid fresh)
    {s t : World ι} (hs : Run (program cfg).step good (Initial db fresh) s)
    (ht : Run (program cfg).step good (· = s) t) {r : VersionRow} (hr : r ∈ s.db.versions) :
    ∃ r' ∈ t.db.versions, r.Retains r' := by
  refine Run.invariant (I := fun t => ∃ r' ∈ t.db.versions, r.Retains r') ?_ ?_ ht
  · rintro t rfl
    exact ⟨r, hr, .refl r⟩
  · rintro u a t hu ⟨r', hr', hret⟩ - hstep
    obtain ⟨r'', hr'', hret'⟩ := (Run.step_versions hdb (hs.trans hu) hstep).retains hr'
    exact ⟨r'', hr'', hret.trans hret'⟩

/-- Before its own insert a request sees the committed versions. -/
theorem view_versions {s : World ι} {i : ι} (h : versionWrites (s.pending i) = []) :
    (s.view (program cfg) i).db.versions = s.db.versions := by
  show ((program cfg).applyAll (s.pending i) s.db).versions = _
  rw [versions_foldl, h]
  rfl

/-- The version that is found under a fingerprint is found under it ever after. -/
theorem Run.versionOf_retains {good : World ι → ι × Input → Prop} (hdb : db.registry.Valid fresh)
    {s t : World ι} (hs : Run (program cfg).step good (Initial db fresh) s)
    (ht : Run (program cfg).step good (· = s) t) {e : Uuid} {fp : String} {row : VersionRow}
    (h : s.db.versionOf e fp = some row) :
    ∃ row', t.db.versionOf e fp = some row' ∧ row.Retains row' := by
  have hfound : ∀ {db : Db} {row}, db.versionOf e fp = some row →
      row ∈ db.versions ∧ row.endpointId = e ∧ row.fingerprint = fp :=
    fun h => ⟨List.mem_of_find?_eq_some h, by simpa using List.find?_some h⟩
  obtain ⟨hv, -⟩ := Run.registry_holds hdb (hs.trans ht)
  obtain ⟨hrow, he, hfp⟩ := hfound h
  obtain ⟨r, hr, hret⟩ := Run.retains hdb hs ht hrow
  obtain ⟨-, hre, -, hrfp, -⟩ := VersionRow.mk.inj hret.fixed_eq
  have hre : r.endpointId = e := hre.trans he
  have hrfp : r.fingerprint = fp := hrfp.trans hfp
  cases hfind : t.db.versionOf e fp with
  | none =>
    have hno := List.find?_eq_none.mp hfind r hr
    simp [hre, hrfp] at hno
  | some r' =>
    obtain ⟨hr', he', hfp'⟩ := hfound hfind
    have hsame : r' = r := hv.fingerprint_unique hr hr' (he'.trans hre.symm) (hfp'.trans hrfp.symm)
    exact ⟨r', rfl, hsame ▸ hret⟩

/-- **Version rows are append-only, and labelled but for misread types.** A committed row keeps
everything but its flag, which is only ever taken. Version 1 is labelled SAFE; a later one has the
label of its comparison with the version before exactly when no path is misread, or nothing clashes
and something breaks anyway. What the look-up without the lock returns, the look-up under the lock
returns at any later moment, up to the flag. -/
theorem version_rows_labelled_iff (cfg : Config) {db : Db} {fresh : Uuid}
    (hdb : db.registry.Valid fresh) (hlabels : db.Labelled cfg) (hpayloads : db.Fingerprinted cfg)
    {s t : World ι}
    (hs : Reachable (program cfg).step (Initial db fresh) s)
    (ht : Reachable (program cfg).step (· = s) t) :
    (∀ r ∈ s.db.versions, (∃ r' ∈ t.db.versions, r'.id = r.id) ∧
      ∀ r' ∈ t.db.versions, r'.id = r.id → r' = { r with isCurrent := r'.isCurrent } ∧
        (r'.isCurrent = true → r.isCurrent = true)) ∧
    (∀ r ∈ s.db.versions, (r.version = 1 → r.compatibilityClassification = "SAFE") ∧
      ∀ k, 1 ≤ k → r.version = k + 1 → ∃ c ∈ s.db.versions, c.endpointId = r.endpointId ∧
        c.version = k ∧ (∃ p, c.Describes cfg p) ∧ (∃ q, r.Describes cfg q) ∧
        ∀ p q, c.Describes cfg p → r.Describes cfg q →
          ((∃ diffs,
            diffAndClassify cfg.printable c.canonicalSchema r.canonicalSchema = .ok diffs ∧
            r.compatibilityClassification = (summarizeClassification diffs).name) ↔
            (∀ path, ¬MisreadAt (shown p.json path) (shown q.json path)) ∨
              (∀ path, ¬ClashAt cfg.printable (shown p.json path) (shown q.json path)) ∧
                ∃ path, BreaksAt cfg.printable (shown p.json path) (shown q.json path))) ∧
    ∀ (i j : ι) (p q : TrackProc) (e : Uuid) (current : Option VersionRow) (row : VersionRow)
      (now now' : Time),
      s.loc i = .track p → p.running = true → p.pc = .upsert (.fastLookup e) →
      (p.call.upsert cfg).step cfg (.fastLookup e) (s.view (program cfg) i) (.proceed now) =
        some (.exec [] [] (.done ⟨e, row, false⟩)) →
      t.loc j = .track q → q.running = true → q.pc = .upsert (.lookup e current) →
      (q.call.upsert cfg).fingerprint = (p.call.upsert cfg).fingerprint →
      ∃ row', (q.call.upsert cfg).step cfg (.lookup e current) (t.view (program cfg) j)
          (.proceed now') = some (.exec [] [] (.done ⟨e, row', false⟩)) ∧
        row' = { row with isCurrent := row'.isCurrent } := by
  have hst : Reachable (program cfg).step (Initial db fresh) t := hs.trans ht
  obtain ⟨hv, -⟩ := Run.registry_holds hdb hst
  have hrows : ∀ r ∈ s.db.versions, ∀ r' ∈ t.db.versions, r'.id = r.id → r.Retains r' := by
    intro r hr r' hr' hid
    obtain ⟨r'', hr'', hret⟩ := Run.retains hdb hs ht hr
    have hsame : r' = r'' :=
      hv.version_unique hr' hr'' (hid.trans (VersionRow.mk.inj hret.fixed_eq).1.symm)
    exact hsame ▸ hret
  refine ⟨fun r hr => ⟨?_, hrows r hr⟩, fun r hr => ?_, ?_⟩
  · obtain ⟨r', hr', hret⟩ := Run.retains hdb hs ht hr
    exact ⟨r', hr', (VersionRow.mk.inj hret.fixed_eq).1⟩
  · obtain ⟨hlabelled, hdescribed⟩ := Run.versions_described hdb hs
    have hlabel := hlabelled hlabels r hr
    refine ⟨hlabel.first, fun k hk hversion => ?_⟩
    obtain ⟨c, hc, he, hv, q, hq, ds, hds, hname⟩ := hlabel.next k hk hversion
    refine ⟨c, hc, he, hv, hdescribed hpayloads c hc, hdescribed hpayloads r hr,
      fun p q' hp hq' => ?_⟩
    -- the column has kept the schema of the payload that was compared
    have hsame : canonicalize q.json = canonicalize q'.json :=
      jsonb_injective (canonicalize_canonical q.uniqueKeys) (canonicalize_canonical q'.uniqueKeys)
        (hq.symm.trans hq'.schema)
    rw [hsame, hp.schema] at hds
    rw [hp.schema, hq'.schema, hname]
    exact stored_label_iff hds
  · intro i j p q e current row now now' hi hip hpc hfast hj hjq hqc hfp
    have hwrites : ∀ {u : World ι} {k : ι} {p : TrackProc},
        Reachable (program cfg).step (Initial db fresh) u → u.loc k = .track p →
        p.running = true → p.pc.Writes cfg u.db p.call (versionWrites (u.pending k)) := by
      intro u k p hu hk hrun
      have h := Run.version_writes hdb hu k
      rw [hk] at h
      exact h.1 hrun
    have hi := hwrites hs hi hip
    have hj := hwrites hst hj hjq
    rw [hpc] at hi
    rw [hqc] at hj
    have hsview : (s.view (program cfg) i).db.versions = s.db.versions := view_versions hi
    have htview : (t.view (program cfg) j).db.versions = t.db.versions := view_versions hj.1
    have hfound : s.db.versionOf e (p.call.upsert cfg).fingerprint = some row := by
      rw [← Db.versionOf_congr hsview]
      simp only [Upsert.step] at hfast
      split at hfast
      · rename_i r hr
        simp only [Option.some.injEq, Op.exec.injEq, Flow.done.injEq, Upserted.mk.injEq] at hfast
        rw [hr, hfast.2.2.2.1]
      · simp at hfast
    obtain ⟨row', hrow', hret⟩ := Run.versionOf_retains hdb hs ht hfound
    refine ⟨row', ?_, hret.1⟩
    rw [← hfp, ← Db.versionOf_congr htview] at hrow'
    simp only [Upsert.step, hrow']

end Runs

/-- Two requests, one after the other: the first row loses its flag, the second is labelled by their
comparison exactly when no type is misread or something breaks. -/
theorem version_rows_labelled_two :
    ∃ s t : World ℕ, Reachable (program (sampleConfig false)).step (Initial {} 1) s ∧
      Reachable (program (sampleConfig false)).step (· = s) t ∧
      s.db.versions.map (fun r => (r.version, r.isCurrent)) = [(1, true)] ∧
      t.db.versions.map (fun r => (r.version, r.isCurrent)) = [(1, false), (2, true)] ∧
      (∀ r ∈ s.db.versions, ∃ r' ∈ t.db.versions, r'.id = r.id) ∧
      ∀ r ∈ t.db.versions, (r.version = 1 → r.compatibilityClassification = "SAFE") ∧
        (r.version = 2 → ∃ c ∈ t.db.versions, c.version = 1 ∧
          (∃ p, c.Describes (sampleConfig false) p) ∧ (∃ q, r.Describes (sampleConfig false) q) ∧
          ∀ p q, c.Describes (sampleConfig false) p → r.Describes (sampleConfig false) q →
            ((∃ diffs, diffAndClassify (sampleConfig false).printable c.canonicalSchema
                r.canonicalSchema = .ok diffs ∧
                r.compatibilityClassification = (summarizeClassification diffs).name) ↔
              (∀ path, ¬MisreadAt (shown p.json path) (shown q.json path)) ∨
                (∀ path, ¬ClashAt (sampleConfig false).printable (shown p.json path)
                  (shown q.json path)) ∧
                ∃ path, BreaksAt (sampleConfig false).printable (shown p.json path)
                  (shown q.json path))) := by
  have hrun : (exec (program (sampleConfig false)).step
      (sampleWorld {} 1 [sampleRequest sampleOld, sampleRequest sampleNew])
      (List.replicate 8 (0, .proceed 0))).map
        (fun s => (s.db.versions.map (fun r => (r.version, r.isCurrent)),
          (exec (program (sampleConfig false)).step s (List.replicate 14 (1, .proceed 0))).map
            fun t => t.db.versions.map fun r => (r.version, r.isCurrent))) =
      some ([(1, true)], some [(1, false), (2, true)]) := by decide +kernel
  obtain ⟨s, hs, hend⟩ := Option.map_eq_some_iff.mp hrun
  obtain ⟨hsrows, hend⟩ := Prod.mk.inj hend
  obtain ⟨t, ht, htrows⟩ := Option.map_eq_some_iff.mp hend
  have hreach : Reachable (program (sampleConfig false)).step (Initial {} 1) s :=
    reachable_of_exec (sampleWorld_initial (by simp [sampleRequest, Party.Starting.track])) hs
  have hreach' : Reachable (program (sampleConfig false)).step (· = s) t :=
    reachable_of_exec rfl ht
  have hlabels : ({} : Db).Labelled (sampleConfig false) := fun _ h => absurd h List.not_mem_nil
  have hpayloads : ({} : Db).Fingerprinted (sampleConfig false) :=
    fun _ h => absurd h List.not_mem_nil
  refine ⟨s, t, hreach, hreach', hsrows, htrows, fun r hr => ?_, fun r hr => ?_⟩
  · exact ((version_rows_labelled_iff _ (Registry.valid_empty 1) hlabels hpayloads hreach
      hreach').1 r hr).1
  · obtain ⟨hone, hnext⟩ := (version_rows_labelled_iff _ (Registry.valid_empty 1) hlabels hpayloads
      (hreach.trans hreach') (.start rfl)).2.1 r hr
    refine ⟨hone, fun htwo => ?_⟩
    obtain ⟨c, hc, -, hv, hlabel⟩ := hnext 1 le_rfl htwo
    exact ⟨c, hc, hv, hlabel⟩

/-- A payload whose `type` is a dictionary that the column orders in another way. -/
def misreadOld : Payload where
  members := [("type", .obj [("aa", .int 1), ("b", .int 1)])]
  unique := by simp [Json.UniqueKeys, UniqueKeysMembers]

/-- The same payload with another member. -/
def misreadNew : Payload where
  members := [("type", .obj [("aa", .int 1), ("b", .int 1)]), ("y", .int 1)]
  unique := by simp [Json.UniqueKeys, UniqueKeysMembers]

/-- The second request stores a version that is labelled BREAKING, although comparing the two stored
schemas is SAFE. -/
theorem misread_version_breaking : ∃ s : World ℕ,
    Reachable (program (sampleConfig false)).step (Initial {} 1) s ∧
      ∃ c ∈ s.db.versions, ∃ r ∈ s.db.versions, c.endpointId = r.endpointId ∧ c.version = 1 ∧
        r.version = 2 ∧ ∃ diffs,
          diffAndClassify (sampleConfig false).printable c.canonicalSchema r.canonicalSchema =
            .ok diffs ∧
          r.compatibilityClassification ≠ (summarizeClassification diffs).name := by
  have hrun : ((exec (program (sampleConfig false)).step
      (sampleWorld {} 1 [sampleRequest misreadOld, sampleRequest misreadNew])
      (List.replicate 8 (0, .proceed 0) ++ List.replicate 14 (1, .proceed 0))).bind fun s =>
        s.db.versions[0]?.bind fun c => s.db.versions[1]?.map fun r =>
          (c.endpointId == r.endpointId, c.version, r.version, r.compatibilityClassification,
            (diffAndClassify (sampleConfig false).printable c.canonicalSchema
              r.canonicalSchema).toOption.map fun diffs => (summarizeClassification diffs).name)) =
      some (true, 1, 2, "BREAKING", some "SAFE") := by decide +kernel
  obtain ⟨s, hs, hrun⟩ := Option.bind_eq_some_iff.mp hrun
  obtain ⟨c, hc, hrun⟩ := Option.bind_eq_some_iff.mp hrun
  obtain ⟨r, hr, hvalues⟩ := Option.map_eq_some_iff.mp hrun
  simp only [Prod.mk.injEq, beq_iff_eq] at hvalues
  obtain ⟨he, hold, hnew, hlabel, hsummary⟩ := hvalues
  have hreach : Reachable (program (sampleConfig false)).step (Initial {} 1) s :=
    reachable_of_exec (sampleWorld_initial (by simp [sampleRequest, Party.Starting.track])) hs
  refine ⟨s, hreach, c, List.mem_of_getElem? hc, r, List.mem_of_getElem? hr, he, hold, hnew, ?_⟩
  cases hdiffs : diffAndClassify (sampleConfig false).printable c.canonicalSchema
      r.canonicalSchema with
  | error e => simp [hdiffs, Except.toOption] at hsummary
  | ok diffs =>
    have hsafe : (summarizeClassification diffs).name = "SAFE" := by
      simpa [hdiffs, Except.toOption] using hsummary
    refine ⟨diffs, rfl, ?_⟩
    rw [hlabel, hsafe]
    decide

end Driftgate.Runtime
