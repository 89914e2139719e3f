import Driftgate.Monitor.Changelog

/-!
# Which changelogs persist

A changelog that a request answers with is found again, and repeated, exactly if it was in the table
before the request. A new one is not: the table stays as it is, so that its id is not found, and the
request that repeats it makes another.

The lookup goes by the hash of the sorted ids, which is the same for the rows in any order.
-/

namespace Driftgate.Monitor

open Driftgate.Sessions Driftgate.Transition Driftgate.Windows
open Driftgate.Runtime (Uuid Time uuidText)

variable {cfg : ChangelogConfig}

/-! ### The lookup -/

/-- The order of the rows does not show in the hash. -/
theorem hashDiffSet_perm {l l' : List DiffRecord} (h : l.Perm l') :
    hashDiffSet cfg l = hashDiffSet cfg l' := by
  rw [hashDiffSet, hashDiffSet, insertionSort_eq_of_perm (h.map fun d => uuidText d.id)]

theorem GenerateRequest.hash_arrange (req : GenerateRequest) (l : List DiffRecord) :
    hashDiffSet cfg (req.arrange l) = hashDiffSet cfg l := hashDiffSet_perm (req.arrange_perm l)

/-- A changelog is the only one of its snapshot and its set of diffs. -/
theorem Keyed.cachedRows_eq {v : ChangelogServer} (hv : Keyed v) {c : ChangelogRow}
    (hc : c ∈ v.db.changelogs) : v.db.cachedRows c.snapshotId c.diffSetHash = [c] := by
  have hmem : ∀ a, a ∈ v.db.cachedRows c.snapshotId c.diffSetHash ↔ a ∈ v.db.changelogs ∧
      a.snapshotId = c.snapshotId ∧ a.diffSetHash = c.diffSetHash := by
    intro a
    rw [ChangelogDb.cachedRows, List.mem_filter, decide_eq_true_iff]
  have hpair : (v.db.cachedRows c.snapshotId c.diffSetHash).Pairwise fun a b =>
      ¬(a.snapshotId = b.snapshotId ∧ a.diffSetHash = b.diffSetHash) := hv.unique.filter _
  have hself := (hmem c).mpr ⟨hc, rfl, rfl⟩
  cases hrows : v.db.cachedRows c.snapshotId c.diffSetHash with
  | nil =>
    rw [hrows] at hself
    exact absurd hself List.not_mem_nil
  | cons a rows =>
    have ha := ((hmem a).mp (by rw [hrows]; exact List.mem_cons_self)).2
    rw [hrows, List.pairwise_cons] at hpair
    -- any other row would have the key of the first
    have hnil : rows = [] := by
      refine List.eq_nil_iff_forall_not_mem.mpr fun b hb => hpair.1 b hb ?_
      have hb' := ((hmem b).mp (by rw [hrows]; exact List.mem_cons_of_mem a hb)).2
      exact ⟨ha.1.trans hb'.1.symm, ha.2.trans hb'.2.symm⟩
    rw [hrows, hnil, List.mem_singleton] at hself
    rw [hself, hnil]

/-- A changelog is found by its id. -/
theorem Keyed.find?_eq {v : ChangelogServer} (hv : Keyed v) {c : ChangelogRow}
    (hc : c ∈ v.db.changelogs) : (v.db.changelogs.find? fun d => d.id = c.id) = some c := by
  cases hfound : v.db.changelogs.find? fun d => d.id = c.id with
  | none =>
    have hno := List.find?_eq_none.mp hfound c hc
    simp at hno
  | some d =>
    have hid : d.id = c.id := by simpa using List.find?_some hfound
    rw [List.inj_on_of_nodup_map hv.ids (List.mem_of_find?_eq_some hfound) hc hid]

/-- A changelog of the snapshot and of the diffs that it has is in the table. -/
def Stored (cfg : ChangelogConfig) (db : ChangelogDb) (snapshotId : Uuid) (c : ChangelogRow) :
    Prop :=
  c ∈ db.changelogs ∧ c.snapshotId = snapshotId ∧
    c.diffSetHash = hashDiffSet cfg (db.diffsOf snapshotId)

/-! ### What the handlers answer -/

/-- The checks of `POST /api/changelogs/generate` go through. -/
structure Answerable (db : ChangelogDb) (snapshotId : Uuid) (snapshot : SnapshotRow) : Prop where
  found : (db.snapshots.find? fun row => row.id = snapshotId) = some snapshot
  schema : snapshot.oldNodes ≠ []
  diffs : db.diffsOf snapshotId ≠ []

theorem Answerable.id_eq {db : ChangelogDb} {snapshotId : Uuid} {snapshot : SnapshotRow}
    (h : Answerable db snapshotId snapshot) : snapshot.id = snapshotId := by
  simpa using List.find?_some h.found

theorem GenerateRequest.arrange_isEmpty (req : GenerateRequest) (l : List DiffRecord) :
    (req.arrange l).isEmpty = l.isEmpty := by
  rw [Bool.eq_iff_iff, List.isEmpty_iff_length_eq_zero, List.isEmpty_iff_length_eq_zero,
    (req.arrange_perm l).length_eq]

section Answers

variable {req : GenerateRequest} {s : Session ChangelogDb ChangelogWrite String}

/-- Behind the checks the changelog is looked up or made. -/
theorem generate_apply (hs : s.pending = []) {snapshot : SnapshotRow}
    (h : Answerable s.db req.snapshotId snapshot) : generate cfg req s =
      generateChangelog cfg req snapshot (req.arrange (s.db.diffsOf req.snapshotId)) s := by
  have hschema : snapshot.oldNodes.isEmpty = false := List.isEmpty_eq_false_iff.mpr h.schema
  have hdiffs : (req.arrange (s.db.diffsOf req.snapshotId)).isEmpty = false := by
    rw [req.arrange_isEmpty]
    exact List.isEmpty_eq_false_iff.mpr h.diffs
  rw [generate, Handler.bind_apply, Handler.read_apply _ _ hs]
  dsimp only
  rw [h.found]
  dsimp only
  rw [hschema, if_neg Bool.false_ne_true, Handler.bind_apply, Handler.read_apply _ _ hs]
  dsimp only
  rw [h.id_eq, hdiffs, if_neg Bool.false_ne_true]

/-- A changelog comes behind the checks alone. -/
theorem answerable_of_generate (hs : s.pending = []) {c : ChangelogRow}
    (h : (generate cfg req s).1 = .ok c) : ∃ snapshot, Answerable s.db req.snapshotId snapshot := by
  rw [generate, Handler.bind_apply, Handler.read_apply _ _ hs] at h
  dsimp only at h
  cases hfound : s.db.snapshots.find? fun row => row.id = req.snapshotId with
  | none =>
    rw [hfound] at h
    cases h
  | some snapshot =>
    rw [hfound] at h
    dsimp only at h
    by_cases hschema : snapshot.oldNodes.isEmpty = true
    · rw [if_pos hschema] at h
      cases h
    · have hid : snapshot.id = req.snapshotId := by simpa using List.find?_some hfound
      rw [if_neg hschema, Handler.bind_apply, Handler.read_apply _ _ hs] at h
      dsimp only at h
      rw [hid, req.arrange_isEmpty] at h
      by_cases hdiffs : (s.db.diffsOf req.snapshotId).isEmpty = true
      · rw [if_pos hdiffs] at h
        cases h
      · exact ⟨snapshot, hfound, fun hnil => hschema (List.isEmpty_iff.mpr hnil),
          fun hnil => hdiffs (List.isEmpty_iff.mpr hnil)⟩

/-- A stored changelog is the answer, and the model is not asked. -/
theorem generateChangelog_stored (hs : s.pending = []) {snapshot : SnapshotRow}
    {diffRows : List DiffRecord} {c : ChangelogRow}
    (h : s.db.cachedRows snapshot.id (hashDiffSet cfg diffRows) = [c]) :
    generateChangelog cfg req snapshot diffRows s = (.ok c, s) := by
  rw [generateChangelog, Handler.bind_apply, Handler.read_apply _ _ hs]
  dsimp only
  rw [h]
  rfl

theorem changelogText_apply (cfg : ChangelogConfig) (answer : Option String) (diffs : List Diff)
    (s : Session ChangelogDb ChangelogWrite String) :
    ∃ text t, changelogText cfg answer diffs s = (.ok text, t) ∧ t.fresh = s.fresh := by
  rw [changelogText]
  split
  · rw [Handler.bind_apply]
    cases answer.filter fun text => validateLlmOutput text diffs with
    | some text => exact ⟨_, _, rfl, rfl⟩
    | none => exact ⟨_, _, rfl, rfl⟩
  · exact ⟨_, _, rfl, rfl⟩

/-- Without one, the answer has a new id. -/
theorem generateChangelog_new (req : GenerateRequest) (hs : s.pending = [])
    {snapshot : SnapshotRow} {diffRows : List DiffRecord}
    (h : s.db.cachedRows snapshot.id (hashDiffSet cfg diffRows) = []) :
    ∃ c, (generateChangelog cfg req snapshot diffRows s).1 = .ok c ∧ c.id = s.fresh := by
  obtain ⟨text, t, htext, hfresh⟩ := changelogText_apply cfg req.answer (diffsToCore diffRows) s
  rw [generateChangelog, Handler.bind_apply, Handler.read_apply _ _ hs]
  dsimp only
  rw [h]
  show ∃ c, ((changelogText cfg req.answer (diffsToCore diffRows) >>= _) s).1 = .ok c ∧ _
  rw [Handler.bind_apply, htext]
  exact ⟨_, rfl, hfresh⟩

end Answers

/-- The answer to a request whose changelog is stored, and what is left. -/
theorem serve_generate_stored {v : ChangelogServer} (hv : Keyed v) {req : GenerateRequest}
    {snapshot : SnapshotRow} (h : Answerable v.db req.snapshotId snapshot) {c : ChangelogRow}
    (hc : Stored cfg v.db req.snapshotId c) : serve (generate cfg req) v = (.ok c, v) := by
  obtain ⟨hmem, hsnapshot, hhash⟩ := hc
  have hrows := hv.cachedRows_eq hmem
  rw [hsnapshot, hhash, ← req.hash_arrange, ← h.id_eq] at hrows
  rw [serve, generate_apply (s := { toServer := v }) rfl h]
  rw [← h.id_eq, generateChangelog_stored (s := { toServer := v }) rfl hrows]

/-- Without one, the answer has an id that has not been given out. -/
theorem serve_generate_new {v : ChangelogServer} {req : GenerateRequest} {c : ChangelogRow}
    (h : (serve (generate cfg req) v).1 = .ok c)
    (hnone : ∀ d, ¬Stored cfg v.db req.snapshotId d) : c.id = v.fresh := by
  have h : (generate cfg req { toServer := v }).1 = .ok c := h
  obtain ⟨snapshot, hanswer⟩ := answerable_of_generate (s := { toServer := v }) rfl h
  have hrows : v.db.cachedRows snapshot.id
      (hashDiffSet cfg (req.arrange (v.db.diffsOf req.snapshotId))) = [] := by
    rw [hanswer.id_eq, req.hash_arrange, ChangelogDb.cachedRows, List.filter_eq_nil_iff]
    intro d hd hkey
    exact hnone d ⟨hd, of_decide_eq_true hkey⟩
  obtain ⟨d, hd, hid⟩ := generateChangelog_new req (s := { toServer := v }) rfl hrows
  rw [generate_apply (s := { toServer := v }) rfl hanswer, hd] at h
  rw [← Except.ok.inj h]
  exact hid

theorem serve_getChangelog (v : ChangelogServer) (changelogId : Uuid) :
    (serve (getChangelog changelogId) v).1 =
      match v.db.changelogs.find? fun c => c.id = changelogId with
      | none => .error ⟨404, "changelog not found"⟩
      | some c => .ok c := by
  show (getChangelog changelogId { toServer := v }).1 = _
  rw [getChangelog, Handler.bind_apply, Handler.read_apply _ _ rfl]
  dsimp only
  cases v.db.changelogs.find? fun c => c.id = changelogId <;> rfl

/-! ### What persists -/

/-- After a request has answered with a changelog, and any other requests, it is found by its id,
and a request for the same snapshot and the same set of diffs answers with its id and its text and
does not ask the model. -/
def Persists (cfg : ChangelogConfig) (v : ChangelogServer) (req : GenerateRequest)
    (c : ChangelogRow) : Prop :=
  ∀ (rs : List ChangelogRequest) (u : ChangelogServer),
    exec (changelogStep cfg) (serve (generate cfg req) v).2 rs = some u →
      (serve (getChangelog c.id) u).1 = .ok c ∧
      ∀ req' : GenerateRequest, req'.snapshotId = req.snapshotId →
        ∃ c', (serve (generate cfg req') u).1 = .ok c' ∧ c'.id = c.id ∧
          c'.generatedText = c.generatedText ∧ (serve (generate cfg req') u).2.trace = u.trace

/-- **Generated changelogs persist** if they were stored before the request, and no other. -/
theorem changelog_persists_iff {v w : ChangelogServer} {rs : List ChangelogRequest} (hv : Keyed v)
    (he : exec (changelogStep cfg) v rs = some w) {req : GenerateRequest} {c : ChangelogRow}
    (hc : (serve (generate cfg req) w).1 = .ok c) :
    Persists cfg w req c ↔ ∃ d, Stored cfg w.db req.snapshotId d := by
  have hw : Keyed w := hv.exec he
  obtain ⟨snapshot, hanswer⟩ := answerable_of_generate (s := { toServer := w }) rfl hc
  have hstep : changelogStep cfg w (.generate req) = some (serve (generate cfg req) w).2 := rfl
  have hafter : (serve (generate cfg req) w).2.db = w.db := (changelogStep_db hstep).1
  constructor
  · intro hpersists
    by_contra hnone
    -- the id of the answer is new, and no row has it
    have hid := serve_generate_new hc (not_exists.mp hnone)
    obtain ⟨hget, -⟩ := hpersists [] _ rfl
    rw [serve_getChangelog, hafter] at hget
    cases hfound : w.db.changelogs.find? fun d => d.id = c.id with
    | none =>
      rw [hfound] at hget
      cases hget
    | some d =>
      have hd : d.id = c.id := by simpa using List.find?_some hfound
      have hbelow := hw.named d (List.mem_of_find?_eq_some hfound)
      rw [hd, hid] at hbelow
      exact absurd hbelow (Nat.lt_irrefl _)
  · rintro ⟨d, hd⟩ rs' u hu
    have hcd : d = c := by
      rw [serve_generate_stored hw hanswer hd] at hc
      exact Except.ok.inj hc
    subst hcd
    obtain ⟨hdb, -⟩ := exec_changelog_db hu
    have hdb : u.db = w.db := hdb.trans hafter
    have hone : exec (changelogStep cfg) w [.generate req] = some (serve (generate cfg req) w).2 :=
      rfl
    have hu : Keyed u := (hw.exec hone).exec hu
    constructor
    · rw [serve_getChangelog, hdb, hw.find?_eq hd.1]
    · intro req' hreq
      have hanswer' : Answerable u.db req'.snapshotId snapshot := by
        rw [hdb, hreq]
        exact hanswer
      have hd' : Stored cfg u.db req'.snapshotId d := by
        rw [hdb, hreq]
        exact hd
      rw [serve_generate_stored hu hanswer' hd']
      exact ⟨d, rfl, rfl, rfl, rfl⟩

/-! ### One snapshot with one diff -/

def sampleChangelogConfig : ChangelogConfig where
  sha256 text := "h" ++ text
  dumps _ := ""
  anthropicApiKey := some "key"
  llmModel := "claude-haiku-4-5-20251001"

def sampleDiff : Diff where
  severity := "breaking"
  changeType := .removedField
  path := "$.total"
  oldType := some .number
  newType := none
  oldValue := none
  newValue := none
  message := "Field $.total was removed from the response schema."

def sampleSchemaNode : SchemaNode where
  path := "$.id"
  type := .integer
  required := true
  nullable := false
  arrayItemType := none
  enumValues := none
  exampleValue := none

/-- A snapshot with a diff, and the changelogs that are stored. -/
def sampleChangelogServer (changelogs : List ChangelogRow) : ChangelogServer where
  db :=
    { snapshots := [⟨2, 1, "h2", some (.nodes [sampleSchemaNode])⟩]
      diffs := [{ endpointId := 1, oldSnapshotId := 1, newSnapshotId := 2, diff := sampleDiff, id := 3 }]
      changelogs := changelogs }
  fresh := 9

def sampleGenerate : GenerateRequest where
  snapshotId := 2
  arrange l := l
  arrange_perm l := .refl l
  answer := some "## Breaking (1)"
  now := 10

theorem sampleChangelogServer_keyed : Keyed (sampleChangelogServer []) where
  named _ hc := absurd hc List.not_mem_nil
  ids := List.nodup_nil
  unique := List.Pairwise.nil

/-- The changelog of the sample, which the model has written. -/
def sampleChangelog : ChangelogRow where
  id := 9
  endpointId := 1
  snapshotId := 2
  diffIds := [uuidText 3]
  diffSetHash := "h[\"" ++ uuidText 3 ++ "\"]"
  generatedText := "## Breaking (1)"
  modelName := some "claude-haiku-4-5-20251001"
  createdAt := 10

/-- The changelog of a former run of the monitor over the same diff. -/
def sampleStored : ChangelogRow := { sampleChangelog with id := 8, createdAt := 5 }

/-- The stored changelog answers from now on; without it each request gets one of its own. -/
theorem changelog_persists_iff_sample :
    Persists sampleChangelogConfig (sampleChangelogServer [sampleStored]) sampleGenerate
        sampleStored ∧
      ¬Persists sampleChangelogConfig (sampleChangelogServer []) sampleGenerate
        sampleChangelog := by
  have hkeyed : Keyed (sampleChangelogServer [sampleStored]) :=
    { named := fun c hc => by
        obtain rfl := List.mem_singleton.mp hc
        decide
      ids := List.nodup_singleton _
      unique := List.pairwise_singleton _ _ }
  constructor
  · refine (changelog_persists_iff hkeyed
      (rfl : exec (changelogStep sampleChangelogConfig) _ [] = some _) (by decide)).mpr
      ⟨sampleStored, List.mem_singleton_self _, rfl, ?_⟩
    decide
  · intro hpersists
    obtain ⟨d, hd, -⟩ := (changelog_persists_iff sampleChangelogServer_keyed
      (rfl : exec (changelogStep sampleChangelogConfig) _ [] = some _) (by decide)).mp
      hpersists
    exact absurd hd List.not_mem_nil

/-- The first changelog of the sample is not found by its id. -/
theorem changelog_lost : ¬∀ (cfg : ChangelogConfig) (v w : ChangelogServer)
    (rs : List ChangelogRequest) (req : GenerateRequest) (c : ChangelogRow), Keyed v →
      exec (changelogStep cfg) v rs = some w → (serve (generate cfg req) w).1 = .ok c →
        Persists cfg w req c := by
  intro h
  have hpersists := h sampleChangelogConfig _ _ [] sampleGenerate sampleChangelog
    sampleChangelogServer_keyed rfl (by decide)
  obtain ⟨hget, -⟩ := hpersists [] _ rfl
  rw [serve_getChangelog] at hget
  exact absurd hget (by decide)

end Driftgate.Monitor
