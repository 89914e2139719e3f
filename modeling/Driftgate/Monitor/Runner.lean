import Driftgate.Monitor.SchemaDiff

/-!
# The monitor

`_process_endpoint` stores a snapshot for every fetch, and compares the schema of a successful one
with that of the prior snapshot. The prior snapshot is the latest one of the endpoint whose
`normalized_schema_json` is not an SQL null. A failed fetch sets that column to `None` explicitly,
which is stored as the JSON value null and passes the filter; its sentinel hash then stops the
comparison. So the first success after a failure is compared with nothing.

The order of the rows of a table is that of their `created_at`. A node list is read back from its
column as it was written. The endpoints of a run are processed one after the other here; that
`asyncio.gather` has them share one `AsyncSession`, where a flush can be refused while another is
under way, is left out.
-/

namespace Driftgate.Monitor

open Driftgate.Lib Driftgate.Schema

/-! ### Tables -/

/-- A JSON value of the column `normalized_schema_json`. -/
inductive JsonbValue
  | null
  | nodes (l : List SchemaNode)

/-- A row of `schema_snapshots`; `none` in `normalizedSchemaJson` is the SQL null. -/
structure SnapshotRow where
  id : ℕ
  endpointId : ℕ
  schemaHash : String
  normalizedSchemaJson : Option JsonbValue

/-- A row of `schema_diffs`. -/
structure SchemaDiffRow where
  endpointId : ℕ
  oldSnapshotId : ℕ
  newSnapshotId : ℕ
  diff : Diff

structure MonitorDb where
  snapshots : List SnapshotRow
  diffs : List SchemaDiffRow

/-- `FetchResult`; the body `null` is Python's `None`. -/
structure FetchResult where
  body : Json
  error : Option String

/-- `fetch.ok`. -/
def FetchResult.ok (fetch : FetchResult) : Bool :=
  fetch.error.isNone && (match fetch.body with
    | .null => false
    | _ => true)

/-- `_EndpointResult`. -/
structure EndpointResult where
  endpointId : ℕ
  snapshotCreated : Bool
  diffsDetected : ℕ
  error : Option String

/-- What the monitor takes from elsewhere: the hash, the characters that Python prints as they are,
and the normalization of a body. -/
structure MonitorConfig where
  sha256 : String → String
  printable : Char → Bool
  normalize : Json → Json

section Runner

variable (cfg : MonitorConfig)

def sentinel : String := "FETCH_ERROR:"

/-- `hash.startswith("FETCH_ERROR:")`. -/
def IsSentinel (hash : String) : Prop := sentinel.toList <+: hash.toList

instance : DecidablePred IsSentinel := fun _ => inferInstanceAs (Decidable (_ <+: _))

def sentinelHash (fetch : FetchResult) : String := sentinel ++ fetch.error.getD "None"

/-- The nodes of a successful fetch. -/
def nodesOf (fetch : FetchResult) : List SchemaNode := inferSchema (cfg.normalize fetch.body)

def hashOf (fetch : FetchResult) : String := stableSchemaHash cfg.sha256 (nodesOf cfg fetch)

/-- `prior.normalized_schema_json or []`. -/
def SnapshotRow.oldNodes (row : SnapshotRow) : List SchemaNode :=
  match row.normalizedSchemaJson with
  | some (.nodes l) => l
  | _ => []

/-- `_get_prior_snapshot`. -/
def getPriorSnapshot (db : MonitorDb) (endpointId currentId : ℕ) : Option SnapshotRow :=
  (db.snapshots.filter fun row => row.endpointId = endpointId ∧ row.id ≠ currentId ∧
    row.normalizedSchemaJson.isSome).getLast?

def MonitorDb.addSnapshot (db : MonitorDb) (row : SnapshotRow) : MonitorDb :=
  { db with snapshots := db.snapshots ++ [row] }

def diffRow (endpointId oldId newId : ℕ) (d : Diff) : SchemaDiffRow where
  endpointId := endpointId
  oldSnapshotId := oldId
  newSnapshotId := newId
  diff := d

/-- The snapshot of a fetch. -/
def snapshotOf (id : ℕ) (e : ℕ × FetchResult) : SnapshotRow where
  id := id
  endpointId := e.1
  schemaHash := if e.2.ok then hashOf cfg e.2 else sentinelHash e.2
  normalizedSchemaJson := if e.2.ok then some (.nodes (nodesOf cfg e.2)) else some .null

/-- `_process_endpoint`, with what the fetch returned. The new row has the next free id. -/
def processEndpoint (db : MonitorDb) (endpointId : ℕ) (fetch : FetchResult) :
    MonitorDb × EndpointResult :=
  let snap := snapshotOf cfg db.snapshots.length (endpointId, fetch)
  let db := db.addSnapshot snap
  if fetch.ok then
    let nodes := nodesOf cfg fetch
    let schemaHash := hashOf cfg fetch
    match getPriorSnapshot db endpointId snap.id with
    | some prior =>
      if prior.schemaHash ≠ schemaHash ∧ ¬IsSentinel prior.schemaHash then
        let diffs := diffSchemas cfg.printable prior.oldNodes nodes
        ({ db with diffs := db.diffs ++ diffs.map (diffRow endpointId prior.id snap.id) },
          ⟨endpointId, true, diffs.length, none⟩)
      else (db, ⟨endpointId, true, 0, none⟩)
    | none => (db, ⟨endpointId, true, 0, none⟩)
  else (db, ⟨endpointId, true, 0, fetch.error⟩)

/-- The database after some fetches, of any endpoints, one after the other. -/
def monitor (fetches : List (ℕ × FetchResult)) : MonitorDb :=
  fetches.foldl (fun db e => (processEndpoint cfg db e.1 e.2).1) ⟨[], []⟩

/-! ### One fetch -/

theorem processEndpoint_snapshots (db : MonitorDb) (endpointId : ℕ) (fetch : FetchResult) :
    (processEndpoint cfg db endpointId fetch).1.snapshots =
      db.snapshots ++ [snapshotOf cfg db.snapshots.length (endpointId, fetch)] := by
  simp only [processEndpoint]
  split
  · split
    · split <;> rfl
    · rfl
  · rfl

/-- The rows a fetch adds, given the latest snapshot of its endpoint. -/
def rowsAfter (prior : Option SnapshotRow) (id : ℕ) (e : ℕ × FetchResult) : List SchemaDiffRow :=
  match prior with
  | some prior =>
    if e.2.ok ∧ prior.schemaHash ≠ hashOf cfg e.2 ∧ ¬IsSentinel prior.schemaHash then
      (diffSchemas cfg.printable prior.oldNodes (nodesOf cfg e.2)).map (diffRow e.1 prior.id id)
    else []
  | none => []

/-- The latest snapshot of an endpoint. -/
def latest (snapshots : List SnapshotRow) (endpointId : ℕ) : Option SnapshotRow :=
  (snapshots.filter fun row => row.endpointId = endpointId).getLast?

/-- Every snapshot has a value in `normalized_schema_json`, so the prior snapshot is the latest. -/
theorem getPriorSnapshot_addSnapshot {db : MonitorDb} {row : SnapshotRow} {endpointId : ℕ}
    (h : ∀ r ∈ db.snapshots, r.id ≠ row.id ∧ r.normalizedSchemaJson.isSome) :
    getPriorSnapshot (db.addSnapshot row) endpointId row.id = latest db.snapshots endpointId := by
  have hold : (db.snapshots.filter fun r => r.endpointId = endpointId ∧ r.id ≠ row.id ∧
      r.normalizedSchemaJson.isSome) = db.snapshots.filter fun r => r.endpointId = endpointId := by
    refine List.filter_congr fun r hr => ?_
    simp [(h r hr).1, (h r hr).2]
  rw [getPriorSnapshot, MonitorDb.addSnapshot, List.filter_append, hold, latest]
  simp

theorem processEndpoint_diffs {db : MonitorDb} (endpointId : ℕ) (fetch : FetchResult)
    (h : ∀ r ∈ db.snapshots, r.id < db.snapshots.length ∧ r.normalizedSchemaJson.isSome) :
    (processEndpoint cfg db endpointId fetch).1.diffs = db.diffs ++
      rowsAfter cfg (latest db.snapshots endpointId) db.snapshots.length (endpointId, fetch) := by
  have hprior : getPriorSnapshot
      (db.addSnapshot (snapshotOf cfg db.snapshots.length (endpointId, fetch))) endpointId
      (snapshotOf cfg db.snapshots.length (endpointId, fetch)).id =
        latest db.snapshots endpointId :=
    getPriorSnapshot_addSnapshot fun r hr => ⟨Nat.ne_of_lt (h r hr).1, (h r hr).2⟩
  simp only [processEndpoint, hprior]
  cases hok : fetch.ok with
  | false =>
    have hnone : rowsAfter cfg (latest db.snapshots endpointId) db.snapshots.length
        (endpointId, fetch) = [] := by
      cases latest db.snapshots endpointId with
      | none => rfl
      | some prior => simp [rowsAfter, hok]
    rw [hnone, List.append_nil]
    rfl
  | true =>
    cases latest db.snapshots endpointId with
    | none => exact (List.append_nil _).symm
    | some prior =>
      simp only [if_true, rowsAfter, hok, true_and]
      split
      · rfl
      · exact (List.append_nil _).symm

/-! ### Any number of fetches -/

theorem monitor_append (fetches : List (ℕ × FetchResult)) (e : ℕ × FetchResult) :
    monitor cfg (fetches ++ [e]) = (processEndpoint cfg (monitor cfg fetches) e.1 e.2).1 := by
  rw [monitor, List.foldl_append]
  rfl

/-- Every fetch has its snapshot. -/
theorem monitor_snapshots (fetches : List (ℕ × FetchResult)) :
    (monitor cfg fetches).snapshots = fetches.mapIdx (snapshotOf cfg) := by
  induction fetches using List.reverseRecOn with
  | nil => rfl
  | append_singleton fetches e ih =>
    rw [monitor_append, processEndpoint_snapshots, List.mapIdx_append, ih, List.length_mapIdx]
    simp

theorem monitor_snapshot_ids (fetches : List (ℕ × FetchResult)) :
    ∀ r ∈ (monitor cfg fetches).snapshots,
      r.id < (monitor cfg fetches).snapshots.length ∧ r.normalizedSchemaJson.isSome := by
  intro r hr
  rw [monitor_snapshots] at hr ⊢
  obtain ⟨i, hi, rfl⟩ := List.mem_mapIdx.mp hr
  refine ⟨by simpa [snapshotOf] using hi, ?_⟩
  simp only [snapshotOf]
  split <;> rfl

theorem monitor_diffs_append (fetches : List (ℕ × FetchResult)) (e : ℕ × FetchResult) :
    (monitor cfg (fetches ++ [e])).diffs = (monitor cfg fetches).diffs ++
      rowsAfter cfg (latest (fetches.mapIdx (snapshotOf cfg)) e.1) fetches.length e := by
  rw [monitor_append, processEndpoint_diffs cfg e.1 e.2 (monitor_snapshot_ids cfg fetches),
    monitor_snapshots, List.length_mapIdx]

theorem newSnapshotId_of_mem_rowsAfter {prior : Option SnapshotRow} {id : ℕ}
    {e : ℕ × FetchResult} {row : SchemaDiffRow} (h : row ∈ rowsAfter cfg prior id e) :
    row.newSnapshotId = id := by
  cases prior with
  | none => simp [rowsAfter] at h
  | some prior =>
    rw [rowsAfter] at h
    split at h
    · obtain ⟨d, -, rfl⟩ := List.mem_map.mp h
      rfl
    · simp at h

/-- The rows belong to snapshots that are there. -/
theorem newSnapshotId_lt (fetches : List (ℕ × FetchResult)) :
    ∀ row ∈ (monitor cfg fetches).diffs, row.newSnapshotId < fetches.length := by
  induction fetches using List.reverseRecOn with
  | nil =>
    intro row hrow
    cases hrow
  | append_singleton fetches e ih =>
    intro row hrow
    rw [monitor_diffs_append, List.mem_append] at hrow
    rw [List.length_append, List.length_singleton]
    rcases hrow with hrow | hrow
    · exact Nat.lt_succ_of_lt (ih row hrow)
    · rw [newSnapshotId_of_mem_rowsAfter cfg hrow]
      exact Nat.lt_succ_self _

/-- The rows of a snapshot. -/
def MonitorDb.rowsOf (db : MonitorDb) (id : ℕ) : List SchemaDiffRow :=
  db.diffs.filter fun row => row.newSnapshotId = id

/-- **The rows of a snapshot** are those of its own fetch, with the latest snapshot before it. -/
theorem rowsOf_monitor (before : List (ℕ × FetchResult)) (e : ℕ × FetchResult)
    (after : List (ℕ × FetchResult)) :
    (monitor cfg (before ++ e :: after)).rowsOf before.length =
      rowsAfter cfg (latest (before.mapIdx (snapshotOf cfg)) e.1) before.length e := by
  -- earlier rows belong to earlier snapshots, later rows to later ones
  induction after using List.reverseRecOn with
  | nil =>
    have hold : (monitor cfg before).diffs.filter
        (fun row => row.newSnapshotId = before.length) = [] := by
      refine List.filter_eq_nil_iff.mpr fun row hrow => ?_
      simpa using Nat.ne_of_lt (newSnapshotId_lt cfg before row hrow)
    rw [MonitorDb.rowsOf, monitor_diffs_append, List.filter_append, hold, List.nil_append]
    refine List.filter_eq_self.mpr fun row hrow => ?_
    simpa using newSnapshotId_of_mem_rowsAfter cfg hrow
  | append_singleton after o ih =>
    have hnew : (rowsAfter cfg (latest ((before ++ e :: after).mapIdx (snapshotOf cfg)) o.1)
        (before ++ e :: after).length o).filter
          (fun row => row.newSnapshotId = before.length) = [] := by
      refine List.filter_eq_nil_iff.mpr fun row hrow => ?_
      rw [newSnapshotId_of_mem_rowsAfter cfg hrow]
      simp
    have hsplit : before ++ e :: (after ++ [o]) = (before ++ e :: after) ++ [o] := by simp
    rw [hsplit, MonitorDb.rowsOf, monitor_diffs_append, List.filter_append, hnew, List.append_nil]
    exact ih

theorem latest_mapIdx {endpointId : ℕ} {fetch : FetchResult}
    {before after : List (ℕ × FetchResult)} (h : ∀ o ∈ after, o.1 ≠ endpointId) :
    latest ((before ++ (endpointId, fetch) :: after).mapIdx (snapshotOf cfg)) endpointId =
      some (snapshotOf cfg before.length (endpointId, fetch)) := by
  have hafter : (after.mapIdx fun i => snapshotOf cfg (i + 1 + before.length)).filter
      (fun row => row.endpointId = endpointId) = [] := by
    refine List.filter_eq_nil_iff.mpr fun row hrow => ?_
    obtain ⟨i, hi, rfl⟩ := List.mem_mapIdx.mp hrow
    show ¬decide (after[i].1 = endpointId) = true
    rw [decide_eq_true_iff]
    exact h _ (List.getElem_mem hi)
  rw [latest, List.mapIdx_append, List.mapIdx_cons, List.filter_append, List.filter_cons]
  simp only [hafter]
  simp [snapshotOf]

/-! ### Drift across failures -/

/-- After `before`, `g` is a successful fetch of the endpoint, and the next one is `f`, with
`between` in between. -/
structure Successive (fetches : List (ℕ × FetchResult)) (endpointId : ℕ)
    (before : List (ℕ × FetchResult)) (g : FetchResult) (between : List (ℕ × FetchResult))
    (f : FetchResult) : Prop where
  split : ∃ after, fetches = before ++ (endpointId, g) :: (between ++ (endpointId, f) :: after)
  old : g.ok
  new : f.ok
  failed : ∀ o ∈ between, o.1 = endpointId → o.2.ok = false

/-- The last element with a property. -/
theorem exists_last {α : Type*} (p : α → Prop) {l : List α} (h : ∃ a ∈ l, p a) :
    ∃ l₁ a l₂, l = l₁ ++ a :: l₂ ∧ p a ∧ ∀ b ∈ l₂, ¬p b := by
  induction l using List.reverseRecOn with
  | nil => simp at h
  | append_singleton l b ih =>
    by_cases hb : p b
    · exact ⟨l, b, [], rfl, hb, by simp⟩
    · obtain ⟨a, ha, hpa⟩ := h
      have hal : a ∈ l := by
        rcases List.mem_append.mp ha with ha | ha
        · exact ha
        · exact absurd (List.mem_singleton.mp ha ▸ hpa) hb
      obtain ⟨l₁, c, l₂, rfl, hc, hl₂⟩ := ih ⟨a, hal, hpa⟩
      refine ⟨l₁, c, l₂ ++ [b], by simp, hc, fun d hd => ?_⟩
      rcases List.mem_append.mp hd with hd | hd
      · exact hl₂ d hd
      · exact List.mem_singleton.mp hd ▸ hb

/-- A hexadecimal digest is no sentinel. -/
theorem not_isSentinel {hash : String} (h : ∀ c ∈ hash.toList, c ∈ "0123456789abcdef".toList) :
    ¬IsSentinel hash := by
  rintro ⟨rest, hrest⟩
  have hmem : 'F' ∈ hash.toList := by
    rw [← hrest]
    exact List.mem_append_left _ (by decide)
  exact absurd (h 'F' hmem) (by decide)

theorem isSentinel_sentinelHash (fetch : FetchResult) : IsSentinel (sentinelHash fetch) :=
  ⟨(fetch.error.getD "None").toList, by rw [sentinelHash, String.toList_append]⟩

/-- The rows of a success whose schema differs from that of the success before it: all of them, or
none if the endpoint has failed in between. -/
theorem rowsOf_successive
    (hhex : ∀ text, ∀ c ∈ (cfg.sha256 text).toList, c ∈ "0123456789abcdef".toList)
    {fetches : List (ℕ × FetchResult)} {endpointId : ℕ} {before between : List (ℕ × FetchResult)}
    {g f : FetchResult} (h : Successive fetches endpointId before g between f)
    (hne : hashOf cfg g ≠ hashOf cfg f) :
    (monitor cfg fetches).rowsOf (before.length + 1 + between.length) =
      if ∃ o ∈ between, o.1 = endpointId then []
      else (diffSchemas cfg.printable (nodesOf cfg g) (nodesOf cfg f)).map
        (diffRow endpointId before.length (before.length + 1 + between.length)) := by
  obtain ⟨after, rfl⟩ := h.split
  have hsplit : before ++ (endpointId, g) :: (between ++ (endpointId, f) :: after) =
      (before ++ (endpointId, g) :: between) ++ (endpointId, f) :: after := by simp
  have hlen : (before ++ (endpointId, g) :: between).length =
      before.length + 1 + between.length := by
    rw [List.length_append, List.length_cons]
    omega
  rw [hsplit, ← hlen, rowsOf_monitor]
  by_cases hex : ∃ o ∈ between, o.1 = endpointId
  · obtain ⟨l₁, ⟨_, o⟩, l₂, rfl, rfl, hl₂⟩ := exists_last (fun o : ℕ × FetchResult => o.1 = endpointId) hex
    have hfail : o.ok = false := h.failed _ (by simp) rfl
    have hmid : ∀ e : ℕ, before ++ (e, g) :: (l₁ ++ (e, o) :: l₂) =
        (before ++ (e, g) :: l₁) ++ (e, o) :: l₂ := by simp
    rw [if_pos hex, hmid, latest_mapIdx cfg hl₂, rowsAfter]
    refine if_neg fun hc => hc.2.2 ?_
    rw [snapshotOf, if_neg (by simp [hfail])]
    exact isSentinel_sentinelHash o
  · have hno : ∀ o ∈ between, o.1 ≠ endpointId := fun o ho he => hex ⟨o, ho, he⟩
    have hold : (snapshotOf cfg before.length (endpointId, g)).schemaHash = hashOf cfg g :=
      if_pos h.old
    have hnodes : (snapshotOf cfg before.length (endpointId, g)).oldNodes = nodesOf cfg g := by
      simp [SnapshotRow.oldNodes, snapshotOf, h.old]
    rw [if_neg hex, latest_mapIdx cfg hno, rowsAfter, hold, hnodes,
      if_pos ⟨h.new, hne, not_isSentinel (hhex _)⟩]
    rfl

/-- **When no drift is lost.** Every success of an endpoint whose hash differs from that of the
success before it has the rows of their diff if and only if the diff is empty wherever the endpoint
has failed in between. -/
theorem drift_recorded_iff
    (hhex : ∀ text, ∀ c ∈ (cfg.sha256 text).toList, c ∈ "0123456789abcdef".toList)
    (fetches : List (ℕ × FetchResult)) (endpointId : ℕ) :
    (∀ before g between f, Successive fetches endpointId before g between f →
      hashOf cfg g ≠ hashOf cfg f →
      (monitor cfg fetches).rowsOf (before.length + 1 + between.length) =
        (diffSchemas cfg.printable (nodesOf cfg g) (nodesOf cfg f)).map
          (diffRow endpointId before.length (before.length + 1 + between.length))) ↔
    ∀ before g between f, Successive fetches endpointId before g between f →
      hashOf cfg g ≠ hashOf cfg f → (∃ o ∈ between, o.1 = endpointId) →
      diffSchemas cfg.printable (nodesOf cfg g) (nodesOf cfg f) = [] := by
  refine forall_congr' fun before => forall_congr' fun g => forall_congr' fun between =>
    forall_congr' fun f => forall_congr' fun h => forall_congr' fun hne => ?_
  rw [rowsOf_successive cfg hhex h hne]
  by_cases hex : ∃ o ∈ between, o.1 = endpointId
  · simp only [hex, if_true, true_imp_iff]
    rw [eq_comm, List.map_eq_nil_iff]
  · simp [hex]

end Runner

/-! ### Samples -/

/-- The hash is SHA-256 on the texts of the two schemas below, which are normalized. -/
def sampleMonitor : MonitorConfig where
  sha256 text :=
    if text = "[\x7b\"array_item_type\":null,\"enum_values\":null,\"nullable\":false," ++
        "\"path\":\"a\",\"required\":true,\"type\":\"integer\"\x7d]" then
      "4820ece8d3b96b22da666d3f7aab400cbd7bf522a6472054bd61d6217ab753dc"
    else if text = "[\x7b\"array_item_type\":null,\"enum_values\":[\"x\"],\"nullable\":false," ++
        "\"path\":\"a\",\"required\":true,\"type\":\"string\"\x7d]" then
      "c77139135e342f4ffc3ae83481220e6580175614311a15b3db5357a4837b398e"
    else ""
  printable _ := true
  normalize body := body

def sampleOk : FetchResult := ⟨.obj [("a", .int 1)], none⟩

def sampleChanged : FetchResult := ⟨.obj [("a", .str "x")], none⟩

def sampleFailed : FetchResult := ⟨.null, some "timeout after 10s"⟩

theorem sampleMonitor_hex (text : String) :
    ∀ c ∈ (sampleMonitor.sha256 text).toList, c ∈ "0123456789abcdef".toList := by
  have hhex : (sampleMonitor.sha256 text).toList.all
      (fun c => decide (c ∈ "0123456789abcdef".toList)) = true := by
    simp only [sampleMonitor]
    split_ifs <;> decide
  exact fun c hc => of_decide_eq_true (List.all_eq_true.mp hhex c hc)

/-- Without a failure in between the change has its row. -/
theorem drift_recorded_two :
    hashOf sampleMonitor sampleOk ≠ hashOf sampleMonitor sampleChanged ∧
    (monitor sampleMonitor [(7, sampleOk), (7, sampleChanged)]).rowsOf 1 =
      (diffSchemas (fun _ => true) (nodesOf sampleMonitor sampleOk)
        (nodesOf sampleMonitor sampleChanged)).map (diffRow 7 0 1) ∧
    (diffSchemas (fun _ => true) (nodesOf sampleMonitor sampleOk)
      (nodesOf sampleMonitor sampleChanged)).map Diff.changeType = [.typeChanged] := by
  have hne : hashOf sampleMonitor sampleOk ≠ hashOf sampleMonitor sampleChanged := by
    decide +kernel
  have hnone : ∀ before g between f,
      Successive [(7, sampleOk), (7, sampleChanged)] 7 before g between f → between = [] := by
    rintro before g between f ⟨⟨after, hsplit⟩, -, -, -⟩
    have hlen := congrArg List.length hsplit
    simp only [List.length_cons, List.length_nil, List.length_append] at hlen
    exact List.eq_nil_of_length_eq_zero (by omega)
  have hsuccessive : Successive [(7, sampleOk), (7, sampleChanged)] 7 [] sampleOk [] sampleChanged :=
    ⟨⟨[], rfl⟩, rfl, rfl, by simp⟩
  refine ⟨hne, (drift_recorded_iff sampleMonitor sampleMonitor_hex _ 7).mpr ?_ [] sampleOk []
    sampleChanged hsuccessive hne, by decide⟩
  rintro before g between f h - ⟨o, ho, -⟩
  rw [hnone before g between f h] at ho
  exact absurd ho List.not_mem_nil

/-- A failure in between, and the change has no row. -/
theorem failure_hides_drift :
    Successive [(7, sampleOk), (7, sampleFailed), (7, sampleChanged)] 7 [] sampleOk
      [(7, sampleFailed)] sampleChanged ∧
    hashOf sampleMonitor sampleOk ≠ hashOf sampleMonitor sampleChanged ∧
    (diffSchemas (fun _ => true) (nodesOf sampleMonitor sampleOk)
      (nodesOf sampleMonitor sampleChanged)).map Diff.changeType = [.typeChanged] ∧
    (monitor sampleMonitor [(7, sampleOk), (7, sampleFailed), (7, sampleChanged)]).rowsOf 2 = [] := by
  refine ⟨⟨⟨[], rfl⟩, rfl, rfl, ?_⟩, by decide +kernel, by decide +kernel, ?_⟩
  · simp [sampleFailed, FetchResult.ok]
  · exact List.eq_nil_of_length_eq_zero (by decide +kernel)

end Driftgate.Monitor
