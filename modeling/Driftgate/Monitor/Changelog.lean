import Driftgate.Lib.Sessions
import Driftgate.Lib.Windows
import Driftgate.Monitor.Runner
import Driftgate.Runtime.Tables

/-!
# Changelogs

`POST /api/changelogs/generate` writes a changelog for the diffs of a snapshot, with a model or from
a template. It first looks for one with the same snapshot and the same set of diffs, so that the
model is asked once. The new row is flushed and refreshed, and nobody commits: the session that the
handler is given closes and rolls it back. So a new changelog is gone when the response is sent. The
next request finds none, asks the model again and answers with another id, and the id of the
response is not found by `GET /api/changelogs/{changelog_id}`.

The secret of the administrator is checked ahead of the handler.
-/

namespace Driftgate.Monitor

open Driftgate.Sessions Driftgate.Transition Driftgate.Windows
open Driftgate.Runtime (Uuid Time uuidText)

/-! ### Tables -/

/-- A row of `schema_diffs` with its key. -/
structure DiffRecord extends SchemaDiffRow where
  id : Uuid

/-- A row of `changelogs`. The response has the same fields. -/
structure ChangelogRow where
  id : Uuid
  endpointId : Uuid
  snapshotId : Uuid
  diffIds : List String
  diffSetHash : String
  generatedText : String
  modelName : Option String
  createdAt : Time
  deriving DecidableEq

structure ChangelogDb where
  snapshots : List SnapshotRow
  diffs : List DiffRecord
  changelogs : List ChangelogRow

inductive ChangelogWrite
  | insert (row : ChangelogRow)

def ChangelogWrite.apply : ChangelogWrite → ChangelogDb → ChangelogDb
  | insert row, db => { db with changelogs := db.changelogs ++ [row] }

/-- `HTTPException` -/
structure HttpError where
  status : ℕ
  detail : String
  deriving DecidableEq

/-- The settings, and what is taken from elsewhere: the hash, and the JSON text of the diffs. -/
structure ChangelogConfig where
  sha256 : String → String
  dumps : List Diff → String
  anthropicApiKey : Option String
  llmModel : String

/-- A handler of the router. It asks the model with the text of the diffs. -/
abbrev ChangelogHandler (α : Type) := Handler ChangelogDb ChangelogWrite String HttpError α

/-! ### The text -/

/-- `_diffs_to_core` -/
def diffsToCore (diffRows : List DiffRecord) : List Diff := diffRows.map fun d => d.diff

/-- The section of one severity. -/
def templateSection (diffs : List Diff) (sev title : String) : List String :=
  let group := diffs.filter fun d => d.severity = sev
  if group.isEmpty then []
  else ("## " ++ title ++ " (" ++ toString group.length ++ ")") ::
    group.map fun d => "- `" ++ d.path ++ "` — " ++ d.message

/-- `_template_changelog` -/
def templateChangelog (diffs : List Diff) : String :=
  "\n".intercalate (templateSection diffs "breaking" "Breaking" ++
    templateSection diffs "risky" "Risky" ++ templateSection diffs "safe" "Safe")

/-- The quotation mark of a path. -/
def backtick : Char := Char.ofNat 96

/-- `re.findall`: what stands between two marks; the second of two marks in a row opens again. -/
def quotedFrom : Option (List Char) → List Char → List String
  | _, [] => []
  | none, c :: rest => quotedFrom (if c = backtick then some [] else none) rest
  | some quoted, c :: rest =>
    if c ≠ backtick then quotedFrom (some (quoted ++ [c])) rest
    else if quoted.isEmpty then quotedFrom (some []) rest
    else String.ofList quoted :: quotedFrom none rest

/-- `_validate_llm_output` -/
def validateLlmOutput (text : String) (diffs : List Diff) : Bool :=
  text ≠ "" && text.length ≤ 4000 && decide ("##".toList <:+: text.toList) &&
    (quotedFrom none text.toList).all fun path =>
      if path.toList.contains '.' || path.toList.contains '[' then
        diffs.any fun d => d.path = path
      else true

/-! ### Generating -/

/-- The JSON text of the sorted ids, without blanks. -/
def dumpsIds (ids : List String) : String :=
  "[" ++ ",".intercalate (ids.map fun id => "\"" ++ id ++ "\"") ++ "]"

/-- `_hash_diff_set` -/
def hashDiffSet (cfg : ChangelogConfig) (diffs : List DiffRecord) : String :=
  cfg.sha256 (dumpsIds ((diffs.map fun d => uuidText d.id).insertionSort (· ≤ ·)))

/-- `scalar_one_or_none` -/
def scalarOneOrNone {α : Type} : List α → ChangelogHandler (Option α)
  | [] => pure none
  | [a] => pure (some a)
  | _ => Handler.throw ⟨500, "Internal Server Error"⟩

/-- The rows of the cache lookup. -/
def ChangelogDb.cachedRows (db : ChangelogDb) (snapshotId : Uuid) (hash : String) :
    List ChangelogRow :=
  db.changelogs.filter fun c => c.snapshotId = snapshotId ∧ c.diffSetHash = hash

/-- The text and the name of the model; `answer` is what `_call_anthropic` returns if it is called. -/
def changelogText (cfg : ChangelogConfig) (answer : Option String) (diffs : List Diff) :
    ChangelogHandler (String × Option String) :=
  if cfg.anthropicApiKey.any fun key => key ≠ "" then do
    Handler.ask (cfg.dumps diffs)
    match answer.filter fun text => validateLlmOutput text diffs with
    | some text => pure (text, some cfg.llmModel)
    | none => pure (templateChangelog diffs, none)
  else pure (templateChangelog diffs, none)

/-- A request to generate: the order in which the database returns the diffs, what the model
answers, and the time of the transaction. -/
structure GenerateRequest where
  snapshotId : Uuid
  arrange : List DiffRecord → List DiffRecord
  arrange_perm : ∀ l, (arrange l).Perm l
  answer : Option String
  now : Time

/-- `generate_changelog` of `app.core.changelog` -/
def generateChangelog (cfg : ChangelogConfig) (req : GenerateRequest) (snapshot : SnapshotRow)
    (diffRows : List DiffRecord) : ChangelogHandler ChangelogRow := do
  let diffSetHash := hashDiffSet cfg diffRows
  let rows ← Handler.read ChangelogWrite.apply fun db => db.cachedRows snapshot.id diffSetHash
  match ← scalarOneOrNone rows with
  | some cached => pure cached
  | none => do
    let (text, modelName) ← changelogText cfg req.answer (diffsToCore diffRows)
    let id ← Handler.newName
    let changelog : ChangelogRow :=
      { id := id
        endpointId := snapshot.endpointId
        snapshotId := snapshot.id
        diffIds := diffRows.map fun d => uuidText d.id
        diffSetHash := diffSetHash
        generatedText := text
        modelName := modelName
        createdAt := req.now }
    Handler.flush (.insert changelog)
    pure changelog

/-- The diffs whose new snapshot is the given one. -/
def ChangelogDb.diffsOf (db : ChangelogDb) (snapshotId : Uuid) : List DiffRecord :=
  db.diffs.filter fun d => d.newSnapshotId = snapshotId

/-- `POST /api/changelogs/generate` -/
def generate (cfg : ChangelogConfig) (req : GenerateRequest) : ChangelogHandler ChangelogRow := do
  let found ← Handler.read ChangelogWrite.apply fun db =>
    db.snapshots.find? fun row => row.id = req.snapshotId
  match found with
  | none => Handler.throw ⟨404, "snapshot not found"⟩
  | some snapshot =>
    if snapshot.oldNodes.isEmpty then
      Handler.throw ⟨422, "snapshot has no schema (fetch failed)"⟩
    else do
      let diffRows ← Handler.read ChangelogWrite.apply fun db => req.arrange (db.diffsOf snapshot.id)
      if diffRows.isEmpty then Handler.throw ⟨422, "no diffs found for snapshot"⟩
      else generateChangelog cfg req snapshot diffRows

/-- `GET /api/changelogs/{changelog_id}` -/
def getChangelog (changelogId : Uuid) : ChangelogHandler ChangelogRow := do
  let found ← Handler.read ChangelogWrite.apply fun db =>
    db.changelogs.find? fun c => c.id = changelogId
  match found with
  | none => Handler.throw ⟨404, "changelog not found"⟩
  | some c => pure c

/-- `GET /api/endpoints/{endpoint_id}/changelogs` -/
def listChangelogsForEndpoint (endpointId : Uuid) (limit : ℕ) :
    ChangelogHandler (List ChangelogRow) :=
  Handler.read ChangelogWrite.apply fun db =>
    ((db.changelogs.filter fun c => c.endpointId = endpointId).insertionSort
      fun a b => b.createdAt ≤ a.createdAt).take limit

/-! ### The server -/

abbrev ChangelogServer := Server ChangelogDb String

inductive ChangelogRequest
  | generate (req : GenerateRequest)
  | get (changelogId : Uuid)
  | list (endpointId : Uuid) (limit : ℕ)

/-- What is left after a request. -/
def changelogStep (cfg : ChangelogConfig) (v : ChangelogServer) : ChangelogRequest →
    Option ChangelogServer
  | .generate req => some (serve (generate cfg req) v).2
  | .get changelogId => some (serve (getChangelog changelogId) v).2
  | .list endpointId limit => some (serve (listChangelogsForEndpoint endpointId limit) v).2

/-- The keys of `changelogs`: every id has been given out, and there is one row for a snapshot and a
set of diffs. -/
structure Keyed (v : ChangelogServer) : Prop where
  named : ∀ c ∈ v.db.changelogs, c.id < v.fresh
  ids : (v.db.changelogs.map fun c => c.id).Nodup
  unique : v.db.changelogs.Pairwise fun a b =>
    ¬(a.snapshotId = b.snapshotId ∧ a.diffSetHash = b.diffSetHash)

/-! ### Nothing is committed -/

theorem scalarOneOrNone_unsaved {α : Type} (l : List α) : Unsaved (scalarOneOrNone l) := by
  match l with
  | [] => exact Unsaved.pure _
  | [a] => exact Unsaved.pure _
  | _ :: _ :: _ => exact Unsaved.throw _

theorem changelogText_unsaved (cfg : ChangelogConfig) (answer : Option String)
    (diffs : List Diff) : Unsaved (changelogText cfg answer diffs) := by
  rw [changelogText]
  split
  · refine (Unsaved.ask _).bind fun _ => ?_
    split
    · exact Unsaved.pure _
    · exact Unsaved.pure _
  · exact Unsaved.pure _

theorem generateChangelog_unsaved (cfg : ChangelogConfig) (req : GenerateRequest)
    (snapshot : SnapshotRow) (diffRows : List DiffRecord) :
    Unsaved (generateChangelog cfg req snapshot diffRows) := by
  refine (Unsaved.read _ _).bind fun rows => (scalarOneOrNone_unsaved rows).bind fun cached => ?_
  cases cached with
  | some cached => exact Unsaved.pure _
  | none =>
    refine (changelogText_unsaved _ _ _).bind fun text => Unsaved.newName.bind fun id => ?_
    exact (Unsaved.flush _).bind fun _ => Unsaved.pure _

theorem generate_unsaved (cfg : ChangelogConfig) (req : GenerateRequest) :
    Unsaved (generate cfg req) := by
  refine (Unsaved.read _ _).bind fun found => ?_
  cases found with
  | none => exact Unsaved.throw _
  | some snapshot =>
    dsimp only
    split
    · exact Unsaved.throw _
    · refine (Unsaved.read _ _).bind fun diffRows => ?_
      split
      · exact Unsaved.throw _
      · exact generateChangelog_unsaved _ _ _ _

theorem getChangelog_unsaved (changelogId : Uuid) : Unsaved (getChangelog changelogId) := by
  refine (Unsaved.read _ _).bind fun found => ?_
  cases found with
  | none => exact Unsaved.throw _
  | some c => exact Unsaved.pure _

/-- **No request changes the tables.** -/
theorem changelogStep_db {cfg : ChangelogConfig} {v w : ChangelogServer} {r : ChangelogRequest}
    (h : changelogStep cfg v r = some w) : w.db = v.db ∧ v.fresh ≤ w.fresh := by
  cases r with
  | generate req =>
    cases h
    exact ⟨(generate_unsaved cfg req).serve_db v, (generate_unsaved cfg req).serve_fresh v⟩
  | get changelogId =>
    cases h
    exact ⟨(getChangelog_unsaved changelogId).serve_db v,
      (getChangelog_unsaved changelogId).serve_fresh v⟩
  | list endpointId limit =>
    cases h
    exact ⟨rfl, le_rfl⟩

/-- A run of requests leaves the tables as they are. -/
theorem exec_changelog_db {cfg : ChangelogConfig} {v w : ChangelogServer}
    {rs : List ChangelogRequest} (h : exec (changelogStep cfg) v rs = some w) :
    w.db = v.db ∧ v.fresh ≤ w.fresh := by
  induction rs generalizing v with
  | nil =>
    cases h
    exact ⟨rfl, le_rfl⟩
  | cons r rs ih =>
    obtain ⟨u, hu, h⟩ := Option.bind_eq_some_iff.mp h
    obtain ⟨hdb, hfresh⟩ := changelogStep_db hu
    obtain ⟨hdb', hfresh'⟩ := ih h
    exact ⟨hdb'.trans hdb, hfresh.trans hfresh'⟩

theorem Keyed.exec {cfg : ChangelogConfig} {v w : ChangelogServer} {rs : List ChangelogRequest}
    (hv : Keyed v) (h : exec (changelogStep cfg) v rs = some w) : Keyed w := by
  obtain ⟨hdb, hfresh⟩ := exec_changelog_db h
  constructor
  · intro c hc
    rw [hdb] at hc
    exact (hv.named c hc).trans_le hfresh
  · rw [hdb]
    exact hv.ids
  · rw [hdb]
    exact hv.unique

end Driftgate.Monitor
