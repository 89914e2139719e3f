import Driftgate.Lib.Exceptions
import Mathlib.Data.List.Sort
import Mathlib.Data.String.Basic

/-!
# Runtime migrations

`scripts/apply_runtime_migrations` executes the files of a directory in the order of their names,
each in one transaction, and records their names; a file that is recorded is passed over. When a
statement raises because its object is there already, the transaction is rolled back and the file is
recorded nevertheless. What the other statements of the file would have created is then missing,
and no later run of the script looks at the file again.

A statement creates or changes one object of the database. Dropping a constraint in order to add it
again counts as one statement.
-/

namespace Driftgate.Scripts

open Driftgate.Lib

/-! ### Files and statements -/

/-- What a statement raises. -/
inductive PgError
  | duplicateObject
  | duplicateTable
  | undefinedTable
  | undefinedColumn
  | other (sqlstate : String)
  deriving DecidableEq

/-- A statement with the object it is about, and how it raises in a database with some objects. When
it does not raise, the object is there. -/
structure Statement where
  object : String
  raises : List String → Option PgError

structure MigrationFile where
  name : String
  statements : List Statement

/-- The objects of the statements. -/
def MigrationFile.objects (f : MigrationFile) : List String := f.statements.map Statement.object

/-- The objects of the database, and `runtime_schema_migrations`. -/
structure MigrationState where
  objects : List String
  recorded : List String := []

/-- The database in which the file is recorded too. -/
def MigrationState.record (s : MigrationState) (f : MigrationFile) : MigrationState :=
  { s with recorded := f.name :: s.recorded }

/-! ### The script -/

/-- `cur.execute(sql)`: the statements one after the other, in the open transaction. -/
def execute : List Statement → List String → Except PgError (List String)
  | [], objects => .ok objects
  | st :: sts, objects =>
    match st.raises objects with
    | some e => .error e
    | none => execute sts (st.object :: objects)

/-- `except (errors.DuplicateObject, errors.DuplicateTable)` -/
def PgError.isDuplicate : PgError → Bool
  | duplicateObject => true
  | duplicateTable => true
  | _ => false

/-- The body of the loop over the files. -/
def applyFile (s : MigrationState) (f : MigrationFile) : Except PgError MigrationState :=
  if f.name ∈ s.recorded then .ok s
  else match execute f.statements s.objects with
    | .ok objects => .ok (MigrationState.record { s with objects := objects } f)
    -- the rollback leaves the objects as they were
    | .error e => if e.isDuplicate then .ok (s.record f) else .error e

/-- `sorted(migrations_dir.glob("*.sql"))` -/
def sortedFiles (files : List MigrationFile) : List MigrationFile :=
  files.insertionSort fun f g => f.name ≤ g.name

/-- `main`, on a database that exists. -/
def applyRuntimeMigrations (files : List MigrationFile) (s : MigrationState) :
    Except PgError MigrationState :=
  (sortedFiles files).foldlM applyFile s

/-! ### One file -/

/-- The statements of the file are executed and committed. -/
def GoesThrough (s : MigrationState) (f : MigrationFile) : Prop :=
  f.name ∉ s.recorded ∧ ∃ objects, execute f.statements s.objects = .ok objects

theorem mem_of_execute {sts : List Statement} {objects objects' : List String}
    (h : execute sts objects = .ok objects') (o : String) :
    o ∈ objects' ↔ o ∈ objects ∨ o ∈ sts.map Statement.object := by
  induction sts generalizing objects with
  | nil =>
    rw [← Except.ok.inj h]
    simp
  | cons st sts ih =>
    rw [execute] at h
    split at h
    · cases h
    · rw [ih h, List.mem_cons, List.map_cons, List.mem_cons, or_comm (a := o = st.object), or_assoc]

/-- **One file.** It is recorded, and its objects are there if it goes through; otherwise nothing
else changes. -/
theorem applyFile_cases {s t : MigrationState} {f : MigrationFile} (h : applyFile s f = .ok t) :
    (∀ name, name ∈ t.recorded ↔ name ∈ s.recorded ∨ name = f.name) ∧
      (GoesThrough s f ∧ (∀ o, o ∈ t.objects ↔ o ∈ s.objects ∨ o ∈ f.objects) ∨
        ¬GoesThrough s f ∧ t.objects = s.objects) := by
  have hrecord : ∀ (s' : MigrationState) (name : String), s'.recorded = s.recorded →
      (name ∈ (s'.record f).recorded ↔ name ∈ s.recorded ∨ name = f.name) := by
    intro s' name hs'
    show name ∈ f.name :: s'.recorded ↔ _
    rw [hs', List.mem_cons, or_comm]
  rw [applyFile] at h
  by_cases hdone : f.name ∈ s.recorded
  · -- passed over
    rw [if_pos hdone] at h
    cases h
    refine ⟨fun name => ⟨.inl, ?_⟩, .inr ⟨fun hgo => hgo.1 hdone, rfl⟩⟩
    rintro (hname | rfl)
    · exact hname
    · exact hdone
  · rw [if_neg hdone] at h
    cases hexecute : execute f.statements s.objects with
    | ok objects =>
      rw [hexecute] at h
      cases h
      exact ⟨fun name => hrecord _ name rfl,
        .inl ⟨⟨hdone, objects, hexecute⟩, fun o => mem_of_execute hexecute o⟩⟩
    | error e =>
      rw [hexecute] at h
      have hno : ¬GoesThrough s f := by
        rintro ⟨-, objects, hok⟩
        rw [hexecute] at hok
        cases hok
      by_cases hduplicate : e.isDuplicate = true
      · dsimp only at h
        rw [if_pos hduplicate] at h
        cases h
        exact ⟨fun name => hrecord _ name rfl, .inr ⟨hno, rfl⟩⟩
      · dsimp only at h
        rw [if_neg hduplicate] at h
        cases h

/-! ### A run of the script -/

/-- In the run over the files from `s`, the turn of `f` comes in the state `u`, with the files
`after` behind it. -/
def Turn (files : List MigrationFile) (s u : MigrationState) (f : MigrationFile)
    (after : List MigrationFile) : Prop :=
  ∃ before, files = before ++ f :: after ∧ before.foldlM applyFile s = .ok u

theorem turn_cons {files after : List MigrationFile} {s u : MigrationState} {f g : MigrationFile} :
    Turn (f :: files) s u g after ↔ (u = s ∧ g = f ∧ after = files) ∨
      ∃ t, applyFile s f = .ok t ∧ Turn files t u g after := by
  constructor
  · rintro ⟨before, hsplit, hrun⟩
    cases before with
    | nil =>
      obtain ⟨hg, hafter⟩ := List.cons.inj hsplit
      exact .inl ⟨(Except.ok.inj hrun).symm, hg.symm, hafter.symm⟩
    | cons f' before =>
      obtain ⟨rfl, htail⟩ := List.cons.inj hsplit
      obtain ⟨t, ht, hrun⟩ := foldlM_cons_eq_ok.mp hrun
      exact .inr ⟨t, ht, before, htail, hrun⟩
  · rintro (⟨rfl, rfl, rfl⟩ | ⟨t, ht, before, rfl, hrun⟩)
    · exact ⟨[], rfl, rfl⟩
    · exact ⟨f :: before, rfl, foldlM_cons_eq_ok.mpr ⟨t, ht, hrun⟩⟩

/-- Some file goes through when its turn comes, and creates the object. -/
def CreatedIn (files : List MigrationFile) (s : MigrationState) (o : String) : Prop :=
  ∃ u f after, Turn files s u f after ∧ GoesThrough u f ∧ o ∈ f.objects

theorem createdIn_cons {files : List MigrationFile} {s t : MigrationState} {f : MigrationFile}
    (ht : applyFile s f = .ok t) (o : String) :
    CreatedIn (f :: files) s o ↔ GoesThrough s f ∧ o ∈ f.objects ∨ CreatedIn files t o := by
  constructor
  · rintro ⟨u, g, after, hturn, hgo, ho⟩
    obtain ⟨rfl, rfl, rfl⟩ | ⟨t', ht', hturn⟩ := turn_cons.mp hturn
    · exact .inl ⟨hgo, ho⟩
    · rw [ht] at ht'
      cases ht'
      exact .inr ⟨u, g, after, hturn, hgo, ho⟩
  · rintro (⟨hgo, ho⟩ | ⟨u, g, after, hturn, hgo, ho⟩)
    · exact ⟨s, f, files, turn_cons.mpr (.inl ⟨rfl, rfl, rfl⟩), hgo, ho⟩
    · exact ⟨u, g, after, turn_cons.mpr (.inr ⟨t, ht, hturn⟩), hgo, ho⟩

/-- **A run.** What is there at the end was there before or has been created. -/
theorem mem_objects_iff {files : List MigrationFile} {s t : MigrationState}
    (h : files.foldlM applyFile s = .ok t) (o : String) :
    o ∈ t.objects ↔ o ∈ s.objects ∨ CreatedIn files s o := by
  induction files generalizing s with
  | nil =>
    have hnone : ¬CreatedIn [] s o := by
      rintro ⟨u, f, after, ⟨before, hsplit, -⟩, -⟩
      exact absurd hsplit.symm (by simp)
    rw [← Except.ok.inj h]
    exact (or_iff_left hnone).symm
  | cons f files ih =>
    obtain ⟨u, hu, h⟩ := foldlM_cons_eq_ok.mp h
    rw [ih h, createdIn_cons hu]
    obtain ⟨-, ⟨hgo, hobjects⟩ | ⟨hgo, hobjects⟩⟩ := applyFile_cases hu
    · rw [hobjects, or_assoc, and_iff_right hgo]
    · have hnot : ¬(GoesThrough s f ∧ o ∈ f.objects) := fun hand => hgo hand.1
      rw [hobjects, or_iff_right hnot]

theorem recorded_of_run {files : List MigrationFile} {s t : MigrationState}
    (h : files.foldlM applyFile s = .ok t) {name : String}
    (hname : name ∈ s.recorded ∨ ∃ f ∈ files, f.name = name) : name ∈ t.recorded := by
  induction files generalizing s with
  | nil =>
    rw [← Except.ok.inj h]
    exact hname.resolve_right (by simp)
  | cons f files ih =>
    obtain ⟨u, hu, h⟩ := foldlM_cons_eq_ok.mp h
    obtain ⟨hrecorded, -⟩ := applyFile_cases hu
    refine ih h ?_
    rw [hrecorded]
    obtain hname | ⟨g, hg, hname⟩ := hname
    · exact .inl (.inl hname)
    · obtain rfl | hg := List.mem_cons.mp hg
      · exact .inl (.inr hname.symm)
      · exact .inr ⟨g, hg, hname⟩

/-- What is there when the turn of a file comes, and what comes behind it. -/
theorem mem_objects_of_turn {files after : List MigrationFile} {s t u : MigrationState}
    {f : MigrationFile} (h : files.foldlM applyFile s = .ok t) (hturn : Turn files s u f after)
    (o : String) : o ∈ t.objects ↔ o ∈ u.objects ∨ CreatedIn (f :: after) u o := by
  obtain ⟨before, rfl, hrun⟩ := hturn
  obtain ⟨u', hu', h⟩ := foldlM_append_eq_ok.mp h
  rw [hrun] at hu'
  cases hu'
  exact mem_objects_iff h o

theorem exists_turn {files : List MigrationFile} {s t : MigrationState}
    (h : files.foldlM applyFile s = .ok t) {f : MigrationFile} (hf : f ∈ files) :
    ∃ u after, Turn files s u f after := by
  obtain ⟨before, after, rfl⟩ := List.append_of_mem hf
  obtain ⟨u, hu, -⟩ := foldlM_append_eq_ok.mp h
  exact ⟨u, after, before, rfl, hu⟩

/-- **When a recorded migration took effect.** After the script has finished, the objects of all the
recorded files are there if and only if each file that does not go through at its turn finds its
objects there, or a later file that goes through creates them. -/
theorem recorded_took_effect_iff {files : List MigrationFile} {s t : MigrationState}
    (h : applyRuntimeMigrations files s = .ok t) :
    (∀ f ∈ files, f.name ∈ t.recorded → ∀ o ∈ f.objects, o ∈ t.objects) ↔
      ∀ u f after, Turn (sortedFiles files) s u f after → ¬GoesThrough u f →
        ∀ o ∈ f.objects, o ∈ u.objects ∨ CreatedIn (f :: after) u o := by
  constructor
  · intro heffect u f after hturn _ o ho
    have hf : f ∈ sortedFiles files := by
      obtain ⟨before, hsplit, -⟩ := hturn
      rw [hsplit]
      exact List.mem_append_right _ List.mem_cons_self
    have hfile : f ∈ files := (List.mem_insertionSort _).mp hf
    have hrecorded : f.name ∈ t.recorded := recorded_of_run h (.inr ⟨f, hf, rfl⟩)
    exact (mem_objects_of_turn h hturn o).mp (heffect f hfile hrecorded o ho)
  · intro hcond f hf _ o ho
    obtain ⟨u, after, hturn⟩ := exists_turn h ((List.mem_insertionSort _).mpr hf)
    rw [mem_objects_of_turn h hturn]
    by_cases hgo : GoesThrough u f
    · exact .inr ⟨u, f, after, ⟨[], rfl, rfl⟩, hgo, ho⟩
    · exact hcond u f after hturn hgo o ho

/-! ### Migration 002 -/

/-- A statement that works on a column: `UPDATE .. SET` and `ALTER COLUMN .. SET NOT NULL`. -/
def onColumn (table column : String) : Statement where
  object := table ++ "." ++ column
  raises objects := if table ++ "." ++ column ∈ objects then none else some .undefinedColumn

/-- `ADD COLUMN IF NOT EXISTS` -/
def addColumnIfNotExists (table column : String) : Statement where
  object := table ++ "." ++ column
  raises objects := if table ∈ objects then none else some .undefinedTable

/-- `DROP CONSTRAINT IF EXISTS` and `ADD CONSTRAINT .. PRIMARY KEY` -/
def replacePrimaryKey (table name : String) : Statement where
  object := name
  raises objects := if table ∈ objects then none else some .undefinedTable

/-- `ADD CONSTRAINT .. UNIQUE`: the index of the constraint is a relation. -/
def addUnique (table name : String) : Statement where
  object := name
  raises objects :=
    if table ∉ objects then some .undefinedTable
    else if name ∈ objects then some .duplicateTable
    else none

def migration002 : MigrationFile where
  name := "002_runtime_snapshot_endpoint_fingerprint_unique.sql"
  statements :=
    [addColumnIfNotExists "schema_snapshots" "id", onColumn "schema_snapshots" "id",
      replacePrimaryKey "schema_snapshots" "schema_snapshots_pkey",
      onColumn "schema_snapshots" "fingerprint",
      addUnique "schema_snapshots" "uq_schema_snapshots_endpoint_fingerprint"]

/-- Snapshots with a unique fingerprint that have no `id` yet. -/
def snapshotsWithoutId : MigrationState where
  objects := ["schema_snapshots", "schema_snapshots.fingerprint",
    "uq_schema_snapshots_endpoint_fingerprint"]

/-- Snapshots as migration 002 leaves them, without a record of it. -/
def snapshotsWithId : MigrationState where
  objects := ["schema_snapshots", "schema_snapshots.fingerprint"] ++ migration002.objects

/-- Where the constraint of migration 002 is there already, the file is passed over. This does no
harm if it has been executed by hand; otherwise its column `id` is missing at its turn, and no file
behind it creates the column. -/
theorem recorded_took_effect_iff_tables :
    (∃ t, applyRuntimeMigrations [migration002] snapshotsWithId = .ok t ∧
      t.objects = snapshotsWithId.objects ∧
      ∀ f ∈ [migration002], f.name ∈ t.recorded → ∀ o ∈ f.objects, o ∈ t.objects) ∧
    ∃ u f after, Turn (sortedFiles [migration002]) snapshotsWithoutId u f after ∧
      ¬GoesThrough u f ∧ ∃ o ∈ f.objects, o ∉ u.objects ∧ ¬CreatedIn (f :: after) u o := by
  constructor
  · have hrun : applyRuntimeMigrations [migration002] snapshotsWithId =
        .ok (snapshotsWithId.record migration002) := rfl
    refine ⟨_, hrun, rfl, (recorded_took_effect_iff hrun).mpr ?_⟩
    intro u f after hturn _ o ho
    obtain ⟨rfl, rfl, -⟩ | ⟨t, -, before, hsplit, -⟩ := turn_cons.mp hturn
    · exact .inl (List.mem_append_right _ ho)
    · exact absurd hsplit (by simp)
  · have hrun : applyRuntimeMigrations [migration002] snapshotsWithoutId =
        .ok (snapshotsWithoutId.record migration002) := rfl
    have hcond := mt (recorded_took_effect_iff hrun).mpr fun h =>
      absurd (h migration002 List.mem_cons_self List.mem_cons_self "schema_snapshots.id"
        (by decide)) (by decide)
    push Not at hcond
    exact hcond

/-- The constraint is there already, so the column `id` is never added, and 002 is recorded. -/
theorem recorded_without_effect : ¬∀ (files : List MigrationFile) (s t : MigrationState),
    s.recorded = [] → applyRuntimeMigrations files s = .ok t →
      ∀ f ∈ files, f.name ∈ t.recorded → ∀ o ∈ f.objects, o ∈ t.objects := by
  intro h
  have hmissing := h [migration002] snapshotsWithoutId (snapshotsWithoutId.record migration002) rfl
    rfl migration002 List.mem_cons_self List.mem_cons_self "schema_snapshots.id" (by decide)
  exact absurd hmissing (by decide)

end Driftgate.Scripts
