import Driftgate.Schema.Shown

/-!
# The legacy drift engine

`/track` still feeds the older tables: `normalize_types` replaces the scalars of a payload by type
names, `structural_diff` compares two flattened results, three passes over the differences give
each a severity, and `log_drift_violations` inserts a row for each difference that has one.

The flattening differs from that of the runtime classifier: objects have no entry whatever their
members, and the root has the empty path.

`leaves` says which values of a payload the flattening shows, and
`every_difference_classified_iff` for which pairs of payloads the three passes leave no difference
without a severity.
-/

namespace Driftgate.Core

open Driftgate.Lib Driftgate.Schema

/-! ### Normalized types -/

/-- What `normalize_types` returns. -/
inductive NormalizedSchema
  | name (type : String)
  | items (l : List NormalizedSchema)
  | members (l : List (String × NormalizedSchema))

/-- `_primitive_type`. -/
def primitiveType : Kind → String
  | .null => "null"
  | .boolean => "bool"
  | .integer => "int"
  | .number => "float"
  | .string => "string"

mutual

/-- The order of the recursive call and the sort by key does not matter. -/
def normalizeTypes : Json → NormalizedSchema
  | .obj members => .members (sortByKey (normalizeMembers members))
  | .arr items => .items (normalizeItems items)
  | .null => .name (primitiveType .null)
  | .bool _ => .name (primitiveType .boolean)
  | .int _ => .name (primitiveType .integer)
  | .float _ => .name (primitiveType .number)
  | .str _ => .name (primitiveType .string)

def normalizeItems : List Json → List NormalizedSchema
  | [] => []
  | v :: items => normalizeTypes v :: normalizeItems items

def normalizeMembers : List (String × Json) → List (String × NormalizedSchema)
  | [] => []
  | (k, v) :: members => (k, normalizeTypes v) :: normalizeMembers members

end

mutual

/-- `_flatten_schema`: the assignments to `out`, in order. -/
def flattenSchema : NormalizedSchema → String → List (String × String)
  | .members l, path => flattenSchemaMembers l path
  | .items l, path => (path, "array") :: flattenSchemaItems l path 0
  | .name type, path => [(path, type)]

def flattenSchemaMembers : List (String × NormalizedSchema) → String → List (String × String)
  | [], _ => []
  | (k, v) :: l, path => flattenSchema v (keyPath path k) ++ flattenSchemaMembers l path

def flattenSchemaItems : List NormalizedSchema → String → ℕ → List (String × String)
  | [], _, _ => []
  | v :: l, path, i => flattenSchema v s!"{path}[*{i}]" ++ flattenSchemaItems l path (i + 1)

end

/-! ### Differences and their severity -/

/-- `change_severity`. -/
inductive Severity
  | safe
  | risky
  | breaking
  deriving DecidableEq, Repr

/-- An item of `structural_diff`. -/
structure DiffItem where
  path : String
  old : Option String
  new : Option String
  severity : Option Severity
  deriving DecidableEq, Repr

/-- `sorted(baseline_flat.keys() | incoming_flat.keys())`. -/
def flatPaths (baselineFlat incomingFlat : List (String × String)) : List String :=
  ((baselineFlat ++ incomingFlat).map Prod.fst).dedup.insertionSort (· ≤ ·)

def structuralDiff (baselineSchema incomingSchema : NormalizedSchema) : List DiffItem :=
  let baselineFlat := flattenSchema baselineSchema ""
  let incomingFlat := flattenSchema incomingSchema ""
  (flatPaths baselineFlat incomingFlat).filterMap fun path =>
    let old := lastBinding path baselineFlat
    let new := lastBinding path incomingFlat
    if old = new then none else some { path := path, old := old, new := new, severity := none }

/-! The body of each loop, then the loop. -/

def classifySafe (item : DiffItem) : DiffItem :=
  if item.old = none ∧ item.new ≠ none then { item with severity := some .safe } else item

def classifySafeChanges (diffs : List DiffItem) : List DiffItem := diffs.map classifySafe

def primitiveTypes : List String := ["int", "float", "string", "bool"]

def classifyRisky (item : DiffItem) : DiffItem :=
  if item.severity ≠ none then item
  else match item.old, item.new with
    | some old, some new =>
      if old ∈ primitiveTypes ∧ new ∈ primitiveTypes ∧ old ≠ new then
        if old = "int" ∧ new = "float" then { item with severity := some .risky }
        else if old = "float" ∧ new = "int" then { item with severity := some .breaking }
        else { item with severity := some .breaking }
      else item
    | _, _ => item

def classifyRiskyMutations (diffs : List DiffItem) : List DiffItem := diffs.map classifyRisky

/-- `old.replace("nullable_", "", 1)` for a string that starts with `nullable_`. -/
def requiredOld (old : String) : Option String :=
  if "nullable_".toList <+: old.toList then
    some (String.ofList (old.toList.drop "nullable_".toList.length))
  else none

def classifyBreaking (item : DiffItem) : DiffItem :=
  if item.severity ≠ none then item
  else match item.old, item.new with
    | some _, none => { item with severity := some .breaking }
    | some old, some new =>
      if requiredOld old = some new then { item with severity := some .breaking } else item
    | none, _ => item

def classifyBreakingChanges (diffs : List DiffItem) : List DiffItem := diffs.map classifyBreaking

def classifyContractDrift (diffs : List DiffItem) : List DiffItem :=
  classifyBreakingChanges (classifyRiskyMutations (classifySafeChanges diffs))

/-- A row of `contract_drift_violations`. -/
structure DriftViolation where
  endpointId : String
  observedFingerprint : String
  severity : Severity
  /-- `path`, `old` and `new` -/
  diffPayload : String × Option String × Option String
  deriving DecidableEq, Repr

/-- The rows `log_drift_violations` inserts. -/
def logDriftViolations (endpointId fingerprint : String) (diffs : List DiffItem) :
    List DriftViolation :=
  diffs.filterMap fun item => item.severity.map fun severity =>
    { endpointId := endpointId
      observedFingerprint := fingerprint
      severity := severity
      diffPayload := (item.path, item.old, item.new) }

/-! ### What the flat dictionary shows -/

mutual

/-- The scalars and arrays of a document, in the order of the assignments. -/
def leaves : Json → List (Location × Json)
  | .obj members => (sortByKey (leavesMembers members)).flatMap fun e => under (.key e.1) e.2
  | .arr items => ([], .arr items) :: leavesItems items 0
  | v => [([], v)]

def leavesItems : List Json → ℕ → List (Location × Json)
  | [], _ => []
  | v :: items, i => under (.index i) (leaves v) ++ leavesItems items (i + 1)

def leavesMembers : List (String × Json) → List (String × List (Location × Json))
  | [] => []
  | (k, v) :: members => (k, leaves v) :: leavesMembers members

end

/-- The path string of a location below a value with path string `path`. -/
def flatPathFrom (path : String) : Location → String
  | [] => path
  | .key k :: ℓ => flatPathFrom (keyPath path k) ℓ
  | .index i :: ℓ => flatPathFrom s!"{path}[*{i}]" ℓ

/-- The scalar or array of `v` that a path string stands for, the last one in case of several. -/
def leafAt (v : Json) (path : String) : Option Json :=
  lastBinding path ((leaves v).map fun e => (flatPathFrom "" e.1, e.2))

/-- What the flat dictionary has for a scalar or an array. -/
def leafName (v : Json) : String :=
  match v.kind with
  | some k => primitiveType k
  | none => "array"

theorem normalizeItems_eq (items : List Json) : normalizeItems items = items.map normalizeTypes := by
  induction items with
  | nil => simp [normalizeItems]
  | cons v items ih => simp [normalizeItems, ih]

theorem normalizeMembers_eq (members : List (String × Json)) :
    normalizeMembers members = members.map fun e => (e.1, normalizeTypes e.2) := by
  induction members with
  | nil => simp [normalizeMembers]
  | cons e members ih => simp [normalizeMembers, ih]

theorem flattenSchemaMembers_eq (l : List (String × NormalizedSchema)) (path : String) :
    flattenSchemaMembers l path = l.flatMap fun e => flattenSchema e.2 (keyPath path e.1) := by
  induction l with
  | nil => simp [flattenSchemaMembers]
  | cons e l ih => simp [flattenSchemaMembers, ih]

theorem leavesMembers_eq (members : List (String × Json)) :
    leavesMembers members = members.map fun e => (e.1, leaves e.2) := by
  induction members with
  | nil => simp [leavesMembers]
  | cons e members ih => simp [leavesMembers, ih]

/-- The entry a leaf gets. -/
def flatEntry (path : String) (e : Location × Json) : String × String :=
  (flatPathFrom path e.1, leafName e.2)

theorem map_flatEntry_key (path k : String) (l : List (Location × Json)) :
    (under (.key k) l).map (flatEntry path) = l.map (flatEntry (keyPath path k)) := by
  simp [under, flatEntry, flatPathFrom, Function.comp_def]

theorem map_flatEntry_index (path : String) (i : ℕ) (l : List (Location × Json)) :
    (under (.index i) l).map (flatEntry path) = l.map (flatEntry s!"{path}[*{i}]") := by
  simp [under, flatEntry, flatPathFrom, Function.comp_def]

/-- **Flattening a normalized payload lists its leaves.** -/
theorem flattenSchema_normalizeTypes (v : Json) (path : String) :
    flattenSchema (normalizeTypes v) path = (leaves v).map (flatEntry path) := by
  induction v using Json.induction generalizing path with
  | scalar v k hk =>
    cases v <;> simp_all [Json.kind, normalizeTypes, flattenSchema, leaves, flatEntry,
      flatPathFrom, leafName]
  | arr items ih =>
    have hitems : ∀ i, flattenSchemaItems (items.map normalizeTypes) path i =
        (leavesItems items i).map (flatEntry path) := by
      induction items with
      | nil => intro i; simp [flattenSchemaItems, leavesItems]
      | cons v items ihi =>
        intro i
        rw [List.forall_mem_cons] at ih
        rw [List.map_cons, flattenSchemaItems, leavesItems, List.map_append, map_flatEntry_index,
          ih.1, ihi ih.2]
    rw [normalizeTypes, normalizeItems_eq, flattenSchema, leaves, List.map_cons, hitems]
    simp [flatEntry, flatPathFrom, leafName, Json.kind]
  | obj members ih =>
    rw [normalizeTypes, normalizeMembers_eq, leaves, leavesMembers_eq,
      sortByKey_map fun e => normalizeTypes e.2, sortByKey_map fun e => leaves e.2,
      flattenSchema, flattenSchemaMembers_eq, List.flatMap_map, List.flatMap_map,
      List.map_flatMap]
    refine List.flatMap_congr fun e he => ?_
    rw [map_flatEntry_key, ih e (mem_sortByKey.mp he)]

/-- What the flat dictionary has at a path is the name of the leaf shown there. -/
theorem lastBinding_flattenSchema (v : Json) (path : String) :
    lastBinding path (flattenSchema (normalizeTypes v) "") = (leafAt v path).map leafName := by
  rw [flattenSchema_normalizeTypes, leafAt, ← lastBinding_map, List.map_map]
  rfl

/-- Names tell kinds apart, and scalars from arrays. -/
theorem leafName_eq_iff {v w : Json} : leafName v = leafName w ↔ v.kind = w.kind := by
  unfold leafName
  cases v.kind with
  | none =>
    cases w.kind with
    | none => simp
    | some k => cases k <;> simp [primitiveType]
  | some k =>
    cases w.kind with
    | none => cases k <;> simp [primitiveType]
    | some k' => cases k <;> cases k' <;> simp [primitiveType]

/-- A scalar other than null. -/
def Primitive (v : Json) : Prop :=
  ∃ k, v.kind = some k ∧ k ≠ .null

theorem leafName_mem_primitiveTypes {v : Json} : leafName v ∈ primitiveTypes ↔ Primitive v := by
  unfold leafName Primitive
  cases v.kind with
  | none => simp [primitiveTypes]
  | some k => cases k <;> simp [primitiveTypes, primitiveType]

theorem requiredOld_leafName (v : Json) : requiredOld (leafName v) = none := by
  unfold leafName
  cases v.kind with
  | none => decide
  | some k => cases k <;> decide

/-! ### What the three passes leave out -/

/-- What the three passes do to a difference. -/
def classifyItem (item : DiffItem) : DiffItem :=
  classifyBreaking (classifyRisky (classifySafe item))

theorem classifyContractDrift_eq (diffs : List DiffItem) :
    classifyContractDrift diffs = diffs.map classifyItem := by
  rw [classifyContractDrift, classifyBreakingChanges, classifyRiskyMutations, classifySafeChanges,
    List.map_map, List.map_map]
  rfl

/-- The passes write the severity only. -/
theorem classifyItem_fields (item : DiffItem) : (classifyItem item).path = item.path ∧
    (classifyItem item).old = item.old ∧ (classifyItem item).new = item.new := by
  have hsafe : (classifySafe item).path = item.path ∧ (classifySafe item).old = item.old ∧
      (classifySafe item).new = item.new := by
    unfold classifySafe
    split <;> exact ⟨rfl, rfl, rfl⟩
  have hrisky : ∀ d : DiffItem, (classifyRisky d).path = d.path ∧ (classifyRisky d).old = d.old ∧
      (classifyRisky d).new = d.new := by
    intro d
    unfold classifyRisky
    repeat' split
    all_goals exact ⟨rfl, rfl, rfl⟩
  have hbreaking : ∀ d : DiffItem, (classifyBreaking d).path = d.path ∧
      (classifyBreaking d).old = d.old ∧ (classifyBreaking d).new = d.new := by
    intro d
    unfold classifyBreaking
    repeat' split
    all_goals exact ⟨rfl, rfl, rfl⟩
  rw [classifyItem, (hbreaking _).1, (hbreaking _).2.1, (hbreaking _).2.2, (hrisky _).1,
    (hrisky _).2.1, (hrisky _).2.2]
  exact hsafe

/-- A difference is left without a severity when both sides have the path, one of them with
something other than a primitive type, and the old side is not the nullable form of the new. -/
theorem classifyItem_severity_none {item : DiffItem} (hs : item.severity = none)
    (hne : item.old ≠ item.new) :
    (classifyItem item).severity = none ↔ ∃ old new, item.old = some old ∧ item.new = some new ∧
      ¬ (old ∈ primitiveTypes ∧ new ∈ primitiveTypes) ∧ requiredOld old ≠ some new := by
  obtain ⟨path, old, new, severity⟩ := item
  obtain rfl : severity = none := hs
  cases old with
  | none =>
    cases new with
    | none => exact absurd rfl hne
    | some new => simp [classifyItem, classifySafe, classifyRisky, classifyBreaking]
  | some old =>
    cases new with
    | none => simp [classifyItem, classifySafe, classifyRisky, classifyBreaking]
    | some new =>
      have hne : old ≠ new := fun h => hne (congrArg some h)
      have hsafe : classifySafe ⟨path, some old, some new, none⟩ =
          ⟨path, some old, some new, none⟩ := by simp [classifySafe]
      rw [classifyItem, hsafe]
      by_cases hp : old ∈ primitiveTypes ∧ new ∈ primitiveTypes
      · have hr : (classifyRisky ⟨path, some old, some new, none⟩).severity ≠ none := by
          simp only [classifyRisky, ne_eq, not_true_eq_false, ↓reduceIte, hp, hne,
            not_false_eq_true, and_self]
          split_ifs <;> simp
        have hb : classifyBreaking (classifyRisky ⟨path, some old, some new, none⟩) =
            classifyRisky ⟨path, some old, some new, none⟩ := if_pos hr
        rw [hb]
        simp [hr, hp]
      · have hr : classifyRisky ⟨path, some old, some new, none⟩ =
            ⟨path, some old, some new, none⟩ := by
          simp only [classifyRisky, ne_eq, not_true_eq_false, ↓reduceIte, hne, not_false_eq_true,
            and_true, hp]
        rw [hr]
        by_cases hq : requiredOld old = some new
        · simp [classifyBreaking, hq]
        · simpa [classifyBreaking, hq] using hp

theorem mem_flatPaths {old new : List (String × String)} {path : String}
    (h : lastBinding path old ≠ lastBinding path new) : path ∈ flatPaths old new := by
  rw [flatPaths, List.mem_insertionSort, List.mem_dedup, List.map_append, List.mem_append]
  by_contra hc
  rw [not_or] at hc
  exact h ((lastBinding_eq_none.mpr hc.1).trans (lastBinding_eq_none.mpr hc.2).symm)

/-- The differences of two normalized payloads are the paths at which the names of the leaves
differ. -/
theorem mem_structuralDiff {p q : Json} {d : DiffItem} :
    d ∈ structuralDiff (normalizeTypes p) (normalizeTypes q) ↔
      d.severity = none ∧ d.old = (leafAt p d.path).map leafName ∧
      d.new = (leafAt q d.path).map leafName ∧ d.old ≠ d.new := by
  simp only [structuralDiff, List.mem_filterMap, lastBinding_flattenSchema]
  constructor
  · rintro ⟨path, -, h⟩
    split at h
    · cases h
    · next hne =>
      cases h
      exact ⟨rfl, rfl, rfl, hne⟩
  · rintro ⟨hs, ho, hn, hne⟩
    refine ⟨d.path, mem_flatPaths ?_, ?_⟩
    · rw [lastBinding_flattenSchema, lastBinding_flattenSchema, ← ho, ← hn]
      exact hne
    · rw [← ho, ← hn, if_neg hne, ← hs]

/-- At no path do the payloads show leaves of different kinds of which one is null or an array. -/
def Covered (p q : Json) : Prop :=
  ∀ path v w, leafAt p path = some v → leafAt q path = some w →
    v.kind = w.kind ∨ Primitive v ∧ Primitive w

theorem all_classified_iff (p q : Json) :
    (∀ d ∈ classifyContractDrift (structuralDiff (normalizeTypes p) (normalizeTypes q)),
      d.severity ≠ none) ↔ Covered p q := by
  rw [classifyContractDrift_eq, List.forall_mem_map]
  constructor
  · intro h path v w hv hw
    by_contra hc
    rw [not_or] at hc
    have hne : some (leafName v) ≠ some (leafName w) := fun he =>
      hc.1 (leafName_eq_iff.mp (Option.some.inj he))
    have hd : (⟨path, some (leafName v), some (leafName w), none⟩ : DiffItem) ∈
        structuralDiff (normalizeTypes p) (normalizeTypes q) := by
      rw [mem_structuralDiff]
      exact ⟨rfl, by rw [hv]; rfl, by rw [hw]; rfl, hne⟩
    refine h _ hd ((classifyItem_severity_none rfl hne).mpr ⟨_, _, rfl, rfl, ?_, ?_⟩)
    · rw [leafName_mem_primitiveTypes, leafName_mem_primitiveTypes]
      exact hc.2
    · rw [requiredOld_leafName]
      exact fun he => nomatch he
  · intro h d hd hnone
    obtain ⟨hs, ho, hn, hne⟩ := mem_structuralDiff.mp hd
    obtain ⟨old, new, hold, hnew, hp, -⟩ := (classifyItem_severity_none hs hne).mp hnone
    rw [hold, eq_comm, Option.map_eq_some_iff] at ho
    rw [hnew, eq_comm, Option.map_eq_some_iff] at hn
    obtain ⟨v, hv, rfl⟩ := ho
    obtain ⟨w, hw, rfl⟩ := hn
    rw [leafName_mem_primitiveTypes, leafName_mem_primitiveTypes] at hp
    rcases h _ v w hv hw with hk | hk
    · exact hne (by rw [hold, hnew, leafName_eq_iff.mpr hk])
    · exact hp hk

/-- When every difference has a severity, each has its row. -/
theorem logDriftViolations_payloads {diffs : List DiffItem}
    (h : ∀ d ∈ classifyContractDrift diffs, d.severity ≠ none) (endpointId fingerprint : String) :
    (logDriftViolations endpointId fingerprint (classifyContractDrift diffs)).map
        DriftViolation.diffPayload = diffs.map fun d => (d.path, d.old, d.new) := by
  rw [classifyContractDrift_eq] at h ⊢
  induction diffs with
  | nil => rfl
  | cons d diffs ih =>
    rw [List.map_cons, List.forall_mem_cons] at h
    obtain ⟨severity, hsev⟩ := Option.ne_none_iff_exists'.mp h.1
    obtain ⟨hpath, hold, hnew⟩ := classifyItem_fields d
    have ih := ih h.2
    rw [logDriftViolations] at ih
    rw [List.map_cons, logDriftViolations, List.filterMap_cons, hsev]
    simp only [Option.map_some, List.map_cons, hpath, hold, hnew, ih]

/-- **Which changes are classified.** Every difference gets a severity and its own row of
`contract_drift_violations` exactly when nowhere a null or an array stands against a leaf of
another kind. -/
theorem every_difference_classified_iff (p q : Json) (endpointId fingerprint : String) :
    ((∀ d ∈ classifyContractDrift (structuralDiff (normalizeTypes p) (normalizeTypes q)),
        d.severity ≠ none) ∧
      (logDriftViolations endpointId fingerprint
          (classifyContractDrift (structuralDiff (normalizeTypes p) (normalizeTypes q)))).map
          DriftViolation.diffPayload =
        (structuralDiff (normalizeTypes p) (normalizeTypes q)).map
          fun d => (d.path, d.old, d.new)) ↔ Covered p q := by
  rw [← all_classified_iff]
  exact ⟨And.left, fun h => ⟨h, logDriftViolations_payloads h endpointId fingerprint⟩⟩

/-- A null that becomes a string is a difference without a severity and without a row. -/
theorem null_change_dropped :
    classifyContractDrift (structuralDiff (normalizeTypes (.obj [("a", .null)]))
        (normalizeTypes (.obj [("a", .str "x")]))) =
      [⟨"a", some "null", some "string", none⟩] ∧
    logDriftViolations "e" "f" (classifyContractDrift
        (structuralDiff (normalizeTypes (.obj [("a", .null)]))
          (normalizeTypes (.obj [("a", .str "x")])))) = [] := by
  decide

end Driftgate.Core
