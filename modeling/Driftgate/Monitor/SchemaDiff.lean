import Driftgate.Monitor.SchemaHash

/-!
# Schema diffs

`diff_schemas` compares two node lists: the paths that are gone, the paths that are new, and for
each path that both have the first change that `_pick_change_type` comes upon. What it compares is
less than what the schema hash covers. `AlikeToDiff` says when two profiles show it no change, and
`diffSchemas_inferSchema_eq_nil` when two bodies do.
-/

namespace Driftgate.Monitor

open Driftgate.Lib Driftgate.Schema

/-! ### Changes -/

inductive ChangeType
  | removedField
  | addedField
  | typeChanged
  | intToNumber
  | numberToInt
  | nullableAdded
  | nullableRemoved
  | enumExpanded
  | enumNarrowed
  | enumChanged
  | nestedObjectRemoved
  | arrayItemTypeChanged
  deriving DecidableEq, Repr

/-- `SEVERITY_TABLE`. -/
def classify : ChangeType → String
  | .removedField => "breaking"
  | .addedField => "safe"
  | .typeChanged => "breaking"
  | .intToNumber => "risky"
  | .numberToInt => "breaking"
  | .nullableAdded => "risky"
  | .nullableRemoved => "safe"
  | .enumExpanded => "risky"
  | .enumNarrowed => "safe"
  | .enumChanged => "risky"
  | .nestedObjectRemoved => "breaking"
  | .arrayItemTypeChanged => "breaking"

/-- `Diff`. -/
structure Diff where
  severity : String
  changeType : ChangeType
  path : String
  oldType : Option JsonType
  newType : Option JsonType
  oldValue : Option Json
  newValue : Option Json
  message : String

/-- `_pick_change_type`. -/
def pickChangeType (old new : SchemaNode) : Option ChangeType :=
  if old.type ≠ new.type then
    if old.type = .integer ∧ new.type = .number then some .intToNumber
    else if old.type = .number ∧ new.type = .integer then some .numberToInt
    else some .typeChanged
  else if old.nullable ≠ new.nullable then
    some (if new.nullable then .nullableAdded else .nullableRemoved)
  else
    let enumChange : Option ChangeType :=
      match old.enumValues, new.enumValues with
      | some oldValues, some newValues =>
        let oldSet := oldValues.toFinset
        let newSet := newValues.toFinset
        if oldSet ≠ newSet then
          if oldSet ⊂ newSet then some .enumExpanded
          else if newSet ⊂ oldSet then some .enumNarrowed
          else some .enumChanged
        else none
      | _, _ => none
    enumChange.or
      (if old.type = .array ∧ new.type = .array ∧ old.arrayItemType ≠ new.arrayItemType then
        some .arrayItemTypeChanged else none)

/-! ### Messages -/

section Message

variable (printable : Char → Bool)

/-- `str` of an optional type. -/
def strType : Option JsonType → String
  | none => "None"
  | some type => type.name

/-- `sorted(values)` in a message. -/
def strSorted (values : Finset String) : String :=
  "[" ++ ", ".intercalate (values.sort.map (reprString printable)) ++ "]"

/-- `_msg`. -/
def msg (path : String) (oldType newType : Option JsonType) (added removed : Finset String) :
    ChangeType → String
  | .removedField => s!"Field {path} was removed from the response schema."
  | .addedField => s!"Field {path} was added to the response schema."
  | .typeChanged =>
    s!"Field {path} type changed from " ++ strType oldType ++ " to " ++ strType newType ++ "."
  | .intToNumber => s!"Field {path} type widened from integer to number " ++
      "(consumers may receive floating-point values)."
  | .numberToInt => s!"Field {path} type narrowed from number to integer " ++
      "(decimal values no longer returned)."
  | .nullableAdded => s!"Field {path} is now nullable (consumers may receive null)."
  | .nullableRemoved => s!"Field {path} is no longer nullable (null values no longer returned)."
  | .enumExpanded => s!"Field {path} enum expanded; new values: " ++ strSorted printable added ++ "."
  | .enumNarrowed =>
    s!"Field {path} enum narrowed; removed values: " ++ strSorted printable removed ++ "."
  | .enumChanged => s!"Field {path} enum values changed; added: " ++ strSorted printable added ++
      ", removed: " ++ strSorted printable removed ++ "."
  | .nestedObjectRemoved => s!"Nested object {path} was removed."
  | .arrayItemTypeChanged => s!"Array {path} item type changed from " ++ strType oldType ++ " to " ++
      strType newType ++ "."

end Message

/-! ### The comparison -/

/-- `{n.path: n for n in nodes}[path]`. -/
def nodeAt (nodes : List SchemaNode) (path : String) : Option SchemaNode :=
  lastBinding path (nodes.map fun node => (node.path, node))

def pathsOf (nodes : List SchemaNode) : List String := (nodes.map SchemaNode.path).dedup

/-- `sorted` of some paths. -/
def sortedPaths (paths : List String) : List String := paths.insertionSort (· ≤ ·)

section Diff

variable (printable : Char → Bool)

def removedDiff (path : String) (node : SchemaNode) : Diff :=
  let changeType := if node.type = .object then .nestedObjectRemoved else .removedField
  { severity := classify changeType
    changeType := changeType
    path := path
    oldType := some node.type
    newType := none
    oldValue := none
    newValue := none
    message := msg printable path none none ∅ ∅ changeType }

def addedDiff (path : String) (node : SchemaNode) : Diff where
  severity := classify .addedField
  changeType := .addedField
  path := path
  oldType := none
  newType := some node.type
  oldValue := none
  newValue := none
  message := msg printable path none none ∅ ∅ .addedField

/-- `set(node.enum_values or [])`. -/
def enumSet (node : SchemaNode) : Finset String := (node.enumValues.getD []).toFinset

def changedDiff (path : String) (old new : SchemaNode) (changeType : ChangeType) : Diff where
  severity := classify changeType
  changeType := changeType
  path := path
  oldType := some old.type
  newType := some new.type
  oldValue := old.exampleValue
  newValue := new.exampleValue
  message :=
    if changeType = .arrayItemTypeChanged then
      msg printable path old.arrayItemType new.arrayItemType ∅ ∅ changeType
    else
      msg printable path (some old.type) (some new.type) (enumSet new \ enumSet old)
        (enumSet old \ enumSet new) changeType

def diffSchemas (old new : List SchemaNode) : List Diff :=
  let oldPaths := pathsOf old
  let newPaths := pathsOf new
  (sortedPaths (oldPaths.filter (· ∉ newPaths))).filterMap (fun path =>
      (nodeAt old path).map (removedDiff printable path)) ++
    (sortedPaths (newPaths.filter (· ∉ oldPaths))).filterMap (fun path =>
      (nodeAt new path).map (addedDiff printable path)) ++
    (sortedPaths (oldPaths.filter (· ∈ newPaths))).filterMap fun path => do
      let oldNode ← nodeAt old path
      let newNode ← nodeAt new path
      let changeType ← pickChangeType oldNode newNode
      return changedDiff printable path oldNode newNode changeType

end Diff

/-! ### When there is nothing to report -/

/-- Two nodes in which no rule finds a change: types and nulls are the same, enumerations where
both have one, and item types of arrays. -/
structure AlikeToDiff (old new : Profile) : Prop where
  type : old.type = new.type
  nullable : old.nullable = new.nullable
  enumValues : ∀ l ∈ old.enumValues, ∀ l' ∈ new.enumValues, l.toFinset = l'.toFinset
  arrayItemType : old.type = .array → old.arrayItemType = new.arrayItemType

theorem pickChangeType_eq_none {old new : SchemaNode} :
    pickChangeType old new = none ↔ AlikeToDiff old.profile new.profile := by
  rw [pickChangeType]
  by_cases htype : old.type = new.type
  · rw [if_neg (not_not.mpr htype)]
    by_cases hnull : old.nullable = new.nullable
    · rw [if_neg (not_not.mpr hnull)]
      simp only [Option.or_eq_none_iff]
      have harray : (if old.type = .array ∧ new.type = .array ∧ old.arrayItemType ≠ new.arrayItemType
          then some ChangeType.arrayItemTypeChanged else none) = none ↔
          (old.type = .array → old.arrayItemType = new.arrayItemType) := by
        rw [← htype]
        split_ifs with h
        · exact iff_of_false (by simp) fun hc => h.2.2 (hc h.1)
        · refine iff_of_true rfl fun ha => ?_
          by_contra hne
          exact h ⟨ha, ha, hne⟩
      have henum : (match old.enumValues, new.enumValues with
          | some oldValues, some newValues =>
            if oldValues.toFinset ≠ newValues.toFinset then
              if oldValues.toFinset ⊂ newValues.toFinset then some ChangeType.enumExpanded
              else if newValues.toFinset ⊂ oldValues.toFinset then some .enumNarrowed
              else some .enumChanged
            else none
          | _, _ => none) = none ↔
          ∀ l ∈ old.enumValues, ∀ l' ∈ new.enumValues, l.toFinset = l'.toFinset := by
        cases old.enumValues with
        | none => simp
        | some l =>
          cases new.enumValues with
          | none => simp
          | some l' =>
            by_cases heq : l.toFinset = l'.toFinset
            · simp [heq]
            · simp only [ne_eq, heq, not_false_eq_true, if_true]
              split_ifs <;> simp [heq]
      rw [harray, henum]
      exact ⟨fun h => ⟨htype, hnull, h.1, h.2⟩, fun h => ⟨h.enumValues, h.arrayItemType⟩⟩
    · rw [if_pos hnull]
      exact iff_of_false (by simp) fun h => hnull h.nullable
  · rw [if_pos htype]
    refine iff_of_false ?_ fun h => htype h.type
    split_ifs <;> simp

/-- What two paths may be without a diff. -/
def NothingToReport : Option Profile → Option Profile → Prop
  | none, none => True
  | some old, some new => AlikeToDiff old new
  | _, _ => False

theorem mem_sortedPaths {paths : List String} {path : String} :
    path ∈ sortedPaths paths ↔ path ∈ paths :=
  List.mem_insertionSort _

theorem mem_pathsOf {nodes : List SchemaNode} {path : String} :
    path ∈ pathsOf nodes ↔ nodeAt nodes path ≠ none := by
  rw [pathsOf, List.mem_dedup, nodeAt, ne_eq, lastBinding_eq_none, List.map_map, not_not]
  rfl

/-- **When the diff is empty.** -/
theorem diffSchemas_eq_nil {printable : Char → Bool} {old new : List SchemaNode} :
    diffSchemas printable old new = [] ↔ ∀ path, NothingToReport
      ((nodeAt old path).map SchemaNode.profile) ((nodeAt new path).map SchemaNode.profile) := by
  simp only [diffSchemas, List.append_eq_nil_iff, List.filterMap_eq_nil_iff, mem_sortedPaths,
    List.mem_filter, decide_eq_true_eq, mem_pathsOf]
  constructor
  · rintro ⟨⟨hremoved, hadded⟩, hchanged⟩ path
    cases ho : nodeAt old path with
    | none =>
      cases hn : nodeAt new path with
      | none => exact trivial
      | some new => simpa [hn] using hadded path (by simp [ho, hn])
    | some old =>
      cases hn : nodeAt new path with
      | none => simpa [ho] using hremoved path (by simp [ho, hn])
      | some new =>
        have h := hchanged path (by simp [ho, hn])
        simp only [ho, hn, Option.bind_eq_bind, Option.bind_some] at h
        refine pickChangeType_eq_none.mp ?_
        cases hpick : pickChangeType old new with
        | none => rfl
        | some changeType => simp [hpick] at h
  · intro h
    refine ⟨⟨?_, ?_⟩, ?_⟩
    · rintro path ⟨ho, hn⟩
      have hpath := h path
      rw [not_not.mp hn] at hpath
      cases hold : nodeAt old path with
      | none => rfl
      | some old => simp [hold, NothingToReport] at hpath
    · rintro path ⟨hn, ho⟩
      have hpath := h path
      rw [not_not.mp ho] at hpath
      cases hnew : nodeAt new path with
      | none => rfl
      | some new => simp [hnew, NothingToReport] at hpath
    · rintro path -
      have hpath := h path
      cases hold : nodeAt old path with
      | none => rfl
      | some old =>
        cases hnew : nodeAt new path with
        | none => rfl
        | some new =>
          simp only [hold, hnew, Option.map_some] at hpath
          simp [pickChangeType_eq_none.mpr hpath]

/-! ### Inferred schemas -/

theorem nodeAt_inferSchema (v : Json) (path : String) :
    (nodeAt (inferSchema v) path).map SchemaNode.profile = profileAt v path := by
  obtain ⟨hsorted, hlookup⟩ := inferSchema_entries v
  rw [← hlookup, ← lastBinding_eq_lookup hsorted.nodup, nodeAt, ← lastBinding_map, List.map_map]
  rfl

/-- Two bodies show no change when no path does. -/
theorem diffSchemas_inferSchema_eq_nil {printable : Char → Bool} {v w : Json} :
    diffSchemas printable (inferSchema v) (inferSchema w) = [] ↔
      ∀ path, NothingToReport (profileAt v path) (profileAt w path) := by
  rw [diffSchemas_eq_nil]
  exact forall_congr' fun path => by rw [nodeAt_inferSchema, nodeAt_inferSchema]

/-- What a profile has that the rules do not look at: whether every object has the key, whether
there is an enumeration, and the item type of a node that is no array. -/
def SameUnreported : Option Profile → Option Profile → Prop
  | some old, some new => old.required = new.required ∧
      old.enumValues.isSome = new.enumValues.isSome ∧ old.arrayItemType = new.arrayItemType
  | _, _ => True

/-- Enumerations of the same values are the same. -/
theorem enumOf_eq {seen seen' : Finset String} (hs : (enumOf seen).isSome = (enumOf seen').isSome)
    (h : ∀ l ∈ enumOf seen, ∀ l' ∈ enumOf seen', l.toFinset = l'.toFinset) :
    enumOf seen = enumOf seen' := by
  rw [enumOf, enumOf] at hs h ⊢
  split_ifs at hs h ⊢ with h1 h2 h2
  · rfl
  · simp at hs
  · simp at hs
  · have heq := h _ rfl _ rfl
    rw [Finset.sort_toFinset, Finset.sort_toFinset] at heq
    rw [heq]

/-- A path has the same profile in both bodies when neither the rules find a change nor is there
one that they do not look at. -/
theorem profileAt_eq_iff {v w : Json} {path : String}
    (h : NothingToReport (profileAt v path) (profileAt w path)) :
    profileAt v path = profileAt w path ↔ SameUnreported (profileAt v path) (profileAt w path) := by
  have henum : ∀ (u : Json) (x : Profile), profileAt u path = some x →
      x.enumValues = enumOf (texts (observationsOf path (observe u))) := by
    intro u x hx
    rw [profileAt, profileOf, Option.map_eq_some_iff] at hx
    obtain ⟨first, -, rfl⟩ := hx
    rfl
  cases hv : profileAt v path with
  | none =>
    cases hw : profileAt w path with
    | none => simp [SameUnreported]
    | some y => simp [hv, hw, NothingToReport] at h
  | some x =>
    cases hw : profileAt w path with
    | none => simp [hv, hw, NothingToReport] at h
    | some y =>
      rw [hv, hw] at h
      obtain ⟨htype, hnull, hvalues, -⟩ : AlikeToDiff x y := h
      constructor
      · intro heq
        obtain rfl := Option.some.inj heq
        exact ⟨rfl, rfl, rfl⟩
      · rintro ⟨hreq, hsome, hitem⟩
        have henums : x.enumValues = y.enumValues := by
          rw [henum v x hv, henum w y hw] at hsome hvalues ⊢
          exact enumOf_eq hsome hvalues
        obtain ⟨_, _, _, _, _⟩ := x
        obtain ⟨_, _, _, _, _⟩ := y
        simp_all

/-! ### The hash gate -/

variable {sha256 : String → String} {printable : Char → Bool} {v w : Json}

/-- An unchanged hash means an empty diff. -/
theorem diffSchemas_of_hash_eq (hsha : Function.Injective sha256)
    (h : stableSchemaHash sha256 (inferSchema v) = stableSchemaHash sha256 (inferSchema w)) :
    diffSchemas printable (inferSchema v) (inferSchema w) = [] := by
  rw [diffSchemas_inferSchema_eq_nil]
  intro path
  rw [(stableSchemaHash_eq_iff hsha).mp h path]
  cases hw : profileAt w path with
  | none => exact trivial
  | some x => exact ⟨rfl, rfl, fun l hl l' hl' => by rw [Option.mem_unique hl hl'], fun _ => rfl⟩

/-- **When the diff and the hash agree.** They do if and only if the rules find a change at some
path, or there is no change that they do not look at. Then a changed hash has a diff. -/
theorem diff_hash_agree_iff (hsha : Function.Injective sha256) :
    ((diffSchemas printable (inferSchema v) (inferSchema w) = [] ↔
        stableSchemaHash sha256 (inferSchema v) = stableSchemaHash sha256 (inferSchema w)) ∧
      (stableSchemaHash sha256 (inferSchema v) ≠ stableSchemaHash sha256 (inferSchema w) →
        diffSchemas printable (inferSchema v) (inferSchema w) ≠ [])) ↔
    (∃ path, ¬NothingToReport (profileAt v path) (profileAt w path)) ∨
      ∀ path, SameUnreported (profileAt v path) (profileAt w path) := by
  by_cases hall : ∀ path, NothingToReport (profileAt v path) (profileAt w path)
  · have hnil : diffSchemas printable (inferSchema v) (inferSchema w) = [] :=
      diffSchemas_inferSchema_eq_nil.mpr hall
    have hhash : stableSchemaHash sha256 (inferSchema v) = stableSchemaHash sha256 (inferSchema w) ↔
        ∀ path, SameUnreported (profileAt v path) (profileAt w path) := by
      rw [stableSchemaHash_eq_iff hsha]
      exact forall_congr' fun path => profileAt_eq_iff (hall path)
    rw [← hhash]
    simp [hnil, hall]
  · have hdiff : diffSchemas printable (inferSchema v) (inferSchema w) ≠ [] := fun h =>
      hall (diffSchemas_inferSchema_eq_nil.mp h)
    have hhash : stableSchemaHash sha256 (inferSchema v) ≠ stableSchemaHash sha256 (inferSchema w) :=
      fun h => hdiff (diffSchemas_of_hash_eq hsha h)
    refine iff_of_true ⟨iff_of_false hdiff hhash, fun _ => hdiff⟩ (.inl ?_)
    push Not at hall
    exact hall

/-- A hash without collisions that is SHA-256 on the texts of the two schemas below. -/
def sampleSha256 : String → String :=
  Equiv.swap
      ("[\x7b\"array_item_type\":null,\"enum_values\":null,\"nullable\":false," ++
        "\"path\":\"a\",\"required\":true,\"type\":\"integer\"\x7d]")
      "4820ece8d3b96b22da666d3f7aab400cbd7bf522a6472054bd61d6217ab753dc" ∘
    Equiv.swap
      ("[\x7b\"array_item_type\":null,\"enum_values\":[\"x\"],\"nullable\":false," ++
        "\"path\":\"a\",\"required\":true,\"type\":\"string\"\x7d]")
      "c77139135e342f4ffc3ae83481220e6580175614311a15b3db5357a4837b398e"

/-- Diff and hash both notice another type. -/
theorem diff_hash_agree_type_changed :
    let v : Json := .obj [("a", .int 1)]
    let w : Json := .obj [("a", .str "x")]
    stableSchemaHash sampleSha256 (inferSchema v) =
      "4820ece8d3b96b22da666d3f7aab400cbd7bf522a6472054bd61d6217ab753dc" ∧
    stableSchemaHash sampleSha256 (inferSchema w) =
      "c77139135e342f4ffc3ae83481220e6580175614311a15b3db5357a4837b398e" ∧
    diffSchemas (fun _ => true) (inferSchema v) (inferSchema w) ≠ [] := by
  intro v w
  have hv : stableSchemaHash sampleSha256 (inferSchema v) =
      "4820ece8d3b96b22da666d3f7aab400cbd7bf522a6472054bd61d6217ab753dc" := by
    decide
  have hw : stableSchemaHash sampleSha256 (inferSchema w) =
      "c77139135e342f4ffc3ae83481220e6580175614311a15b3db5357a4837b398e" := by
    decide +kernel
  have hchange : ¬NothingToReport (profileAt v "a") (profileAt w "a") := by
    have htypes : (profileAt v "a").map Profile.type = some .integer ∧
        (profileAt w "a").map Profile.type = some .string := by decide
    obtain ⟨x, hx, hxt⟩ := Option.map_eq_some_iff.mp htypes.1
    obtain ⟨y, hy, hyt⟩ := Option.map_eq_some_iff.mp htypes.2
    rw [hx, hy]
    intro halike
    have htype : x.type = y.type := AlikeToDiff.type halike
    rw [hxt, hyt] at htype
    cases htype
  have hsha : Function.Injective sampleSha256 := (Equiv.injective _).comp (Equiv.injective _)
  refine ⟨hv, hw, ((diff_hash_agree_iff hsha).mpr (.inl ⟨"a", hchange⟩)).2 ?_⟩
  rw [hv, hw]
  decide

/-- A key that becomes optional changes the hash, and the diff is empty. -/
theorem optional_key_has_no_diff :
    diffSchemas (fun _ => true)
        (inferSchema (.obj [("u", .arr [.obj [("x", .int 1)], .obj [("x", .int 2)]])]))
        (inferSchema (.obj [("u", .arr [.obj [("x", .int 1)], .obj []])])) = [] ∧
    ∀ sha256 : String → String, Function.Injective sha256 →
      stableSchemaHash sha256
          (inferSchema (.obj [("u", .arr [.obj [("x", .int 1)], .obj [("x", .int 2)]])])) ≠
        stableSchemaHash sha256
          (inferSchema (.obj [("u", .arr [.obj [("x", .int 1)], .obj []])])) := by
  refine ⟨List.eq_nil_of_length_eq_zero (by decide), fun sha256 hsha heq => ?_⟩
  exact absurd (hsha heq) (by decide +kernel)

end Driftgate.Monitor
