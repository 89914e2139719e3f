import Driftgate.Schema.Shown

/-!
# What the verdict says about two payloads

The verdict on two payloads in terms of what their flat dictionaries show. A path is judged by the
last value that each payload shows there, so the results are about `shown p path` and
`shown q path` and mention neither canonical schemas nor the loop.

* `diffAndClassify_ok`: the comparison returns unless some path clashes (`ClashAt`).
* `verdict_breaking`: it then returns BREAKING exactly when some path breaks (`BreaksAt`).
-/

namespace Driftgate.Schema

open Driftgate.Lib

section Verdict

variable (printable : Char → Bool)

/-- The type name the classifier reads off a shown value. -/
def typeName (v : Json) : String := typeOf printable (marker v)

/-- The nullability the classifier reads off a shown value. -/
def nullable (v : Json) : Option Bool := nullableOf (marker v)

/-- An object with an empty container under `required` counts as optional. -/
def MarkedOptional (v : Json) : Prop :=
  v.get? "required" = some (.obj []) ∨ v.get? "required" = some (.arr [])

/-- A change of type other than the widening of an integer. -/
def TypeBreaks (v w : Json) : Prop :=
  typeName printable v ≠ typeName printable w ∧
    ¬(typeName printable v = "integer" ∧ typeName printable w = "number")

/-- A nullable value becomes a required one of the same type. -/
def NullBreaks (v w : Json) : Prop :=
  typeName printable v = typeName printable w ∧ nullable v = some true ∧ nullable w = some false

/-- What one path has to show for the verdict to be BREAKING. -/
def BreaksAt : Option Json → Option Json → Prop
  | some v, none => ¬MarkedOptional v
  | some v, some w => TypeBreaks printable v w ∨ NullBreaks printable v w
  | none, _ => False

/-- Both values have an array under `enum`, and not both arrays are empty. -/
def EnumsClash (v w : Json) : Prop :=
  ∃ es es', v.get? "enum" = some (.arr es) ∧ w.get? "enum" = some (.arr es') ∧
    ¬(es = [] ∧ es' = [])

/-- Two shown values clash when no earlier rule decides and their `enum` members are compared. -/
structure Clash (v w : Json) : Prop where
  differ : marker v ≠ marker w
  type : typeName printable v = typeName printable w
  widen : ¬(nullable v = some false ∧ nullable w = some true)
  narrow : ¬(nullable v = some true ∧ nullable w = some false)
  enums : EnumsClash v w

/-- A clash of what one path shows. -/
def ClashAt : Option Json → Option Json → Prop
  | some v, some w => Clash printable v w
  | _, _ => False

/-- The verdict on two payloads, `summarize_classification(diff_and_classify(..))`. -/
def verdict (p q : Payload) : Except Failure Compatibility :=
  (diffAndClassify printable (canonicalize p.json) (canonicalize q.json)).map
    summarizeClassification

end Verdict

variable {printable : Char → Bool}

/-! ### Markers -/

theorem marker_canonical {v : Json} (hu : v.UniqueKeys) : Canonical (marker v) := by
  cases v with
  | arr items => exact .leaf _ _
  | _ => exact canonicalize_canonical hu

/-- Members of a shown object other than the two of a type marker. -/
theorem marker_get? {v : Json} (hu : v.UniqueKeys) {k : String} (ht : k ≠ "type")
    (hn : k ≠ "nullable") : (marker v).get? k = (v.get? k).map canonicalize := by
  have hleaf : ∀ type nullable, (CanonicalSchema.leaf type nullable).get? k = none := by
    intro type nullable
    simp [CanonicalSchema.leaf, CanonicalSchema.get?, List.lookup_cons, beq_false_of_ne ht,
      beq_false_of_ne hn]
  cases hk : v.kind with
  | some kind =>
    rw [marker_scalar hk, Kind.leaf, hleaf]
    cases v <;> simp_all [Json.kind, Json.get?]
  | none =>
    cases v with
    | arr items => exact hleaf _ _
    | obj members => exact canonicalize_get? rfl hu k
    | _ => simp [Json.kind] at hk

/-- A canonical schema is a dictionary or a list. -/
theorem canonicalize_container (v : Json) :
    (∃ l, canonicalize v = .members l) ∨ ∃ l, canonicalize v = .items l := by
  cases v with
  | arr items => exact .inr ⟨_, canonicalize_arr items⟩
  | obj members => exact .inl ⟨_, canonicalize_obj members⟩
  | _ => exact .inl ⟨_, rfl⟩

/-- A nonempty list of canonical schemas never becomes a set. -/
theorem toSet_canonicalize {es : List Json} (h : es ≠ []) :
    ∃ e, toSet (es.map canonicalize) = .error e := by
  cases es with
  | nil => exact absurd rfl h
  | cons v es =>
    rcases canonicalize_container v with ⟨l, hl⟩ | ⟨l, hl⟩
    · exact ⟨.typeError "unhashable type: 'dict'", by rw [List.map_cons, hl, toSet]⟩
    · exact ⟨.typeError "unhashable type: 'list'", by rw [List.map_cons, hl, toSet]⟩

theorem canonicalize_truthy (v : Json) :
    (canonicalize v).truthy = false ↔ v = .obj [] ∨ v = .arr [] := by
  cases v with
  | arr items => simp [canonicalize_arr, CanonicalSchema.truthy]
  | obj members =>
    have hl : (sortByKey (members.map fun e => (e.1, canonicalize e.2))).length =
        members.length := by
      rw [(sortByKey_perm _).length_eq, List.length_map]
    rw [canonicalize_obj, CanonicalSchema.truthy]
    simp only [Bool.not_eq_false', List.isEmpty_iff_length_eq_zero, hl, Json.obj.injEq,
      List.length_eq_zero_iff, reduceCtorEq, or_false]
  | _ => simp [canonicalize, Kind.leaf, CanonicalSchema.leaf, CanonicalSchema.truthy]

theorem markedOptional_iff {v : Json} (hu : v.UniqueKeys) :
    ((marker v).get? "required").all CanonicalSchema.truthy = false ↔ MarkedOptional v := by
  rw [marker_get? hu (by decide) (by decide), MarkedOptional]
  cases v.get? "required" with
  | none => simp
  | some w => simp [canonicalize_truthy]

/-! ### The rules on shown values -/

/-- The schema under `enum` is a list exactly when the member is an array. -/
theorem marker_enum {v : Json} (hu : v.UniqueKeys) {l : List CanonicalSchema} :
    (marker v).get? "enum" = some (.items l) ↔
      ∃ es, v.get? "enum" = some (.arr es) ∧ l = es.map canonicalize := by
  rw [marker_get? hu (by decide) (by decide), Option.map_eq_some_iff]
  constructor
  · rintro ⟨a, ha, hl⟩
    cases a with
    | arr es =>
      rw [canonicalize_arr, CanonicalSchema.items.injEq] at hl
      exact ⟨es, ha, hl.symm⟩
    | obj members => rw [canonicalize_obj] at hl; cases hl
    | _ => simp [canonicalize, Kind.leaf, CanonicalSchema.leaf] at hl
  · rintro ⟨es, ha, rfl⟩
    exact ⟨.arr es, ha, canonicalize_arr es⟩

/-- The `enum` rule raises on arrays that are not both empty. -/
theorem classifyEnum_error {v w : Json} (hv : v.UniqueKeys) (hw : w.UniqueKeys)
    (h : EnumsClash v w) : ∃ e, classifyEnum (marker v) (marker w) = .error e := by
  obtain ⟨es, es', hes, hes', hne⟩ := h
  have hl := (marker_enum hv).mpr ⟨es, hes, rfl⟩
  have hl' := (marker_enum hw).mpr ⟨es', hes', rfl⟩
  simp only [classifyEnum, hl, hl']
  by_cases hnil : es = []
  · obtain ⟨e, he⟩ := toSet_canonicalize fun h' => hne ⟨hnil, h'⟩
    subst hnil
    exact ⟨e, by simp only [List.map_nil, toSet, he, bind, Except.bind]⟩
  · obtain ⟨e, he⟩ := toSet_canonicalize hnil
    exact ⟨e, by simp only [he, bind, Except.bind]⟩

/-- Otherwise it finds nothing. -/
theorem classifyEnum_ok {v w : Json} (hv : v.UniqueKeys) (hw : w.UniqueKeys)
    (h : ¬EnumsClash v w) :
    classifyEnum (marker v) (marker w) = .ok (.safe, "no compatibility risk") := by
  rw [classifyEnum]
  split
  · rename_i l l' hl hl'
    obtain ⟨es, hes, rfl⟩ := (marker_enum hv).mp hl
    obtain ⟨es', hes', rfl⟩ := (marker_enum hw).mp hl'
    obtain ⟨rfl, rfl⟩ : es = [] ∧ es' = [] := by
      by_contra hne
      exact h ⟨es, es', hes, hes', hne⟩
    simp [toSet, bind, Except.bind, pure, Except.pure, properSubset]
  · rfl

theorem sameNode_marker {v w : Json} (hv : v.UniqueKeys) (hw : w.UniqueKeys) :
    sameNode (some (marker v)) (some (marker w)) = true ↔ marker v = marker w :=
  pyEq_iff_eq (marker_canonical hv) (marker_canonical hw)

/-- Any change of type but the widening of an integer is BREAKING. -/
theorem classifyChange_of_type_ne {o n : CanonicalSchema}
    (hne : typeOf printable o ≠ typeOf printable n)
    (hw : ¬(typeOf printable o = "integer" ∧ typeOf printable n = "number")) :
    ∃ reason, classifyChange printable o n = .ok (.breaking, reason) := by
  simp only [classifyChange]
  rw [if_pos hne, if_neg hw]
  split_ifs <;> exact ⟨_, rfl⟩

theorem classifyChange_typeBreaks {v w : Json} (h : TypeBreaks printable v w) :
    ∃ reason, classifyChange printable (marker v) (marker w) = .ok (.breaking, reason) :=
  classifyChange_of_type_ne h.1 h.2

theorem classifyChange_widening {v w : Json} (hv : typeName printable v = "integer")
    (hw : typeName printable w = "number") :
    classifyChange printable (marker v) (marker w) = .ok (.risky, "int->float widening") := by
  rw [typeName] at hv hw
  simp [classifyChange, hv, hw, pure, Except.pure]

/-- Values of one type are judged by their nullability, then by their `enum` members. -/
theorem classifyChange_same {v w : Json} (h : typeName printable v = typeName printable w) :
    classifyChange printable (marker v) (marker w) =
      if nullable v = some false ∧ nullable w = some true then
        .ok (.backwardCompatible, "required field becomes nullable")
      else if nullable v = some true ∧ nullable w = some false then
        .ok (.breaking, "nullable field becomes required")
      else classifyEnum (marker v) (marker w) := by
  rw [typeName, typeName] at h
  simp only [classifyChange]
  rw [if_neg (not_not_intro h)]
  rfl

/-- The rules for a change raise on a clash of `enum` members that no earlier rule decides. -/
theorem classifyChange_ok {v w : Json} (hv : v.UniqueKeys) (hw : w.UniqueKeys)
    (hd : marker v ≠ marker w) :
    (∃ r, classifyChange printable (marker v) (marker w) = .ok r) ↔ ¬Clash printable v w := by
  by_cases ht : typeName printable v = typeName printable w
  · rw [classifyChange_same ht]
    split_ifs with hwiden hnarrow
    · exact iff_of_true ⟨_, rfl⟩ fun h => h.widen hwiden
    · exact iff_of_true ⟨_, rfl⟩ fun h => h.narrow hnarrow
    · by_cases he : EnumsClash v w
      · obtain ⟨e, he'⟩ := classifyEnum_error hv hw he
        exact iff_of_false (by simp [he']) fun h => h ⟨hd, ht, hwiden, hnarrow, he⟩
      · exact iff_of_true ⟨_, classifyEnum_ok hv hw he⟩ fun h => he h.enums
  · refine iff_of_true ?_ fun h => ht h.type
    by_cases hi : typeName printable v = "integer" ∧ typeName printable w = "number"
    · exact ⟨_, classifyChange_widening hi.1 hi.2⟩
    · obtain ⟨reason, hr⟩ := classifyChange_typeBreaks ⟨ht, hi⟩
      exact ⟨_, hr⟩

/-- The rules for a change answer BREAKING on a change of type or a lost nullability. -/
theorem classifyChange_breaking {v w : Json} (hv : v.UniqueKeys) (hw : w.UniqueKeys) :
    (∃ reason, classifyChange printable (marker v) (marker w) = .ok (.breaking, reason)) ↔
      TypeBreaks printable v w ∨ NullBreaks printable v w := by
  by_cases ht : typeName printable v = typeName printable w
  · have hno : ¬TypeBreaks printable v w := fun h => h.1 ht
    rw [classifyChange_same ht]
    split_ifs with hwiden hnarrow
    · refine iff_of_false (by simp) ?_
      rintro (h | ⟨-, h, -⟩)
      · exact hno h
      · simp [hwiden.1] at h
    · exact iff_of_true ⟨_, rfl⟩ (.inr ⟨ht, hnarrow⟩)
    · refine iff_of_false ?_ ?_
      · by_cases he : EnumsClash v w
        · obtain ⟨e, he'⟩ := classifyEnum_error hv hw he
          simp [he']
        · simp [classifyEnum_ok hv hw he]
      · rintro (h | ⟨-, h⟩)
        · exact hno h
        · exact hnarrow h
  · have hnull : ¬NullBreaks printable v w := fun h => ht h.1
    by_cases hi : typeName printable v = "integer" ∧ typeName printable w = "number"
    · rw [classifyChange_widening hi.1 hi.2]
      exact iff_of_false (by simp) (not_or.mpr ⟨fun h => h.2 hi, hnull⟩)
    · exact iff_of_true (classifyChange_typeBreaks ⟨ht, hi⟩) (.inl ⟨ht, hi⟩)

/-! ### One path -/

/-- **Raising at a path.** The rules raise on differing nodes exactly when what they show
clashes. -/
theorem classify_ok {o n : Option Json} (ho : ∀ v ∈ o, v.UniqueKeys) (hn : ∀ w ∈ n, w.UniqueKeys) :
    (sameNode (o.map marker) (n.map marker) = false →
      ∃ r, classify printable (o.map marker) (n.map marker) = .ok r) ↔
      ¬ClashAt printable o n := by
  cases o with
  | none =>
    refine iff_of_true (fun _ => ?_) (fun h => h)
    cases n with
    | none => exact ⟨_, rfl⟩
    | some w =>
      simp only [Option.map_none, Option.map_some, classify]
      split <;> exact ⟨_, rfl⟩
  | some v =>
    cases n with
    | none =>
      refine iff_of_true (fun _ => ?_) (fun h => h)
      simp only [Option.map_none, Option.map_some, classify]
      split <;> exact ⟨_, rfl⟩
    | some w =>
      have hv := ho v rfl
      have hw := hn w rfl
      rw [ClashAt, Option.map_some, Option.map_some, ← Bool.not_eq_true, sameNode_marker hv hw,
        classify]
      by_cases hd : marker v = marker w
      · exact iff_of_true (fun h => absurd hd h) fun h => h.differ hd
      · rw [← classifyChange_ok hv hw hd]
        exact ⟨fun h => h hd, fun h _ => h⟩

/-- **Breaking at a path.** The rules answer BREAKING on differing nodes exactly when what they
show breaks. -/
theorem classify_breaking {o n : Option Json} (ho : ∀ v ∈ o, v.UniqueKeys)
    (hn : ∀ w ∈ n, w.UniqueKeys) :
    (sameNode (o.map marker) (n.map marker) = false ∧
      ∃ reason, classify printable (o.map marker) (n.map marker) = .ok (.breaking, reason)) ↔
      BreaksAt printable o n := by
  cases o with
  | none =>
    refine iff_of_false ?_ (fun h => h)
    cases n with
    | none => simp [sameNode]
    | some w =>
      simp only [Option.map_none, Option.map_some, classify]
      split <;> simp [pure, Except.pure]
  | some v =>
    have hv := ho v rfl
    cases n with
    | none =>
      rw [BreaksAt, ← markedOptional_iff hv]
      simp only [Option.map_none, Option.map_some, classify, sameNode, true_and]
      split <;> simp_all [pure, Except.pure]
    | some w =>
      have hw := hn w rfl
      rw [BreaksAt, ← classifyChange_breaking hv hw, Option.map_some, Option.map_some,
        ← Bool.not_eq_true, sameNode_marker hv hw, classify]
      refine and_iff_right_of_imp fun h => ?_
      rcases (classifyChange_breaking hv hw).mp h with h | ⟨-, h, h'⟩
      · exact fun he => h.1 (congrArg (typeOf printable) he)
      · intro he
        have hn : nullable v = nullable w := congrArg nullableOf he
        simp [h, h'] at hn

/-! ### All paths -/

/-- What a payload shows has unique keys. -/
theorem shown_uniqueKeys {v w : Json} (hu : v.UniqueKeys) {path : String}
    (h : w ∈ shown v path) : w.UniqueKeys := by
  obtain ⟨e, he, h'⟩ := List.mem_map.mp (mem_of_lastBinding h)
  obtain ⟨-, rfl⟩ := Prod.mk.inj h'
  exact hu.at (at_of_mem_visible hu he).1

/-- The paths the loop skips show no difference. -/
theorem mem_allPaths_of_differ {v w : Json} (hv : v.UniqueKeys) (hw : w.UniqueKeys) {path : String}
    (h : sameNode ((shown v path).map marker) ((shown w path).map marker) = false) :
    path ∈ allPaths (flatten (canonicalize v) "") (flatten (canonicalize w) "") := by
  by_contra hm
  have hsame := sameNode_of_notMem hm
  rw [lastBinding_flatten hv, lastBinding_flatten hw, h] at hsame
  exact absurd hsame (by decide)

variable {p q : Payload}

/-- **When the comparison returns.** It raises exactly when what some path shows clashes. -/
theorem diffAndClassify_ok :
    (∃ ds, diffAndClassify printable (canonicalize p.json) (canonicalize q.json) = .ok ds) ↔
      ∀ path, ¬ClashAt printable (shown p.json path) (shown q.json path) := by
  have hp := p.uniqueKeys
  have hq := q.uniqueKeys
  have hpath : ∀ path, _ ↔ ¬ClashAt printable (shown p.json path) (shown q.json path) :=
    fun path => classify_ok (fun _ => shown_uniqueKeys hp) fun _ => shown_uniqueKeys hq
  rw [diffAndClassify, diffPaths_ok]
  simp only [lastBinding_flatten hp, lastBinding_flatten hq, ← hpath]
  exact ⟨fun h path hs => h path (mem_allPaths_of_differ hp hq hs) hs, fun h path _ => h path⟩

/-- **When the verdict is BREAKING.** Nothing clashes, and what some path shows breaks. -/
theorem verdict_breaking :
    verdict printable p q = .ok .breaking ↔
      (∀ path, ¬ClashAt printable (shown p.json path) (shown q.json path)) ∧
      ∃ path, BreaksAt printable (shown p.json path) (shown q.json path) := by
  have hp := p.uniqueKeys
  have hq := q.uniqueKeys
  have hpath : ∀ path, _ ↔ BreaksAt printable (shown p.json path) (shown q.json path) :=
    fun path => classify_breaking (fun _ => shown_uniqueKeys hp) fun _ => shown_uniqueKeys hq
  rw [← diffAndClassify_ok, verdict]
  cases hd : diffAndClassify printable (canonicalize p.json) (canonicalize q.json) with
  | error e => simp [Except.map]
  | ok ds =>
    have hmem := mem_diffPaths hd .breaking
    simp only [lastBinding_flatten hp, lastBinding_flatten hq, hpath] at hmem
    rw [Except.map, Except.ok.injEq, summarizeClassification_breaking, hmem]
    simp only [Except.ok.injEq, exists_eq', true_and]
    refine exists_congr fun path => and_iff_right_of_imp fun h => ?_
    exact mem_allPaths_of_differ hp hq ((hpath path).mpr h).1

/-- Some object of the document has a member `type`, and under `enum` an array that is not
empty. -/
def HasEnum (v : Json) : Prop :=
  ∃ ℓ members es, v.at ℓ = some (.obj members) ∧ (members.lookup "type").isSome ∧
    members.lookup "enum" = some (.arr es) ∧ es ≠ []

/-- What a payload shows is at one of its locations, and an object among it has a member
`type`. -/
theorem shown_obj {v : Json} (hu : v.UniqueKeys) {path : String} {members : List (String × Json)}
    (h : shown v path = some (.obj members)) :
    ∃ ℓ, v.at ℓ = some (.obj members) ∧ (members.lookup "type").isSome := by
  obtain ⟨e, he, heq⟩ := List.mem_map.mp (mem_of_lastBinding h)
  obtain ⟨-, hobj⟩ := Prod.mk.inj heq
  have hobj : e.2 = .obj members := hobj
  have hmem : (e.1, Json.obj members) ∈ visible v := hobj ▸ he
  obtain ⟨ha, harr⟩ := at_of_mem_visible hu hmem
  refine ⟨e.1, ha, ?_⟩
  by_contra hc
  obtain ⟨items, hi⟩ := harr rfl (Option.not_isSome_iff_eq_none.mp hc)
  cases hi

/-- A clash needs an object with `type` and `enum` in one of the payloads. -/
theorem not_clashAt_of_not_hasEnum {p q : Payload} (hp : ¬HasEnum p.json) (hq : ¬HasEnum q.json)
    (path : String) : ¬ClashAt printable (shown p.json path) (shown q.json path) := by
  have henum : ∀ (r : Payload) v es, shown r.json path = some v → ¬HasEnum r.json →
      v.get? "enum" = some (.arr es) → es = [] := by
    intro r v es hv hr hes
    cases v with
    | obj members =>
      obtain ⟨ℓ, ha, ht⟩ := shown_obj r.uniqueKeys hv
      by_contra hne
      exact hr ⟨ℓ, members, es, ha, ht, hes, hne⟩
    | _ => simp [Json.get?] at hes
  intro h
  cases ho : shown p.json path with
  | none => rw [ho] at h; exact h
  | some v =>
    cases hn : shown q.json path with
    | none => rw [ho, hn] at h; exact h
    | some w =>
      rw [ho, hn] at h
      obtain ⟨es, es', hes, hes', hne⟩ := h.enums
      exact hne ⟨henum p v es ho hp hes, henum q w es' hn hq hes'⟩

end Driftgate.Schema
