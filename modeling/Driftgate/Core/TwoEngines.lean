import Driftgate.Core.Engine
import Driftgate.Schema.LostLeaf

/-!
# The two engines of one submission

`/track` compares a payload with an earlier one twice: the runtime classifier compares canonical
schemas and gives one verdict, the legacy engine compares normalized types and gives each
difference a severity. Both are about the same two payloads, so BREAKING should be the verdict
exactly when some difference has that severity.

They differ in three ways. The legacy engine gives no severity to a change to or from null or an
array. The runtime classifier sees nothing below an object with a member named `type`. And it
raises where such objects have arrays under `enum`.

Without members named `type` or `[root]` only the first is left: the engines agree unless some
null or array has changed its kind and no other leaf breaks.
-/

namespace Driftgate.Core

open Driftgate.Lib Driftgate.Schema

/-! ### The severity of a difference -/

/-- The old leaf is gone, or has changed from one primitive type to another, other than from
integer to number. -/
def LeafBreaksAt : Option Json → Option Json → Prop
  | some _, none => True
  | some v, some w => (Primitive v ∧ Primitive w) ∧ v.kind ≠ w.kind ∧
      ¬(v.kind = some .integer ∧ w.kind = some .number)
  | none, _ => False

/-- The legacy engine has an item of severity BREAKING. -/
def LegacyBreaking (p q : Json) : Prop :=
  ∃ d ∈ classifyContractDrift (structuralDiff (normalizeTypes p) (normalizeTypes q)),
    d.severity = some .breaking

theorem leafName_eq_primitiveType {v : Json} {k : Kind} :
    leafName v = primitiveType k ↔ v.kind = some k := by
  unfold leafName
  cases v.kind with
  | none => cases k <;> simp [primitiveType]
  | some k' => cases k' <;> cases k <;> simp [primitiveType]

/-- The three passes give BREAKING exactly to a leaf that breaks. -/
theorem classifyItem_breaking (path : String) {o n : Option Json}
    (hne : o.map leafName ≠ n.map leafName) :
    (classifyItem ⟨path, o.map leafName, n.map leafName, none⟩).severity = some .breaking ↔
      LeafBreaksAt o n := by
  cases o with
  | none =>
    cases n with
    | none => exact absurd rfl hne
    | some w => simp [LeafBreaksAt, classifyItem, classifySafe, classifyRisky, classifyBreaking]
  | some v =>
    cases n with
    | none => simp [LeafBreaksAt, classifyItem, classifySafe, classifyRisky, classifyBreaking]
    | some w =>
      have hkind : v.kind ≠ w.kind := fun h => hne (congrArg some (leafName_eq_iff.mpr h))
      have hname : leafName v ≠ leafName w := fun h => hkind (leafName_eq_iff.mp h)
      show (classifyItem ⟨path, some (leafName v), some (leafName w), none⟩).severity = _ ↔ _
      by_cases hp : Primitive v ∧ Primitive w
      · have hint : leafName v = "int" ↔ v.kind = some .integer :=
          leafName_eq_primitiveType (k := .integer)
        have hfloat : leafName w = "float" ↔ w.kind = some .number :=
          leafName_eq_primitiveType (k := .number)
        by_cases hw : v.kind = some .integer ∧ w.kind = some .number
        · simp [LeafBreaksAt, classifyItem, classifySafe, classifyRisky, classifyBreaking,
            leafName_mem_primitiveTypes, hp, hint, hfloat, hw, hname]
        · simp [LeafBreaksAt, classifyItem, classifySafe, classifyRisky, classifyBreaking,
            leafName_mem_primitiveTypes, hp, hint, hfloat, hw, hname, hkind]
      · have hnone : (classifyItem ⟨path, some (leafName v), some (leafName w), none⟩).severity =
            none := by
          refine (classifyItem_severity_none rfl hne).mpr ⟨_, _, rfl, rfl, ?_, ?_⟩
          · rwa [leafName_mem_primitiveTypes, leafName_mem_primitiveTypes]
          · rw [requiredOld_leafName]
            intro he
            cases he
        rw [hnone]
        exact iff_of_false (Option.some_ne_none _).symm fun h => hp h.1

/-- **The legacy engine.** An item has severity BREAKING exactly when some leaf breaks. -/
theorem legacyBreaking_iff (p q : Json) :
    LegacyBreaking p q ↔ ∃ path, LeafBreaksAt (leafAt p path) (leafAt q path) := by
  rw [LegacyBreaking, classifyContractDrift_eq]
  constructor
  · rintro ⟨e, he, hsev⟩
    obtain ⟨d, hd, rfl⟩ := List.mem_map.mp he
    obtain ⟨hs, ho, hn, hne⟩ := mem_structuralDiff.mp hd
    have hd : d =
        ⟨d.path, (leafAt p d.path).map leafName, (leafAt q d.path).map leafName, none⟩ := by
      rw [← hs, ← ho, ← hn]
    rw [hd, classifyItem_breaking d.path (by rw [← ho, ← hn]; exact hne)] at hsev
    exact ⟨d.path, hsev⟩
  · rintro ⟨path, h⟩
    have hne : (leafAt p path).map leafName ≠ (leafAt q path).map leafName := by
      intro he
      cases ho : leafAt p path with
      | none => rw [ho] at h; exact h
      | some v =>
        cases hn : leafAt q path with
        | none => simp [ho, hn] at he
        | some w =>
          rw [ho, hn] at h he
          exact h.2.1 (leafName_eq_iff.mp (Option.some.inj he))
    have hd : ⟨path, (leafAt p path).map leafName, (leafAt q path).map leafName, none⟩ ∈
        structuralDiff (normalizeTypes p) (normalizeTypes q) :=
      mem_structuralDiff.mpr ⟨rfl, rfl, rfl, hne⟩
    exact ⟨_, List.mem_map_of_mem hd, (classifyItem_breaking path hne).mpr h⟩

/-! ### What the runtime classifier says of leaves -/

/-- Leaves of different kinds, one of them null or an array. -/
def UncoveredAt : Option Json → Option Json → Prop
  | some v, some w => v.kind ≠ w.kind ∧ ¬(Primitive v ∧ Primitive w)
  | _, _ => False

theorem not_covered_iff {p q : Json} :
    ¬Covered p q ↔ ∃ path, UncoveredAt (leafAt p path) (leafAt q path) := by
  constructor
  · intro h
    simp only [Covered, not_forall, not_or] at h
    obtain ⟨path, v, w, hv, hw, hk, hp⟩ := h
    exact ⟨path, by rw [hv, hw]; exact ⟨hk, hp⟩⟩
  · rintro ⟨path, h⟩ hc
    cases ho : leafAt p path with
    | none => rw [ho] at h; exact h
    | some v =>
      cases hn : leafAt q path with
      | none => rw [ho, hn] at h; exact h
      | some w =>
        rw [ho, hn] at h
        rcases hc path v w ho hn with hk | hp
        · exact h.1 hk
        · exact h.2 hp

theorem not_obj_of_mem_leaves {v w : Json} {ℓ : Location} (h : (ℓ, w) ∈ leaves v)
    (members : List (String × Json)) : w ≠ .obj members := by
  induction v using Json.induction generalizing ℓ with
  | scalar v k hk =>
    rintro rfl
    cases v <;> simp_all [leaves, Json.kind]
  | arr items ih =>
    have hitems : ∀ i, (ℓ, w) ∈ leavesItems items i → w ≠ .obj members := by
      clear h
      induction items with
      | nil => intro i h; simp [leavesItems] at h
      | cons v items ihi =>
        intro i h
        rw [List.forall_mem_cons] at ih
        rw [leavesItems, List.mem_append, mem_under] at h
        rcases h with ⟨ℓ', -, h⟩ | h
        · exact ih.1 h
        · exact ihi ih.2 (i + 1) h
    rw [leaves, List.mem_cons] at h
    rcases h with h | h
    · rintro rfl
      simp at h
    · exact hitems 0 h
  | obj _ ih =>
    rw [leaves, leavesMembers_eq, sortByKey_map fun e => leaves e.2, List.flatMap_map,
      List.mem_flatMap] at h
    obtain ⟨e, he, h⟩ := h
    obtain ⟨ℓ', -, h⟩ := mem_under.mp h
    exact ih e (mem_sortByKey.mp he) h

theorem not_obj_of_leafAt {v w : Json} {path : String} (h : leafAt v path = some w)
    (members : List (String × Json)) : w ≠ .obj members := by
  obtain ⟨e, he, heq⟩ := List.mem_map.mp (mem_of_lastBinding h)
  obtain ⟨-, rfl⟩ := Prod.mk.inj heq
  exact not_obj_of_mem_leaves he members

section Leaf

variable (printable : Char → Bool)

/-- The type name of a leaf. -/
theorem typeName_leaf {v : Json} (h : ∀ members, v ≠ .obj members) :
    typeName printable v = (v.kind.map Kind.name).getD "array" := by
  cases hk : v.kind with
  | some k => exact typeName_scalar printable hk
  | none =>
    cases v with
    | arr items => rfl
    | obj members => exact absurd rfl (h members)
    | _ => simp [Json.kind] at hk

theorem typeName_leaf_eq_iff {v w : Json} (hv : ∀ members, v ≠ .obj members)
    (hw : ∀ members, w ≠ .obj members) :
    typeName printable v = typeName printable w ↔ v.kind = w.kind := by
  rw [typeName_leaf printable hv, typeName_leaf printable hw]
  cases v.kind with
  | none =>
    cases w.kind with
    | none => simp
    | some k => cases k <;> simp [Kind.name]
  | some k =>
    cases w.kind with
    | none => cases k <;> simp [Kind.name]
    | some k' => cases k <;> cases k' <;> simp [Kind.name]

theorem typeName_leaf_eq_name {v : Json} (h : ∀ members, v ≠ .obj members) (k : Kind) :
    typeName printable v = k.name ↔ v.kind = some k := by
  rw [typeName_leaf printable h]
  cases v.kind with
  | none => cases k <;> simp [Kind.name]
  | some k' => cases k <;> cases k' <;> simp [Kind.name]

/-- Of the leaves only null is nullable. -/
theorem nullable_leaf {v : Json} (h : ∀ members, v ≠ .obj members) :
    nullable v = some true ↔ v.kind = some .null := by
  cases v with
  | obj members => exact absurd rfl (h members)
  | _ => simp [nullable, marker, Json.kind, nullableOf, arrayMarker, canonicalize, Kind.leaf,
      CanonicalSchema.leaf, CanonicalSchema.get?, List.lookup_cons, CanonicalSchema.truthy]

/-- On leaves the classifier answers BREAKING where the legacy engine does, and where that has no
severity. -/
theorem breaksAt_leaves {o n : Option Json} (ho : ∀ v ∈ o, ∀ members, v ≠ .obj members)
    (hn : ∀ w ∈ n, ∀ members, w ≠ .obj members) :
    BreaksAt printable o n ↔ LeafBreaksAt o n ∨ UncoveredAt o n := by
  cases o with
  | none => simp [BreaksAt, LeafBreaksAt, UncoveredAt]
  | some v =>
    have hv := ho v rfl
    cases n with
    | none =>
      have hget : v.get? "required" = none := by
        cases v with
        | obj members => exact absurd rfl (hv members)
        | _ => rfl
      simp [BreaksAt, MarkedOptional, LeafBreaksAt, hget]
    | some w =>
      have hw := hn w rfl
      have hnull : ¬NullBreaks printable v w := by
        rintro ⟨ht, hv', hw'⟩
        have hk := (nullable_leaf hv).mp hv'
        rw [(typeName_leaf_eq_iff printable hv hw).mp ht, ← nullable_leaf hw, hw'] at hk
        exact absurd hk (by decide)
      have hint : typeName printable v = "integer" ↔ v.kind = some .integer :=
        typeName_leaf_eq_name printable hv .integer
      have hnumber : typeName printable w = "number" ↔ w.kind = some .number :=
        typeName_leaf_eq_name printable hw .number
      have hwide : v.kind = some .integer ∧ w.kind = some .number → Primitive v ∧ Primitive w :=
        fun h => ⟨⟨.integer, h.1, by decide⟩, .number, h.2, by decide⟩
      rw [BreaksAt, or_iff_left hnull, TypeBreaks, hint, hnumber, Ne,
        typeName_leaf_eq_iff printable hv hw, LeafBreaksAt, UncoveredAt]
      tauto

end Leaf

/-! ### Where the two engines look at the same leaf -/

theorem pathFrom_eq_orRoot (path : String) (ℓ : Location) :
    pathFrom path ℓ = orRoot (flatPathFrom path ℓ) := by
  induction ℓ generalizing path with
  | nil => rfl
  | cons s ℓ ih =>
    cases s with
    | key k => exact ih (keyPath path k)
    | index i =>
      have hi : indexPath path i = s!"{path}[*{i}]" := by
        by_cases h : path = "" <;> simp [indexPath, h, toString]
      rw [pathFrom, flatPathFrom, hi]
      exact ih _

theorem orRoot_ne_empty (path : String) : orRoot path ≠ "" := by
  unfold orRoot
  split
  · decide
  · assumption

theorem shown_eq (v : Json) (path : String) : shown v path =
    lastBinding path ((visible v).map fun e => (orRoot (flatPathFrom "" e.1), e.2)) := by
  simp only [shown, pathOf, pathFrom_eq_orRoot]

/-- Nothing is shown at the empty path string, which becomes `[root]`. -/
theorem shown_empty (v : Json) : shown v "" = none := by
  rw [shown_eq, lastBinding_eq_none]
  intro h
  obtain ⟨e, he, heq⟩ := List.mem_map.mp h
  obtain ⟨e', -, rfl⟩ := List.mem_map.mp he
  exact orRoot_ne_empty _ heq

/-- The path strings of the legacy engine reach everything the runtime classifier shows. -/
theorem exists_breaksAt_orRoot (printable : Char → Bool) (v w : Json) :
    (∃ path, BreaksAt printable (shown v path) (shown w path)) ↔
      ∃ path, BreaksAt printable (shown v (orRoot path)) (shown w (orRoot path)) := by
  constructor
  · rintro ⟨path, h⟩
    refine ⟨path, ?_⟩
    by_cases hp : path = ""
    · rw [hp, shown_empty] at h
      exact h.elim
    · rwa [orRoot, if_neg hp]
  · rintro ⟨path, h⟩
    exact ⟨orRoot path, h⟩

/-- No key of the document is `type`, and none is `[root]`. -/
def Unmarked (v : Json) : Prop :=
  ∀ ℓ, (v.at ℓ).isSome → .key "type" ∉ ℓ ∧ .key "[root]" ∉ ℓ

theorem Unmarked.child {v w : Json} {s : Step} (h : Unmarked v) (hc : v.child s = some w) :
    (s ≠ .key "type" ∧ s ≠ .key "[root]") ∧ Unmarked w := by
  have hcons : ∀ ℓ, (w.at ℓ).isSome → .key "type" ∉ s :: ℓ ∧ .key "[root]" ∉ s :: ℓ := by
    intro ℓ hℓ
    refine h (s :: ℓ) ?_
    rw [Json.at_cons, hc]
    exact hℓ
  refine ⟨?_, fun ℓ hℓ => ?_⟩
  · have hs := hcons [] rfl
    simp only [List.mem_singleton] at hs
    exact ⟨fun he => hs.1 he.symm, fun he => hs.2 he.symm⟩
  · have hs := hcons ℓ hℓ
    simp only [List.mem_cons, not_or] at hs
    exact ⟨hs.1.2, hs.2.2⟩

theorem Unmarked.of_plainKeys {v : Json} (h : v.PlainKeys) : Unmarked v := by
  intro ℓ hℓ
  obtain ⟨w, hw⟩ := Option.isSome_iff_exists.mp hℓ
  have hplain := (h.at hw).2
  refine ⟨fun hm => (hplain _ hm).1 rfl, fun hm => (hplain _ hm).2.2.2 ?_⟩
  decide

theorem Unmarked.at {v w : Json} {ℓ : Location} (h : Unmarked v) (ha : v.at ℓ = some w) :
    Unmarked w := by
  induction ℓ generalizing v with
  | nil =>
    rw [Json.at_nil] at ha
    exact Option.some.inj ha ▸ h
  | cons s ℓ ih =>
    rw [Json.at_cons] at ha
    obtain ⟨u, hu, ha⟩ := Option.bind_eq_some_iff.mp ha
    exact ih (h.child hu).2 ha

theorem Unmarked.lookup_type {members : List (String × Json)} (h : Unmarked (.obj members)) :
    members.lookup "type" = none := by
  cases ht : members.lookup "type" with
  | none => rfl
  | some t =>
    have hc : (Json.obj members).child (.key "type") = some t := ht
    exact absurd rfl (h.child hc).1.1

/-- Without a member named `type` the leaves are what is visible. -/
theorem visible_eq_leaves {v : Json} (hu : v.UniqueKeys) (h : Unmarked v) :
    visible v = leaves v := by
  induction v using Json.induction with
  | scalar v k hk => cases v <;> simp_all [visible, leaves, Json.kind]
  | arr items ih =>
    rw [Json.UniqueKeys, uniqueKeysItems_iff] at hu
    have hitem : ∀ v ∈ items, visible v = leaves v := by
      intro v hv
      obtain ⟨i, hi⟩ := List.getElem?_of_mem hv
      have hc : (Json.arr items).child (.index i) = some v := hi
      exact ih v hv (hu v hv) (h.child hc).2
    have hitems : ∀ i, visibleItems items i = leavesItems items i := by
      clear ih hu h
      induction items with
      | nil => intro i; simp [visibleItems, leavesItems]
      | cons v items ihi =>
        intro i
        rw [List.forall_mem_cons] at hitem
        rw [visibleItems, leavesItems, hitem.1, ihi hitem.2]
    rw [visible, leaves, hitems]
  | obj members ih =>
    rw [Json.UniqueKeys, uniqueKeysMembers_iff] at hu
    have hmember : ∀ e ∈ members, visible e.2 = leaves e.2 := by
      intro e he
      have hc : (Json.obj members).child (.key e.1) = some e.2 := lookup_of_mem hu.1 he
      exact ih e he (hu.2 e he) (h.child hc).2
    rw [visible_obj h.lookup_type, leaves, leavesMembers_eq, sortByKey_map fun e => leaves e.2,
      List.flatMap_map]
    refine List.flatMap_congr fun e he => ?_
    rw [hmember e (mem_sortByKey.mp he)]

/-- Only the key itself gives the path string `[root]`: every further step brings a dot or a
star. -/
theorem flatPathFrom_eq_root {path : String} (hne : path ≠ "") {ℓ : Location}
    (h : flatPathFrom path ℓ = "[root]") : path = "[root]" := by
  have htext := pathFrom_toList hne ℓ
  rw [pathFrom_eq_orRoot, h] at htext
  have hmem : ∀ c ∈ ℓ.flatMap stepText, c ∈ "[root]".toList := by
    intro c hc
    show c ∈ (orRoot "[root]").toList
    rw [htext]
    exact List.mem_append_right _ hc
  cases ℓ with
  | nil => exact h
  | cons s ℓ =>
    cases s with
    | key k => exact absurd (hmem '.' (by simp [stepText])) (by decide)
    | index i => exact absurd (hmem '*' (by simp [stepText])) (by decide)

theorem flatPathFrom_ne_root {ℓ : Location} (h : .key "[root]" ∉ ℓ) :
    flatPathFrom "" ℓ ≠ "[root]" := by
  induction ℓ with
  | nil => decide
  | cons s ℓ ih =>
    rw [List.mem_cons, not_or] at h
    cases s with
    | key k =>
      rw [flatPathFrom, keyPath, if_pos rfl]
      by_cases hk : k = ""
      · rw [hk]
        exact ih h.2
      · intro hroot
        exact h.1 (by rw [flatPathFrom_eq_root hk hroot])
    | index i =>
      intro hroot
      rw [flatPathFrom] at hroot
      have hstar : '*' ∈ (toString "" ++ "[*" ++ toString i ++ "]").toList := by simp [toString]
      have hne : toString "" ++ "[*" ++ toString i ++ "]" ≠ "" := by
        intro he
        rw [he] at hstar
        exact absurd hstar (by decide)
      rw [flatPathFrom_eq_root hne hroot] at hstar
      exact absurd hstar (by decide)

theorem orRoot_injective {path path' : String} (h : path ≠ "[root]") (h' : path' ≠ "[root]")
    (heq : orRoot path = orRoot path') : path = path' := by
  unfold orRoot at heq
  split_ifs at heq with hp hp' hp'
  · rw [hp, hp']
  · exact absurd heq.symm h'
  · exact absurd heq h
  · exact heq

/-- No leaf has the path string `[root]`. -/
theorem flatPathFrom_leaves_ne_root {v w : Json} {ℓ : Location} (hu : v.UniqueKeys)
    (h : Unmarked v) (hm : (ℓ, w) ∈ leaves v) : flatPathFrom "" ℓ ≠ "[root]" := by
  rw [← visible_eq_leaves hu h] at hm
  have hat : (v.at ℓ).isSome := by
    rw [(at_of_mem_visible hu hm).1]
    rfl
  exact flatPathFrom_ne_root (h ℓ hat).2

theorem leafAt_root {v : Json} (hu : v.UniqueKeys) (h : Unmarked v) :
    leafAt v "[root]" = none := by
  rw [leafAt, lastBinding_eq_none]
  intro hm
  obtain ⟨e, he, heq⟩ := List.mem_map.mp hm
  obtain ⟨e', he', rfl⟩ := List.mem_map.mp he
  exact flatPathFrom_leaves_ne_root hu h he' heq

/-- **One view.** Without members named `type` or `[root]` both engines have the same leaf at a
path string. -/
theorem shown_orRoot {v : Json} (hu : v.UniqueKeys) (h : Unmarked v) {path : String}
    (hpath : path ≠ "[root]") : shown v (orRoot path) = leafAt v path := by
  have hkeys : ∀ e ∈ (leaves v).map fun e => (flatPathFrom "" e.1, e.2),
      orRoot e.1 = orRoot path → e.1 = path := by
    intro e he heq
    obtain ⟨e', he', rfl⟩ := List.mem_map.mp he
    exact orRoot_injective (flatPathFrom_leaves_ne_root hu h he') hpath heq
  rw [shown_eq, visible_eq_leaves hu h, leafAt]
  simpa [List.map_map, Function.comp_def] using lastBinding_map_key orRoot hkeys

/-! ### Agreement -/

/-- The runtime classifier shows at a path string what the legacy engine has there. -/
def SameView (p q : Json) (path : String) : Prop :=
  shown p (orRoot path) = leafAt p path ∧ shown q (orRoot path) = leafAt q path

/-- When the engines agree on two payloads whatever their keys are. -/
structure EnginesAgree (printable : Char → Bool) (p q : Json) : Prop where
  /-- A change the legacy engine passes over, or that of an object with a member `type`, is not
  the only reason for the verdict. -/
  overlooked : (∀ path, ¬ClashAt printable (shown p path) (shown q path)) →
    (∃ path, SameView p q path ∧ UncoveredAt (leafAt p path) (leafAt q path) ∨
      ¬SameView p q path ∧ BreaksAt printable (shown p (orRoot path)) (shown q (orRoot path))) →
    ∃ path, LeafBreaksAt (leafAt p path) (leafAt q path)
  /-- A leaf that breaks and that the runtime classifier does not see is not the only reason for
  the severity. -/
  hidden : (∃ path, ¬SameView p q path ∧ LeafBreaksAt (leafAt p path) (leafAt q path)) →
    ∃ path, BreaksAt printable (shown p path) (shown q path)
  /-- The runtime classifier does not raise when a leaf breaks. -/
  raised : (∃ path, LeafBreaksAt (leafAt p path) (leafAt q path)) →
    ∀ path, ¬ClashAt printable (shown p path) (shown q path)

theorem breaksAt_of_sameView {printable : Char → Bool} {p q : Json} {path : String}
    (h : SameView p q path) :
    BreaksAt printable (shown p (orRoot path)) (shown q (orRoot path)) ↔
      LeafBreaksAt (leafAt p path) (leafAt q path) ∨
        UncoveredAt (leafAt p path) (leafAt q path) := by
  rw [h.1, h.2]
  exact breaksAt_leaves printable (fun v hv => not_obj_of_leafAt hv)
    fun w hw => not_obj_of_leafAt hw

/-- Without members named `type` or `[root]` nothing is raised. -/
theorem not_clashAt_of_unmarked {printable : Char → Bool} {p q : Payload}
    (hp : Unmarked p.json) (hq : Unmarked q.json) (path : String) :
    ¬ClashAt printable (shown p.json path) (shown q.json path) := by
  have henum : ∀ r : Payload, Unmarked r.json → ¬HasEnum r.json := by
    rintro r hr ⟨ℓ, members, es, ha, ht, -, -⟩
    rw [(hr.at ha).lookup_type] at ht
    exact absurd ht (by decide)
  exact not_clashAt_of_not_hasEnum (henum p hp) (henum q hq) path

/-- The runtime classifier breaks where the legacy engine does, or at an uncovered leaf. -/
theorem exists_breaksAt_of_unmarked {printable : Char → Bool} {p q : Payload}
    (hp : Unmarked p.json) (hq : Unmarked q.json) :
    (∃ path, BreaksAt printable (shown p.json path) (shown q.json path)) ↔
      (∃ path, LeafBreaksAt (leafAt p.json path) (leafAt q.json path)) ∨
        ¬Covered p.json q.json := by
  have hview : ∀ path, path ≠ "[root]" → SameView p.json q.json path :=
    fun path h => ⟨shown_orRoot p.uniqueKeys hp h, shown_orRoot q.uniqueKeys hq h⟩
  rw [not_covered_iff, exists_breaksAt_orRoot, ← exists_or]
  constructor
  · rintro ⟨path, h⟩
    by_cases hpath : path = "[root]"
    · -- the leaf shown there is the one at the empty path
      rw [hpath] at h
      exact ⟨"", (breaksAt_of_sameView (hview "" (by decide))).mp h⟩
    · exact ⟨path, (breaksAt_of_sameView (hview path hpath)).mp h⟩
  · rintro ⟨path, h⟩
    by_cases hpath : path = "[root]"
    · rw [hpath, leafAt_root p.uniqueKeys hp] at h
      rcases h with h | h <;> exact h.elim
    · exact ⟨path, (breaksAt_of_sameView (hview path hpath)).mpr h⟩

/-- **The two engines.** They agree on BREAKING exactly when a change only one of them sees comes
with one the other sees. Without members named `type` or `[root]` that is: every null or array is
left as it is, or some other leaf breaks. -/
theorem engines_agree_iff (printable : Char → Bool) (p q : Payload) :
    ((verdict printable p q = .ok .breaking ↔ LegacyBreaking p.json q.json) ↔
      EnginesAgree printable p.json q.json) ∧
    (Unmarked p.json → Unmarked q.json →
      ((verdict printable p q = .ok .breaking ↔ LegacyBreaking p.json q.json) ↔
        Covered p.json q.json ∨
          ∃ path, LeafBreaksAt (leafAt p.json path) (leafAt q.json path))) := by
  rw [verdict_breaking, legacyBreaking_iff]
  refine ⟨⟨fun h => ⟨?_, ?_, ?_⟩, fun h => ⟨?_, ?_⟩⟩, fun hp hq => ?_⟩
  · rintro hc ⟨path, ho⟩
    refine h.mp ⟨hc, (exists_breaksAt_orRoot _ _ _).mpr ⟨path, ?_⟩⟩
    rcases ho with ⟨hview, ho⟩ | ⟨-, ho⟩
    · exact (breaksAt_of_sameView hview).mpr (.inr ho)
    · exact ho
  · rintro ⟨path, -, hl⟩
    exact (h.mpr ⟨path, hl⟩).2
  · intro hl
    exact (h.mpr hl).1
  · rintro ⟨hc, hb⟩
    obtain ⟨path, hb⟩ := (exists_breaksAt_orRoot _ _ _).mp hb
    by_cases hview : SameView p.json q.json path
    · rcases (breaksAt_of_sameView hview).mp hb with hl | hu
      · exact ⟨path, hl⟩
      · exact h.overlooked hc ⟨path, .inl ⟨hview, hu⟩⟩
    · exact h.overlooked hc ⟨path, .inr ⟨hview, hb⟩⟩
  · rintro ⟨path, hl⟩
    refine ⟨h.raised ⟨path, hl⟩, ?_⟩
    by_cases hview : SameView p.json q.json path
    · exact (exists_breaksAt_orRoot _ _ _).mpr
        ⟨path, (breaksAt_of_sameView hview).mpr (.inl hl)⟩
    · exact h.hidden ⟨path, hview, hl⟩
  · rw [and_iff_right (not_clashAt_of_unmarked hp hq), exists_breaksAt_of_unmarked hp hq]
    tauto

/-- `{"a": 1}` then `{}`: the leaf is gone, and both engines say BREAKING or neither does. -/
theorem engines_agree_lost_leaf :
    verdict (fun _ => false) ⟨[("a", .int 1)], by simp [Json.UniqueKeys, UniqueKeysMembers]⟩
        ⟨[], by simp [Json.UniqueKeys, UniqueKeysMembers]⟩ = .ok .breaking ↔
      LegacyBreaking (.obj [("a", .int 1)]) (.obj []) := by
  refine ((engines_agree_iff _ _ _).2 (.of_plainKeys ?_) (.of_plainKeys ?_)).mpr (.inr ⟨"a", ?_⟩)
  · simp [Payload.json, Json.PlainKeys, PlainKeysMembers, PlainKey]
  · simp [Payload.json, Json.PlainKeys, PlainKeysMembers]
  · show LeafBreaksAt (some (.int 1)) none
    trivial

/-- A null that becomes a string is BREAKING for the runtime classifier, and has no severity. -/
theorem null_change_splits_engines :
    ¬∀ (printable : Char → Bool) (p q : Payload),
      verdict printable p q = .ok .breaking ↔ LegacyBreaking p.json q.json := by
  intro h
  have hv : LegacyBreaking (.obj [("a", .null)]) (.obj [("a", .str "x")]) := by
    refine (h (fun _ => false)
      ⟨[("a", .null)], by simp [Json.UniqueKeys, UniqueKeysMembers]⟩
      ⟨[("a", .str "x")], by simp [Json.UniqueKeys, UniqueKeysMembers]⟩).mp ?_
    decide
  rw [LegacyBreaking, null_change_dropped.1] at hv
  simp at hv

end Driftgate.Core
