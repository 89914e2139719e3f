import Driftgate.Monitor.SchemaHash

/-!
# The order of array elements

Reordering the elements of arrays reorders what inference observes (`observe_perm`), path by path.
Most of a profile is the same for all orders. `AgreesAt` names the rest: which kind of value comes
first, where that decides the type of the node, and the item type of the last list.
-/

namespace Driftgate.Monitor

open Driftgate.Lib Driftgate.Schema

/-- The second body is the first with the elements of arrays, at any depth, in another order. -/
inductive Reordered : Json → Json → Prop
  | refl (v : Json) : Reordered v v
  | trans {u v w : Json} : Reordered u v → Reordered v w → Reordered u w
  | perm {items items' : List Json} : items.Perm items' → Reordered (.arr items) (.arr items')
  | item (l r : List Json) {v w : Json} : Reordered v w →
      Reordered (.arr (l ++ v :: r)) (.arr (l ++ w :: r))
  | member (l r : List (String × Json)) (k : String) {v w : Json} : Reordered v w →
      Reordered (.obj (l ++ (k, v) :: r)) (.obj (l ++ (k, w) :: r))

/-! ### Observations in another order -/

def membersOf : Json → List (String × Json)
  | .obj members => members
  | _ => []

theorem observeMembers_eq_flatMap (members : List (String × Json)) (path : String) :
    observeMembers members path =
      members.flatMap fun e => observeValue e.2 (joinPath path e.1) := by
  induction members with
  | nil => simp [observeMembers]
  | cons e members ih => simp [observeMembers, ih]

theorem observeItems_eq_flatMap (items : List Json) (path : String) :
    observeItems items path = items.flatMap fun v => observeValue v path := by
  induction items with
  | nil => simp [observeItems]
  | cons v items ih => simp [observeItems, ih]

theorem observeObjects_eq_flatMap (items : List Json) (path : String) :
    observeObjects items path = items.flatMap fun v => observeMembers (membersOf v) path := by
  induction items with
  | nil => simp [observeObjects]
  | cons v items ih => cases v <;> simp [observeObjects, observeMembers, membersOf, ih]

theorem itemTypeOf_perm {items items' : List Json}
    (h : (items.map scalarType).Perm (items'.map scalarType)) : itemTypeOf items = itemTypeOf items' := by
  have hp := (h.filter (· ≠ JsonType.null)).dedup
  rw [itemTypeOf, itemTypeOf]
  generalize ((items.map scalarType).filter (· ≠ JsonType.null)).dedup = l at hp ⊢
  generalize ((items'.map scalarType).filter (· ≠ JsonType.null)).dedup = l' at hp ⊢
  match l, l', hp with
  | [], [], _ => rfl
  | [t], l', hp =>
    obtain rfl : l' = [t] := List.perm_singleton.mp hp.symm
    rfl
  | _ :: _ :: _, _ :: _ :: _, _ => rfl
  | [], _ :: _, hp => exact absurd hp.symm (List.not_perm_cons_nil)
  | _ :: _ :: _, [], hp => exact absurd hp (List.not_perm_cons_nil)
  | _ :: _ :: _, [_], hp => simpa using hp.length_eq

theorem keysSeen_perm {items items' : List Json}
    (h : (items.flatMap keysOf).Perm (items'.flatMap keysOf)) :
    (keysSeen items).Perm (keysSeen items') := by
  have hcount : ∀ key, (items.flatMap keysOf).count key = (items'.flatMap keysOf).count key :=
    fun key => h.count_eq key
  simp only [keysSeen, hcount]
  exact h.dedup.map _

/-- What the walk notices of an item before it walks through it. -/
structure SameOutside (items items' : List Json) : Prop where
  length : items.length = items'.length
  dicts : items.all isDict = items'.all isDict
  keys : (items.flatMap keysOf).Perm (items'.flatMap keysOf)
  types : (items.map scalarType).Perm (items'.map scalarType)

theorem observeList_perm {items items' : List Json} (h : SameOutside items items')
    {objects objects' each each' : String → Observations}
    (hobjects : ∀ path, (objects path).Perm (objects' path))
    (heach : ∀ path, (each path).Perm (each' path)) (parentPath : String) :
    (observeList items parentPath objects each).Perm
      (observeList items' parentPath objects' each') := by
  have hempty : items.isEmpty = items'.isEmpty := by
    rw [Bool.eq_iff_iff, List.isEmpty_iff_length_eq_zero, List.isEmpty_iff_length_eq_zero,
      h.length]
  simp only [observeList]
  refine List.Perm.cons _ ?_
  rw [← hempty, ← h.dicts, ← itemTypeOf_perm h.types]
  split
  · exact List.Perm.refl _
  · split
    · refine List.Perm.cons _ ((hobjects _).append ?_)
      rw [observeOptional, observeOptional, ← h.length]
      exact ((keysSeen_perm h.keys).filter _).map _
    · exact (heach _).append_right _

/-- What reordering leaves of a value, and what it permutes. -/
structure SameObservations (v w : Json) : Prop where
  type : scalarType v = scalarType w
  dict : isDict v = isDict w
  keys : keysOf v = keysOf w
  value : ∀ path, (observeValue v path).Perm (observeValue w path)
  members : ∀ path, (observeMembers (membersOf v) path).Perm (observeMembers (membersOf w) path)

theorem observeValue_arr_perm {items items' : List Json} (h : SameOutside items items')
    (hobjects : ∀ path, (observeObjects items path).Perm (observeObjects items' path))
    (hitems : ∀ path, (observeItems items path).Perm (observeItems items' path)) :
    SameObservations (.arr items) (.arr items') := by
  refine ⟨rfl, rfl, rfl, fun path => ?_, fun path => List.Perm.refl _⟩
  rw [observeValue, observeValue]
  exact observeList_perm h hobjects hitems path

theorem sameObservations {v w : Json} (h : Reordered v w) : SameObservations v w := by
  induction h with
  | refl v => exact ⟨rfl, rfl, rfl, fun _ => .refl _, fun _ => .refl _⟩
  | trans _ _ ih ih' =>
    exact ⟨ih.type.trans ih'.type, ih.dict.trans ih'.dict, ih.keys.trans ih'.keys,
      fun path => (ih.value path).trans (ih'.value path),
      fun path => (ih.members path).trans (ih'.members path)⟩
  | @perm items items' hp =>
    have hdicts : items.all isDict = items'.all isDict := by
      rw [Bool.eq_iff_iff, List.all_eq_true, List.all_eq_true]
      exact forall_congr' fun v => by rw [hp.mem_iff]
    refine observeValue_arr_perm
      ⟨hp.length_eq, hdicts, hp.flatMap_right _, hp.map _⟩ (fun path => ?_) fun path => ?_
    · rw [observeObjects_eq_flatMap, observeObjects_eq_flatMap]
      exact hp.flatMap_right _
    · rw [observeItems_eq_flatMap, observeItems_eq_flatMap]
      exact hp.flatMap_right _
  | @item l r v w _ ih =>
    have houtside : SameOutside (l ++ v :: r) (l ++ w :: r) := by
      refine ⟨by simp, by simp [ih.dict], ?_, ?_⟩
      · simp [ih.keys]
      · simp [ih.type]
    refine observeValue_arr_perm houtside (fun path => ?_) fun path => ?_
    · rw [observeObjects_eq_flatMap, observeObjects_eq_flatMap, List.flatMap_append,
        List.flatMap_append, List.flatMap_cons, List.flatMap_cons]
      exact ((ih.members path).append_right _).append_left _
    · rw [observeItems_eq_flatMap, observeItems_eq_flatMap, List.flatMap_append,
        List.flatMap_append, List.flatMap_cons, List.flatMap_cons]
      exact ((ih.value path).append_right _).append_left _
  | @member l r k v w _ ih =>
    have hmembers : ∀ path, (observeMembers (l ++ (k, v) :: r) path).Perm
        (observeMembers (l ++ (k, w) :: r) path) := by
      intro path
      rw [observeMembers_eq_flatMap, observeMembers_eq_flatMap, List.flatMap_append,
        List.flatMap_append, List.flatMap_cons, List.flatMap_cons]
      exact ((ih.value _).append_right _).append_left _
    refine ⟨rfl, rfl, by simp [keysOf], fun path => ?_, hmembers⟩
    rw [observeValue, observeValue]
    exact ((hmembers path).append_left _).cons _

/-- There is nothing to reorder in a scalar. -/
theorem Reordered.scalar {v w : Json} (h : Reordered v w) {k : Kind} (hk : v.kind = some k) :
    w = v := by
  induction h with
  | refl v => rfl
  | trans _ _ ih ih' =>
    obtain rfl := ih hk
    exact ih' hk
  | perm _ => simp [Json.kind] at hk
  | item _ _ _ _ => simp [Json.kind] at hk
  | member _ _ _ _ _ => simp [Json.kind] at hk

/-- **Reordering permutes the observations.** -/
theorem observe_perm {v w : Json} (h : Reordered v w) : (observe v).Perm (observe w) := by
  have hs := sameObservations h
  cases v with
  | obj members =>
    cases w with
    | obj members' => exact hs.members ""
    | _ => exact absurd hs.dict (by simp [isDict])
  | arr items =>
    cases w with
    | arr items' => exact hs.value ""
    | obj members => exact absurd hs.dict (by simp [isDict])
    | _ => exact absurd hs.type (by simp [scalarType])
  | _ => rw [h.scalar rfl]

/-! ### What depends on the order -/

/-- The first observation is that of an object or an array. -/
def StartsWithContainer (os : List Observation) : Prop := ∃ t, firstType os = some t ∧ t.IsContainer

/-- The choices that depend on the order of the observations are the same: the kind of the first
one when there are no scalars, whether it is a container when all scalars have one type, and the
item type of the last list. -/
structure AgreesAt (os os' : List Observation) : Prop where
  first : scalarTypes os = [] → firstType os = firstType os'
  container : ∀ t ∈ scalarTypes os, (∀ u ∈ scalarTypes os, u = t) →
    (StartsWithContainer os ↔ StartsWithContainer os')
  items : lastItemType os = lastItemType os'

/-- Types of scalars are types that a scalar can have. -/
theorem ne_mixed_of_mem_scalarTypes {os : List Observation} {t : JsonType}
    (h : t ∈ scalarTypes os) : t ≠ .mixed := by
  obtain ⟨o, -, ho⟩ := List.mem_filterMap.mp h
  cases o with
  | value v =>
    simp only [Observation.scalarType?] at ho
    split at ho
    · cases ho
    · exact Option.some.inj ho ▸ (scalarType_not_container v).2
  | _ => simp [Observation.scalarType?] at ho

theorem settledType_eq_ite {first t : JsonType} {ts : List JsonType} (ht : t ∈ ts)
    (huniform : ∀ u ∈ ts, u = t) :
    settledType first ts = if first.IsContainer then .mixed else t := by
  cases ts with
  | nil => simp at ht
  | cons u us =>
    obtain rfl : u = t := huniform u List.mem_cons_self
    have hno : ¬∃ w ∈ us, w ≠ u := fun ⟨w, hw, hne⟩ => hne (huniform w (List.mem_cons_of_mem u hw))
    simp only [settledType, hno, or_false]

theorem settledType_eq_mixed {first : JsonType} {ts : List JsonType}
    (h : ¬∃ t ∈ ts, ∀ u ∈ ts, u = t) (hne : ts ≠ []) : settledType first ts = .mixed := by
  cases ts with
  | nil => exact absurd rfl hne
  | cons t ts =>
    have hex : ∃ u ∈ ts, u ≠ t := by
      by_contra hc
      push Not at hc
      exact h ⟨t, List.mem_cons_self, List.forall_mem_cons.mpr ⟨rfl, hc⟩⟩
    rw [settledType, if_pos (.inr hex)]

/-- **Same observations, another order.** The profile is the same exactly when the choices are. -/
theorem profileOf_perm_iff {os os' : List Observation} (h : os.Perm os') {first first' : JsonType}
    (hfirst : firstType os = some first) (hfirst' : firstType os' = some first') :
    profileOf os = profileOf os' ↔ AgreesAt os os' := by
  have hscalars : (scalarTypes os).Perm (scalarTypes os') := h.filterMap _
  have htexts : texts os = texts os' := List.toFinset_eq_of_perm _ _ (h.filterMap _)
  have hany : ∀ p : Observation → Bool, os.any p = os'.any p := fun p => h.any_eq
  have hstarts : StartsWithContainer os ↔ first.IsContainer := by
    simp [StartsWithContainer, hfirst]
  have hstarts' : StartsWithContainer os' ↔ first'.IsContainer := by
    simp [StartsWithContainer, hfirst']
  have hprofile : profileOf os = profileOf os' ↔
      settledType first (scalarTypes os) = settledType first' (scalarTypes os') ∧
        lastItemType os = lastItemType os' := by
    simp [profileOf, hfirst, hfirst', htexts, hany]
  rw [hprofile]
  by_cases hnone : scalarTypes os = []
  · have hnone' : scalarTypes os' = [] := (hnone ▸ hscalars).symm.eq_nil
    rw [hnone, hnone', settledType, settledType]
    constructor
    · rintro ⟨rfl, hitems⟩
      exact ⟨fun _ => by rw [hfirst, hfirst'], fun t ht => by simp [hnone] at ht, hitems⟩
    · intro hagree
      refine ⟨?_, hagree.items⟩
      have heq := hagree.first hnone
      rw [hfirst, hfirst'] at heq
      exact Option.some.inj heq
  · by_cases huniform : ∃ t ∈ scalarTypes os, ∀ u ∈ scalarTypes os, u = t
    · obtain ⟨t, ht, hu⟩ := huniform
      have hu' : ∀ u ∈ scalarTypes os', u = t := fun u hm => hu u (hscalars.mem_iff.mpr hm)
      rw [settledType_eq_ite ht hu, settledType_eq_ite (hscalars.mem_iff.mp ht) hu']
      have hmixed := ne_mixed_of_mem_scalarTypes ht
      have hiff : ((if first.IsContainer then JsonType.mixed else t) =
          if first'.IsContainer then JsonType.mixed else t) ↔
          (first.IsContainer ↔ first'.IsContainer) := by
        split_ifs <;> simp_all [Ne.symm]
      rw [hiff]
      constructor
      · rintro ⟨hcontainer, hitems⟩
        exact ⟨fun hn => absurd hn hnone, fun _ _ _ => by rw [hstarts, hstarts', hcontainer], hitems⟩
      · intro hagree
        have hc := hagree.container t ht hu
        rw [hstarts, hstarts'] at hc
        exact ⟨hc, hagree.items⟩
    · have hne' : scalarTypes os' ≠ [] := fun hn => hnone (hn ▸ hscalars).eq_nil
      have huniform' : ¬∃ t ∈ scalarTypes os', ∀ u ∈ scalarTypes os', u = t := by
        simpa only [hscalars.mem_iff] using huniform
      rw [settledType_eq_mixed huniform hnone, settledType_eq_mixed huniform' hne']
      constructor
      · rintro ⟨-, hitems⟩
        exact ⟨fun hn => absurd hn hnone, fun t ht hu => absurd ⟨t, ht, hu⟩ huniform, hitems⟩
      · intro hagree
        exact ⟨rfl, hagree.items⟩

/-- What inference observes at a path, in the order of the walk. -/
abbrev observedAt (v : Json) (path : String) : List Observation := observationsOf path (observe v)

/-- Two bodies that are observed in another order. -/
theorem profileAt_perm_iff {v w : Json} (h : (observe v).Perm (observe w)) (path : String) :
    profileAt v path = profileAt w path ↔ AgreesAt (observedAt v path) (observedAt w path) := by
  have hp : (observedAt v path).Perm (observedAt w path) := h.filterMap _
  have hfounded : ∀ o, (observedAt v path).head? = some o → o.type?.isSome := founded_observe v path
  have hfounded' : ∀ o, (observedAt w path).head? = some o → o.type?.isSome := founded_observe w path
  show profileOf (observedAt v path) = profileOf (observedAt w path) ↔ _
  cases hv : observedAt v path with
  | nil =>
    rw [hv] at hp
    rw [hp.symm.eq_nil]
    exact iff_of_true rfl ⟨fun _ => rfl, fun t ht => by simp [scalarTypes] at ht, rfl⟩
  | cons o os =>
    cases hw : observedAt w path with
    | nil =>
      rw [hv, hw] at hp
      exact absurd hp List.not_perm_cons_nil
    | cons o' os' =>
      obtain ⟨first, hfirst⟩ := Option.isSome_iff_exists.mp (hfounded o (by rw [hv]; rfl))
      obtain ⟨first', hfirst'⟩ := Option.isSome_iff_exists.mp (hfounded' o' (by rw [hw]; rfl))
      have hhead : firstType (o :: os) = some first := by
        rw [firstType, List.filterMap_cons_some hfirst, List.head?_cons]
      have hhead' : firstType (o' :: os') = some first' := by
        rw [firstType, List.filterMap_cons_some hfirst', List.head?_cons]
      rw [hv, hw] at hp
      exact profileOf_perm_iff hp hhead hhead'

/-! ### Bodies without such choices -/

/-- A container is not mixed with values of another type, and lists have one item type. -/
structure Regular (os : List Observation) : Prop where
  types : ∀ t ∈ os.filterMap Observation.type?, t.IsContainer →
    ∀ u ∈ os.filterMap Observation.type?, u = t
  items : ∀ t ∈ os.filterMap Observation.itemType?, ∀ u ∈ os.filterMap Observation.itemType?, u = t

theorem mem_types_of_mem_scalarTypes {os : List Observation} {t : JsonType}
    (h : t ∈ scalarTypes os) : t ∈ os.filterMap Observation.type? ∧ ¬t.IsContainer := by
  obtain ⟨o, hm, ho⟩ := List.mem_filterMap.mp h
  cases o with
  | value v =>
    simp only [Observation.scalarType?] at ho
    split at ho
    · cases ho
    · obtain rfl := Option.some.inj ho
      exact ⟨List.mem_filterMap.mpr ⟨_, hm, rfl⟩, (scalarType_not_container v).1⟩
  | _ => simp [Observation.scalarType?] at ho

/-- Without scalars the types are those of containers and nulls. -/
theorem null_of_mem_types {os : List Observation} (h : scalarTypes os = []) {t : JsonType}
    (ht : t ∈ os.filterMap Observation.type?) : t.IsContainer ∨ t = .null := by
  obtain ⟨o, hm, ho⟩ := List.mem_filterMap.mp ht
  cases o with
  | object => exact .inl (.inl (Option.some.inj ho).symm)
  | array => exact .inl (.inr (Option.some.inj ho).symm)
  | itemType type => cases ho
  | optional => cases ho
  | value v =>
    obtain rfl : scalarType v = t := Option.some.inj ho
    by_contra hc
    rw [not_or] at hc
    have hs : scalarType v ∈ scalarTypes os :=
      List.mem_filterMap.mpr ⟨_, hm, by simp [Observation.scalarType?, hc.2]⟩
    rw [h] at hs
    exact absurd hs List.not_mem_nil

theorem Regular.agreesAt {os os' : List Observation} (h : Regular os) (hp : os.Perm os') :
    AgreesAt os os' := by
  have htypes : (os.filterMap Observation.type?).Perm (os'.filterMap Observation.type?) :=
    hp.filterMap _
  have hitems : (os.filterMap Observation.itemType?).Perm (os'.filterMap Observation.itemType?) :=
    hp.filterMap _
  refine ⟨fun hnone => ?_, fun t ht _ => ?_, ?_⟩
  · rw [firstType, firstType]
    cases hl : os.filterMap Observation.type? with
    | nil =>
      rw [hl] at htypes
      rw [htypes.symm.eq_nil]
    | cons t ts =>
      cases hl' : os'.filterMap Observation.type? with
      | nil =>
        rw [hl, hl'] at htypes
        exact absurd htypes List.not_perm_cons_nil
      | cons u us =>
        have ht : t ∈ os.filterMap Observation.type? := by simp [hl]
        have hu : u ∈ os.filterMap Observation.type? := htypes.mem_iff.mpr (by simp [hl'])
        have heq : u = t := by
          rcases null_of_mem_types hnone ht with hc | hn
          · exact h.types t ht hc u hu
          · rcases null_of_mem_types hnone hu with hc | hn'
            · exact (h.types u hu hc t ht).symm
            · rw [hn, hn']
        rw [List.head?_cons, List.head?_cons, heq]
  · obtain ⟨hm, hc⟩ := mem_types_of_mem_scalarTypes ht
    have hno : ∀ l : List Observation, (∀ u ∈ l.filterMap Observation.type?,
        u ∈ os.filterMap Observation.type?) → ¬StartsWithContainer l := by
      rintro l hl ⟨u, hfirst, hu⟩
      have hmem : u ∈ os.filterMap Observation.type? := hl u (List.mem_of_head? hfirst)
      exact hc (h.types u hmem hu t hm ▸ hu)
    exact iff_of_false (hno os fun _ hu => hu) (hno os' fun _ hu => htypes.mem_iff.mpr hu)
  · rw [lastItemType, lastItemType]
    cases hl : (os.filterMap Observation.itemType?).getLast? with
    | none =>
      rw [List.getLast?_eq_none_iff.mp hl] at hitems
      have hnil : os'.filterMap Observation.itemType? = [] := hitems.symm.eq_nil
      rw [hnil]
      rfl
    | some t =>
      cases hl' : (os'.filterMap Observation.itemType?).getLast? with
      | none =>
        rw [List.getLast?_eq_none_iff.mp hl'] at hitems
        have hnil : os.filterMap Observation.itemType? = [] := hitems.eq_nil
        rw [hnil] at hl
        cases hl
      | some u =>
        have ht := List.mem_of_getLast? hl
        have hu := hitems.mem_iff.mpr (List.mem_of_getLast? hl')
        rw [h.items t ht u hu]

/-! ### The schema hash -/

/-- **When the order of elements does not matter.** A reordered body has the same schema hash if
and only if at every path the choices that depend on the order are the same, as they are for every
reordering of a body in which containers and lists are regular. Only the necessity rests on a hash
without collisions. -/
theorem schemaHash_reordered_iff {v w : Json} (h : Reordered v w) (sha256 : String → String) :
    (Function.Injective sha256 →
      (stableSchemaHash sha256 (inferSchema w) = stableSchemaHash sha256 (inferSchema v) ↔
        ∀ path, AgreesAt (observedAt v path) (observedAt w path))) ∧
    ((∀ path, AgreesAt (observedAt v path) (observedAt w path)) →
      stableSchemaHash sha256 (inferSchema w) = stableSchemaHash sha256 (inferSchema v)) ∧
    ((∀ path, Regular (observedAt v path)) →
      stableSchemaHash sha256 (inferSchema w) = stableSchemaHash sha256 (inferSchema v)) := by
  have hiff : canonicalText (inferSchema w) = canonicalText (inferSchema v) ↔
      ∀ path, AgreesAt (observedAt v path) (observedAt w path) := by
    rw [eq_comm, canonicalText_inferSchema_eq_iff]
    exact forall_congr' fun path => profileAt_perm_iff (observe_perm h) path
  have henough : (∀ path, AgreesAt (observedAt v path) (observedAt w path)) →
      stableSchemaHash sha256 (inferSchema w) = stableSchemaHash sha256 (inferSchema v) :=
    fun hagree => congrArg sha256 (hiff.mpr hagree)
  refine ⟨fun hsha => hsha.eq_iff.trans hiff, henough, fun hregular => henough fun path => ?_⟩
  exact (hregular path).agreesAt ((observe_perm h).filterMap _)

/-- A hash without collisions that is SHA-256 on the text of the schema below. -/
def swapSha256 : String → String :=
  Equiv.swap
    ("[\x7b\"array_item_type\":\"object\",\"enum_values\":null,\"nullable\":false,\"path\":\"a\"," ++
      "\"required\":true,\"type\":\"array\"\x7d,\x7b\"array_item_type\":null,\"enum_values\":[\"u\"]," ++
      "\"nullable\":true,\"path\":\"a[*].x\",\"required\":true,\"type\":\"string\"\x7d]")
    "3b4860a2181fd7cc9dc29984664f2674e0af8ecd87d1a539e9db960ee33b62a4"

/-- Before or after a text, a null makes no difference. -/
theorem schemaHash_reordered_null :
    let v : Json := .obj [("a", .arr [.obj [("x", .null)], .obj [("x", .str "u")]])]
    let w : Json := .obj [("a", .arr [.obj [("x", .str "u")], .obj [("x", .null)]])]
    stableSchemaHash swapSha256 (inferSchema v) =
      "3b4860a2181fd7cc9dc29984664f2674e0af8ecd87d1a539e9db960ee33b62a4" ∧
    stableSchemaHash swapSha256 (inferSchema w) = stableSchemaHash swapSha256 (inferSchema v) ∧
    ∀ path, AgreesAt (observedAt v path) (observedAt w path) := by
  intro v w
  have hreordered : Reordered v w := .member [] [] "a" (.perm (List.Perm.swap _ _ []))
  have hsame : stableSchemaHash swapSha256 (inferSchema w) =
      stableSchemaHash swapSha256 (inferSchema v) := by decide +kernel
  exact ⟨by decide +kernel, hsame,
    ((schemaHash_reordered_iff hreordered swapSha256).1 (Equiv.injective _)).mp hsame⟩

/-- An integer beside an object: the node is of type integer when the integer comes first, and
mixed when the object does. -/
theorem object_first_is_mixed :
    Reordered (.obj [("a", .arr [.int 1, .obj []])]) (.obj [("a", .arr [.obj [], .int 1])]) ∧
    ((inferSchema (.obj [("a", .arr [.int 1, .obj []])])).map fun n => (n.path, n.type)) =
      [("a", .array), ("a[*]", .integer)] ∧
    ((inferSchema (.obj [("a", .arr [.obj [], .int 1])])).map fun n => (n.path, n.type)) =
      [("a", .array), ("a[*]", .mixed)] ∧
    ∀ sha256 : String → String, Function.Injective sha256 →
      stableSchemaHash sha256 (inferSchema (.obj [("a", .arr [.obj [], .int 1])])) ≠
        stableSchemaHash sha256 (inferSchema (.obj [("a", .arr [.int 1, .obj []])])) := by
  refine ⟨.member [] [] "a" (.perm (List.Perm.swap _ _ [])), by decide,
    by decide, fun sha256 hsha heq => ?_⟩
  exact absurd (hsha heq) (by decide +kernel)

end Driftgate.Monitor
