import Driftgate.Monitor.Observations

/-!
# What inference makes of a path

The accumulator of a path in closed form. `Profile` is what the schema hash keeps of a node, and
`profileOf` computes it from the observations of a path. The observations count as a multiset,
with two exceptions: `arrayItemType` is the item type of the last list, and `type` remembers the
kind of the first observation. A container stays a container beside nulls and other containers, a
first null gives way to a scalar, and a scalar of one type keeps its type beside containers that
come later, but not beside one that came first (`settledType`).
-/

namespace Driftgate.Monitor

open Driftgate.Lib Driftgate.Schema

/-- What the schema hash keeps of a node, the path apart. -/
structure Profile where
  type : JsonType
  required : Bool
  nullable : Bool
  arrayItemType : Option JsonType
  enumValues : Option (List String)
  deriving DecidableEq

def SchemaNode.profile (node : SchemaNode) : Profile where
  type := node.type
  required := node.required
  nullable := node.nullable
  arrayItemType := node.arrayItemType
  enumValues := node.enumValues

/-! ### The closed form -/

/-- The type of a scalar other than null. -/
def Observation.scalarType? : Observation → Option JsonType
  | .value v => if scalarType v = .null then none else some (scalarType v)
  | _ => none

def Observation.isNull : Observation → Bool
  | .value v => scalarType v = .null
  | _ => false

def Observation.isOptional : Observation → Bool
  | .optional => true
  | _ => false

def Observation.text? : Observation → Option String
  | .value (.str s) => some s
  | _ => none

def Observation.itemType? : Observation → Option JsonType
  | .itemType type => some type
  | _ => none

/-- What makes the accumulator of a path. -/
def firstType (os : List Observation) : Option JsonType := (os.filterMap Observation.type?).head?

def scalarTypes (os : List Observation) : List JsonType := os.filterMap Observation.scalarType?

def texts (os : List Observation) : Finset String := (os.filterMap Observation.text?).toFinset

/-- The item type of the last list. -/
def lastItemType (os : List Observation) : Option JsonType :=
  (os.filterMap Observation.itemType?).getLast?

def JsonType.IsContainer (type : JsonType) : Prop := type = .object ∨ type = .array

instance : DecidablePred JsonType.IsContainer := fun _ => inferInstanceAs (Decidable (_ ∨ _))

/-- The type of a node, from the type of the first observation and the types of the scalars. -/
def settledType (first : JsonType) : List JsonType → JsonType
  | [] => first
  | t :: ts => if first.IsContainer ∨ ∃ u ∈ ts, u ≠ t then .mixed else t

/-- An enumeration lists all texts, unless there are too many. -/
def enumOf (texts : Finset String) : Option (List String) :=
  if texts = ∅ ∨ enumThreshold < texts.card then none else some texts.sort

/-- What a path with these observations becomes. -/
def profileOf (os : List Observation) : Option Profile :=
  (firstType os).map fun first => {
    type := settledType first (scalarTypes os)
    required := !os.any Observation.isOptional
    nullable := os.any Observation.isNull
    arrayItemType := lastItemType os
    enumValues := enumOf (texts os) }

/-! ### One scalar more -/

theorem scalarType_not_container (v : Json) :
    ¬(scalarType v).IsContainer ∧ scalarType v ≠ .mixed := by
  cases v <;> simp [scalarType, JsonType.IsContainer]

/-- How a scalar of type `t` changes the type of a node. -/
def joinType (type t : JsonType) : JsonType :=
  if type = .null then t else if type ≠ t then .mixed else type

/-- The settled type changes by `joinType`, unless it is a scalar's that is not in the list. -/
theorem settledType_append {first t : JsonType} {ts : List JsonType} (hc : ¬t.IsContainer)
    (hm : t ≠ .mixed) (hts : ∀ u ∈ ts, u ≠ .null)
    (h : first.IsContainer ∨ first = .null ∨ ts ≠ []) :
    settledType first (ts ++ [t]) = joinType (settledType first ts) t := by
  cases ts with
  | nil =>
    rcases h with h | rfl | h
    · have hne : first ≠ t := fun he => hc (he ▸ h)
      have hnull : first ≠ .null := by
        rintro rfl
        simp [JsonType.IsContainer] at h
      simp [settledType, joinType, h, hne, hnull]
    · simp [settledType, joinType, JsonType.IsContainer]
    · exact absurd rfl h
  | cons u us =>
    have hu : u ≠ .null := hts u List.mem_cons_self
    simp only [List.cons_append, settledType]
    by_cases hfirst : first.IsContainer
    · simp [hfirst, joinType, hm.symm]
    · by_cases hmixed : ∃ w ∈ us, w ≠ u
      · obtain ⟨w, hw, hne⟩ := hmixed
        have hl : ∃ w ∈ us ++ [t], w ≠ u := ⟨w, List.mem_append_left _ hw, hne⟩
        rw [if_pos (.inr hl), if_pos (.inr ⟨w, hw, hne⟩)]
        simp [joinType, hm.symm]
      · by_cases heq : t = u
        · subst heq
          have hl : ¬∃ w ∈ us ++ [t], w ≠ t := by
            simpa using hmixed
          rw [if_neg (not_or.mpr ⟨hfirst, hl⟩), if_neg (not_or.mpr ⟨hfirst, hmixed⟩)]
          simp [joinType, hu]
        · have hl : ∃ w ∈ us ++ [t], w ≠ u := ⟨t, by simp, heq⟩
          rw [if_pos (.inr hl), if_neg (not_or.mpr ⟨hfirst, hmixed⟩)]
          simp [joinType, hu, Ne.symm heq]

/-- The three fields for texts say which texts have been seen. -/
structure Texts (seen : Finset String) (state : NodeState) : Prop where
  leaf : state.isStringLeaf = decide (seen ≠ ∅)
  disabled : state.enumDisabled = decide (enumThreshold < seen.card)
  values : state.enumValues = if enumThreshold < seen.card then ∅ else seen

theorem Texts.addString {seen : Finset String} {state : NodeState} (h : Texts seen state)
    (s : String) : Texts (insert s seen) (state.addString s) := by
  have hne : insert s seen ≠ ∅ := Finset.insert_ne_empty s seen
  have hle : seen.card ≤ (insert s seen).card := Finset.card_le_card (Finset.subset_insert s seen)
  rw [NodeState.addString]
  by_cases hlt : enumThreshold < seen.card
  · have hdis : state.enumDisabled = true := by rw [h.disabled, decide_eq_true hlt]
    have hlt' : enumThreshold < (insert s seen).card := lt_of_lt_of_le hlt hle
    simp only [hdis, if_true]
    exact ⟨(decide_eq_true hne).symm, (decide_eq_true hlt').symm,
      by rw [h.values, if_pos hlt, if_pos hlt']⟩
  · have hdis : state.enumDisabled = false := by rw [h.disabled, decide_eq_false hlt]
    have hval : state.enumValues = seen := by rw [h.values, if_neg hlt]
    simp only [hdis, hval, Bool.false_eq_true, if_false]
    by_cases hlt' : enumThreshold < (insert s seen).card
    · rw [if_pos hlt']
      exact ⟨(decide_eq_true hne).symm, (decide_eq_true hlt').symm, (if_pos hlt').symm⟩
    · rw [if_neg hlt']
      exact ⟨(decide_eq_true hne).symm, (decide_eq_false hlt').symm, (if_neg hlt').symm⟩

/-- The enumeration of a finalized node. -/
theorem Texts.enumValues {seen : Finset String} {state : NodeState} (h : Texts seen state)
    (path : String) : (finalize path state).enumValues = enumOf seen := by
  rw [finalize, enumOf]
  by_cases hne : seen = ∅
  · simp [h.leaf, hne]
  · by_cases hlt : enumThreshold < seen.card
    · simp [h.disabled, hlt]
    · simp [h.leaf, h.disabled, h.values, hne, hlt]

theorem Texts.congr {seen : Finset String} {state state' : NodeState} (h : Texts seen state)
    (hleaf : state'.isStringLeaf = state.isStringLeaf)
    (hdis : state'.enumDisabled = state.enumDisabled)
    (hval : state'.enumValues = state.enumValues) : Texts seen state' :=
  ⟨hleaf.trans h.leaf, hdis.trans h.disabled, hval.trans h.values⟩

/-- The texts of a scalar: itself if it is one. -/
def textOf : Json → Finset String
  | .str s => {s}
  | _ => ∅

/-- What a scalar does to the accumulator of its path. -/
theorem NodeState.addScalar_spec (state : NodeState) (t : JsonType) (v : Json) :
    (state.addScalar t v).type = joinType state.type t ∧
    (state.addScalar t v).required = state.required ∧
    (state.addScalar t v).nullable = (state.nullable || decide (state.type = .null)) ∧
    (state.addScalar t v).arrayItemType = state.arrayItemType ∧
    ∀ seen, Texts seen state → Texts (textOf v ∪ seen) (state.addScalar t v) := by
  have hstring : ∀ (s' : NodeState) (x : String), (s'.addString x).type = s'.type ∧
      (s'.addString x).required = s'.required ∧ (s'.addString x).nullable = s'.nullable ∧
      (s'.addString x).arrayItemType = s'.arrayItemType := by
    intro s' x
    simp only [NodeState.addString]
    split_ifs <;> exact ⟨rfl, rfl, rfl, rfl⟩
  -- the accumulator before the texts are looked at
  obtain ⟨mid, hmid, htype, hreq, hnull, hitem, htexts⟩ : ∃ mid : NodeState,
      (state.addScalar t v = match v with
        | .str s => mid.addString s
        | _ => mid) ∧
      mid.type = joinType state.type t ∧ mid.required = state.required ∧
      mid.nullable = (state.nullable || decide (state.type = .null)) ∧
      mid.arrayItemType = state.arrayItemType ∧ ∀ seen, Texts seen state → Texts seen mid := by
    refine ⟨_, rfl, ?_, ?_, ?_, ?_, ?_⟩
    · simp only [joinType]
      split_ifs <;> simp_all
    · split_ifs <;> rfl
    · split_ifs <;> simp_all
    · split_ifs <;> rfl
    · intro seen h
      split_ifs <;> exact h.congr rfl rfl rfl
  cases v with
  | str s =>
    obtain ⟨h1, h2, h3, h4⟩ := hstring mid s
    rw [hmid]
    refine ⟨h1.trans htype, h2.trans hreq, h3.trans hnull, h4.trans hitem, fun seen h => ?_⟩
    rw [textOf, ← Finset.insert_eq]
    exact (htexts seen h).addString s
  | _ =>
    rw [hmid]
    refine ⟨htype, hreq, hnull, hitem, fun seen h => ?_⟩
    show Texts (∅ ∪ seen) mid
    rw [Finset.empty_union]
    exact htexts seen h

/-! ### The accumulator in closed form -/

/-- The accumulator `state` is what the observations `os`, the first of type `first`, amount to. -/
structure Summarizes (first : JsonType) (os : List Observation) (state : NodeState) : Prop where
  type : state.type = settledType first (scalarTypes os)
  required : state.required = !os.any Observation.isOptional
  nullable : state.nullable = os.any Observation.isNull
  arrayItemType : state.arrayItemType = lastItemType os
  enumeration : Texts (texts os) state
  /-- the first observation is among them -/
  anchored : first.IsContainer ∨ (first = .null ∧ os.any Observation.isNull) ∨ scalarTypes os ≠ []

theorem texts_single_value (v : Json) : texts [.value v] = textOf v := by
  cases v <;> rfl

theorem texts_append (os os' : List Observation) : texts (os ++ os') = texts os ∪ texts os' := by
  rw [texts, List.filterMap_append, List.toFinset_append]
  rfl

theorem scalarTypes_append (os os' : List Observation) :
    scalarTypes (os ++ os') = scalarTypes os ++ scalarTypes os' :=
  List.filterMap_append

theorem scalarTypes_single_value {v : Json} (h : scalarType v ≠ .null) :
    scalarTypes [.value v] = [scalarType v] := by
  simp [scalarTypes, Observation.scalarType?, h]

theorem ne_null_of_mem_scalarTypes {os : List Observation} {t : JsonType}
    (h : t ∈ scalarTypes os) : t ≠ .null := by
  obtain ⟨o, -, ho⟩ := List.mem_filterMap.mp h
  cases o with
  | value v =>
    simp only [Observation.scalarType?] at ho
    split at ho
    · cases ho
    · next hne => exact Option.some.inj ho ▸ hne
  | _ => simp [Observation.scalarType?] at ho

theorem lastItemType_append (os os' : List Observation) :
    lastItemType (os ++ os') = (lastItemType os').or (lastItemType os) := by
  rw [lastItemType, List.filterMap_append, List.getLast?_append]
  rfl

section Step

variable {first : JsonType} {os : List Observation} {state : NodeState}

/-- An observation that is neither a scalar nor a null leaves the types, nulls and texts alone. -/
theorem Summarizes.append_other (h : Summarizes first os state) {o : Observation}
    (ho : ∀ v, o ≠ .value v) {state' : NodeState} (htype : state'.type = state.type)
    (hreq : state'.required = (state.required && !o.isOptional))
    (hnull : state'.nullable = state.nullable)
    (hitem : state'.arrayItemType = o.itemType?.or state.arrayItemType)
    (htexts : ∀ seen, Texts seen state → Texts seen state') : Summarizes first (os ++ [o]) state' := by
  have hs : scalarTypes [o] = [] := by
    cases o with
    | value v => exact absurd rfl (ho v)
    | _ => rfl
  have ht : texts [o] = ∅ := by
    cases o with
    | value v => exact absurd rfl (ho v)
    | _ => rfl
  have hn : o.isNull = false := by
    cases o with
    | value v => exact absurd rfl (ho v)
    | _ => rfl
  have hi : lastItemType [o] = o.itemType? := by cases o <;> rfl
  have hsc : scalarTypes (os ++ [o]) = scalarTypes os := by rw [scalarTypes_append, hs, List.append_nil]
  refine ⟨?_, ?_, ?_, ?_, ?_, ?_⟩
  · rw [htype, hsc, h.type]
  · rw [hreq, h.required, List.any_append, Bool.not_or]
    simp
  · rw [hnull, h.nullable, List.any_append]
    simp [hn]
  · rw [hitem, h.arrayItemType, lastItemType_append, hi]
  · rw [texts_append, ht, Finset.union_empty]
    exact htexts _ h.enumeration
  · rw [hsc, List.any_append]
    rcases h.anchored with hc | ⟨hf, hnull⟩ | hne
    · exact .inl hc
    · exact .inr (.inl ⟨hf, by rw [hnull, Bool.true_or]⟩)
    · exact .inr (.inr hne)

/-- **One observation more.** -/
theorem Summarizes.snoc (h : Summarizes first os state) (o : Observation) :
    ∃ state', after (some state) o = some state' ∧ Summarizes first (os ++ [o]) state' := by
  cases o with
  | object =>
    refine ⟨state, rfl, h.append_other (by simp) rfl ?_ rfl rfl fun _ ht => ht⟩
    simp [Observation.isOptional]
  | array =>
    refine ⟨state, rfl, h.append_other (by simp) rfl ?_ rfl rfl fun _ ht => ht⟩
    simp [Observation.isOptional]
  | itemType type =>
    refine ⟨_, rfl, h.append_other (by simp) rfl ?_ rfl rfl fun _ ht =>
      ht.congr rfl rfl rfl⟩
    simp [Observation.isOptional]
  | optional =>
    refine ⟨_, rfl, h.append_other (by simp) rfl ?_ rfl rfl fun _ ht =>
      ht.congr rfl rfl rfl⟩
    simp [Observation.isOptional]
  | value v =>
    have hopt : (os ++ [Observation.value v]).any Observation.isOptional = os.any Observation.isOptional := by
      simp [Observation.isOptional]
    have hlast : lastItemType (os ++ [.value v]) = lastItemType os := by
      rw [lastItemType_append]
      rfl
    by_cases hnull : scalarType v = .null
    · obtain rfl : v = .null := by
        cases v <;> simp_all [scalarType]
      refine ⟨{ state with nullable := true }, rfl, ?_, ?_, ?_, ?_, ?_, ?_⟩
      · rw [scalarTypes_append]
        simpa [scalarTypes, Observation.scalarType?, scalarType] using h.type
      · rw [hopt, h.required]
      · simp [Observation.isNull, scalarType]
      · rw [hlast, h.arrayItemType]
      · rw [texts_append, texts_single_value, show textOf .null = ∅ from rfl, Finset.union_empty]
        exact h.enumeration.congr rfl rfl rfl
      · rcases h.anchored with hc | ⟨hf, -⟩ | hne
        · exact .inl hc
        · exact .inr (.inl ⟨hf, by simp [Observation.isNull, scalarType]⟩)
        · exact .inr (.inr (by simp [scalarTypes_append, hne]))
    · obtain ⟨htype, hreq, hnul, hitem, htexts⟩ := state.addScalar_spec (scalarType v) v
      obtain ⟨hc, hm⟩ := scalarType_not_container v
      have hisNull : (Observation.value v).isNull = false := decide_eq_false hnull
      -- a node is of type null only after a null
      have hnulltype : state.type = .null → state.nullable = true := by
        intro ht
        rw [h.nullable]
        rcases h.anchored with hc | ⟨-, hn⟩ | hne
        · rw [h.type] at ht
          cases hs : scalarTypes os with
          | nil =>
            rw [hs, settledType] at ht
            simp [ht, JsonType.IsContainer] at hc
          | cons t ts => simp [hs, settledType, hc] at ht
        · exact hn
        · rw [h.type] at ht
          cases hs : scalarTypes os with
          | nil => exact absurd hs hne
          | cons t ts =>
            have htn : t ≠ .null := ne_null_of_mem_scalarTypes (by simp [hs] : t ∈ scalarTypes os)
            rw [hs, settledType] at ht
            split at ht
            · cases ht
            · exact absurd ht htn
      refine ⟨state.addScalar (scalarType v) v, ?_, ?_, ?_, ?_, ?_, ?_, ?_⟩
      · rw [after]
        simp [hnull]
      · rw [htype, h.type, scalarTypes_append, scalarTypes_single_value hnull]
        refine (settledType_append hc hm (fun u => ne_null_of_mem_scalarTypes) ?_).symm
        rcases h.anchored with hc | ⟨hf, -⟩ | hne
        · exact .inl hc
        · exact .inr (.inl hf)
        · exact .inr (.inr hne)
      · rw [hreq, hopt, h.required]
      · rw [hnul, List.any_append]
        simp only [List.any_cons, List.any_nil, hisNull, Bool.or_false, ← h.nullable]
        cases hb : state.nullable with
        | true => simp
        | false =>
          have hne : state.type ≠ .null := fun ht => by simp [hnulltype ht] at hb
          simp [hne]
      · rw [hitem, hlast, h.arrayItemType]
      · rw [texts_append, texts_single_value, Finset.union_comm]
        exact htexts _ h.enumeration
      · exact .inr (.inr (by simp [scalarTypes_append, scalarTypes_single_value hnull]))

/-- The first observation. -/
theorem summarizes_first {o : Observation} (h : o.type? = some first) :
    ∃ state, after none o = some state ∧ Summarizes first [o] state := by
  have hempty : ∀ type, Texts ∅ (NodeState.new type) := fun type => ⟨rfl, rfl, rfl⟩
  cases o with
  | object =>
    obtain rfl : .object = first := Option.some.inj h
    exact ⟨.new .object, rfl, rfl, rfl, rfl, rfl, hempty _, .inl (.inl rfl)⟩
  | array =>
    obtain rfl : .array = first := Option.some.inj h
    exact ⟨.new .array, rfl, rfl, rfl, rfl, rfl, hempty _, .inl (.inr rfl)⟩
  | itemType type => cases h
  | optional => cases h
  | value v =>
    obtain rfl : scalarType v = first := Option.some.inj h
    by_cases hnull : scalarType v = .null
    · obtain rfl : v = .null := by
        cases v <;> simp_all [scalarType]
      exact ⟨{ NodeState.new .null with nullable := true }, rfl, rfl, rfl, rfl, rfl,
        (hempty .null).congr rfl rfl rfl, .inr (.inl ⟨rfl, rfl⟩)⟩
    · obtain ⟨htype, hreq, hnul, hitem, htexts⟩ :=
        (NodeState.new (scalarType v)).addScalar_spec (scalarType v) v
      refine ⟨(NodeState.new (scalarType v)).addScalar (scalarType v) v, ?_, ?_, ?_, ?_, ?_, ?_, ?_⟩
      · rw [after]
        simp [hnull]
      · rw [htype, scalarTypes_single_value hnull]
        simp [joinType, NodeState.new, settledType, (scalarType_not_container v).1]
      · rw [hreq]
        rfl
      · rw [hnul]
        simp [NodeState.new, Observation.isNull, hnull]
      · rw [hitem]
        rfl
      · have h := htexts ∅ (hempty _)
        rwa [Finset.union_empty, ← texts_single_value] at h
      · exact .inr (.inr (by simp [scalarTypes_single_value hnull]))

/-- Any number of observations more. -/
theorem Summarizes.run (h : Summarizes first os state) (os' : List Observation) :
    ∃ state', os'.foldl after (some state) = some state' ∧
      Summarizes first (os ++ os') state' := by
  induction os' generalizing os state with
  | nil => exact ⟨state, rfl, by rwa [List.append_nil]⟩
  | cons o os' ih =>
    obtain ⟨state', hafter, h'⟩ := h.snoc o
    obtain ⟨state'', hfold, h''⟩ := ih h'
    refine ⟨state'', ?_, ?_⟩
    · rw [List.foldl_cons, hafter, hfold]
    · rwa [List.append_assoc] at h''

/-- What a summary is finalized to. -/
theorem Summarizes.profile (h : Summarizes first os state) (hfirst : firstType os = some first)
    (path : String) : profileOf os = some (finalize path state).profile := by
  have henum : (finalize path state).profile.enumValues = enumOf (texts os) :=
    h.enumeration.enumValues path
  rw [profileOf, hfirst, Option.map_some, ← h.type, ← h.required, ← h.nullable, ← h.arrayItemType,
    ← henum]
  rfl

end Step

/-- **The closed form.** The accumulator of a path is finalized to the profile of its
observations. -/
theorem profile_lookup (v : Json) (path : String) :
    ((walk v "" []).lookup path).map (fun state => (finalize path state).profile) =
      profileOf (observationsOf path (observe v)) := by
  rw [lookup_walk]
  have hfounded := founded_observe v path
  cases hos : observationsOf path (observe v) with
  | nil => rfl
  | cons o os =>
    rw [hos] at hfounded
    obtain ⟨first, hfirst⟩ := Option.isSome_iff_exists.mp (hfounded o rfl)
    obtain ⟨state, hafter, h⟩ := summarizes_first hfirst
    obtain ⟨state', hfold, h'⟩ := h.run os
    have hhead : firstType (o :: os) = some first := by
      rw [firstType, List.filterMap_cons_some hfirst]
      rfl
    rw [List.foldl_cons, hafter, hfold, Option.map_some]
    exact (h'.profile hhead path).symm

end Driftgate.Monitor
