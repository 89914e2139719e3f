import Driftgate.Monitor.SchemaDiff
import Mathlib.Data.Multiset.Filter

/-!
# The values of a path

All values inside a body, each with the path string of its place. The walk of `infer_schema` does
not come across each of them: the objects of a list of objects have no node of their own. The
scalars it does, every one under its path. So the nulls and the texts of a path decide whether its
node is nullable and what its enumeration is, in whatever order they are met.
-/

namespace Driftgate.Monitor

open Driftgate.Lib Driftgate.Schema

/-! ### All values -/

mutual

/-- The values inside a value, itself first, each with the path it is emitted or walked with. -/
def visitValue : Json → String → List (String × Json)
  | .obj members, path => (path, .obj members) :: visitMembers members path
  | .arr items, path => (path, .arr items) :: visitItems items (arrayPath path)
  | v, path => [(path, v)]

def visitMembers : List (String × Json) → String → List (String × Json)
  | [], _ => []
  | (key, v) :: members, parentPath =>
    visitValue v (joinPath parentPath key) ++ visitMembers members parentPath

def visitItems : List Json → String → List (String × Json)
  | [], _ => []
  | v :: items, itemPath => visitValue v itemPath ++ visitItems items itemPath

end

/-- The values inside a body. -/
def visited (body : Json) : List (String × Json) :=
  visitValue body (if body.kind = none then "" else "[root]")

/-- The path string of a value: a list that is walked with no path has that of its items. -/
def placeOf : String × Json → String
  | (path, .arr _) => if path = "" then "[*]" else path
  | (path, _) => path

/-- The values that are observed at a path. -/
def valuesAt (body : Json) (path : String) : Multiset Json :=
  (((visited body).filter fun e => placeOf e = path).map Prod.snd : List Json)

/-- The scalars of a path. -/
theorem scalar_mem_valuesAt {body v : Json} {path : String} (h : v.kind ≠ none) :
    v ∈ valuesAt body path ↔ (path, v) ∈ visited body := by
  have hplace : ∀ path, placeOf (path, v) = path := by
    intro path
    cases v with
    | arr items => exact absurd rfl h
    | _ => rfl
  rw [valuesAt, Multiset.mem_coe, List.mem_map]
  constructor
  · rintro ⟨⟨path', w⟩, he, rfl⟩
    obtain ⟨hmem, hpath⟩ := List.mem_filter.mp he
    have hsame : placeOf (path', w) = path := of_decide_eq_true hpath
    rwa [← hsame, hplace]
  · intro hmem
    exact ⟨(path, v), List.mem_filter.mpr ⟨hmem, decide_eq_true (hplace path)⟩, rfl⟩

def textOf? : Json → Option String
  | .str s => some s
  | _ => none

/-- The distinct texts among some values. -/
def distinctTexts (values : Multiset Json) : Finset String := (values.filterMap textOf?).toFinset

theorem mem_distinctTexts {values : Multiset Json} {s : String} :
    s ∈ distinctTexts values ↔ Json.str s ∈ values := by
  rw [distinctTexts, Multiset.mem_toFinset, Multiset.mem_filterMap]
  constructor
  · rintro ⟨v, hv, htext⟩
    cases v with
    | str t => rwa [← Option.some.inj htext]
    | _ => cases htext
  · intro h
    exact ⟨.str s, h, rfl⟩

/-! ### What a value contributes -/

/-- What the walk comes across because of a value itself, objects apart. -/
def ownObservations : String × Json → Observations
  | (_, .obj _) => []
  | (path, .arr items) => observeList items path
      (fun _ => []) fun _ => []
  | (path, v) => [(path, .value v)]

/-- The observations other than objects are those that some values contribute. -/
def Contributed (os : Observations) (vs : List (String × Json)) : Prop :=
  ∀ path o, o ≠ .object → ((path, o) ∈ os ↔ ∃ e ∈ vs, (path, o) ∈ ownObservations e)

theorem Contributed.nil : Contributed [] [] := by
  intro path o _
  exact iff_of_false List.not_mem_nil fun ⟨_, he, _⟩ => List.not_mem_nil he

theorem Contributed.append {os os' : Observations} {vs vs' : List (String × Json)}
    (h : Contributed os vs) (h' : Contributed os' vs') : Contributed (os ++ os') (vs ++ vs') := by
  intro path o ho
  rw [List.mem_append, h path o ho, h' path o ho]
  constructor
  · rintro (⟨e, he, hown⟩ | ⟨e, he, hown⟩)
    · exact ⟨e, List.mem_append_left _ he, hown⟩
    · exact ⟨e, List.mem_append_right _ he, hown⟩
  · rintro ⟨e, he, hown⟩
    obtain he | he := List.mem_append.mp he
    · exact .inl ⟨e, he, hown⟩
    · exact .inr ⟨e, he, hown⟩

/-- One value more contributes its own observations. -/
theorem Contributed.cons {os os' : Observations} {vs : List (String × Json)} {e : String × Json}
    (h : Contributed os vs)
    (hown : ∀ path o, o ≠ .object → ((path, o) ∈ os' ↔ (path, o) ∈ ownObservations e ∨ (path, o) ∈ os)) :
    Contributed os' (e :: vs) := by
  intro path o ho
  rw [hown path o ho, h path o ho]
  constructor
  · rintro (hmem | ⟨e', he', hmem⟩)
    · exact ⟨e, List.mem_cons_self, hmem⟩
    · exact ⟨e', List.mem_cons_of_mem _ he', hmem⟩
  · rintro ⟨e', he', hmem⟩
    obtain rfl | he' := List.mem_cons.mp he'
    · exact .inl hmem
    · exact .inr ⟨e', he', hmem⟩

theorem contributed_members {members : List (String × Json)}
    (h : ∀ e ∈ members, ∀ path, Contributed (observeValue e.2 path) (visitValue e.2 path))
    (parentPath : String) :
    Contributed (observeMembers members parentPath) (visitMembers members parentPath) := by
  induction members with
  | nil => exact .nil
  | cons e members ih =>
    obtain ⟨key, v⟩ := e
    rw [List.forall_mem_cons] at h
    rw [observeMembers, visitMembers]
    exact (h.1 _).append (ih h.2)

theorem contributed_items {items : List Json}
    (h : ∀ v ∈ items, ∀ path, Contributed (observeValue v path) (visitValue v path))
    (itemPath : String) : Contributed (observeItems items itemPath) (visitItems items itemPath) := by
  induction items with
  | nil => exact .nil
  | cons v items ih =>
    rw [List.forall_mem_cons] at h
    rw [observeItems, visitItems]
    exact (h.1 _).append (ih h.2)

/-- In a list of objects the walk passes over the objects themselves. -/
theorem contributed_objects {items : List Json}
    (h : ∀ v ∈ items, ∀ members, v = .obj members → ∀ path,
      Contributed (observeMembers members path) (visitMembers members path))
    (hdict : items.all isDict) (itemPath : String) :
    Contributed (observeObjects items itemPath) (visitItems items itemPath) := by
  induction items with
  | nil => exact .nil
  | cons v items ih =>
    rw [List.forall_mem_cons] at h
    rw [List.all_cons, Bool.and_eq_true] at hdict
    cases v with
    | obj members =>
      rw [observeObjects, visitItems, visitValue]
      refine Contributed.append ((h.1 members rfl _).cons fun path o _ => ?_) (ih h.2 hdict.2)
      exact (or_iff_right List.not_mem_nil).symm
    | _ => cases hdict.1

theorem contributed_list {items : List Json}
    (hobjects : items.all isDict → ∀ path,
      Contributed (observeObjects items path) (visitItems items path))
    (hitems : ∀ path, Contributed (observeItems items path) (visitItems items path)) (path : String) :
    Contributed (observeList items path (observeObjects items) (observeItems items))
      (visitValue (.arr items) path) := by
  rw [visitValue]
  cases items with
  | nil =>
    refine Contributed.nil.cons fun q o _ => ?_
    exact (or_iff_left List.not_mem_nil).symm
  | cons v items =>
    by_cases hdict : (v :: items).all isDict
    · refine (hobjects hdict (arrayPath path)).cons fun q o _ => ?_
      simp only [ownObservations, observeList, hdict, List.isEmpty_cons, Bool.false_eq_true, if_false,
        if_true, List.mem_cons, List.mem_append, List.nil_append]
      tauto
    · refine (hitems (arrayPath path)).cons fun q o _ => ?_
      simp only [ownObservations, observeList, hdict, List.isEmpty_cons, Bool.false_eq_true, if_false,
        List.mem_cons, List.mem_append, List.nil_append]
      tauto

theorem contributed_value (v : Json) :
    (∀ path, Contributed (observeValue v path) (visitValue v path)) ∧
    (∀ members, v = .obj members → ∀ path,
      Contributed (observeMembers members path) (visitMembers members path)) := by
  induction v using Json.induction with
  | scalar v k hk =>
    refine ⟨fun path => ?_, ?_⟩
    · have hown : ownObservations (path, v) = observeValue v path := by
        cases v with
        | arr items => cases hk
        | obj members => cases hk
        | _ => rfl
      have hvisit : visitValue v path = [(path, v)] := by
        cases v with
        | arr items => cases hk
        | obj members => cases hk
        | _ => rfl
      rw [hvisit]
      refine Contributed.nil.cons fun q o _ => ?_
      rw [hown]
      exact (or_iff_left List.not_mem_nil).symm
    · rintro members rfl
      cases hk
  | arr items ih =>
    refine ⟨fun path => ?_, fun members h => nomatch h⟩
    rw [observeValue]
    exact contributed_list (contributed_objects fun v hv => (ih v hv).2)
      (contributed_items fun v hv => (ih v hv).1) path
  | obj members ih =>
    have hmembers := contributed_members fun e he => (ih e he).1
    refine ⟨fun path => ?_, ?_⟩
    · rw [observeValue, visitValue]
      refine (hmembers path).cons fun q o ho => ?_
      have henter : (q, o) ∉ observeEnter path := by
        rw [observeEnter]
        intro hmem
        split_ifs at hmem
        · cases hmem
        · exact ho (Prod.mk.inj (List.mem_singleton.mp hmem)).2
      rw [List.mem_cons, List.mem_append, Prod.mk.injEq]
      have hnone : (q, o) ∉ ownObservations (path, .obj members) := List.not_mem_nil
      tauto
    · rintro members' h path
      obtain rfl : members = members' := Json.obj.inj h
      exact hmembers path

/-- **Every observation comes from a value.** Objects apart, the walk comes across what the values
inside the body contribute. -/
theorem contributed (body : Json) : Contributed (observe body) (visited body) := by
  have hvalue := contributed_value body
  cases body with
  | obj members =>
    show Contributed (observeMembers members "") (visitValue (.obj members) "")
    rw [visitValue]
    refine (hvalue.2 members rfl "").cons fun path o _ => ?_
    exact (or_iff_right List.not_mem_nil).symm
  | arr items => exact hvalue.1 ""
  | _ => exact hvalue.1 "[root]"

/-- A list contributes no scalar. -/
theorem value_notMem_list {path path' : String} {items : List Json} {v : Json} :
    (path, .value v) ∉ ownObservations (path', .arr items) := by
  intro h
  simp only [ownObservations, observeList] at h
  split_ifs at h <;> simp [observeOptional] at h

/-- A scalar is observed where it is. -/
theorem value_observed_iff (body : Json) {path : String} {v : Json} (h : v.kind ≠ none) :
    (path, .value v) ∈ observe body ↔ v ∈ valuesAt body path := by
  rw [contributed body path (.value v) (fun h => by cases h), scalar_mem_valuesAt h]
  constructor
  · rintro ⟨⟨path', w⟩, he, hown⟩
    cases w with
    | obj members => cases hown
    | arr items => exact absurd hown value_notMem_list
    | _ =>
      obtain ⟨rfl, hv⟩ := Prod.mk.inj (List.mem_singleton.mp hown)
      cases hv
      exact he
  · intro hmem
    refine ⟨(path, v), hmem, ?_⟩
    cases v with
    | arr items => exact absurd rfl h
    | obj members => exact absurd rfl h
    | _ => exact List.mem_singleton_self _

/-! ### Nullability and enumerations -/

theorem mem_observationsOf {l : Observations} {path : String} {o : Observation} :
    o ∈ observationsOf path l ↔ (path, o) ∈ l := by
  rw [observationsOf, List.mem_filterMap]
  constructor
  · rintro ⟨e, he, heq⟩
    split_ifs at heq with hpath
    rwa [← hpath, ← Option.some.inj heq]
  · intro h
    exact ⟨(path, o), h, if_pos rfl⟩

theorem isNull_observed_iff (body : Json) (path : String) :
    (observationsOf path (observe body)).any Observation.isNull = true ↔
      Json.null ∈ valuesAt body path := by
  have hscalar : Json.null.kind ≠ none := Option.some_ne_none _
  rw [List.any_eq_true, ← value_observed_iff body hscalar]
  constructor
  · rintro ⟨o, ho, hnull⟩
    cases o with
    | value v =>
      have hv : v = .null := by
        have htype : scalarType v = .null := of_decide_eq_true hnull
        cases v <;> first | rfl | cases htype
      exact hv ▸ mem_observationsOf.mp ho
    | _ => cases hnull
  · intro h
    exact ⟨.value .null, mem_observationsOf.mpr h, rfl⟩

theorem texts_observed (body : Json) (path : String) :
    texts (observationsOf path (observe body)) = distinctTexts (valuesAt body path) := by
  ext s
  have hscalar : (Json.str s).kind ≠ none := Option.some_ne_none _
  rw [mem_distinctTexts, ← value_observed_iff body hscalar, texts, List.mem_toFinset,
    List.mem_filterMap]
  constructor
  · rintro ⟨o, ho, htext⟩
    cases o with
    | value v =>
      cases v with
      | str t =>
        rw [← Option.some.inj htext]
        exact mem_observationsOf.mp ho
      | _ => cases htext
    | _ => cases htext
  · intro h
    exact ⟨.value (.str s), mem_observationsOf.mpr h, rfl⟩

/-- The entries of a schema are the profiles of the paths. -/
theorem mem_entries_iff {body : Json} {path : String} {profile : Profile} :
    (path, profile) ∈ (inferSchema body).map SchemaNode.entry ↔
      profileAt body path = some profile := by
  obtain ⟨hsorted, hlookup⟩ := inferSchema_entries body
  rw [← hlookup]
  exact ⟨lookup_of_mem hsorted.nodup, mem_of_lookup⟩

/-- The profile of a node is that of its path. -/
theorem profileAt_of_mem {body : Json} {node : SchemaNode} (h : node ∈ inferSchema body) :
    profileAt body node.path = some node.profile :=
  mem_entries_iff.mp (List.mem_map_of_mem (f := SchemaNode.entry) h)

/-- What has been observed has a profile. -/
theorem exists_profileAt_iff {body : Json} {path : String} :
    (∃ profile, profileAt body path = some profile) ↔ path ∈ (observe body).map Prod.fst := by
  constructor
  · rintro ⟨profile, hprofile⟩
    obtain ⟨first, hfirst, -⟩ := Option.map_eq_some_iff.mp hprofile
    obtain ⟨o, ho, -⟩ := List.mem_filterMap.mp (List.mem_of_head? hfirst)
    exact List.mem_map_of_mem (f := Prod.fst) (mem_observationsOf.mp ho)
  · intro hpath
    rw [← Option.isSome_iff_exists, profileAt, profileOf, Option.isSome_map]
    have hfounded := founded_observe body path
    cases hos : observationsOf path (observe body) with
    | nil => exact absurd hos (observationsOf_ne_nil hpath)
    | cons o os =>
      rw [hos] at hfounded
      obtain ⟨first, hfirst⟩ := Option.isSome_iff_exists.mp (hfounded o rfl)
      rw [firstType, List.filterMap_cons_some hfirst]
      rfl

/-- The nodes are those of the observed paths. -/
theorem mem_paths_iff {body : Json} {path : String} :
    path ∈ (inferSchema body).map SchemaNode.path ↔ path ∈ (observe body).map Prod.fst := by
  rw [← exists_profileAt_iff, List.mem_map]
  constructor
  · rintro ⟨node, hnode, rfl⟩
    exact ⟨node.profile, profileAt_of_mem hnode⟩
  · rintro ⟨profile, hprofile⟩
    obtain ⟨node, hnode, hentry⟩ := List.mem_map.mp (mem_entries_iff.mpr hprofile)
    exact ⟨node, hnode, (Prod.mk.inj hentry).1⟩

/-- **Nulls and texts of a path.** A node is nullable exactly if there is a null among the values of
its path, and its enumeration is the sorted list of their distinct texts if these are between one
and ten. -/
theorem nullable_enum_exact (body : Json) {node : SchemaNode} (h : node ∈ inferSchema body) :
    (node.nullable = true ↔ Json.null ∈ valuesAt body node.path) ∧
    node.enumValues =
      (let texts := distinctTexts (valuesAt body node.path)
      if 1 ≤ texts.card ∧ texts.card ≤ enumThreshold then some texts.sort else none) := by
  have hprofile := profileAt_of_mem h
  rw [profileAt, profileOf, Option.map_eq_some_iff] at hprofile
  obtain ⟨first, -, hfirst⟩ := hprofile
  have hnull := congrArg Profile.nullable hfirst
  have henum := congrArg Profile.enumValues hfirst
  change (observationsOf _ _).any Observation.isNull = node.nullable at hnull
  change enumOf (texts (observationsOf _ _)) = node.enumValues at henum
  rw [← hnull, ← henum, texts_observed, enumOf]
  refine ⟨isNull_observed_iff body node.path, ?_⟩
  generalize distinctTexts (valuesAt body node.path) = texts
  show (if texts = ∅ ∨ enumThreshold < texts.card then none else some texts.sort) =
    if 1 ≤ texts.card ∧ texts.card ≤ enumThreshold then some texts.sort else none
  have hcard : texts = ∅ ↔ texts.card = 0 := Finset.card_eq_zero.symm
  by_cases hin : 1 ≤ texts.card ∧ texts.card ≤ enumThreshold
  · rw [if_pos hin, if_neg]
    rintro (hempty | hmany)
    · rw [hcard] at hempty
      omega
    · omega
  · rw [if_neg hin, if_pos]
    rw [hcard]
    omega

/-- A text and a null at one path, in a list of objects. -/
def statesBody : Json := .arr [.obj [("state", .str "open")], .obj [("state", .null)]]

theorem nullable_enum_exact_states : ∃ node ∈ inferSchema statesBody, node.path = "[*].state" ∧
    (node.nullable = true ↔ Json.null ∈ valuesAt statesBody node.path) ∧
    node.enumValues =
      (let texts := distinctTexts (valuesAt statesBody node.path)
      if 1 ≤ texts.card ∧ texts.card ≤ enumThreshold then some texts.sort else none) := by
  have hpath : "[*].state" ∈ (inferSchema statesBody).map SchemaNode.path := by decide
  obtain ⟨node, hnode, hpath⟩ := List.mem_map.mp hpath
  exact ⟨node, hnode, hpath, nullable_enum_exact statesBody hnode⟩

end Driftgate.Monitor
