import Driftgate.Schema.LostLeaf
import Mathlib.Data.Finset.Basic

/-!
# Scalars that become null

The classifier has a rule for a required field that becomes nullable: the two nodes have one type
and differ in `nullable`. No observed payload gets there. `canonicalize` gives null a type of its
own, so a scalar that becomes null has changed its type before its nullability is looked at, and
under an object with a member `type`, where nodes are compared as a whole, the truth value of
`nullable` is that of a container, which stays.
-/

namespace Driftgate.Schema

open Driftgate.Lib

variable {printable : Char → Bool}

/-! ### Setting positions to null -/

mutual

/-- The value with the scalars at some positions set to null. -/
def Json.setNull : Json → (Location → Bool) → Json
  | .obj members, S => .obj (setNullMembers members S)
  | .arr items, S => .arr (setNullItems items 0 S)
  | .null, _ => .null
  | .bool b, S => if S [] then .null else .bool b
  | .int n, S => if S [] then .null else .int n
  | .float q, S => if S [] then .null else .float q
  | .str s, S => if S [] then .null else .str s

def setNullItems : List Json → ℕ → (Location → Bool) → List Json
  | [], _, _ => []
  | v :: items, i, S => v.setNull (fun ℓ => S (.index i :: ℓ)) :: setNullItems items (i + 1) S

def setNullMembers : List (String × Json) → (Location → Bool) → List (String × Json)
  | [], _ => []
  | (k, v) :: members, S => (k, v.setNull fun ℓ => S (.key k :: ℓ)) :: setNullMembers members S

end

/-- The positions as they are seen from a location. -/
def below (ℓ : Location) (S : Location → Bool) : Location → Bool := fun ℓ' => S (ℓ ++ ℓ')

theorem setNullMembers_eq (members : List (String × Json)) (S : Location → Bool) :
    setNullMembers members S = members.map fun e => (e.1, e.2.setNull (below [.key e.1] S)) := by
  induction members with
  | nil => simp [setNullMembers]
  | cons e members ih =>
    rw [setNullMembers, ih, List.map_cons]
    rfl

theorem setNull_scalar {v : Json} {k : Kind} (h : v.kind = some k) (S : Location → Bool) :
    v.setNull S = if S [] then .null else v := by
  cases v <;> simp_all [Json.kind, Json.setNull]

theorem setNull_obj (members : List (String × Json)) (S : Location → Bool) :
    (Json.obj members).setNull S =
      .obj (members.map fun e => (e.1, e.2.setNull (below [.key e.1] S))) := by
  rw [Json.setNull, setNullMembers_eq]

theorem getElem?_setNullItems (items : List Json) (i j : ℕ) (S : Location → Bool) :
    (setNullItems items i S)[j]? = items[j]?.map fun v => v.setNull (below [.index (i + j)] S) := by
  induction items generalizing i j with
  | nil => simp [setNullItems]
  | cons v items ih =>
    rw [setNullItems]
    cases j with
    | zero => rfl
    | succ j =>
      rw [List.getElem?_cons_succ, List.getElem?_cons_succ, ih, Nat.add_assoc, Nat.add_comm 1]

theorem lookup_setNull (members : List (String × Json)) (S : Location → Bool) (k : String) :
    (members.map fun e => (e.1, e.2.setNull (below [.key e.1] S))).lookup k =
      (members.lookup k).map fun v => v.setNull (below [.key k] S) := by
  induction members with
  | nil => rfl
  | cons e members ih =>
    obtain ⟨k', v⟩ := e
    simp only [List.map_cons, List.lookup_cons, ih]
    cases hk : k == k' with
    | true =>
      obtain rfl := eq_of_beq hk
      rfl
    | false => rfl

theorem map_fst_setNull (members : List (String × Json)) (S : Location → Bool) :
    (members.map fun e => (e.1, e.2.setNull (below [.key e.1] S))).map Prod.fst =
      members.map Prod.fst := by
  rw [List.map_map]
  rfl

theorem mem_setNullItems {items : List Json} {i : ℕ} {S : Location → Bool} {w : Json}
    (h : w ∈ setNullItems items i S) : ∃ v ∈ items, ∃ S', w = v.setNull S' := by
  obtain ⟨j, hj⟩ := List.mem_iff_getElem?.mp h
  rw [getElem?_setNullItems] at hj
  obtain ⟨v, hv, rfl⟩ := Option.map_eq_some_iff.mp hj
  exact ⟨v, List.mem_of_getElem? hv, _, rfl⟩

theorem Json.UniqueKeys.setNull {v : Json} : v.UniqueKeys → ∀ S, (v.setNull S).UniqueKeys := by
  induction v using Json.induction with
  | scalar v k hk =>
    intro hu S
    rw [setNull_scalar hk]
    split
    · simp [Json.UniqueKeys]
    · exact hu
  | arr items ih =>
    intro hu S
    rw [Json.UniqueKeys, uniqueKeysItems_iff] at hu
    rw [Json.setNull, Json.UniqueKeys, uniqueKeysItems_iff]
    intro w hw
    obtain ⟨v, hv, S', rfl⟩ := mem_setNullItems hw
    exact ih v hv (hu v hv) S'
  | obj members ih =>
    intro hu S
    rw [Json.UniqueKeys, uniqueKeysMembers_iff] at hu
    rw [setNull_obj, Json.UniqueKeys, map_fst_setNull, uniqueKeysMembers_iff]
    refine ⟨hu.1, fun e' he' => ?_⟩
    obtain ⟨e, he, rfl⟩ := List.mem_map.mp he'
    exact ih e he (hu.2 e he) _

/-- A payload with the scalars at some positions set to null. -/
def Payload.setNull (p : Payload) (S : Location → Bool) : Payload where
  members := setNullMembers p.members S
  unique := by
    have hu := p.uniqueKeys.setNull S
    rw [Payload.json, Json.setNull] at hu
    exact hu

theorem Payload.json_setNull (p : Payload) (S : Location → Bool) :
    (p.setNull S).json = p.json.setNull S := by
  rw [Payload.json, Payload.json, Json.setNull]
  rfl

/-! ### What is shown -/

/-- The same locations are visible. -/
theorem visible_setNull (v : Json) : ∀ S, visible (v.setNull S) =
    (visible v).map fun e => (e.1, e.2.setNull (below e.1 S)) := by
  induction v using Json.induction with
  | scalar v k hk =>
    intro S
    rw [visible_scalar hk, List.map_singleton]
    by_cases hS : S []
    · have hnull : v.setNull S = .null := by rw [setNull_scalar hk, if_pos hS]
      show visible (v.setNull S) = [([], v.setNull S)]
      rw [hnull, visible_scalar (k := .null) rfl]
    · have hsame : v.setNull S = v := by rw [setNull_scalar hk, if_neg hS]
      show visible (v.setNull S) = [([], v.setNull S)]
      rw [hsame, visible_scalar hk]
  | arr items ih =>
    intro S
    have hitems : ∀ i, visibleItems (setNullItems items i S) i =
        (visibleItems items i).map fun e => (e.1, e.2.setNull (below e.1 S)) := by
      induction items with
      | nil => intro i; simp [visibleItems, setNullItems]
      | cons v items ihi =>
        intro i
        rw [List.forall_mem_cons] at ih
        rw [setNullItems, visibleItems, visibleItems, ih.1, ihi ih.2, List.map_append]
        simp only [under, List.map_map]
        rfl
    rw [Json.setNull, visible, hitems, visible, List.map_cons, Json.setNull]
    rfl
  | obj members ih =>
    intro S
    rw [setNull_obj]
    cases ht : members.lookup "type" with
    | some t =>
      rw [visible, lookup_setNull, ht, visible, ht]
      show [([], Json.obj _)] = [([], (Json.obj members).setNull S)]
      rw [setNull_obj]
    | none =>
      have ht' : (members.map fun e => (e.1, e.2.setNull (below [.key e.1] S))).lookup "type" =
          none := by rw [lookup_setNull, ht, Option.map_none]
      rw [visible_obj ht', visible_obj ht,
        sortByKey_map fun e : String × Json => e.2.setNull (below [.key e.1] S), List.flatMap_map,
        List.map_flatMap]
      refine List.flatMap_congr fun e he => ?_
      rw [ih e (mem_sortByKey.mp he)]
      simp only [under, List.map_map]
      rfl

/-- What the two payloads show at a path is at one location. -/
theorem shown_setNull (v : Json) (S : Location → Bool) (path : String) :
    ∃ o : Option (Location × Json), shown v path = o.map Prod.snd ∧
      shown (v.setNull S) path = o.map (fun e => e.2.setNull (below e.1 S)) ∧
      ∀ e ∈ o, e ∈ visible v := by
  let entries := (visible v).map fun e => (pathOf e.1, e)
  have hshown : ∀ f : Location × Json → Json, lastBinding path ((visible v).map fun e =>
      (pathOf e.1, f e)) = (lastBinding path entries).map f := by
    intro f
    rw [← lastBinding_map, List.map_map]
    rfl
  refine ⟨lastBinding path entries, hshown Prod.snd, ?_, fun e he => ?_⟩
  · rw [shown, visible_setNull, List.map_map]
    exact hshown fun e => e.2.setNull (below e.1 S)
  · obtain ⟨e', he', heq⟩ := List.mem_map.mp (mem_of_lastBinding he)
    exact (Prod.mk.inj heq).2 ▸ he'

/-! ### Nullability -/

/-- An empty container stays empty, and nothing else becomes one. -/
theorem setNull_empty_iff (v : Json) (S : Location → Bool) :
    v.setNull S = .obj [] ∨ v.setNull S = .arr [] ↔ v = .obj [] ∨ v = .arr [] := by
  cases hk : v.kind with
  | some k =>
    have hcontainer : ∀ w : Json, w.kind ≠ none → ¬(w = .obj [] ∨ w = .arr []) := by
      rintro w hw (rfl | rfl) <;> exact hw rfl
    refine iff_of_false (hcontainer _ ?_) (hcontainer v (by rw [hk]; exact Option.some_ne_none k))
    rw [setNull_scalar hk]
    split
    · exact Option.some_ne_none _
    · rw [hk]
      exact Option.some_ne_none k
  | none =>
    cases v with
    | arr items => cases items <;> simp [Json.setNull, setNullItems]
    | obj members => cases members <;> simp [setNull_obj]
    | _ => cases hk

theorem canonicalize_setNull_truthy (v : Json) (S : Location → Bool) :
    (canonicalize (v.setNull S)).truthy = (canonicalize v).truthy := by
  have hfalse : (canonicalize (v.setNull S)).truthy = false ↔ (canonicalize v).truthy = false := by
    rw [canonicalize_truthy, canonicalize_truthy]
    exact setNull_empty_iff v S
  cases ht : (canonicalize v).truthy with
  | false => exact hfalse.mpr ht
  | true => exact Bool.eq_true_of_not_eq_false fun hf => by simp [hfalse.mp hf] at ht

/-- **No value becomes nullable.** Where the type stays, the nullability stays. -/
theorem nullable_setNull {v : Json} (hu : v.UniqueKeys) (S : Location → Bool)
    (h : typeName printable v = typeName printable (v.setNull S)) :
    nullable (v.setNull S) = nullable v := by
  cases hk : v.kind with
  | some k =>
    rw [setNull_scalar hk] at h ⊢
    split at h
    · have hnull : Kind.null = k := by
        rw [typeName_scalar printable hk, typeName_scalar printable (k := .null) rfl] at h
        exact (Kind.name_injective h).symm
      rw [if_pos ‹_›]
      show nullableOf (marker .null) = nullableOf (marker v)
      rw [marker_scalar hk, ← hnull]
      rfl
    · rw [if_neg ‹_›]
  | none =>
    cases v with
    | arr items => rfl
    | obj members =>
      have hobj : (Json.obj members).setNull S =
          .obj (members.map fun e => (e.1, e.2.setNull (below [.key e.1] S))) :=
        setNull_obj members S
      have hu' := hu.setNull S
      rw [hobj] at hu' ⊢
      show ((canonicalize _).get? "nullable").map _ = ((canonicalize _).get? "nullable").map _
      rw [canonicalize_get? rfl hu', canonicalize_get? rfl hu, Json.get?, Json.get?, lookup_setNull,
        Option.map_map, Option.map_map, Option.map_map]
      congr 1
      funext w
      exact canonicalize_setNull_truthy w _
    | _ => cases hk

/-! ### The verdict -/

/-- The worst classification is one of them. -/
theorem exists_of_summarizeClassification {ds : List DiffItem} {c : Compatibility}
    (h : summarizeClassification ds = c) (hc : c ≠ .safe) : ∃ d ∈ ds, d.classification = c := by
  have hfold : ∀ (ds : List DiffItem) (worst : Compatibility), ds.foldl
      (fun worst d => if worst.rank < d.classification.rank then d.classification else worst)
        worst = c → worst = c ∨ ∃ d ∈ ds, d.classification = c := by
    intro ds
    induction ds with
    | nil => exact fun worst hw => .inl hw
    | cons e ds ih =>
      intro worst hw
      rw [List.foldl_cons] at hw
      obtain hworst | ⟨d, hd, hdc⟩ := ih _ hw
      · split_ifs at hworst
        · exact .inr ⟨e, List.mem_cons_self, hworst⟩
        · exact .inl hworst
      · exact .inr ⟨d, List.mem_cons_of_mem e hd, hdc⟩
  cases ds with
  | nil => exact absurd h.symm hc
  | cons d ds =>
    obtain hd | ⟨e, he, hec⟩ := hfold ds d.classification h
    · exact ⟨d, List.mem_cons_self, hd⟩
    · exact ⟨e, List.mem_cons_of_mem d he, hec⟩

/-- Only the rule about nullability answers BACKWARD_COMPATIBLE. -/
theorem classifyChange_backwardCompatible {v w : Json} (hv : v.UniqueKeys) (hw : w.UniqueKeys)
    {reason : String}
    (h : classifyChange printable (marker v) (marker w) = .ok (.backwardCompatible, reason)) :
    typeName printable v = typeName printable w ∧ nullable v = some false ∧
      nullable w = some true := by
  by_cases ht : typeName printable v = typeName printable w
  · rw [classifyChange_same ht] at h
    split_ifs at h with hwiden hnarrow
    · exact ⟨ht, hwiden⟩
    · cases h
    · by_cases he : EnumsClash v w
      · obtain ⟨e, he'⟩ := classifyEnum_error hv hw he
        rw [he'] at h
        cases h
      · rw [classifyEnum_ok hv hw he] at h
        cases h
  · by_cases hi : typeName printable v = "integer" ∧ typeName printable w = "number"
    · rw [classifyChange_widening hi.1 hi.2] at h
      cases h
    · obtain ⟨r, hr⟩ := classifyChange_typeBreaks ⟨ht, hi⟩
      rw [hr] at h
      cases h

/-- **At one path** the comparison with nulls is never BACKWARD_COMPATIBLE. -/
theorem classify_setNull {v : Json} (hu : v.UniqueKeys) (S : Location → Bool)
    (path reason : String) :
    classify printable ((shown v path).map marker) ((shown (v.setNull S) path).map marker) ≠
      .ok (.backwardCompatible, reason) := by
  obtain ⟨o, hv, hw, ho⟩ := shown_setNull v S path
  rw [hv, hw]
  cases o with
  | none => exact nofun
  | some e =>
    intro h
    have hue : e.2.UniqueKeys := hu.at (at_of_mem_visible hu (ho e rfl)).1
    obtain ⟨ht, hfalse, htrue⟩ := classifyChange_backwardCompatible hue (hue.setNull _) h
    rw [nullable_setNull hue _ ht, hfalse] at htrue
    cases htrue

/-- A scalar that becomes null has changed its type. -/
theorem breaksAt_null {v : Json} {k : Kind} (hk : v.kind = some k) (hnull : k ≠ .null) :
    BreaksAt printable (some v) (some .null) := by
  have hname : typeName printable .null = Kind.null.name := typeName_scalar printable rfl
  refine .inl ⟨?_, ?_⟩ <;> rw [typeName_scalar printable hk, hname]
  · exact fun h => hnull (Kind.name_injective h)
  · exact fun h => absurd h.2 (by decide)

theorem Json.PlainKeys.setNull {v : Json} : v.PlainKeys → ∀ S, (v.setNull S).PlainKeys := by
  induction v using Json.induction with
  | scalar v k hk =>
    intro hp S
    rw [setNull_scalar hk]
    split
    · simp [Json.PlainKeys]
    · exact hp
  | arr items ih =>
    intro hp S
    rw [Json.PlainKeys, plainKeysItems_iff] at hp
    rw [Json.setNull, Json.PlainKeys, plainKeysItems_iff]
    intro w hw
    obtain ⟨v, hv, S', rfl⟩ := mem_setNullItems hw
    exact ih v hv (hp v hv) S'
  | obj members ih =>
    intro hp S
    rw [Json.PlainKeys, plainKeysMembers_iff] at hp
    rw [setNull_obj, Json.PlainKeys, plainKeysMembers_iff]
    intro e' he'
    obtain ⟨e, he, rfl⟩ := List.mem_map.mp he'
    exact ⟨(hp e he).1, ih e he (hp e he).2 _⟩

theorem uniqueKeys_named : (Json.obj [("id", .int 1), ("name", .str "x")]).UniqueKeys := by
  simp [Json.UniqueKeys, UniqueKeysMembers]

/-- A payload with a text. -/
def sampleNamed : Payload where
  members := [("id", .int 1), ("name", .str "x")]
  unique := uniqueKeys_named

/-- **Nullability of observed payloads.** A payload some of whose scalars become null is never found
BACKWARD_COMPATIBLE; with plain keys it is found BREAKING. -/
theorem verdict_setNull (printable : Char → Bool) (p : Payload) (S : Finset Location)
    (hS : ∀ ℓ ∈ S, ∃ v k, p.json.at ℓ = some v ∧ v.kind = some k ∧ k ≠ .null) (hne : S.Nonempty) :
    verdict printable p (p.setNull fun ℓ => ℓ ∈ S) ≠ .ok .backwardCompatible ∧
      (p.json.PlainKeys → verdict printable p (p.setNull fun ℓ => ℓ ∈ S) = .ok .breaking) := by
  constructor
  · intro h
    rw [verdict] at h
    cases hd : diffAndClassify printable (canonicalize p.json)
        (canonicalize (p.setNull fun ℓ => ℓ ∈ S).json) with
    | error e =>
      rw [hd] at h
      cases h
    | ok ds =>
      rw [hd] at h
      obtain hitem := exists_of_summarizeClassification (Except.ok.inj h) Compatibility.noConfusion
      obtain ⟨path, -, -, reason, hr⟩ := (mem_diffPaths hd .backwardCompatible).mp hitem
      rw [lastBinding_flatten p.uniqueKeys, lastBinding_flatten (Payload.uniqueKeys _),
        Payload.json_setNull] at hr
      exact classify_setNull p.uniqueKeys _ path reason hr
  · intro hp
    obtain ⟨ℓ, hℓ⟩ := hne
    obtain ⟨v, k, ha, hk, hnull⟩ := hS ℓ hℓ
    refine verdict_breaking.mpr ⟨fun path => not_clashAt_of_plainKeys hp path, pathOf ℓ, ?_⟩
    have hobj : ∀ members, v ≠ .obj members := by
      rintro members rfl
      cases hk
    have hv : (ℓ, v) ∈ visible p.json := mem_visible_of_at hp p.uniqueKeys ha hobj
    have hv' : v.setNull (below ℓ fun ℓ => ℓ ∈ S) = .null := by
      rw [setNull_scalar hk, below, List.append_nil, if_pos (decide_eq_true hℓ)]
    have hw : (ℓ, Json.null) ∈ visible (p.setNull fun ℓ => ℓ ∈ S).json := by
      rw [Payload.json_setNull, visible_setNull, ← hv']
      exact List.mem_map_of_mem hv
    have hq : (p.setNull fun ℓ => ℓ ∈ S).json.PlainKeys := by
      rw [Payload.json_setNull]
      exact hp.setNull _
    rw [shown_of_mem_visible hp hp hv hv, shown_of_mem_visible hp hq hv hw]
    exact breaksAt_null hk hnull

/-- A text that becomes null. -/
theorem verdict_setNull_name :
    verdict (fun _ => true) sampleNamed
        (sampleNamed.setNull fun ℓ => ℓ ∈ ({[.key "name"]} : Finset _)) ≠ .ok .backwardCompatible ∧
      (sampleNamed.json.PlainKeys → verdict (fun _ => true) sampleNamed
        (sampleNamed.setNull fun ℓ => ℓ ∈ ({[.key "name"]} : Finset _)) = .ok .breaking) := by
  refine verdict_setNull _ _ _ ?_ (Finset.singleton_nonempty _)
  intro ℓ hℓ
  obtain rfl := Finset.mem_singleton.mp hℓ
  exact ⟨.str "x", .string, rfl, rfl, Kind.noConfusion⟩

/-- A text that becomes null is BREAKING. -/
theorem null_is_a_type : ¬∀ (printable : Char → Bool) (p : Payload) (S : Finset Location),
    (∀ ℓ ∈ S, ∃ v k, p.json.at ℓ = some v ∧ v.kind = some k ∧ k ≠ .null) → S.Nonempty →
    verdict printable p (p.setNull fun ℓ => ℓ ∈ S) = .ok .backwardCompatible := by
  intro h
  have hv := h (fun _ => true) sampleNamed {[.key "name"]} ?_ (Finset.singleton_nonempty _)
  · exact absurd hv (by decide)
  · intro ℓ hℓ
    obtain rfl := Finset.mem_singleton.mp hℓ
    exact ⟨.str "x", .string, rfl, rfl, Kind.noConfusion⟩

end Driftgate.Schema
