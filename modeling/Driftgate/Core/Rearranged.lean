import Driftgate.Core.Parser
import Driftgate.Lib.Windows
import Mathlib.Algebra.GroupWithZero.Nat

/-!
# Order and repetition in legacy fingerprints

`Rearranged v w` says that `w` is `v` with the members of objects and the elements of arrays in
another order, at any depth, and with other scalars of the same types. Such payloads have one
structural type (`Rearranged.extractStructuralType_eq`), so they share a structural string.

`Repeated w v v'` says that `v'` is `v` with the element `w` inserted into one of its arrays, which
has an element of the same structural type already. A scalar does not show; of arrays and objects
the texts are kept as often as they occur, so that the structural string gets longer with each
(`structuralString_repeated_iff`).
-/

namespace Driftgate.Core

open Driftgate.Lib Driftgate.Schema Driftgate.Windows

/-! ### Another order, other scalars -/

/-- One document is another with its objects and arrays reordered and its scalars replaced by
scalars of the same types. -/
inductive Rearranged : Json → Json → Prop
  | scalar {v w : Json} {k : Kind} : v.kind = some k → w.kind = some k → Rearranged v w
  | keys {l l' : List (String × Json)} : l.Perm l' → Rearranged (.obj l) (.obj l')
  | elements {l l' : List Json} : l.Perm l' → Rearranged (.arr l) (.arr l')
  | member {v w : Json} (l r : List (String × Json)) (k : String) : Rearranged v w →
      Rearranged (.obj (l ++ (k, v) :: r)) (.obj (l ++ (k, w) :: r))
  | element {v w : Json} (l r : List Json) : Rearranged v w →
      Rearranged (.arr (l ++ v :: r)) (.arr (l ++ w :: r))
  | trans {u v w : Json} : Rearranged u v → Rearranged v w → Rearranged u w

/-- Rearranging an object does not make a key occur twice. -/
theorem Rearranged.uniqueKeys {v w : Json} (h : Rearranged v w) : v.UniqueKeys → w.UniqueKeys := by
  induction h with
  | @scalar v w k hv hw =>
    intro _
    cases w <;> simp_all [Json.kind, Json.UniqueKeys]
  | keys hp =>
    intro hu
    rw [Json.UniqueKeys, uniqueKeysMembers_iff] at hu ⊢
    exact ⟨(hp.map Prod.fst).nodup_iff.mp hu.1, fun e he => hu.2 e (hp.mem_iff.mpr he)⟩
  | elements hp =>
    intro hu
    rw [Json.UniqueKeys, uniqueKeysItems_iff] at hu ⊢
    exact fun v hv => hu v (hp.mem_iff.mpr hv)
  | member l r k _ ih =>
    intro hu
    rw [Json.UniqueKeys, uniqueKeysMembers_iff] at hu ⊢
    simp only [List.map_append, List.map_cons, List.forall_mem_append, List.forall_mem_cons]
      at hu ⊢
    exact ⟨hu.1, hu.2.1, ih hu.2.2.1, hu.2.2.2⟩
  | element l r _ ih =>
    intro hu
    rw [Json.UniqueKeys, uniqueKeysItems_iff] at hu ⊢
    simp only [List.forall_mem_append, List.forall_mem_cons] at hu ⊢
    exact ⟨hu.1, ih hu.2.1, hu.2.2⟩
  | trans _ _ ihuv ihvw => exact fun hu => ihvw (ihuv hu)

/-- The order of the elements of an array does not matter. -/
theorem arrayItems_perm {l l' : List StructuralType} (h : l.Perm l') :
    arrayItems l = arrayItems l' := by
  unfold arrayItems
  refine congrArg₂ (· ++ ·) ?_ ?_
  · exact insertionSort_eq_of_perm (h.filterMap _).dedup
  · exact insertionSort_eq_of_perm (h.filterMap _)

/-- **A rearranged document has the same structural type.** -/
theorem Rearranged.extractStructuralType_eq {v w : Json} (h : Rearranged v w) :
    v.UniqueKeys → extractStructuralType v = extractStructuralType w := by
  induction h with
  | scalar hv hw =>
    intro _
    rw [extractStructuralType_scalar hv, extractStructuralType_scalar hw]
  | keys hp =>
    intro hu
    rw [Json.UniqueKeys] at hu
    rw [extractStructuralType_obj, extractStructuralType_obj]
    refine congrArg StructuralType.members (sortByKey_eq_of_perm ?_ (hp.map _))
    simpa [List.map_map, Function.comp_def] using hu.1
  | @elements l l' hp =>
    intro _
    by_cases hl : l = []
    · subst hl
      rw [hp.nil_eq]
    · have hl' : l' ≠ [] := fun h' => hl (h' ▸ hp).eq_nil
      rw [extractStructuralType_arr hl, extractStructuralType_arr hl', arrayItems_perm (hp.map _)]
  | member l r k _ ih =>
    intro hu
    rw [Json.UniqueKeys, uniqueKeysMembers_iff] at hu
    have hv := ih (hu.2 (k, _) (by simp))
    rw [extractStructuralType_obj, extractStructuralType_obj, List.map_append, List.map_append,
      List.map_cons, List.map_cons, hv]
  | element l r _ ih =>
    intro hu
    rw [Json.UniqueKeys, uniqueKeysItems_iff] at hu
    have hv := ih (hu _ (by simp))
    rw [extractStructuralType_arr (by simp), extractStructuralType_arr (by simp), List.map_append,
      List.map_append, List.map_cons, List.map_cons, hv]
  | trans huv _ ihuv ihvw => exact fun hu => (ihuv hu).trans (ihvw (huv.uniqueKeys hu))

/-- **Order does not change the fingerprint.** A payload that is another one with the keys of its
objects and the elements of its arrays reordered and its scalars replaced by scalars of the same
types has the same structural string. -/
theorem structuralString_rearranged {p p' : Payload} (h : Rearranged p.json p'.json) :
    structuralString p' = structuralString p :=
  (structuralString_congr (h.extractStructuralType_eq p.uniqueKeys)).symm

/-- `{"a": [1, {"x": true}], "b": null}` and `{"b": null, "a": [{"x": false}, 2]}`. -/
theorem structuralString_rearranged_example :
    structuralString ⟨[("b", .null), ("a", .arr [.obj [("x", .bool false)], .int 2])], by
        simp [Json.UniqueKeys, UniqueKeysMembers, UniqueKeysItems]⟩ =
      structuralString ⟨[("a", .arr [.int 1, .obj [("x", .bool true)]]), ("b", .null)], by
        simp [Json.UniqueKeys, UniqueKeysMembers, UniqueKeysItems]⟩ := by
  refine structuralString_rearranged ?_
  -- other scalars first, then the elements of the array, then the keys
  have hint : Rearranged (.int 1) (.int 2) := .scalar rfl rfl
  have hbool : Rearranged (.obj [("x", .bool true)]) (.obj [("x", .bool false)]) :=
    .member [] [] "x" (.scalar rfl rfl)
  have harr : Rearranged (.arr [.int 1, .obj [("x", .bool true)]])
      (.arr [.obj [("x", .bool false)], .int 2]) :=
    ((Rearranged.element [] _ hint).trans (.element [.int 2] [] hbool)).trans
      (.elements (.swap _ _ _))
  exact (Rearranged.member [] _ "a" harr).trans (.keys (.swap _ _ _))

/-! ### One more element -/

/-- `v'` is `v` with `w` inserted into an array in it that has an element of the same structural
type. -/
inductive Repeated (w : Json) : Json → Json → Prop
  | here {u : Json} (l r : List Json) : u ∈ l ++ r →
      extractStructuralType u = extractStructuralType w →
      Repeated w (.arr (l ++ r)) (.arr (l ++ w :: r))
  | member {v v' : Json} (l r : List (String × Json)) (k : String) : Repeated w v v' →
      Repeated w (.obj (l ++ (k, v) :: r)) (.obj (l ++ (k, v') :: r))
  | element {v v' : Json} (l r : List Json) : Repeated w v v' →
      Repeated w (.arr (l ++ v :: r)) (.arr (l ++ v' :: r))

/-- Arrays are inside arrays and objects. -/
theorem Repeated.kind_eq_none {w v v' : Json} (h : Repeated w v v') :
    v.kind = none ∧ v'.kind = none := by
  cases h <;> exact ⟨rfl, rfl⟩

theorem arrayItems_perm_append (l : List StructuralType) :
    (arrayItems l).Perm ((innerTypes l).dedup ++ arrayStructures l) :=
  (List.perm_insertionSort _ _).append (List.perm_insertionSort _ _)

/-- Only scalars have names. -/
theorem name_of_extractStructuralType {v : Json} (h : v.kind = none) :
    ∀ type, extractStructuralType v ≠ .name type := by
  intro type he
  cases v with
  | arr items => simp [extractStructuralType] at he
  | obj members => simp [extractStructuralType] at he
  | null => simp [Json.kind] at h
  | bool b => simp [Json.kind] at h
  | int n => simp [Json.kind] at h
  | float q => simp [Json.kind] at h
  | str s => simp [Json.kind] at h

/-- A type without a name is among the structures, and only there. -/
theorem innerTypes_structure {t : StructuralType} (h : ∀ type, t ≠ .name type)
    (l r : List StructuralType) : innerTypes (l ++ t :: r) = innerTypes (l ++ r) ∧
      arrayStructures (l ++ t :: r) = arrayStructures l ++ serializeAst t :: arrayStructures r := by
  cases t with
  | name type => exact absurd rfl (h type)
  | items _ => simp [innerTypes, arrayStructures]
  | members _ => simp [innerTypes, arrayStructures]

/-- A name that is there already is no news. -/
theorem arrayItems_name {type : String} {l r : List StructuralType}
    (h : .name type ∈ l ++ r) : arrayItems (l ++ .name type :: r) = arrayItems (l ++ r) := by
  have hperm : (l ++ .name type :: r).Perm (.name type :: (l ++ r)) := List.perm_middle
  have hmem : type ∈ innerTypes (l ++ r) := List.mem_filterMap.mpr ⟨.name type, h, rfl⟩
  have hdedup : (innerTypes (.name type :: (l ++ r))).dedup = (innerTypes (l ++ r)).dedup :=
    List.dedup_cons_of_mem hmem
  rw [arrayItems_perm hperm]
  show (innerTypes (.name type :: (l ++ r))).dedup.insertionSort (· ≤ ·) ++ _ = _
  rw [hdedup]
  rfl

/-- **A repeated scalar does not change the structural type.** -/
theorem Repeated.extractStructuralType_eq {w v v' : Json} {k : Kind} (hw : w.kind = some k)
    (h : Repeated w v v') : extractStructuralType v' = extractStructuralType v := by
  induction h with
  | @here u l r hu he =>
    rw [extractStructuralType_scalar hw] at he
    have hmem : .name (primitiveType k) ∈
        l.map extractStructuralType ++ r.map extractStructuralType := by
      rw [← List.map_append, ← he]
      exact List.mem_map_of_mem hu
    rw [extractStructuralType_arr (by simp), extractStructuralType_arr (List.ne_nil_of_mem hu),
      List.map_append, List.map_append, List.map_cons, extractStructuralType_scalar hw,
      arrayItems_name hmem]
  | member l r k _ ih =>
    rw [extractStructuralType_obj, extractStructuralType_obj, List.map_append, List.map_append,
      List.map_cons, List.map_cons, ih]
  | element l r _ ih =>
    rw [extractStructuralType_arr (by simp), extractStructuralType_arr (by simp), List.map_append,
      List.map_append, List.map_cons, List.map_cons, ih]

/-! ### How long the texts are -/

/-- The length of texts with a separator after each. -/
def separatedLength (l : List String) : ℕ := (l.map fun s => s.length + 1).sum

theorem length_intercalate {sep : String} (hsep : sep.length = 1) (l : List String) :
    (sep.intercalate l).length = separatedLength l - 1 := by
  induction l with
  | nil => rfl
  | cons s l ih =>
    cases l with
    | nil => simp [separatedLength]
    | cons t l =>
      rw [String.intercalate_cons_of_ne_nil (by simp), String.length_append, String.length_append,
        ih, hsep]
      simp only [separatedLength, List.map_cons, List.sum_cons]
      omega

theorem separatedLength_perm {l l' : List String} (h : l.Perm l') :
    separatedLength l = separatedLength l' :=
  (h.map _).sum_nat

theorem length_serializeAst_arr {items : List Json} (h : items ≠ []) :
    (serializeAst (extractStructuralType (.arr items))).length =
      7 + (separatedLength ((innerTypes (items.map extractStructuralType)).dedup ++
        arrayStructures (items.map extractStructuralType)) - 1) := by
  rw [extractStructuralType_arr h, serializeAst, String.length_append, String.length_append,
    length_intercalate rfl, separatedLength_perm (arrayItems_perm_append _)]
  show 6 + _ + 1 = _
  omega

/-- The length of the members of an object, with a separator after each. -/
def membersLength (members : List (String × Json)) : ℕ :=
  (members.map fun e => e.1.length + (serializeAst (extractStructuralType e.2)).length + 2).sum

/-- The members are sorted, which does not change the length. -/
theorem membersLength_sortByKey (members : List (String × Json)) :
    ((sortByKey (extractMembers members)).map fun e =>
      e.1.length + (serializeAst e.2).length + 2).sum = membersLength members := by
  have hperm : (sortByKey (extractMembers members)).Perm (extractMembers members) :=
    sortByKey_perm _
  rw [(hperm.map _).sum_nat, extractMembers_eq, List.map_map]
  rfl

/-- The length of a member as it is written. -/
theorem length_memberText (e : String × StructuralType) :
    (e.1 ++ ":" ++ serializeAst e.2).length + 1 = e.1.length + (serializeAst e.2).length + 2 := by
  rw [String.length_append, String.length_append]
  show e.1.length + 1 + _ + 1 = _
  omega

theorem length_serializeAst_obj (members : List (String × Json)) :
    (serializeAst (extractStructuralType (.obj members))).length =
      8 + (membersLength members - 1) := by
  have hsorted : sortByKey (serializeMembers (sortByKey (extractMembers members))) =
      (sortByKey (sortByKey (extractMembers members))).map fun e =>
        (e.1, e.1 ++ ":" ++ serializeAst e.2) := by
    rw [serializeMembers_eq, sortByKey_map]
  have hparts : separatedLength ((sortByKey (serializeMembers (sortByKey
      (extractMembers members)))).map Prod.snd) = membersLength members := by
    rw [hsorted, List.map_map, separatedLength, List.map_map,
      ((sortByKey_perm (sortByKey (extractMembers members))).map _).sum_nat,
      ← membersLength_sortByKey members]
    exact congrArg List.sum (List.map_congr_left fun e _ => length_memberText e)
  rw [extractStructuralType, serializeAst, String.length_append, String.length_append,
    length_intercalate rfl, hparts]
  show 7 + _ + 1 = _
  omega

theorem length_structuralString (p : Payload) :
    (structuralString p).length = membersLength p.members := by
  rw [structuralString, String.length_join, List.map_map, ← membersLength_sortByKey p.members]
  refine congrArg List.sum (List.map_congr_left fun e _ => ?_)
  show (e.1 ++ ":" ++ serializeAst e.2 ++ ";").length = _
  rw [String.length_append]
  exact length_memberText e

theorem membersLength_insert (l r : List (String × Json)) (k : String) (v : Json) :
    membersLength (l ++ (k, v) :: r) = membersLength l +
      (k.length + (serializeAst (extractStructuralType v)).length + 2 + membersLength r) := by
  simp only [membersLength, List.map_append, List.map_cons, List.sum_append, List.sum_cons]

/-- The length of an array with an array or an object among its elements. -/
theorem length_serializeAst_insert {v : Json} (hv : v.kind = none) (l r : List Json) :
    (serializeAst (extractStructuralType (.arr (l ++ v :: r)))).length = 7 +
      ((serializeAst (extractStructuralType v)).length +
        separatedLength ((innerTypes ((l ++ r).map extractStructuralType)).dedup ++
          arrayStructures ((l ++ r).map extractStructuralType))) := by
  have hstructure := innerTypes_structure (name_of_extractStructuralType hv)
    (l.map extractStructuralType) (r.map extractStructuralType)
  have happend : arrayStructures (l.map extractStructuralType ++ r.map extractStructuralType) =
      arrayStructures (l.map extractStructuralType) ++
        arrayStructures (r.map extractStructuralType) := List.filterMap_append
  rw [length_serializeAst_arr (by simp), List.map_append, List.map_cons, hstructure.1,
    hstructure.2, List.map_append, happend]
  simp only [separatedLength, List.map_append, List.map_cons, List.sum_append, List.sum_cons]
  omega

/-- An array without further elements is no longer than that. -/
theorem length_serializeAst_le {l : List Json} (h : l ≠ []) :
    (serializeAst (extractStructuralType (.arr l))).length ≤ 7 +
      separatedLength ((innerTypes (l.map extractStructuralType)).dedup ++
        arrayStructures (l.map extractStructuralType)) := by
  rw [length_serializeAst_arr h]
  omega

/-- Arrays and objects have brackets or braces. -/
theorem length_serializeAst_pos {v : Json} (h : v.kind = none) :
    0 < (serializeAst (extractStructuralType v)).length := by
  cases v with
  | arr items =>
    rw [extractStructuralType, serializeAst, String.length_append, String.length_append]
    show 0 < 6 + _ + 1
    omega
  | obj members =>
    rw [length_serializeAst_obj]
    omega
  | null => simp [Json.kind] at h
  | bool b => simp [Json.kind] at h
  | int n => simp [Json.kind] at h
  | float q => simp [Json.kind] at h
  | str s => simp [Json.kind] at h

/-- **A repeated array or object makes the text longer.** -/
theorem Repeated.length_lt {w v v' : Json} (hw : w.kind = none) (h : Repeated w v v') :
    (serializeAst (extractStructuralType v)).length <
      (serializeAst (extractStructuralType v')).length := by
  induction h with
  | here l r hu _ =>
    have hle := length_serializeAst_le (List.ne_nil_of_mem hu)
    have hpos := length_serializeAst_pos hw
    rw [length_serializeAst_insert hw]
    omega
  | member l r k _ ih =>
    rw [length_serializeAst_obj, length_serializeAst_obj, membersLength_insert,
      membersLength_insert]
    omega
  | element l r hv ih =>
    rw [length_serializeAst_insert hv.kind_eq_none.1, length_serializeAst_insert hv.kind_eq_none.2]
    omega

/-- **Repetition does not change the fingerprint of scalars only.** A further element whose
structural type an element of the array has already leaves the structural string as it is when it
is a scalar, and at no depth when it is an array or an object. -/
theorem structuralString_repeated_iff {p p' : Payload} {w : Json}
    (h : Repeated w p.json p'.json) :
    structuralString p' = structuralString p ↔ ∃ k, w.kind = some k := by
  constructor
  · intro he
    by_contra hk
    have hw : w.kind = none := by
      cases hkind : w.kind with
      | none => rfl
      | some k => exact absurd ⟨k, hkind⟩ hk
    have hlt := h.length_lt hw
    have heq : membersLength p'.members = membersLength p.members := by
      rw [← length_structuralString, ← length_structuralString, he]
    rw [Payload.json, Payload.json, length_serializeAst_obj, length_serializeAst_obj, heq] at hlt
    omega
  · rintro ⟨k, hk⟩
    exact structuralString_congr (h.extractStructuralType_eq hk)

/-- `{"a": [{"x": 1}]}` -/
def oneObject : Payload :=
  ⟨[("a", .arr [.obj [("x", .int 1)]])], by
    simp [Json.UniqueKeys, UniqueKeysMembers, UniqueKeysItems]⟩

/-- `{"a": [{"x": 1}, {"x": 1}]}` -/
def twoObjects : Payload :=
  ⟨[("a", .arr [.obj [("x", .int 1)], .obj [("x", .int 1)]])], by
    simp [Json.UniqueKeys, UniqueKeysMembers, UniqueKeysItems]⟩

/-- The second object is a repetition of the first. -/
theorem repeated_twoObjects : Repeated (.obj [("x", .int 1)]) oneObject.json twoObjects.json :=
  .member [] [] "a" (.here [.obj [("x", .int 1)]] [] (by simp) rfl)

/-- A list endpoint that answers with one object and then with two equal ones. -/
theorem structuralString_repeated_iff_twoObjects :
    structuralString twoObjects = structuralString oneObject ↔
      ∃ k, (Json.obj [("x", .int 1)]).kind = some k :=
  structuralString_repeated_iff repeated_twoObjects

/-- The second object shows in the structural string. -/
theorem twoObjects_differ : ¬ ∀ (p p' : Payload) (w : Json), Repeated w p.json p'.json →
    structuralString p' = structuralString p := by
  intro h
  have he := h oneObject twoObjects _ repeated_twoObjects
  exact absurd he (by decide)

end Driftgate.Core
