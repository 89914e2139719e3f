import Driftgate.Schema.Payload

/-!
# Canonical schemas

`canonicalize` replaces every scalar of a payload by a two-field object naming its type, and keeps
arrays and objects, the latter with their keys in increasing order. The result has no numbers and
no nulls, so its type `CanonicalSchema` has neither. A stored schema and the hand-written ones of
the tests are values of the same type.

Nothing separates the type marker of a scalar from an object that happens to have a member named
`type`; the modules that follow account for that.

Python compares dictionaries without regard to the order of their keys (`pyEq`). On canonical
schemas that is equality (`pyEq_iff_eq`).
-/

namespace Driftgate.Schema

open Driftgate.Lib

/-- The values a canonical schema is made of: strings, booleans, lists and dictionaries. -/
inductive CanonicalSchema
  | text (s : String)
  | flag (b : Bool)
  | items (l : List CanonicalSchema)
  | members (l : List (String × CanonicalSchema))
  deriving Inhabited

namespace CanonicalSchema

/-- `{"type": type, "nullable": nullable}`. -/
def leaf (type : String) (nullable : Bool) : CanonicalSchema :=
  .members [("type", .text type), ("nullable", .flag nullable)]

/-- `schema.get(key)` on a dictionary. -/
def get? (key : String) : CanonicalSchema → Option CanonicalSchema
  | .members l => l.lookup key
  | _ => none

/-- `bool(schema)`. -/
def truthy : CanonicalSchema → Bool
  | .text s => s ≠ ""
  | .flag b => b
  | .items l => !l.isEmpty
  | .members l => !l.isEmpty

end CanonicalSchema

/-- The type name of a scalar. -/
def Kind.name : Kind → String
  | .null => "null"
  | .boolean => "boolean"
  | .integer => "integer"
  | .number => "number"
  | .string => "string"

/-- The schema of a scalar. Only null is nullable. -/
def Kind.leaf (k : Kind) : CanonicalSchema := .leaf k.name (k = .null)

/-- `sorted(d.items(), key=lambda kv: kv[0])`. -/
def sortByKey {α : Type*} (l : List (String × α)) : List (String × α) :=
  l.insertionSort fun a b => a.1 ≤ b.1

mutual

/-- The order of the recursive call and the sort by key does not matter. -/
def canonicalize : Json → CanonicalSchema
  | .obj members => .members (sortByKey (canonicalizeMembers members))
  | .arr items => .items (canonicalizeItems items)
  | .null => Kind.null.leaf
  | .bool _ => Kind.boolean.leaf
  | .int _ => Kind.integer.leaf
  | .float _ => Kind.number.leaf
  | .str _ => Kind.string.leaf

def canonicalizeItems : List Json → List CanonicalSchema
  | [] => []
  | v :: items => canonicalize v :: canonicalizeItems items

def canonicalizeMembers : List (String × Json) → List (String × CanonicalSchema)
  | [] => []
  | (k, v) :: members => (k, canonicalize v) :: canonicalizeMembers members

end

theorem canonicalizeItems_eq (items : List Json) :
    canonicalizeItems items = items.map canonicalize := by
  induction items with
  | nil => simp [canonicalizeItems]
  | cons v items ih => simp [canonicalizeItems, ih]

theorem canonicalizeMembers_eq (members : List (String × Json)) :
    canonicalizeMembers members = members.map fun e => (e.1, canonicalize e.2) := by
  induction members with
  | nil => simp [canonicalizeMembers]
  | cons e members ih => simp [canonicalizeMembers, ih]

theorem canonicalize_scalar {v : Json} {k : Kind} (h : v.kind = some k) :
    canonicalize v = k.leaf := by
  cases v <;> simp_all [Json.kind, canonicalize]

theorem canonicalize_arr (items : List Json) :
    canonicalize (.arr items) = .items (items.map canonicalize) := by
  rw [canonicalize, canonicalizeItems_eq]

theorem canonicalize_obj (members : List (String × Json)) :
    canonicalize (.obj members) =
      .members (sortByKey (members.map fun e => (e.1, canonicalize e.2))) := by
  rw [canonicalize, canonicalizeMembers_eq]

/-! ### Sorting by key -/

theorem sortByKey_perm {α : Type*} (l : List (String × α)) : (sortByKey l).Perm l :=
  List.perm_insertionSort _ l

@[simp] theorem mem_sortByKey {α : Type*} {l : List (String × α)} {e : String × α} :
    e ∈ sortByKey l ↔ e ∈ l :=
  (sortByKey_perm l).mem_iff

theorem sortByKey_keysSorted {α : Type*} {l : List (String × α)} (h : (l.map Prod.fst).Nodup) :
    KeysSorted (sortByKey l) := by
  have hle : (sortByKey l).Pairwise fun a b => a.1 ≤ b.1 :=
    haveI : Std.Total fun a b : String × α => a.1 ≤ b.1 := ⟨fun a b => le_total a.1 b.1⟩
    haveI : IsTrans (String × α) fun a b => a.1 ≤ b.1 := ⟨fun _ _ _ => le_trans⟩
    List.pairwise_insertionSort _ l
  have hne : ((sortByKey l).map Prod.fst).Nodup := ((sortByKey_perm l).map Prod.fst).nodup_iff.mpr h
  rw [KeysSorted]
  refine List.Pairwise.imp₂ (fun a b hab hne => lt_of_le_of_ne hab hne) ?_ hne
  exact List.pairwise_map.mpr hle

/-- Sorting by key does not look at the values. -/
theorem sortByKey_map {α β : Type*} (f : String × α → β) (l : List (String × α)) :
    sortByKey (l.map fun e => (e.1, f e)) = (sortByKey l).map fun e => (e.1, f e) := by
  refine (List.map_insertionSort (fun a b : String × α => a.1 ≤ b.1)
    (fun a b : String × β => a.1 ≤ b.1) (fun e => (e.1, f e)) l ?_).symm
  exact fun a _ b _ => Iff.rfl

/-- Sorted entries stay where they are. -/
theorem sortByKey_of_keysSorted {α : Type*} {l : List (String × α)} (h : KeysSorted l) :
    sortByKey l = l :=
  List.Pairwise.insertionSort_eq ((List.pairwise_map.mp h).imp fun hlt => le_of_lt hlt)

/-- The order of the entries does not matter. -/
theorem sortByKey_eq_of_perm {α : Type*} {l l' : List (String × α)} (h : (l.map Prod.fst).Nodup)
    (hp : l.Perm l') : sortByKey l = sortByKey l' := by
  have h' : (l'.map Prod.fst).Nodup := (hp.map Prod.fst).nodup_iff.mp h
  refine eq_of_lookup (sortByKey_keysSorted h) (sortByKey_keysSorted h') ?_ fun e he => ?_
  · rw [(sortByKey_perm l).length_eq, (sortByKey_perm l').length_eq, hp.length_eq]
  · rw [mem_sortByKey] at he ⊢
    exact hp.mem_iff.mp he

/-- Sorting does not change what a key is bound to. -/
theorem lookup_sortByKey {α : Type*} {l : List (String × α)} (h : (l.map Prod.fst).Nodup)
    (k : String) : (sortByKey l).lookup k = l.lookup k :=
  lookup_eq_of_perm h (sortByKey_perm l).symm k

theorem lookup_map_snd {α β : Type*} (f : α → β) (l : List (String × α)) (k : String) :
    (l.map fun e => (e.1, f e.2)).lookup k = (l.lookup k).map f := by
  induction l with
  | nil => rfl
  | cons e l ih =>
    obtain ⟨k', v⟩ := e
    simp only [List.map_cons, List.lookup_cons, ih]
    cases k == k' <;> rfl

/-- A member of a canonical object is the canonical schema of the member. -/
theorem canonicalize_get? {v : Json} (hv : v.kind = none) (hu : v.UniqueKeys) (k : String) :
    (canonicalize v).get? k = (v.get? k).map canonicalize := by
  cases v with
  | obj members =>
    rw [Json.UniqueKeys] at hu
    have hn : ((members.map fun e => (e.1, canonicalize e.2)).map Prod.fst).Nodup := by
      simpa [List.map_map, Function.comp_def] using hu.1
    rw [canonicalize_obj, CanonicalSchema.get?, lookup_sortByKey hn, lookup_map_snd, Json.get?]
  | arr items => simp [canonicalize, CanonicalSchema.get?, Json.get?]
  | null => simp [Json.kind] at hv
  | bool b => simp [Json.kind] at hv
  | int n => simp [Json.kind] at hv
  | float q => simp [Json.kind] at hv
  | str s => simp [Json.kind] at hv

/-! ### Induction on schemas -/

section Induction

variable {motive : CanonicalSchema → Prop}

mutual

/-- **Induction.** What holds of strings and booleans, and of lists and dictionaries all of whose
elements have it, holds of every schema. -/
@[elab_as_elim] theorem CanonicalSchema.induction (text : ∀ s, motive (.text s))
    (flag : ∀ b, motive (.flag b)) (items : ∀ l, (∀ v ∈ l, motive v) → motive (.items l))
    (members : ∀ l, (∀ e ∈ l, motive e.2) → motive (.members l)) :
    ∀ v : CanonicalSchema, motive v
  | .text s => text s
  | .flag b => flag b
  | .items l => items l (CanonicalSchema.induction_items text flag items members l)
  | .members l => members l (CanonicalSchema.induction_members text flag items members l)

theorem CanonicalSchema.induction_items (text : ∀ s, motive (.text s))
    (flag : ∀ b, motive (.flag b)) (items : ∀ l, (∀ v ∈ l, motive v) → motive (.items l))
    (members : ∀ l, (∀ e ∈ l, motive e.2) → motive (.members l)) :
    ∀ l : List CanonicalSchema, ∀ v ∈ l, motive v
  | [] => fun _ h => absurd h List.not_mem_nil
  | v :: l => List.forall_mem_cons.mpr
      ⟨CanonicalSchema.induction text flag items members v,
        CanonicalSchema.induction_items text flag items members l⟩

theorem CanonicalSchema.induction_members (text : ∀ s, motive (.text s))
    (flag : ∀ b, motive (.flag b)) (items : ∀ l, (∀ v ∈ l, motive v) → motive (.items l))
    (members : ∀ l, (∀ e ∈ l, motive e.2) → motive (.members l)) :
    ∀ l : List (String × CanonicalSchema), ∀ e ∈ l, motive e.2
  | [] => fun _ h => absurd h List.not_mem_nil
  | (_, v) :: l => List.forall_mem_cons.mpr
      ⟨CanonicalSchema.induction text flag items members v,
        CanonicalSchema.induction_members text flag items members l⟩

end

end Induction

/-! ### Python equality -/

mutual

/-- `a == b`: dictionaries are compared without regard to the order of their keys. -/
def pyEq : CanonicalSchema → CanonicalSchema → Bool
  | .text s, .text t => s = t
  | .flag b, .flag c => b = c
  | .items l, .items l' => pyEqItems l l'
  | .members l, .members l' => l.length = l'.length && pyEqMembers l l'
  | _, _ => false

def pyEqItems : List CanonicalSchema → List CanonicalSchema → Bool
  | [], [] => true
  | v :: l, w :: l' => pyEq v w && pyEqItems l l'
  | _, _ => false

def pyEqMembers : List (String × CanonicalSchema) → List (String × CanonicalSchema) → Bool
  | [], _ => true
  | (k, v) :: l, l' => (l'.lookup k).any (fun w => pyEq v w) && pyEqMembers l l'

end

theorem pyEqItems_iff {l l' : List CanonicalSchema} :
    pyEqItems l l' = true ↔ List.Forall₂ (fun v w => pyEq v w = true) l l' := by
  induction l generalizing l' with
  | nil => cases l' <;> simp [pyEqItems]
  | cons v l ih => cases l' <;> simp [pyEqItems, ih]

theorem pyEqMembers_iff {l l' : List (String × CanonicalSchema)} :
    pyEqMembers l l' = true ↔
      ∀ e ∈ l, ∃ w, l'.lookup e.1 = some w ∧ pyEq e.2 w = true := by
  induction l with
  | nil => simp [pyEqMembers]
  | cons e l ih =>
    obtain ⟨k, v⟩ := e
    simp only [pyEqMembers, Bool.and_eq_true, ih, List.forall_mem_cons, and_congr_left_iff]
    intro _
    cases l'.lookup k <;> simp

/-! ### Schemas in canonical form -/

/-- The form of what `canonicalize` returns: type markers, lists, and dictionaries with increasing
keys. Type markers are the only dictionaries with strings and booleans in them. -/
inductive Canonical : CanonicalSchema → Prop
  | leaf (type : String) (nullable : Bool) : Canonical (.leaf type nullable)
  | items {l : List CanonicalSchema} : (∀ v ∈ l, Canonical v) → Canonical (.items l)
  | members {l : List (String × CanonicalSchema)} : KeysSorted l →
      (∀ e ∈ l, Canonical e.2) → Canonical (.members l)

theorem Canonical.ne_text {v : CanonicalSchema} (h : Canonical v) (s : String) : v ≠ .text s := by
  cases h <;> simp [CanonicalSchema.leaf]

theorem Canonical.ne_flag {v : CanonicalSchema} (h : Canonical v) (b : Bool) : v ≠ .flag b := by
  cases h <;> simp [CanonicalSchema.leaf]

theorem canonicalize_canonical {v : Json} : v.UniqueKeys → Canonical (canonicalize v) := by
  induction v using Json.induction with
  | scalar v k hk =>
    intro _
    rw [canonicalize_scalar hk]
    exact .leaf _ _
  | arr items ih =>
    intro hu
    rw [Json.UniqueKeys] at hu
    rw [canonicalize_arr]
    refine .items fun w hw => ?_
    obtain ⟨v, hv, rfl⟩ := List.mem_map.mp hw
    exact ih v hv (uniqueKeysItems_iff.mp hu v hv)
  | obj members ih =>
    intro hu
    rw [Json.UniqueKeys] at hu
    rw [canonicalize_obj]
    refine .members (sortByKey_keysSorted ?_) fun w hw => ?_
    · simpa [List.map_map, Function.comp_def] using hu.1
    · obtain ⟨e, he, rfl⟩ := List.mem_map.mp (mem_sortByKey.mp hw)
      exact ih e he (uniqueKeysMembers_iff.mp hu.2 e he)

/-- A type marker equals no dictionary in canonical form: the values in it are of other types. -/
theorem leaf_pyEq_members {type : String} {nullable : Bool}
    {l : List (String × CanonicalSchema)} (hl : ∀ e ∈ l, Canonical e.2) :
    pyEq (.leaf type nullable) (.members l) = false ∧
      pyEq (.members l) (.leaf type nullable) = false ∧
      CanonicalSchema.leaf type nullable ≠ .members l := by
  refine ⟨?_, ?_, ?_⟩
  · rw [Bool.eq_false_iff]
    intro h
    simp only [CanonicalSchema.leaf, pyEq, Bool.and_eq_true] at h
    obtain ⟨w, hw, hew⟩ := pyEqMembers_iff.mp h.2 ("type", .text type) (by simp)
    have hc := hl _ (mem_of_lookup hw)
    cases w with
    | text s => exact hc.ne_text s rfl
    | flag b => simp [pyEq] at hew
    | items l => simp [pyEq] at hew
    | members l => simp [pyEq] at hew
  · rw [Bool.eq_false_iff]
    intro h
    simp only [CanonicalSchema.leaf, pyEq, Bool.and_eq_true, decide_eq_true_eq] at h
    obtain ⟨e, he⟩ := List.exists_mem_of_length_pos (l := l) (by simp [h.1])
    obtain ⟨w, hw, hew⟩ := pyEqMembers_iff.mp h.2 e he
    have hc := hl e he
    have hmem := mem_of_lookup hw
    simp only [List.mem_cons, Prod.mk.injEq, List.not_mem_nil, or_false] at hmem
    rcases hmem with ⟨-, rfl⟩ | ⟨-, rfl⟩
    · cases hv : e.2 with
      | text s => exact hc.ne_text s hv
      | flag b => simp [hv, pyEq] at hew
      | items l => simp [hv, pyEq] at hew
      | members l => simp [hv, pyEq] at hew
    · cases hv : e.2 with
      | text s => simp [hv, pyEq] at hew
      | flag b => exact hc.ne_flag b hv
      | items l => simp [hv, pyEq] at hew
      | members l => simp [hv, pyEq] at hew
  · intro h
    rw [CanonicalSchema.leaf, CanonicalSchema.members.injEq] at h
    exact (hl ("type", .text type) (by simp [← h])).ne_text type rfl

/-- **In canonical form Python equality is equality.** -/
theorem pyEq_iff_eq {v w : CanonicalSchema} (hv : Canonical v) (hw : Canonical w) :
    pyEq v w = true ↔ v = w := by
  induction hv generalizing w with
  | leaf type nullable =>
    cases hw with
    | leaf type' nullable' =>
      simp [CanonicalSchema.leaf, pyEq, pyEqMembers, List.lookup_cons]
    | items _ => simp [CanonicalSchema.leaf, pyEq]
    | members _ hl => simp [(leaf_pyEq_members hl).1, (leaf_pyEq_members hl).2.2]
  | @items l _ ih =>
    cases hw with
    | leaf type nullable => simp [CanonicalSchema.leaf, pyEq]
    | @items l' hl' =>
      rw [pyEq, pyEqItems_iff, CanonicalSchema.items.injEq]
      constructor
      · intro h
        have heq : List.Forall₂ Eq l l' := by
          refine List.forall₂_iff_get.mpr ⟨h.length_eq, fun i hi hi' => ?_⟩
          exact (ih _ (List.get_mem l ⟨i, hi⟩) (hl' _ (List.get_mem l' ⟨i, hi'⟩))).mp (h.get hi hi')
        exact List.forall₂_eq_eq_eq ▸ heq
      · rintro rfl
        exact List.forall₂_same.mpr fun v hv => (ih v hv (hl' v hv)).mpr rfl
    | members _ _ => simp [pyEq]
  | @members l hs hc ih =>
    cases hw with
    | leaf type nullable =>
      simp [(leaf_pyEq_members hc).2.1, Ne.symm (leaf_pyEq_members hc).2.2]
    | items _ => simp [pyEq]
    | @members l' hs' hc' =>
      rw [pyEq, Bool.and_eq_true, decide_eq_true_eq, pyEqMembers_iff,
        CanonicalSchema.members.injEq]
      constructor
      · rintro ⟨hlen, h⟩
        refine eq_of_lookup hs hs' hlen fun e he => ?_
        obtain ⟨w, hw, hew⟩ := h e he
        have hm := mem_of_lookup hw
        have heq : e.2 = w := (ih e he (hc' _ hm)).mp hew
        rw [← heq] at hm
        exact hm
      · rintro rfl
        refine ⟨rfl, fun e he => ⟨e.2, lookup_of_mem hs.nodup he, ?_⟩⟩
        exact (ih e he (hc' e he)).mpr rfl

end Driftgate.Schema
