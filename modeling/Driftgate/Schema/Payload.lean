import Driftgate.Lib.LastBinding
import Mathlib.Data.String.Basic
import Mathlib.Data.Rat.Init

/-!
# Parsed JSON payloads

`Json` is a parsed JSON document as the runtime guard receives it. Integers and floats are
different scalars, as they are in Python; a float is the rational number it denotes. An object is
the list of its members in the order they arrived. Python keeps one member for each key, which
`Json.UniqueKeys` states at every depth and `Payload` carries: a payload is an object all of whose
objects have unique keys.

A `Location` is a sequence of object keys and array indices, and `Json.at` is what a document has
there.
-/

namespace Driftgate.Schema

inductive Json
  | null
  | bool (b : Bool)
  | int (n : ℤ)
  | float (q : ℚ)
  | str (s : String)
  | arr (items : List Json)
  | obj (members : List (String × Json))
  deriving Inhabited

/-! ### Kinds of values -/

/-- The JSON type of a scalar, `none` for arrays and objects. -/
inductive Kind
  | null
  | boolean
  | integer
  | number
  | string
  deriving DecidableEq, Repr

def Json.kind : Json → Option Kind
  | .null => some .null
  | .bool _ => some .boolean
  | .int _ => some .integer
  | .float _ => some .number
  | .str _ => some .string
  | .arr _ => none
  | .obj _ => none

/-! ### Induction on documents -/

section Induction

variable {motive : Json → Prop}

mutual

/-- **Induction.** What holds of scalars, and of arrays and objects all of whose elements have it,
holds of every document. -/
@[elab_as_elim] theorem Json.induction (scalar : ∀ v k, v.kind = some k → motive v)
    (arr : ∀ items, (∀ v ∈ items, motive v) → motive (.arr items))
    (obj : ∀ members, (∀ e ∈ members, motive e.2) → motive (.obj members)) :
    ∀ v : Json, motive v
  | .null => scalar _ .null rfl
  | .bool _ => scalar _ .boolean rfl
  | .int _ => scalar _ .integer rfl
  | .float _ => scalar _ .number rfl
  | .str _ => scalar _ .string rfl
  | .arr items => arr items (Json.induction_items scalar arr obj items)
  | .obj members => obj members (Json.induction_members scalar arr obj members)

theorem Json.induction_items (scalar : ∀ v k, v.kind = some k → motive v)
    (arr : ∀ items, (∀ v ∈ items, motive v) → motive (.arr items))
    (obj : ∀ members, (∀ e ∈ members, motive e.2) → motive (.obj members)) :
    ∀ items : List Json, ∀ v ∈ items, motive v
  | [] => fun _ h => absurd h List.not_mem_nil
  | v :: items => List.forall_mem_cons.mpr
      ⟨Json.induction scalar arr obj v, Json.induction_items scalar arr obj items⟩

theorem Json.induction_members (scalar : ∀ v k, v.kind = some k → motive v)
    (arr : ∀ items, (∀ v ∈ items, motive v) → motive (.arr items))
    (obj : ∀ members, (∀ e ∈ members, motive e.2) → motive (.obj members)) :
    ∀ members : List (String × Json), ∀ e ∈ members, motive e.2
  | [] => fun _ h => absurd h List.not_mem_nil
  | (_, v) :: members => List.forall_mem_cons.mpr
      ⟨Json.induction scalar arr obj v, Json.induction_members scalar arr obj members⟩

end

end Induction

/-- `payload.get(key)`: the member of an object, nothing for other values. -/
def Json.get? (key : String) : Json → Option Json
  | .obj members => members.lookup key
  | _ => none

/-- `bool(value)`. -/
def Json.truthy : Json → Bool
  | .null => false
  | .bool b => b
  | .int n => n ≠ 0
  | .float q => q ≠ 0
  | .str s => s ≠ ""
  | .arr items => !items.isEmpty
  | .obj members => !members.isEmpty

/-! ### Unique keys -/

mutual

/-- Every object of the document has unique keys. -/
def Json.UniqueKeys : Json → Prop
  | .arr items => UniqueKeysItems items
  | .obj members => (members.map Prod.fst).Nodup ∧ UniqueKeysMembers members
  | _ => True

def UniqueKeysItems : List Json → Prop
  | [] => True
  | v :: items => v.UniqueKeys ∧ UniqueKeysItems items

def UniqueKeysMembers : List (String × Json) → Prop
  | [] => True
  | (_, v) :: members => v.UniqueKeys ∧ UniqueKeysMembers members

end

theorem uniqueKeysItems_iff {items : List Json} :
    UniqueKeysItems items ↔ ∀ v ∈ items, v.UniqueKeys := by
  induction items with
  | nil => simp [UniqueKeysItems]
  | cons v items ih => simp [UniqueKeysItems, ih]

theorem uniqueKeysMembers_iff {members : List (String × Json)} :
    UniqueKeysMembers members ↔ ∀ e ∈ members, e.2.UniqueKeys := by
  induction members with
  | nil => simp [UniqueKeysMembers]
  | cons e members ih =>
    obtain ⟨k, v⟩ := e
    simp [UniqueKeysMembers, ih]

/-- A JSON object payload, `payload: dict[str, Any]`. -/
structure Payload where
  members : List (String × Json)
  unique : (Json.obj members).UniqueKeys

def Payload.json (p : Payload) : Json := .obj p.members

theorem Payload.uniqueKeys (p : Payload) : p.json.UniqueKeys := p.unique

/-! ### Locations -/

/-- One step into a document. -/
inductive Step
  | key (k : String)
  | index (i : ℕ)
  deriving DecidableEq, Repr

abbrev Location := List Step

/-- What is directly below a value. -/
def Json.child : Json → Step → Option Json
  | .obj members, .key k => members.lookup k
  | .arr items, .index i => items[i]?
  | _, _ => none

/-- What a document has at a location. -/
def Json.at : Json → Location → Option Json
  | v, [] => some v
  | v, s :: ℓ => (v.child s).bind fun w => w.at ℓ

@[simp] theorem Json.at_nil (v : Json) : v.at [] = some v := by
  simp [Json.at]

theorem Json.at_cons (v : Json) (s : Step) (ℓ : Location) :
    v.at (s :: ℓ) = (v.child s).bind fun w => w.at ℓ := by
  simp [Json.at]

/-- A scalar has nothing below it. -/
theorem Json.child_scalar {v : Json} {k : Kind} (h : v.kind = some k) (s : Step) :
    v.child s = none := by
  cases v <;> cases s <;> simp_all [Json.kind, Json.child]

theorem Json.UniqueKeys.child {v w : Json} {s : Step} (h : v.UniqueKeys)
    (hc : v.child s = some w) : w.UniqueKeys := by
  cases v with
  | arr items =>
    cases s with
    | key k => simp [Json.child] at hc
    | index i =>
      have hm : w ∈ items := List.mem_of_getElem? (by simpa [Json.child] using hc)
      exact uniqueKeysItems_iff.mp (by simpa [Json.UniqueKeys] using h) w hm
  | obj members =>
    cases s with
    | key k =>
      have hm : (k, w) ∈ members := Lib.mem_of_lookup (by simpa [Json.child] using hc)
      rw [Json.UniqueKeys] at h
      exact uniqueKeysMembers_iff.mp h.2 (k, w) hm
    | index i => simp [Json.child] at hc
  | null => cases s <;> simp [Json.child] at hc
  | bool b => cases s <;> simp [Json.child] at hc
  | int n => cases s <;> simp [Json.child] at hc
  | float q => cases s <;> simp [Json.child] at hc
  | str t => cases s <;> simp [Json.child] at hc

theorem Json.UniqueKeys.of_get? {v w : Json} {k : String} (h : v.UniqueKeys)
    (hk : v.get? k = some w) : w.UniqueKeys := by
  cases v with
  | obj members => exact h.child (s := .key k) hk
  | _ => cases hk

theorem Json.UniqueKeys.at {v w : Json} {ℓ : Location} (h : v.UniqueKeys) (ha : v.at ℓ = some w) :
    w.UniqueKeys := by
  induction ℓ generalizing v with
  | nil =>
    rw [Json.at_nil] at ha
    exact Option.some.inj ha ▸ h
  | cons s ℓ ih =>
    rw [Json.at_cons] at ha
    obtain ⟨u, hu, ha⟩ := Option.bind_eq_some_iff.mp ha
    exact ih (h.child hu) ha

end Driftgate.Schema
