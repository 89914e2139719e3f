import Driftgate.Schema.Payload
import Mathlib.Data.List.Sort

/-!
# Sets of parsed JSON values

The scripts build sets from whatever a document has under `properties` and `required`: the keys of
an object, the elements of an array, the characters of a text. Members of a set are scalars, and
two of them are the same member when Python finds them equal: `1`, `True` and `1.0` are one number.
A set keeps the member that came first.

`sorted` compares texts with texts and numbers with numbers; on two or more members it raises when
they are not all of one sort.
-/

namespace Driftgate.Scripts

open Driftgate.Schema

/-- The exceptions of the scripts. -/
inductive PyError
  | typeError
  | indexError
  | keyError
  | attributeError
  deriving DecidableEq

/-! ### Members -/

/-- A hashable value of a parsed document. -/
inductive Key
  | null
  | bool (b : Bool)
  | int (n : ℤ)
  | float (q : ℚ)
  | str (s : String)
  deriving DecidableEq

/-- What Python's equality sees of a member. -/
inductive KeyValue
  | null
  | num (q : ℚ)
  | text (s : String)
  deriving DecidableEq

def Key.value : Key → KeyValue
  | null => .null
  | bool b => .num (if b then 1 else 0)
  | int n => .num n
  | float q => .num q
  | str s => .text s

/-- `hash(v)`: arrays and objects have none. -/
def hashable : Json → Except PyError Key
  | .null => .ok .null
  | .bool b => .ok (.bool b)
  | .int n => .ok (.int n)
  | .float q => .ok (.float q)
  | .str s => .ok (.str s)
  | .arr _ => .error .typeError
  | .obj _ => .error .typeError

/-- `str(k)`; `floatRepr` is the decimal text of a float. -/
def Key.text (floatRepr : ℚ → String) : Key → String
  | null => "None"
  | bool b => if b then "True" else "False"
  | int n => toString n
  | float q => floatRepr q
  | str s => s

/-- `<=` where it is defined. -/
def Key.le (a b : Key) : Prop :=
  match a.value, b.value with
  | .num p, .num q => p ≤ q
  | .text s, .text t => s ≤ t
  | _, _ => True

instance : DecidableRel Key.le := fun a b => by
  unfold Key.le
  split <;> infer_instance

def Key.isText : Key → Bool
  | str _ => true
  | _ => false

def Key.isNumber : Key → Bool
  | bool _ | int _ | float _ => true
  | _ => false

/-! ### Sets -/

/-- `k in s` -/
def has (s : List Key) (k : Key) : Bool := s.any fun k' => decide (k'.value = k.value)

/-- The members in the order they came, without repetitions. -/
def distinct : List Key → List Key
  | [] => []
  | k :: ks => k :: (distinct ks).filter fun k' => decide (k'.value ≠ k.value)

/-- `a - b` -/
def difference (a b : List Key) : List Key := a.filter fun k => !has b k

/-- `a & b`: the members of the smaller set that are in the other, of the right one if neither is
smaller. -/
def intersection (a b : List Key) : List Key :=
  if a.length < b.length then a.filter (has b) else b.filter (has a)

/-- `set(v)` -/
def pySet : Json → Except PyError (List Key)
  | .obj members => .ok (distinct (members.map fun e => .str e.1))
  | .arr items => (items.mapM hashable).map distinct
  | .str s => .ok (distinct (s.toList.map fun c => .str (String.singleton c)))
  | _ => .error .typeError

/-- `sorted(s)` -/
def pySorted (s : List Key) : Except PyError (List Key) :=
  if s.length ≤ 1 ∨ s.all Key.isText ∨ s.all Key.isNumber then .ok (s.insertionSort Key.le)
  else .error .typeError

theorem mem_of_pySorted {s l : List Key} (h : pySorted s = .ok l) (k : Key) : k ∈ l ↔ k ∈ s := by
  rw [pySorted] at h
  split at h
  · rw [← Except.ok.inj h]
    exact List.mem_insertionSort _
  · cases h

theorem mem_difference {a b : List Key} {k : Key} :
    k ∈ difference a b ↔ k ∈ a ∧ has b k = false := by
  simp [difference]

/-! ### Subscripts -/

/-- The index a member is when it is one. -/
def Key.index? : Key → Option ℤ
  | bool b => some (if b then 1 else 0)
  | int n => some n
  | _ => none

/-- `items[n]`: a negative index counts from the end. -/
def atIndex {α : Type*} (items : List α) (n : ℤ) : Option α :=
  if 0 ≤ n then items[n.toNat]?
  else if 0 ≤ items.length + n then items[(items.length + n).toNat]?
  else none

/-- `v[k]` -/
def subscript : Json → Key → Except PyError Json
  | .obj members, .str key =>
    match members.lookup key with
    | some v => .ok v
    | none => .error .keyError
  | .obj _, _ => .error .keyError
  | .arr items, k =>
    match k.index? with
    | some n =>
      match atIndex items n with
      | some v => .ok v
      | none => .error .indexError
    | none => .error .typeError
  | .str s, k =>
    match k.index? with
    | some n =>
      match atIndex s.toList n with
      | some c => .ok (.str (String.singleton c))
      | none => .error .indexError
    | none => .error .typeError
  | _, _ => .error .typeError

end Driftgate.Scripts
