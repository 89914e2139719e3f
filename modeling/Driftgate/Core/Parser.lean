import Driftgate.Core.Engine
import Driftgate.Runtime.Registry

/-!
# Structural types and the legacy fingerprint

The legacy tables know a payload by its fingerprint, the hash of its structural string. An array
has the names of the scalars among its items, each once, and then the serialized types of its other
items, each as often as it occurs; an object has the types of its members under their keys.
-/

namespace Driftgate.Core

open Driftgate.Schema

/-- What `extract_structural_type` returns. The items of an array are texts. -/
inductive StructuralType
  | name (type : String)
  | items (l : List String)
  | members (l : List (String × StructuralType))

mutual

/-- `serialize_ast_to_string` -/
def serializeAst : StructuralType → String
  | .name type => type
  | .items l => "array[" ++ ",".intercalate l ++ "]"
  | .members l =>
    "object\x7b" ++ ";".intercalate ((sortByKey (serializeMembers l)).map Prod.snd) ++ "\x7d"

def serializeMembers : List (String × StructuralType) → List (String × String)
  | [] => []
  | (k, v) :: l => (k, k ++ ":" ++ serializeAst v) :: serializeMembers l

end

/-- `inner_types`, before the names are made unique. -/
def innerTypes (resolved : List StructuralType) : List String :=
  resolved.filterMap fun t => match t with
    | .name type => some type
    | _ => none

/-- `array_structures` -/
def arrayStructures (resolved : List StructuralType) : List String :=
  resolved.filterMap fun t => match t with
    | .name _ => none
    | t => some (serializeAst t)

/-- `sorted(list(inner_types))`, then `sorted(array_structures)`. -/
def arrayItems (resolved : List StructuralType) : List String :=
  (innerTypes resolved).dedup.insertionSort (· ≤ ·) ++
    (arrayStructures resolved).insertionSort (· ≤ ·)

mutual

def extractStructuralType : Json → StructuralType
  | .obj members => .members (sortByKey (extractMembers members))
  | .arr items => .items (if items.isEmpty then ["empty_array"] else arrayItems (extractItems items))
  | .null => .name (primitiveType .null)
  | .bool _ => .name (primitiveType .boolean)
  | .int _ => .name (primitiveType .integer)
  | .float _ => .name (primitiveType .number)
  | .str _ => .name (primitiveType .string)

def extractItems : List Json → List StructuralType
  | [] => []
  | v :: items => extractStructuralType v :: extractItems items

def extractMembers : List (String × Json) → List (String × StructuralType)
  | [] => []
  | (k, v) :: members => (k, extractStructuralType v) :: extractMembers members

end

def structuralString (payload : Payload) : String :=
  String.join ((sortByKey (extractMembers payload.members)).map fun e =>
    e.1 ++ ":" ++ serializeAst e.2 ++ ";")

theorem extractItems_eq (items : List Json) :
    extractItems items = items.map extractStructuralType := by
  induction items with
  | nil => simp [extractItems]
  | cons v items ih => simp [extractItems, ih]

theorem extractMembers_eq (members : List (String × Json)) :
    extractMembers members = members.map fun e => (e.1, extractStructuralType e.2) := by
  induction members with
  | nil => simp [extractMembers]
  | cons e members ih => simp [extractMembers, ih]

theorem serializeMembers_eq (l : List (String × StructuralType)) :
    serializeMembers l = l.map fun e => (e.1, e.1 ++ ":" ++ serializeAst e.2) := by
  induction l with
  | nil => simp [serializeMembers]
  | cons e l ih => simp [serializeMembers, ih]

theorem extractStructuralType_scalar {v : Json} {k : Kind} (h : v.kind = some k) :
    extractStructuralType v = .name (primitiveType k) := by
  cases v <;> simp_all [Json.kind, extractStructuralType]

theorem extractStructuralType_arr {items : List Json} (h : items ≠ []) :
    extractStructuralType (.arr items) = .items (arrayItems (items.map extractStructuralType)) := by
  rw [extractStructuralType, extractItems_eq, if_neg (by simpa using h)]

theorem extractStructuralType_obj (members : List (String × Json)) :
    extractStructuralType (.obj members) =
      .members (sortByKey (members.map fun e => (e.1, extractStructuralType e.2))) := by
  rw [extractStructuralType, extractMembers_eq]

/-- The structural string is a text of the structural type. -/
theorem structuralString_congr {p q : Payload}
    (h : extractStructuralType p.json = extractStructuralType q.json) :
    structuralString p = structuralString q := by
  have hmembers : sortByKey (extractMembers p.members) = sortByKey (extractMembers q.members) := by
    rw [Payload.json, Payload.json, extractStructuralType, extractStructuralType] at h
    exact StructuralType.members.inj h
  rw [structuralString, structuralString, hmembers]

end Driftgate.Core

namespace Driftgate.Runtime

/-- `fingerprint_schema` -/
def Config.fingerprintSchema (cfg : Config) (payload : Schema.Payload) : String :=
  cfg.sha256 (Core.structuralString payload)

/-- `route_lock_id` -/
def Config.routeLockId (cfg : Config) (routePath : String) : ℕ :=
  ofHex ((cfg.sha256 routePath).toList.take 15)

end Driftgate.Runtime
