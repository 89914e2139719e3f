import Driftgate.Lib.Accumulators
import Driftgate.Schema.Payload
import Mathlib.Data.Finset.Sort
import Mathlib.Data.String.Basic

/-!
# Schema inference

`infer_schema` walks through a JSON body and keeps a mutable accumulator for each path string. The
dictionary of the accumulators is passed along here. An object at the root has no node of its own;
an array at the root has the path `[*]`, which is also the path of its elements.

An accumulator that `_ensure` returned stays in the dictionary, so a later assignment to it is a
modification of the entry of its path.
-/

namespace Driftgate.Monitor

open Driftgate.Lib Driftgate.Schema

inductive JsonType
  | object
  | array
  | string
  | integer
  | number
  | boolean
  | null
  | mixed
  | unknown
  deriving DecidableEq, Repr

def JsonType.name : JsonType → String
  | .object => "object"
  | .array => "array"
  | .string => "string"
  | .integer => "integer"
  | .number => "number"
  | .boolean => "boolean"
  | .null => "null"
  | .mixed => "mixed"
  | .unknown => "unknown"

def enumThreshold : ℕ := 10

def exampleMaxLen : ℕ := 200

/-- `SchemaNode`. -/
structure SchemaNode where
  path : String
  type : JsonType
  required : Bool
  nullable : Bool
  arrayItemType : Option JsonType
  enumValues : Option (List String)
  exampleValue : Option Json

/-- `_NodeState` without its path, which is the key of its entry. -/
structure NodeState where
  type : JsonType
  required : Bool
  nullable : Bool
  arrayItemType : Option JsonType
  exampleValue : Option Json
  enumValues : Finset String
  enumDisabled : Bool
  isStringLeaf : Bool

/-- `_NodeState(path=path, type=type_)`. -/
def NodeState.new (type : JsonType) : NodeState where
  type := type
  required := true
  nullable := false
  arrayItemType := none
  exampleValue := none
  enumValues := ∅
  enumDisabled := false
  isStringLeaf := false

abbrev States := List (String × NodeState)

/-- `_scalar_type`. -/
def scalarType : Json → JsonType
  | .null => .null
  | .bool _ => .boolean
  | .int _ => .integer
  | .float _ => .number
  | .str _ => .string
  | .arr _ => .unknown
  | .obj _ => .unknown

/-- `_truncate_example`. -/
def truncateExample : Json → Json
  | .str s => if s.length > exampleMaxLen then .str (String.ofList (s.toList.take exampleMaxLen))
    else .str s
  | v => v

/-- `_join_path`. -/
def joinPath (parent key : String) : String := if parent = "" then key else s!"{parent}.{key}"

/-- `_array_path`. -/
def arrayPath (parent : String) : String := if parent = "" then "[*]" else s!"{parent}[*]"

/-- `_ensure`. -/
def ensure (path : String) (type : JsonType) (states : States) : States :=
  ensureKey path (.new type) states

/-! ### Values -/

/-- The branch of `_emit_value` for strings. -/
def NodeState.addString (state : NodeState) (value : String) : NodeState :=
  let state := { state with isStringLeaf := true }
  if state.enumDisabled then state
  else
    let enumValues := insert value state.enumValues
    if enumValues.card > enumThreshold then { state with enumDisabled := true, enumValues := ∅ }
    else { state with enumValues := enumValues }

/-- What `_emit_value` does to the accumulator of a scalar of type `t`. -/
def NodeState.addScalar (state : NodeState) (t : JsonType) (value : Json) : NodeState :=
  let state :=
    if state.type = .null then { state with type := t, nullable := true }
    else if state.type ≠ t then { state with type := .mixed }
    else state
  let state :=
    if state.exampleValue.isNone then { state with exampleValue := some (truncateExample value) }
    else state
  match value with
  | .str s => state.addString s
  | _ => state

/-- `_emit_value` on a scalar. -/
def emitScalar (path : String) (value : Json) (states : States) : States :=
  let t := scalarType value
  if t = .null then
    modifyKey path (fun state => { state with nullable := true }) (ensure path .null states)
  else modifyKey path (fun state => state.addScalar t value) (ensure path t states)

/-! ### Lists -/

def isDict : Json → Bool
  | .obj _ => true
  | _ => false

/-- The keys of a dictionary. -/
def keysOf : Json → List String
  | .obj members => members.map Prod.fst
  | _ => []

/-- `keys_seen`: how many items have a key. -/
def keysSeen (items : List Json) : List (String × ℕ) :=
  let keys := items.flatMap keysOf
  keys.dedup.map fun key => (key, keys.count key)

/-- `array_item_type` of a list that is not a list of objects. -/
def itemTypeOf (items : List Json) : JsonType :=
  match ((items.map scalarType).filter (· ≠ .null)).dedup with
  | [] => .null
  | [t] => t
  | _ => .mixed

def setItemType (path : String) (type : JsonType) (states : States) : States :=
  modifyKey path (fun state => { state with arrayItemType := some type }) states

def markOptional (path : String) (states : States) : States :=
  modifyKey path (fun state => { state with required := false }) states

/-- The list branch of `_walk`; `emitObjects` and `emitItems` are its loops over the items. -/
def walkList (items : List Json) (parentPath : String) (emitObjects emitItems : String → States → States)
    (states : States) : States :=
  let path := if parentPath = "" then "[*]" else parentPath
  let states := ensure path .array states
  if items.isEmpty then setItemType path .unknown states
  else
    let itemPath := arrayPath parentPath
    if items.all isDict then
      let states := emitObjects itemPath (setItemType path .object states)
      (keysSeen items).foldl (fun states e =>
        if e.2 < items.length then markOptional (joinPath itemPath e.1) states else states) states
    else setItemType path (itemTypeOf items) (emitItems itemPath states)

/-! ### The walk -/

/-- `if parent_path: _ensure(states, parent_path, "object")`. -/
def enterObject (parentPath : String) (states : States) : States :=
  if parentPath = "" then states else ensure parentPath .object states

mutual

/-- `_emit_value`, with the dictionary branch of `_walk` in place. -/
def emitValue : Json → String → States → States
  | .obj members, path, states =>
    emitMembers members path (enterObject path (ensure path .object states))
  | .arr items, path, states =>
    walkList items path (emitObjects items) (emitItems items) states
  | v, path, states => emitScalar path v states

/-- The loop over the members of a dictionary. -/
def emitMembers : List (String × Json) → String → States → States
  | [], _, states => states
  | (key, v) :: members, parentPath, states =>
    emitMembers members parentPath (emitValue v (joinPath parentPath key) states)

/-- The loop over the items of a list of dictionaries. -/
def emitObjects : List Json → String → States → States
  | [], _, states => states
  | .obj members :: items, itemPath, states =>
    emitObjects items itemPath (emitMembers members itemPath states)
  | _ :: items, itemPath, states => emitObjects items itemPath states

/-- The loop over the items of any other list. -/
def emitItems : List Json → String → States → States
  | [], _, states => states
  | v :: items, itemPath, states => emitItems items itemPath (emitValue v itemPath states)

end

/-- `_walk`. -/
def walk (data : Json) (parentPath : String) (states : States) : States :=
  match data with
  | .obj members => emitMembers members parentPath (enterObject parentPath states)
  | .arr items => walkList items parentPath (emitObjects items) (emitItems items) states
  | v => emitScalar (if parentPath = "" then "[root]" else parentPath) v states

/-- `sorted` on texts compares them by `≤`. -/
instance string_isTrans : IsTrans String fun a b => a ≤ b := ⟨fun _ _ _ => le_trans⟩

instance string_antisymm : Std.Antisymm fun a b : String => a ≤ b := ⟨fun _ _ => le_antisymm⟩

/-- `_finalize`. -/
def finalize (path : String) (state : NodeState) : SchemaNode where
  path := path
  type := state.type
  required := state.required
  nullable := state.nullable
  arrayItemType := state.arrayItemType
  enumValues := if state.isStringLeaf ∧ ¬state.enumDisabled ∧ state.enumValues ≠ ∅ then
    some state.enumValues.sort else none
  exampleValue := state.exampleValue

/-- `sorted(nodes, key=lambda n: n.path)`. -/
def sortByPath (nodes : List SchemaNode) : List SchemaNode :=
  nodes.insertionSort fun a b => a.path ≤ b.path

def inferSchema (data : Json) : List SchemaNode :=
  sortByPath ((walk data "" []).map fun e => finalize e.1 e.2)

end Driftgate.Monitor
