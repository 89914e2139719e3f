import Driftgate.Lib.Exceptions
import Driftgate.Lib.Occurrence
import Driftgate.Scripts.PySets
import Mathlib.Data.List.ReduceOption

/-!
# Two diffs of OpenAPI documents

`scripts/openapi_diff` and `scripts/contract_review_agent` compare the component schemas of two
documents. Both walk the schemas that the documents share in the same way, `compareFields`, and put
what they find into messages. The agent collects breaking messages; the diff decides afterwards,
by the words of its messages, and asks a schema for its member `required` without looking whether
it is an object.
-/

namespace Driftgate.Scripts

open Driftgate.Lib Driftgate.Schema Driftgate.Occurrence

/-! ### What both scripts do -/

/-- `isinstance(v, dict)` -/
def IsObject : Json → Bool
  | .obj _ => true
  | _ => false

/-- `_extract_schema` -/
def extractSchema (payload : Json) : List (String × Json) :=
  match payload with
  | .obj members =>
    match (members.lookup "components").bind fun c => c.get? "schemas" with
    | some (.obj schemas) => schemas
    | _ =>
      match members.lookup "schema" with
      | some (.obj schema) => schema
      | _ => members
  | _ => []

/-- `_field_type` -/
def fieldType (fieldSchema : Json) : String :=
  match fieldSchema.get? "type" with
  | some (.str value) => value
  | _ => ""

/-- `v.get("properties", {}) if isinstance(v, dict) else {}` -/
def propertiesOf (schema : Json) : Json := (schema.get? "properties").getD (.obj [])

/-- `v.get("required", []) or []`, for an object. -/
def requiredMember (schema : Json) : Json :=
  match schema.get? "required" with
  | some v => if v.truthy then v else .arr []
  | none => .arr []

/-- The names of a dictionary of schemas that another one does not have, sorted. -/
def namesBeyond (schemas others : List (String × Json)) : List String :=
  ((schemas.map Prod.fst).dedup.filter fun n => n ∉ others.map Prod.fst).insertionSort (· ≤ ·)

/-- The names that both have, sorted. -/
def commonNames (old new : List (String × Json)) : List String :=
  ((old.map Prod.fst).dedup.filter fun n => n ∈ new.map Prod.fst).insertionSort (· ≤ ·)

/-- `schemas[name]` -/
def schemaAt (schemas : List (String × Json)) (name : String) : Json :=
  (schemas.lookup name).getD .null

/-- The types of a field that both schemas have, when both are given and differ. -/
def typeChange (oldProps newProps : Json) (field : Key) :
    Except PyError (Option (Key × String × String)) := do
  let oldType := fieldType (← subscript oldProps field)
  let newType := fieldType (← subscript newProps field)
  if oldType ≠ "" ∧ newType ≠ "" ∧ oldType ≠ newType then return some (field, oldType, newType)
  else return none

/-- What the loops over the fields of a schema find. -/
structure FieldChanges where
  removed : List Key
  added : List Key
  typeChanges : List (Key × String × String)
  becameRequired : List Key
  noLongerRequired : List Key

/-- The loops over the fields of a schema. -/
def compareFields (oldProps newProps : Json) (oldRequired newRequired : List Key) :
    Except PyError FieldChanges := do
  let oldFields ← pySet oldProps
  let newFields ← pySet newProps
  let removed ← pySorted (difference oldFields newFields)
  let added ← pySorted (difference newFields oldFields)
  let common ← pySorted (intersection oldFields newFields)
  let typeChanges ← common.mapM (typeChange oldProps newProps)
  let becameRequired ← pySorted (difference newRequired oldRequired)
  let noLongerRequired ← pySorted (difference oldRequired newRequired)
  return ⟨removed, added, typeChanges.reduceOption, becameRequired, noLongerRequired⟩

section Scripts

variable (floatRepr : ℚ → String)

/-! ### `scripts/openapi_diff` -/

/-- The result of `diff_schemas`. -/
structure SchemaDiff where
  removedFields : List String
  typeChanges : List String
  requiredChanges : List String
  addedOptionalFields : List String

/-- `set(v.get("required", []) or [])` on a value of any type. -/
def requiredUnguarded (schema : Json) : Except PyError (List Key) :=
  if IsObject schema then pySet (requiredMember schema) else .error .attributeError

/-- `diff_schemas` -/
def diffSchemas (old new : Json) : Except PyError SchemaDiff := do
  let oldRequired ← requiredUnguarded old
  let newRequired ← requiredUnguarded new
  let c ← compareFields (propertiesOf old) (propertiesOf new) oldRequired newRequired
  return {
    removedFields := c.removed.map (Key.text floatRepr)
    typeChanges := c.typeChanges.map fun e => s!"{e.1.text floatRepr}: {e.2.1} -> {e.2.2}"
    requiredChanges :=
      ((c.added.filter (has newRequired)).map fun k => "added required field: " ++ k.text floatRepr) ++
      (c.becameRequired.map fun k => "field became required: " ++ k.text floatRepr) ++
      c.noLongerRequired.map fun k => "field no longer required: " ++ k.text floatRepr
    addedOptionalFields :=
      (c.added.filter fun k => !has newRequired k).map (Key.text floatRepr) }

/-- The result of `classify_diff`. -/
structure Classified where
  breaking : Bool
  diff : SchemaDiff

/-- `classify_diff` -/
def classifyDiff (diff : SchemaDiff) : Classified where
  breaking := !diff.removedFields.isEmpty || !diff.typeChanges.isEmpty ||
    diff.requiredChanges.any fun item => contains "required" item && !contains "no longer" item
  diff := diff

/-- `diff_openapi_documents` of `openapi_diff`. -/
def OpenapiDiff.diffOpenapiDocuments (oldPayload newPayload : Json) : Except PyError Classified := do
  let oldSchemas := extractSchema oldPayload
  let newSchemas := extractSchema newPayload
  let diffs ← (commonNames oldSchemas newSchemas).mapM fun name =>
    diffSchemas floatRepr (schemaAt oldSchemas name) (schemaAt newSchemas name)
  return classifyDiff {
    removedFields := (namesBeyond oldSchemas newSchemas).map (fun name => "schema:" ++ name) ++
      diffs.flatMap SchemaDiff.removedFields
    typeChanges := diffs.flatMap SchemaDiff.typeChanges
    requiredChanges := diffs.flatMap SchemaDiff.requiredChanges
    addedOptionalFields := (namesBeyond newSchemas oldSchemas).map (fun name => "schema:" ++ name) ++
      diffs.flatMap SchemaDiff.addedOptionalFields }

/-! ### `scripts/contract_review_agent` -/

/-- The result of the agent's diff, also that of one schema. -/
structure AgentDiff where
  breakingChanges : List String
  nonBreakingChanges : List String

def AgentDiff.breaking (d : AgentDiff) : Bool := !d.breakingChanges.isEmpty

/-- `set(v.get("required", []) or []) if isinstance(v, dict) else set()` -/
def requiredGuarded (schema : Json) : Except PyError (List Key) :=
  if IsObject schema then pySet (requiredMember schema) else .ok []

/-- The body of the agent's loop over the schemas. -/
def agentSchemaDiff (schemaName : String) (old new : Json) : Except PyError AgentDiff := do
  let oldRequired ← requiredGuarded old
  let newRequired ← requiredGuarded new
  let c ← compareFields (propertiesOf old) (propertiesOf new) oldRequired newRequired
  let line (k : Key) (what : String) : String := schemaName ++ "." ++ k.text floatRepr ++ what
  return {
    breakingChanges :=
      (c.removed.map fun k => line k " removed") ++
      ((c.added.filter (has newRequired)).map fun k => line k " added as required") ++
      (c.typeChanges.map fun e => line e.1 s!" type {e.2.1} -> {e.2.2}") ++
      c.becameRequired.map fun k => line k " became required"
    nonBreakingChanges :=
      ((c.added.filter fun k => !has newRequired k).map fun k => line k " added as optional") ++
      c.noLongerRequired.map fun k => line k " no longer required" }

/-- `diff_openapi_documents` of `contract_review_agent`. -/
def ContractReviewAgent.diffOpenapiDocuments (oldPayload newPayload : Json) :
    Except PyError AgentDiff := do
  let oldSchemas := extractSchema oldPayload
  let newSchemas := extractSchema newPayload
  let diffs ← (commonNames oldSchemas newSchemas).mapM fun name =>
    agentSchemaDiff floatRepr name (schemaAt oldSchemas name) (schemaAt newSchemas name)
  return {
    breakingChanges := (namesBeyond oldSchemas newSchemas).map (fun name => "schema removed: " ++ name) ++
      diffs.flatMap AgentDiff.breakingChanges
    nonBreakingChanges := (namesBeyond newSchemas oldSchemas).map (fun name => "schema added: " ++ name) ++
      diffs.flatMap AgentDiff.nonBreakingChanges }

/-! ### The changes of one schema -/

/-- The fields of a schema, the members of the set of its properties. -/
def fieldsOf (schema : Json) : List Key := (pySet (propertiesOf schema)).toOption.getD []

def requiredOf (schema : Json) : List Key := (requiredGuarded schema).toOption.getD []

/-- Some field of the old schema is missing in the new one. -/
def FieldRemoved (old new : Json) : Prop := ∃ k ∈ fieldsOf old, has (fieldsOf new) k = false

/-- Some field of both schemas has another type. -/
def TypeChanged (old new : Json) : Prop :=
  ∃ k ∈ intersection (fieldsOf old) (fieldsOf new), ∃ e,
    typeChange (propertiesOf old) (propertiesOf new) k = .ok (some e)

/-- A field is new and required, or required now and not before. -/
def NewlyRequired (old new : Json) (k : Key) : Prop :=
  (k ∈ fieldsOf new ∧ has (fieldsOf old) k = false ∧ has (requiredOf new) k = true) ∨
    (k ∈ requiredOf new ∧ has (requiredOf old) k = false)

/-- What the loops over the fields of a schema find when they go through. -/
theorem compareFields_eq_ok {old new : Json} {oldRequired newRequired : List Key} {c : FieldChanges}
    (h : compareFields (propertiesOf old) (propertiesOf new) oldRequired newRequired = .ok c) :
    (∀ k, k ∈ c.removed ↔ k ∈ difference (fieldsOf old) (fieldsOf new)) ∧
    (∀ k, k ∈ c.added ↔ k ∈ difference (fieldsOf new) (fieldsOf old)) ∧
    (∀ e, e ∈ c.typeChanges ↔ ∃ k ∈ intersection (fieldsOf old) (fieldsOf new),
      typeChange (propertiesOf old) (propertiesOf new) k = .ok (some e)) ∧
    (∀ k, k ∈ c.becameRequired ↔ k ∈ difference newRequired oldRequired) ∧
    (∀ k, k ∈ c.noLongerRequired ↔ k ∈ difference oldRequired newRequired) := by
  obtain ⟨oldFields, hold, h⟩ := bind_eq_ok.mp h
  obtain ⟨newFields, hnew, h⟩ := bind_eq_ok.mp h
  obtain ⟨removed, hremoved, h⟩ := bind_eq_ok.mp h
  obtain ⟨added, hadded, h⟩ := bind_eq_ok.mp h
  obtain ⟨common, hcommon, h⟩ := bind_eq_ok.mp h
  obtain ⟨changes, hchanges, h⟩ := bind_eq_ok.mp h
  obtain ⟨became, hbecame, h⟩ := bind_eq_ok.mp h
  obtain ⟨noLonger, hnoLonger, h⟩ := bind_eq_ok.mp h
  have holdFields : fieldsOf old = oldFields := by rw [fieldsOf, hold]; rfl
  have hnewFields : fieldsOf new = newFields := by rw [fieldsOf, hnew]; rfl
  obtain rfl := Except.ok.inj h
  rw [holdFields, hnewFields]
  refine ⟨mem_of_pySorted hremoved, mem_of_pySorted hadded, fun e => ?_, mem_of_pySorted hbecame,
    mem_of_pySorted hnoLonger⟩
  rw [List.reduceOption_mem_iff, mem_of_mapM_eq_ok hchanges]
  simp only [mem_of_pySorted hcommon]

variable {floatRepr}

theorem exists_mem_map {α β : Type*} {f : α → β} {l : List α} :
    (∃ b, b ∈ l.map f) ↔ ∃ a, a ∈ l := by
  simp

/-- The agent's verdict on a schema. -/
theorem agentSchemaDiff_breaking {name : String} {old new : Json} {d : AgentDiff}
    (h : agentSchemaDiff floatRepr name old new = .ok d) :
    (∃ item, item ∈ d.breakingChanges) ↔
      FieldRemoved old new ∨ TypeChanged old new ∨ ∃ k, NewlyRequired old new k := by
  obtain ⟨oldRequired, hold, h⟩ := bind_eq_ok.mp h
  obtain ⟨newRequired, hnew, h⟩ := bind_eq_ok.mp h
  obtain ⟨c, hc, h⟩ := bind_eq_ok.mp h
  have holdRequired : requiredOf old = oldRequired := by rw [requiredOf, hold]; rfl
  have hnewRequired : requiredOf new = newRequired := by rw [requiredOf, hnew]; rfl
  obtain ⟨hremoved, hadded, hchanges, hbecame, -⟩ := compareFields_eq_ok hc
  rw [← Except.ok.inj h]
  simp only [List.mem_append, exists_or, exists_mem_map, List.mem_filter, hremoved, hadded,
    hchanges, hbecame, mem_difference, FieldRemoved, TypeChanged, NewlyRequired, holdRequired,
    hnewRequired, and_assoc, or_assoc]
  rw [exists_comm (α := Key × String × String)]
  simp only [exists_and_left]
  exact or_congr_right or_left_comm

/-- The verdict of `classify_diff` on the messages of a schema. -/
def SaysRequired (item : String) : Prop :=
  contains "required" item = true ∧ contains "no longer" item = false

theorem saysRequired_added (t : String) :
    SaysRequired ("added required field: " ++ t) ↔ contains "no longer" t = false := by
  rw [SaysRequired, contains_append_left (by decide),
    contains_append (by decide) (by decide)]
  exact and_iff_right rfl

theorem saysRequired_became (t : String) :
    SaysRequired ("field became required: " ++ t) ↔ contains "no longer" t = false := by
  rw [SaysRequired, contains_append_left (by decide),
    contains_append (by decide) (by decide)]
  exact and_iff_right rfl

theorem not_saysRequired_noLonger (t : String) :
    ¬SaysRequired ("field no longer required: " ++ t) := by
  have hword : contains "no longer" "field no longer required: " = true := by decide
  rw [SaysRequired, contains_append_left hword]
  simp

theorem classifyDiff_breaking (d : SchemaDiff) :
    (classifyDiff d).breaking = true ↔ (∃ item, item ∈ d.removedFields) ∨
      (∃ item, item ∈ d.typeChanges) ∨ ∃ item ∈ d.requiredChanges, SaysRequired item := by
  simp only [classifyDiff, Bool.or_eq_true, Bool.not_eq_true', List.isEmpty_eq_false_iff_exists_mem,
    List.any_eq_true, Bool.and_eq_true, SaysRequired, or_assoc]

/-- The diff of a schema: what it says goes with the changes, and what `classify_diff` reads in its
messages about required fields are those whose text has no "no longer". -/
theorem diffSchemas_breaking {old new : Json} {d : SchemaDiff}
    (h : diffSchemas floatRepr old new = .ok d) :
    ((∃ item, item ∈ d.removedFields) ↔ FieldRemoved old new) ∧
    ((∃ item, item ∈ d.typeChanges) ↔ TypeChanged old new) ∧
    ((∃ item ∈ d.requiredChanges, SaysRequired item) ↔
      ∃ k, NewlyRequired old new k ∧ contains "no longer" (k.text floatRepr) = false) := by
  obtain ⟨oldRequired, hold, h⟩ := bind_eq_ok.mp h
  obtain ⟨newRequired, hnew, h⟩ := bind_eq_ok.mp h
  obtain ⟨c, hc, h⟩ := bind_eq_ok.mp h
  have hrequired : ∀ {schema : Json} {s : List Key}, requiredUnguarded schema = .ok s →
      requiredOf schema = s := by
    intro schema s hs
    rw [requiredUnguarded] at hs
    split at hs
    next hobject => rw [requiredOf, requiredGuarded, if_pos hobject, hs]; rfl
    next => cases hs
  obtain ⟨hremoved, hadded, hchanges, hbecame, -⟩ := compareFields_eq_ok hc
  rw [← Except.ok.inj h]
  simp only [exists_mem_map, hremoved, hchanges, mem_difference, FieldRemoved, TypeChanged,
    NewlyRequired, hrequired hold, hrequired hnew]
  refine ⟨trivial, by rw [exists_comm]; simp only [exists_and_left], ?_⟩
  simp only [List.mem_append, List.mem_map, List.mem_filter, hadded, hbecame, mem_difference,
    or_and_right, exists_or, exists_exists_and_eq_and, saysRequired_added, saysRequired_became,
    not_saysRequired_noLonger, and_false, exists_false, or_false]
  simp only [and_assoc]

/-- The agent goes through every schema that the diff goes through, and the diff goes through such
a schema exactly when both are objects. -/
theorem diffSchemas_ok_iff {name : String} {old new : Json} {d : AgentDiff}
    (h : agentSchemaDiff floatRepr name old new = .ok d) :
    (∃ d', diffSchemas floatRepr old new = .ok d') ↔ IsObject old = true ∧ IsObject new = true := by
  obtain ⟨oldRequired, hold, h⟩ := bind_eq_ok.mp h
  obtain ⟨newRequired, hnew, h⟩ := bind_eq_ok.mp h
  obtain ⟨c, hc, -⟩ := bind_eq_ok.mp h
  constructor
  · rintro ⟨d', h'⟩
    obtain ⟨_, hold', h'⟩ := bind_eq_ok.mp h'
    obtain ⟨_, hnew', -⟩ := bind_eq_ok.mp h'
    have hobject : ∀ {schema : Json} {s : List Key}, requiredUnguarded schema = .ok s →
        IsObject schema = true := by
      intro schema s hs
      by_contra hno
      rw [requiredUnguarded, if_neg hno] at hs
      cases hs
    exact ⟨hobject hold', hobject hnew'⟩
  · rintro ⟨ho, hn⟩
    rw [requiredGuarded, if_pos ho] at hold
    rw [requiredGuarded, if_pos hn] at hnew
    refine ⟨_, bind_eq_ok.mpr ⟨oldRequired, ?_, bind_eq_ok.mpr ⟨newRequired, ?_,
      bind_eq_ok.mpr ⟨c, hc, rfl⟩⟩⟩⟩
    · rw [requiredUnguarded, if_pos ho, hold]
    · rw [requiredUnguarded, if_pos hn, hnew]

/-! ### Two documents -/

section Documents

variable (old new : Json)

/-- Some schema of the old document is missing in the new one. -/
def SchemaRemoved : Prop :=
  ∃ name, name ∈ namesBeyond (extractSchema old) (extractSchema new)

/-- Some schema that both documents have satisfies a relation. -/
def SomeCommon (R : Json → Json → Prop) : Prop :=
  ∃ name ∈ commonNames (extractSchema old) (extractSchema new),
    R (schemaAt (extractSchema old) name) (schemaAt (extractSchema new) name)

/-- All schemas that both documents have satisfy a relation. -/
def AllCommon (R : Json → Json → Prop) : Prop :=
  ∀ name ∈ commonNames (extractSchema old) (extractSchema new),
    R (schemaAt (extractSchema old) name) (schemaAt (extractSchema new) name)

end Documents

theorem exists_mem_flatMap {α β : Type*} {f : α → List β} {l : List α} :
    (∃ b, b ∈ l.flatMap f) ↔ ∃ a ∈ l, ∃ b, b ∈ f a := by
  simp only [List.mem_flatMap]
  exact ⟨fun ⟨b, a, ha, hb⟩ => ⟨a, ha, b, hb⟩, fun ⟨a, ha, b, hb⟩ => ⟨b, a, ha, hb⟩⟩

theorem agent_breaking {old new : Json} {r : AgentDiff}
    (h : ContractReviewAgent.diffOpenapiDocuments floatRepr old new = .ok r) :
    r.breaking = true ↔ SchemaRemoved old new ∨ SomeCommon old new fun o n =>
      FieldRemoved o n ∨ TypeChanged o n ∨ ∃ k, NewlyRequired o n k := by
  obtain ⟨diffs, hdiffs, h⟩ := bind_eq_ok.mp h
  rw [← Except.ok.inj h, AgentDiff.breaking, Bool.not_eq_true', List.isEmpty_eq_false_iff_exists_mem]
  simp only [List.mem_append, exists_or, exists_mem_map, exists_mem_flatMap]
  exact or_congr_right (exists_result_iff hdiffs fun name _ d hd => agentSchemaDiff_breaking hd)

theorem someCommon_or {old new : Json} {R R' : Json → Json → Prop} :
    (SomeCommon old new fun o n => R o n ∨ R' o n) ↔ SomeCommon old new R ∨ SomeCommon old new R' := by
  simp only [SomeCommon, and_or_left, exists_or]

theorem openapiDiff_breaking {old new : Json} {r : Classified}
    (h : OpenapiDiff.diffOpenapiDocuments floatRepr old new = .ok r) :
    r.breaking = true ↔ SchemaRemoved old new ∨ SomeCommon old new fun o n =>
      FieldRemoved o n ∨ TypeChanged o n ∨
        ∃ k, NewlyRequired o n k ∧ contains "no longer" (k.text floatRepr) = false := by
  obtain ⟨diffs, hdiffs, h⟩ := bind_eq_ok.mp h
  have hremoved : (∃ d ∈ diffs, ∃ item, item ∈ d.removedFields) ↔ SomeCommon old new FieldRemoved :=
    exists_result_iff hdiffs fun name _ d hd => (diffSchemas_breaking hd).1
  have hchanged : (∃ d ∈ diffs, ∃ item, item ∈ d.typeChanges) ↔ SomeCommon old new TypeChanged :=
    exists_result_iff hdiffs fun name _ d hd => (diffSchemas_breaking hd).2.1
  have hrequired : (∃ d ∈ diffs, ∃ item ∈ d.requiredChanges, SaysRequired item) ↔
      SomeCommon old new fun o n => ∃ k, NewlyRequired o n k ∧
        contains "no longer" (k.text floatRepr) = false :=
    exists_result_iff hdiffs fun name _ d hd => (diffSchemas_breaking hd).2.2
  have hsays : (∃ item ∈ diffs.flatMap SchemaDiff.requiredChanges, SaysRequired item) ↔
      ∃ d ∈ diffs, ∃ item ∈ d.requiredChanges, SaysRequired item := by
    simp only [List.mem_flatMap]
    exact ⟨fun ⟨item, ⟨d, hd, hi⟩, hs⟩ => ⟨d, hd, item, hi, hs⟩,
      fun ⟨d, hd, item, hi, hs⟩ => ⟨item, ⟨d, hd, hi⟩, hs⟩⟩
  rw [← Except.ok.inj h, classifyDiff_breaking]
  simp only [List.mem_append, exists_or, exists_mem_map, exists_mem_flatMap, hremoved, hchanged,
    hsays, hrequired, someCommon_or, or_assoc]
  rfl

theorem openapiDiff_ok_iff {old new : Json} {r : AgentDiff}
    (h : ContractReviewAgent.diffOpenapiDocuments floatRepr old new = .ok r) :
    (∃ r', OpenapiDiff.diffOpenapiDocuments floatRepr old new = .ok r') ↔
      AllCommon old new fun o n => IsObject o = true ∧ IsObject n = true := by
  obtain ⟨diffs, hdiffs, -⟩ := bind_eq_ok.mp h
  have hagent := exists_mapM_eq_ok.mp ⟨diffs, hdiffs⟩
  have hloop : (∃ ds, (commonNames (extractSchema old) (extractSchema new)).mapM
      (fun name => diffSchemas floatRepr (schemaAt (extractSchema old) name)
        (schemaAt (extractSchema new) name)) = .ok ds) ↔
      AllCommon old new fun o n => IsObject o = true ∧ IsObject n = true := by
    rw [exists_mapM_eq_ok]
    refine forall₂_congr fun name hname => ?_
    obtain ⟨d, hd⟩ := hagent name hname
    exact diffSchemas_ok_iff hd
  rw [← hloop]
  constructor
  · rintro ⟨r', h'⟩
    obtain ⟨ds, hds, -⟩ := bind_eq_ok.mp h'
    exact ⟨ds, hds⟩
  · rintro ⟨ds, hds⟩
    exact ⟨_, bind_eq_ok.mpr ⟨ds, hds, rfl⟩⟩

/-- Two verdicts that share a part, where what is left of the first is within that of the second. -/
theorem or_iff_or_iff {P V N : Prop} (h : V → N) : ((P ∨ V) ↔ (P ∨ N)) ↔ (P ∨ V) ∨ ¬N := by
  by_cases hP : P
  · simp [hP]
  · by_cases hV : V
    · simp [hP, hV, h hV]
    · simp [hP, hV]

/-- **When the two checks agree.** Where the agent returns, the diff returns with the same verdict
if and only if all schemas the documents share are objects, and either something breaks other than
by a newly required field whose text has "no longer", or no field is newly required. -/
theorem checks_agree_iff {old new : Json} {r : AgentDiff}
    (h : ContractReviewAgent.diffOpenapiDocuments floatRepr old new = .ok r) :
    (∃ r', OpenapiDiff.diffOpenapiDocuments floatRepr old new = .ok r' ∧ r'.breaking = r.breaking) ↔
      (AllCommon old new fun o n => IsObject o = true ∧ IsObject n = true) ∧
      ((SchemaRemoved old new ∨ SomeCommon old new fun o n => FieldRemoved o n ∨ TypeChanged o n ∨
          ∃ k, NewlyRequired o n k ∧ contains "no longer" (k.text floatRepr) = false) ∨
        AllCommon old new fun o n => ∀ k, ¬NewlyRequired o n k) := by
  have hagent := agent_breaking h
  rw [← openapiDiff_ok_iff h]
  -- without a newly required field the two verdicts are about the same changes
  have hnone : (AllCommon old new fun o n => ∀ k, ¬NewlyRequired o n k) ↔
      ¬SomeCommon old new fun o n => ∃ k, NewlyRequired o n k := by
    simp [AllCommon, SomeCommon]
  have hsome : (SomeCommon old new fun o n => ∃ k, NewlyRequired o n k ∧
      contains "no longer" (k.text floatRepr) = false) →
      SomeCommon old new fun o n => ∃ k, NewlyRequired o n k := by
    rintro ⟨name, hname, k, hk, -⟩
    exact ⟨name, hname, k, hk⟩
  have hverdict : ∀ r', OpenapiDiff.diffOpenapiDocuments floatRepr old new = .ok r' →
      (r'.breaking = r.breaking ↔ (SchemaRemoved old new ∨ SomeCommon old new fun o n =>
        FieldRemoved o n ∨ TypeChanged o n ∨
          ∃ k, NewlyRequired o n k ∧ contains "no longer" (k.text floatRepr) = false) ∨
        AllCommon old new fun o n => ∀ k, ¬NewlyRequired o n k) := by
    intro r' h'
    rw [Bool.eq_iff_iff, hagent, openapiDiff_breaking h', hnone]
    simp only [someCommon_or, ← or_assoc]
    exact or_iff_or_iff hsome
  constructor
  · rintro ⟨r', h', heq⟩
    exact ⟨⟨r', h'⟩, (hverdict r' h').mp heq⟩
  · rintro ⟨⟨r', h'⟩, hcond⟩
    exact ⟨r', h', (hverdict r' h').mpr hcond⟩

end Scripts

/-! ### Samples -/

/-- A document with one schema. -/
def sampleDocument (schema : Json) : Json :=
  .obj [("components", .obj [("schemas", .obj [("A", schema)])])]

/-- A schema with one field of a type. -/
def sampleSchema (type : String) : Json :=
  .obj [("properties", .obj [("id", .obj [("type", .str type)])])]

/-- The text of no float occurs in the samples. -/
def sampleFloatRepr (_ : ℚ) : String := "0.0"

/-- Both find that a field with another type breaks. -/
theorem checks_agree_type_changed : ∃ r', OpenapiDiff.diffOpenapiDocuments sampleFloatRepr
    (sampleDocument (sampleSchema "integer")) (sampleDocument (sampleSchema "string")) = .ok r' ∧
      r'.breaking = true := by
  have hagent : ∃ r, ContractReviewAgent.diffOpenapiDocuments sampleFloatRepr
      (sampleDocument (sampleSchema "integer")) (sampleDocument (sampleSchema "string")) = .ok r ∧
        r.breaking = true := ⟨_, rfl, by decide⟩
  obtain ⟨r, hr, hbreaking⟩ := hagent
  have hagree := (checks_agree_iff hr).mpr ⟨by unfold AllCommon; decide, .inl (.inr ?_)⟩
  · rwa [hbreaking] at hagree
  · exact ⟨"A", by decide, .inr (.inl ⟨.str "id", by decide, _, rfl⟩)⟩

/-- A schema that is null is skipped by the agent and raises in the diff. -/
theorem null_schema_raises : ¬∀ (floatRepr : ℚ → String) (old new : Json) (r : AgentDiff),
    ContractReviewAgent.diffOpenapiDocuments floatRepr old new = .ok r →
    ∃ r', OpenapiDiff.diffOpenapiDocuments floatRepr old new = .ok r' ∧ r'.breaking = r.breaking := by
  intro h
  obtain ⟨r', hr', -⟩ := h sampleFloatRepr (sampleDocument .null) (sampleDocument .null) _ rfl
  cases hr'

/-- A required field named "no longer used" is breaking for the agent alone. -/
example : ((ContractReviewAgent.diffOpenapiDocuments sampleFloatRepr (sampleDocument (.obj []))
      (sampleDocument (.obj [("required", .arr [.str "no longer used"])]))).map AgentDiff.breaking,
    (OpenapiDiff.diffOpenapiDocuments sampleFloatRepr (sampleDocument (.obj []))
      (sampleDocument (.obj [("required", .arr [.str "no longer used"])]))).map
        Classified.breaking) = (.ok true, .ok false) := by
  decide

end Driftgate.Scripts
