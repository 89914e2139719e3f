import Driftgate.Scripts.OpenapiDiff
import Mathlib.Data.List.Dedup

/-!
# The forms of a document

`_extract_schema` takes the named schemas of `components`, the member `schema`, or else the whole
document, and `diff_openapi_documents` reads what it returns as named schemas. That fits the first
form. In the others a single schema is returned, and its keywords are taken for names: `properties`
and `required` are compared as if they were schemas. The list under `required` has no `get`, so the
comparison of two such schemas always raises.
-/

namespace Driftgate.Scripts

open Driftgate.Lib Driftgate.Schema

/-! ### Documents of one schema -/

/-- A schema with an object under `properties` and a list under `required`. -/
structure ObjectSchema where
  members : List (String × Json)
  properties : List (String × Json)
  required : List Json
  properties_eq : members.lookup "properties" = some (.obj properties)
  required_eq : members.lookup "required" = some (.arr required)

/-- The schema as a document or as a part of one. -/
def ObjectSchema.json (schema : ObjectSchema) : Json := .obj schema.members

/-- What `_extract_schema` accepts. -/
inductive DocumentForm
  | components (name : String)
  | schema
  | bare

/-- The document of a schema. -/
def DocumentForm.document : DocumentForm → Json → Json
  | components name, s => .obj [("components", .obj [("schemas", .obj [(name, s)])])]
  | schema, s => .obj [("schema", s)]
  | bare, s => s

/-- All forms of the documents of two schemas are compared, with one verdict. -/
def ComparedAlike (floatRepr : ℚ → String) (old new : ObjectSchema) (name : String) : Prop :=
  ∃ breaking : Bool, ∀ form ∈ [DocumentForm.components name, .schema, .bare],
    ∃ r, OpenapiDiff.diffOpenapiDocuments floatRepr (form.document old.json)
      (form.document new.json) = .ok r ∧ r.breaking = breaking

/-! ### What is extracted -/

/-- The members of a schema under `schema`. -/
theorem extractSchema_schema (schema : ObjectSchema) :
    extractSchema (DocumentForm.document .schema schema.json) = schema.members := rfl

/-- The members of a schema that is the document, if it has none that the other forms are known
by. -/
theorem extractSchema_bare {schema : ObjectSchema}
    (hcomponents : schema.members.lookup "components" = none)
    (hschema : schema.members.lookup "schema" = none) :
    extractSchema (DocumentForm.document .bare schema.json) = schema.members := by
  show extractSchema (.obj schema.members) = _
  rw [extractSchema, hcomponents, hschema]
  rfl

theorem mem_commonNames {old new : List (String × Json)} {name : String} :
    name ∈ commonNames old new ↔ name ∈ old.map Prod.fst ∧ name ∈ new.map Prod.fst := by
  rw [commonNames, List.mem_insertionSort, List.mem_filter, List.mem_dedup, decide_eq_true_iff]

theorem mem_names_of_lookup {members : List (String × Json)} {name : String} {v : Json}
    (h : members.lookup name = some v) : name ∈ members.map Prod.fst := by
  by_contra hno
  have hnone : members.lookup name = none := by
    rw [List.lookup_eq_none_iff]
    intro e he
    rw [bne_iff_ne]
    intro heq
    exact hno (heq ▸ List.mem_map_of_mem he)
  rw [hnone] at h
  cases h

/-! ### The comparison of keywords -/

variable {floatRepr : ℚ → String}

/-- A list is no schema. -/
theorem diffSchemas_arr (items : List Json) (new : Json) :
    diffSchemas floatRepr (.arr items) new = .error .attributeError := rfl

/-- Where documents go through, so does the comparison of every name that they share. -/
theorem diffSchemas_ok_of_mem {old new : Json} {r : Classified}
    (h : OpenapiDiff.diffOpenapiDocuments floatRepr old new = .ok r) {name : String}
    (hname : name ∈ commonNames (extractSchema old) (extractSchema new)) :
    ∃ d, diffSchemas floatRepr (schemaAt (extractSchema old) name)
      (schemaAt (extractSchema new) name) = .ok d := by
  obtain ⟨diffs, hdiffs, -⟩ := bind_eq_ok.mp h
  exact exists_mapM_eq_ok.mp ⟨diffs, hdiffs⟩ name hname

/-- Two documents from which single schemas are extracted are not compared. -/
theorem diffOpenapiDocuments_keywords {old new : Json} {s t : ObjectSchema}
    (hs : extractSchema old = s.members) (ht : extractSchema new = t.members) (r : Classified) :
    OpenapiDiff.diffOpenapiDocuments floatRepr old new ≠ .ok r := by
  intro h
  have hname : "required" ∈ commonNames (extractSchema old) (extractSchema new) := by
    rw [hs, ht, mem_commonNames]
    exact ⟨mem_names_of_lookup s.required_eq, mem_names_of_lookup t.required_eq⟩
  obtain ⟨d, hd⟩ := diffSchemas_ok_of_mem h hname
  rw [hs, schemaAt, s.required_eq, Option.getD_some, diffSchemas_arr] at hd
  cases hd

/-- Of the documents that have a schema under `schema`, or are one, none are compared. -/
theorem single_schemas_raise {old new : ObjectSchema} {form : DocumentForm}
    (h : form = .schema ∨ form = .bare ∧ ∀ schema ∈ [old, new],
      schema.members.lookup "components" = none ∧ schema.members.lookup "schema" = none)
    (r : Classified) :
    OpenapiDiff.diffOpenapiDocuments floatRepr (form.document old.json) (form.document new.json) ≠
      .ok r := by
  obtain rfl | ⟨rfl, hplain⟩ := h
  · exact diffOpenapiDocuments_keywords (extractSchema_schema old) (extractSchema_schema new) r
  · have hold := hplain old List.mem_cons_self
    have hnew := hplain new (List.mem_cons_of_mem _ List.mem_cons_self)
    exact diffOpenapiDocuments_keywords (extractSchema_bare hold.1 hold.2)
      (extractSchema_bare hnew.1 hnew.2) r

/-- **The forms are never compared alike.** Whatever the schemas, the documents that have them under
`schema` raise. -/
theorem forms_never_compared_alike (floatRepr : ℚ → String) (old new : ObjectSchema)
    (name : String) : ¬ComparedAlike floatRepr old new name := by
  rintro ⟨breaking, hforms⟩
  obtain ⟨r, hr, -⟩ := hforms .schema (List.mem_cons_of_mem _ List.mem_cons_self)
  exact single_schemas_raise (.inl rfl) r hr

/-! ### The least schema -/

/-- No properties, nothing required. -/
def emptySchema : ObjectSchema where
  members := [("type", .str "object"), ("properties", .obj []), ("required", .arr [])]
  properties := []
  required := []
  properties_eq := rfl
  required_eq := rfl

/-- With the schema under `components` nothing breaks; under `schema` and alone it raises. -/
theorem emptySchema_raises : ¬∀ (floatRepr : ℚ → String) (old new : ObjectSchema) (name : String),
    ComparedAlike floatRepr old new name := by
  intro h
  obtain ⟨breaking, hforms⟩ := h sampleFloatRepr emptySchema emptySchema "Event"
  obtain ⟨r, hr, -⟩ := hforms .schema (List.mem_cons_of_mem _ List.mem_cons_self)
  have hraises : (OpenapiDiff.diffOpenapiDocuments sampleFloatRepr
      (DocumentForm.document .schema emptySchema.json)
      (DocumentForm.document .schema emptySchema.json)).toOption.isNone = true := by
    decide
  rw [hr] at hraises
  cases hraises

end Driftgate.Scripts
