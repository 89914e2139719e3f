import Driftgate.Monitor.Profile
import Driftgate.Runtime.Fingerprint

/-!
# The schema hash

`stable_schema_hash` hashes the text of a projection of the nodes, sorted by path. The text can be
read back, so a hash without collisions is the same for two node lists exactly when their
projections are: for lists with distinct paths, when they have the same entries
(`stableSchemaHash_faithful`), and for two inferred schemas, when the observations of every path have
the same profile (`stableSchemaHash_eq_iff`).
-/

namespace Driftgate.Monitor

open Driftgate.Lib Driftgate.Schema
open Driftgate.Runtime (dumpsString dumpsString_readsBack toList_dumpsString)

/-! ### The text -/

def dumpsBool (b : Bool) : String := if b then "true" else "false"

def dumpsOption {α : Type*} (dumps : α → String) : Option α → String
  | none => "null"
  | some a => dumps a

def dumpsStrings (l : List String) : String := "[" ++ ",".intercalate (l.map dumpsString) ++ "]"

/-- A member of a dictionary, without blanks. -/
def dumpsField (key value : String) : String := dumpsString key ++ ":" ++ value

/-- `_structural_projection` of a node as text; `sort_keys` puts its six fields in this order. -/
def dumpsProjection (node : SchemaNode) : String :=
  "\x7b" ++ ",".intercalate [
    dumpsField "array_item_type" (dumpsOption (dumpsString ∘ JsonType.name) node.arrayItemType),
    dumpsField "enum_values" (dumpsOption dumpsStrings node.enumValues),
    dumpsField "nullable" (dumpsBool node.nullable),
    dumpsField "path" (dumpsString node.path),
    dumpsField "required" (dumpsBool node.required),
    dumpsField "type" (dumpsString node.type.name)] ++ "\x7d"

/-- `canonical`. -/
def canonicalText (nodes : List SchemaNode) : String :=
  "[" ++ ",".intercalate ((sortByPath nodes).map dumpsProjection) ++ "]"

/-- `stable_schema_hash`. -/
def stableSchemaHash (sha256 : String → String) (nodes : List SchemaNode) : String :=
  sha256 (canonicalText nodes)

/-! ### Reading it back -/

theorem JsonType.name_injective : Function.Injective JsonType.name := by
  intro t u h
  cases t <;> cases u <;> first | rfl | exact absurd h (by decide)

theorem dumpsName_readsBack (t : JsonType) :
    ReadsBack id (fun t : JsonType => (dumpsString t.name).toList) t :=
  ((dumpsString_readsBack t.name).comp (g := JsonType.name)).mono fun _ h =>
    JsonType.name_injective h

theorem dumpsBool_readsBack (b : Bool) : ReadsBack id (fun b => (dumpsBool b).toList) b := by
  intro c x y h
  cases b <;> cases c
  · exact ⟨rfl, List.append_cancel_left h⟩
  · exact absurd (List.cons.inj h).1 (by decide)
  · exact absurd (List.cons.inj h).1 (by decide)
  · exact ⟨rfl, List.append_cancel_left h⟩

theorem dumpsString_head (c : Char) (h : '"' ≠ c) : AvoidsHead c fun s => (dumpsString s).toList :=
  fun s => ⟨'"', _, toList_dumpsString s, h⟩

theorem toList_dumpsStrings (l : List String) :
    (dumpsStrings l).toList = '[' :: sepBy ',' ']' (fun s => (dumpsString s).toList) l := by
  rw [dumpsStrings, sepBy, String.toList_append, String.toList_append, String.toList_intercalate,
    List.map_map]
  rfl

theorem dumpsStrings_readsBack (l : List String) :
    ReadsBack id (fun l => (dumpsStrings l).toList) l := by
  have h := (ReadsBack.sepBy (show ',' ≠ ']' by decide) (dumpsString_head ']' (by decide))
    (fun s _ => dumpsString_readsBack s) (l := l)).cons '['
  intro l' x y he
  simp only [toList_dumpsStrings] at he
  obtain ⟨heq, hxy⟩ := h l' x y he
  exact ⟨by simpa using heq, hxy⟩

theorem toList_dumpsOption {α : Type*} (dumps : α → String) (o : Option α) :
    (dumpsOption dumps o).toList = optionCode "null".toList (fun a => (dumps a).toList) o := by
  cases o <;> rfl

/-- What the text of a node tells. -/
def SchemaNode.fields (node : SchemaNode) :
    Option JsonType × Option (List String) × Bool × String × Bool × JsonType :=
  (node.arrayItemType, node.enumValues, node.nullable, node.path, node.required, node.type)

/-- The text in front of a value. -/
def keyText (key : String) : List Char := (dumpsString key ++ ":").toList

theorem toList_dumpsField (key value : String) :
    (dumpsField key value).toList = keyText key ++ value.toList := by
  rw [dumpsField, String.toList_append, keyText]

/-- The text of a node, field by field. -/
theorem toList_dumpsProjection (node : SchemaNode) : (dumpsProjection node).toList =
    '\x7b' :: (keyText "array_item_type" ++
        optionCode "null".toList (fun t => (dumpsString (JsonType.name t)).toList)
          node.fields.1 ++ ',' ::
      (keyText "enum_values" ++
          optionCode "null".toList (fun l => (dumpsStrings l).toList) node.fields.2.1 ++ ',' ::
        (keyText "nullable" ++ (dumpsBool node.fields.2.2.1).toList ++ ',' ::
          (keyText "path" ++ (dumpsString node.fields.2.2.2.1).toList ++ ',' ::
            (keyText "required" ++ (dumpsBool node.fields.2.2.2.2.1).toList ++ ',' ::
              (keyText "type" ++ (dumpsString node.fields.2.2.2.2.2.name).toList ++
                ['\x7d'])))))) := by
  rw [dumpsProjection, String.toList_append, String.toList_append, String.toList_intercalate]
  simp only [List.map_cons, List.map_nil, toList_dumpsField, toList_dumpsOption, SchemaNode.fields,
    List.intercalate, List.intersperse, List.flatten_cons, List.flatten_nil, List.append_nil,
    List.append_assoc, Function.comp_def]
  rfl

theorem dumpsProjection_readsBack (node : SchemaNode) :
    ReadsBack SchemaNode.fields (fun node => (dumpsProjection node).toList) node := by
  have hitem := (ReadsBack.option (c := 'n') "ull".toList
    (fun t : JsonType => dumpsString_head 'n' (by decide) t.name)
    (fun t _ => dumpsName_readsBack t) (o := node.arrayItemType)).lead (keyText "array_item_type")
  have henum := (ReadsBack.option (c := 'n') "ull".toList
    (fun l => ⟨'[', _, toList_dumpsStrings l, by decide⟩)
    (fun l _ => dumpsStrings_readsBack l) (o := node.enumValues)).lead (keyText "enum_values")
  have hnull := (dumpsBool_readsBack node.nullable).lead (keyText "nullable")
  have hpath := (dumpsString_readsBack node.path).lead (keyText "path")
  have hreq := (dumpsBool_readsBack node.required).lead (keyText "required")
  have htype := ((dumpsName_readsBack node.type).lead (keyText "type")).trail ['\x7d']
  have hall := (hitem.pair (henum.pair (hnull.pair (hpath.pair (hreq.pair htype ',') ',') ',') ',')
    ',').cons '\x7b'
  intro node' x y he
  simp only [toList_dumpsProjection] at he
  obtain ⟨heq, hxy⟩ := hall node'.fields x y he
  refine ⟨?_, hxy⟩
  simpa [SchemaNode.fields, Prod.ext_iff] using heq

/-- `_structural_projection`: the path and what else is hashed of a node. -/
def SchemaNode.entry (node : SchemaNode) : String × Profile := (node.path, node.profile)

theorem SchemaNode.entry_eq_iff {node node' : SchemaNode} :
    node.entry = node'.entry ↔ node.fields = node'.fields := by
  simp only [entry, profile, fields, Prod.mk.injEq, Profile.mk.injEq]
  tauto

/-- **The text of a node list can be read back.** -/
theorem canonicalText_eq_iff {nodes nodes' : List SchemaNode} :
    canonicalText nodes = canonicalText nodes' ↔
      (sortByPath nodes).map SchemaNode.entry = (sortByPath nodes').map SchemaNode.entry := by
  have htext : ∀ nodes : List SchemaNode, (canonicalText nodes).toList =
      '[' :: sepBy ',' ']' (fun n => (dumpsProjection n).toList) (sortByPath nodes) := by
    intro nodes
    rw [canonicalText, sepBy, String.toList_append, String.toList_append,
      String.toList_intercalate, List.map_map]
    rfl
  have hhead : AvoidsHead ']' fun n => (dumpsProjection n).toList :=
    fun n => ⟨'\x7b', _, toList_dumpsProjection n, by decide⟩
  have hnode : ∀ n, ReadsBack SchemaNode.entry (fun n => (dumpsProjection n).toList) n := fun n =>
    (dumpsProjection_readsBack n).mono fun _ h => SchemaNode.entry_eq_iff.mpr h
  constructor
  · intro h
    have h := congrArg String.toList h
    rw [htext, htext] at h
    exact ((ReadsBack.sepBy (show ',' ≠ ']' by decide) hhead fun n _ => hnode n).cons '[').eq h
  · intro h
    -- the text of a node is a function of its entry
    have hfactor : ∀ nodes : List SchemaNode, nodes.map dumpsProjection =
        (nodes.map SchemaNode.entry).map fun e => dumpsProjection ⟨e.1, e.2.type, e.2.required,
          e.2.nullable, e.2.arrayItemType, e.2.enumValues, none⟩ := by
      intro nodes
      rw [List.map_map]
      rfl
    rw [canonicalText, canonicalText, hfactor, hfactor, h]

/-! ### Node lists -/

theorem map_entry_sortByPath (nodes : List SchemaNode) :
    (sortByPath nodes).map SchemaNode.entry = sortByKey (nodes.map SchemaNode.entry) := by
  refine List.map_insertionSort _ _ _ nodes ?_
  exact fun a _ b _ => Iff.rfl

/-- **The hash is a faithful identity.** Two node lists, each with distinct paths, have one hash
exactly when they have the same entries, in whatever order and with whatever examples. -/
theorem stableSchemaHash_faithful {sha256 : String → String} (hsha : Function.Injective sha256)
    {a b : List SchemaNode} (ha : (a.map SchemaNode.path).Nodup)
    (hb : (b.map SchemaNode.path).Nodup) :
    stableSchemaHash sha256 a = stableSchemaHash sha256 b ↔
      {e | ∃ node ∈ a, node.entry = e} = {e | ∃ node ∈ b, node.entry = e} := by
  have hkeys : ∀ {l : List SchemaNode}, (l.map SchemaNode.path).Nodup →
      ((l.map SchemaNode.entry).map Prod.fst).Nodup := by
    intro l hl
    rwa [List.map_map]
  have hset : {e | ∃ node ∈ a, node.entry = e} = {e | ∃ node ∈ b, node.entry = e} ↔
      ∀ e, e ∈ a.map SchemaNode.entry ↔ e ∈ b.map SchemaNode.entry := by
    simp only [Set.ext_iff, Set.mem_ofPred_eq, List.mem_map]
  have hhash : stableSchemaHash sha256 a = stableSchemaHash sha256 b ↔
      canonicalText a = canonicalText b := hsha.eq_iff
  rw [hset, hhash, canonicalText_eq_iff, map_entry_sortByPath, map_entry_sortByPath]
  constructor
  · intro h e
    rw [← mem_sortByKey, h, mem_sortByKey]
  · intro h
    have hperm : (a.map SchemaNode.entry).Perm (b.map SchemaNode.entry) :=
      (List.perm_ext_iff_of_nodup (hkeys ha).of_map (hkeys hb).of_map).mpr h
    exact sortByKey_eq_of_perm (hkeys ha) hperm

/-- An enumeration at `a` and nullable integers at `b`, with an example. -/
def sampleNodes (example? : Option Json) : List SchemaNode :=
  [⟨"b", .integer, true, true, none, none, example?⟩,
    ⟨"a", .string, true, false, none, some ["x"], none⟩]

/-- A hash without collisions that is SHA-256 on the text of these nodes. -/
def nodesSha256 : String → String :=
  Equiv.swap
    ("[\x7b\"array_item_type\":null,\"enum_values\":[\"x\"],\"nullable\":false,\"path\":\"a\"," ++
      "\"required\":true,\"type\":\"string\"\x7d,\x7b\"array_item_type\":null,\"enum_values\":null," ++
      "\"nullable\":true,\"path\":\"b\",\"required\":true,\"type\":\"integer\"\x7d]")
    "18fde227dd36eef4a03e8a6130c33a0fafbb234cfc8274a2713226bcf5fceb3a"

/-- Neither the order nor the example is hashed; without the node of `b` the hash is another. -/
theorem stableSchemaHash_faithful_nodes :
    stableSchemaHash nodesSha256 (sampleNodes none) =
      "18fde227dd36eef4a03e8a6130c33a0fafbb234cfc8274a2713226bcf5fceb3a" ∧
    stableSchemaHash nodesSha256 (sampleNodes none) =
      stableSchemaHash nodesSha256 (sampleNodes (some (.int 5))).reverse ∧
    stableSchemaHash nodesSha256 (sampleNodes none) ≠
      stableSchemaHash nodesSha256 (sampleNodes none).tail := by
  have hsha : Function.Injective nodesSha256 := Equiv.injective _
  have hnodup : ∀ example?, ((sampleNodes example?).map SchemaNode.path).Nodup := by
    intro example?
    show ["b", "a"].Nodup
    decide
  refine ⟨by decide +kernel, ?_, fun h => ?_⟩
  · refine (stableSchemaHash_faithful hsha (hnodup none) ?_).mpr ?_
    · rw [List.map_reverse, List.nodup_reverse]
      exact hnodup _
    · ext e
      simp [sampleNodes, SchemaNode.entry, SchemaNode.profile, or_comm]
  · have hset := (stableSchemaHash_faithful hsha (hnodup none) (hnodup none).of_cons).mp h
    have hb : ("b", ⟨.integer, true, true, none, none⟩) ∈
        {e | ∃ node ∈ (sampleNodes none).tail, node.entry = e} :=
      hset ▸ ⟨_, List.mem_cons_self, rfl⟩
    simp [sampleNodes, SchemaNode.entry] at hb

/-! ### Inferred schemas -/

/-- What the observations of a path amount to. -/
def profileAt (v : Json) (path : String) : Option Profile := profileOf (observationsOf path (observe v))

theorem entries_walk (v : Json) : (inferSchema v).map SchemaNode.entry =
    sortByKey ((walk v "" []).map fun e => (e.1, (finalize "" e.2).profile)) := by
  rw [inferSchema, map_entry_sortByPath, List.map_map]
  rfl

/-- The entries of an inferred schema are sorted and have the profiles of its paths. -/
theorem inferSchema_entries (v : Json) : KeysSorted ((inferSchema v).map SchemaNode.entry) ∧
    ∀ path, ((inferSchema v).map SchemaNode.entry).lookup path = profileAt v path := by
  have hnodup : (((walk v "" []).map fun e => (e.1, (finalize "" e.2).profile)).map
      Prod.fst).Nodup := by
    simpa [List.map_map, Function.comp_def] using nodup_keys_walk v
  rw [entries_walk]
  refine ⟨sortByKey_keysSorted hnodup, fun path => ?_⟩
  rw [lookup_sortByKey hnodup, lookup_map_snd fun state => (finalize "" state).profile]
  exact profile_lookup v path

/-- Inferred schemas have one text when every path has one profile. -/
theorem canonicalText_inferSchema_eq_iff {v w : Json} :
    canonicalText (inferSchema v) = canonicalText (inferSchema w) ↔
      ∀ path, profileAt v path = profileAt w path := by
  obtain ⟨hv, hvl⟩ := inferSchema_entries v
  obtain ⟨hw, hwl⟩ := inferSchema_entries w
  rw [canonicalText_eq_iff, map_entry_sortByPath, map_entry_sortByPath, sortByKey_of_keysSorted hv,
    sortByKey_of_keysSorted hw]
  constructor
  · intro h path
    rw [← hvl, ← hwl, h]
  · intro h
    refine eq_of_lookup_eq hv hw fun path => ?_
    rw [hvl, hwl, h]

/-- **What the hash tells.** -/
theorem stableSchemaHash_eq_iff {sha256 : String → String} (hsha : Function.Injective sha256)
    {v w : Json} : stableSchemaHash sha256 (inferSchema v) = stableSchemaHash sha256 (inferSchema w) ↔
      ∀ path, profileAt v path = profileAt w path :=
  hsha.eq_iff.trans canonicalText_inferSchema_eq_iff

end Driftgate.Monitor
