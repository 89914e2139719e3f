import Driftgate.Monitor.SchemaInfer

/-!
# What a walk observes

The walk of `infer_schema` reads a body and writes accumulators, and the two can be separated:
`observe` lists what the walk comes across, in order, each observation with its path string, and
inference records the observations one after the other (`walk_eq_record`). The accumulator of a path
is a fold over the observations of that path alone.

Of that fold only two fields depend on the order. `Profile` is the closed form
(`profile_lookup`): nulls, missing keys and texts count wherever they stand, the item type is that
of the last list, and the type is settled by the first observation and the types of the scalars.
-/

namespace Driftgate.Monitor

open Driftgate.Lib Driftgate.Schema

/-! ### Observations -/

/-- What the walk comes across at a path. -/
inductive Observation
  | object
  | array
  /-- the item type of a list -/
  | itemType (type : JsonType)
  /-- a scalar or null -/
  | value (v : Json)
  /-- a key that not all objects of a list have -/
  | optional

abbrev Observations := List (String × Observation)

/-- The keys that not all items have. -/
def observeOptional (items : List Json) (itemPath : String) : Observations :=
  ((keysSeen items).filter fun e => e.2 < items.length).map fun e =>
    (joinPath itemPath e.1, .optional)

def observeList (items : List Json) (parentPath : String)
    (observeObjects observeItems : String → Observations) : Observations :=
  let path := if parentPath = "" then "[*]" else parentPath
  (path, .array) ::
    if items.isEmpty then [(path, .itemType .unknown)]
    else
      let itemPath := arrayPath parentPath
      if items.all isDict then
        (path, .itemType .object) :: (observeObjects itemPath ++ observeOptional items itemPath)
      else observeItems itemPath ++ [(path, .itemType (itemTypeOf items))]

def observeEnter (parentPath : String) : Observations :=
  if parentPath = "" then [] else [(parentPath, .object)]

mutual

def observeValue : Json → String → Observations
  | .obj members, path =>
    (path, .object) :: (observeEnter path ++ observeMembers members path)
  | .arr items, path => observeList items path (observeObjects items) (observeItems items)
  | v, path => [(path, .value v)]

def observeMembers : List (String × Json) → String → Observations
  | [], _ => []
  | (key, v) :: members, parentPath =>
    observeValue v (joinPath parentPath key) ++ observeMembers members parentPath

def observeObjects : List Json → String → Observations
  | [], _ => []
  | .obj members :: items, itemPath => observeMembers members itemPath ++ observeObjects items itemPath
  | _ :: items, itemPath => observeObjects items itemPath

def observeItems : List Json → String → Observations
  | [], _ => []
  | v :: items, itemPath => observeValue v itemPath ++ observeItems items itemPath

end

/-- What `infer_schema` comes across in a body. -/
def observe : Json → Observations
  | .obj members => observeMembers members ""
  | .arr items => observeValue (.arr items) ""
  | v => [("[root]", .value v)]

/-! ### Recording -/

def record (states : States) (e : String × Observation) : States :=
  match e.2 with
  | .object => ensure e.1 .object states
  | .array => ensure e.1 .array states
  | .itemType type => setItemType e.1 type states
  | .value v => emitScalar e.1 v states
  | .optional => markOptional e.1 states

theorem foldl_observeOptional (items : List Json) (itemPath : String) (states : States) :
    (observeOptional items itemPath).foldl record states =
      (keysSeen items).foldl (fun states e => if e.2 < items.length then
        markOptional (joinPath itemPath e.1) states else states) states := by
  rw [observeOptional, List.foldl_map, List.foldl_filter]
  congr
  funext states e
  by_cases h : e.2 < items.length <;> simp [h, record]

theorem walkList_eq {items : List Json} {emitObjects' emitItems' : String → States → States}
    {observeObjects' observeItems' : String → Observations}
    (hobjects : ∀ path states,
      emitObjects' path states = (observeObjects' path).foldl record states)
    (hitems : ∀ path states, emitItems' path states = (observeItems' path).foldl record states)
    (parentPath : String) (states : States) :
    walkList items parentPath emitObjects' emitItems' states =
      (observeList items parentPath observeObjects' observeItems').foldl record states := by
  simp only [walkList, observeList, List.foldl_cons]
  split
  · rfl
  · split
    · rw [List.foldl_cons, List.foldl_append, foldl_observeOptional, ← hobjects]
      rfl
    · rw [List.foldl_append, ← hitems]
      rfl

theorem foldl_observeEnter (parentPath : String) (states : States) :
    (observeEnter parentPath).foldl record states = enterObject parentPath states := by
  rw [observeEnter, enterObject]
  split <;> rfl

/-! The loops record what their bodies record. -/

theorem emitMembers_eq {members : List (String × Json)}
    (h : ∀ e ∈ members, ∀ path states,
      emitValue e.2 path states = (observeValue e.2 path).foldl record states)
    (parentPath : String) (states : States) :
    emitMembers members parentPath states =
      (observeMembers members parentPath).foldl record states := by
  induction members generalizing states with
  | nil => simp [emitMembers, observeMembers]
  | cons e members ih =>
    obtain ⟨key, v⟩ := e
    rw [List.forall_mem_cons] at h
    rw [emitMembers, observeMembers, List.foldl_append, ← h.1, ih h.2]

theorem emitItems_eq {items : List Json}
    (h : ∀ v ∈ items, ∀ path states,
      emitValue v path states = (observeValue v path).foldl record states)
    (itemPath : String) (states : States) :
    emitItems items itemPath states = (observeItems items itemPath).foldl record states := by
  induction items generalizing states with
  | nil => simp [emitItems, observeItems]
  | cons v items ih =>
    rw [List.forall_mem_cons] at h
    rw [emitItems, observeItems, List.foldl_append, ← h.1, ih h.2]

theorem emitObjects_eq {items : List Json}
    (h : ∀ v ∈ items, ∀ members, v = .obj members → ∀ path states,
      emitMembers members path states = (observeMembers members path).foldl record states)
    (itemPath : String) (states : States) :
    emitObjects items itemPath states = (observeObjects items itemPath).foldl record states := by
  induction items generalizing states with
  | nil => simp [emitObjects, observeObjects]
  | cons v items ih =>
    rw [List.forall_mem_cons] at h
    cases v with
    | obj members =>
      rw [emitObjects, observeObjects, List.foldl_append, ← h.1 members rfl, ih h.2]
    | _ => simpa [emitObjects, observeObjects] using ih h.2 states

/-- Emitting a value is recording its observations; so is the loop over the members of an object. -/
theorem emitValue_eq (v : Json) :
    (∀ path states, emitValue v path states = (observeValue v path).foldl record states) ∧
    (∀ members, v = .obj members → ∀ path states,
      emitMembers members path states = (observeMembers members path).foldl record states) := by
  induction v using Json.induction with
  | scalar v k hk =>
    refine ⟨fun path states => ?_, ?_⟩
    · cases v <;> simp_all [Json.kind, emitValue, observeValue, record]
    · rintro members rfl
      simp [Json.kind] at hk
  | arr items ih =>
    refine ⟨fun path states => ?_, ?_⟩
    · rw [emitValue, observeValue]
      exact walkList_eq (emitObjects_eq fun v hv => (ih v hv).2)
        (emitItems_eq fun v hv => (ih v hv).1) path states
    · intro members h
      cases h
  | obj members ih =>
    have hmembers := emitMembers_eq fun e he => (ih e he).1
    refine ⟨fun path states => ?_, ?_⟩
    · rw [emitValue, observeValue, List.foldl_cons, List.foldl_append, foldl_observeEnter, hmembers]
      rfl
    · rintro members' h path states
      obtain rfl : members = members' := Json.obj.inj h
      exact hmembers path states

/-- **Inference records what it observes.** -/
theorem walk_eq_record (v : Json) : walk v "" [] = (observe v).foldl record [] := by
  cases v with
  | obj members => exact (emitValue_eq (.obj members)).2 members rfl "" []
  | arr items =>
    have h := (emitValue_eq (.arr items)).1 "" []
    rwa [emitValue] at h
  | _ => rfl

/-! ### The accumulator of a path -/

/-- What an observation does to the accumulator of its path. -/
def after (state : Option NodeState) : Observation → Option NodeState
  | .object => some (state.getD (.new .object))
  | .array => some (state.getD (.new .array))
  | .itemType type => state.map fun s => { s with arrayItemType := some type }
  | .value v =>
    let s := state.getD (.new (scalarType v))
    some (if scalarType v = .null then { s with nullable := true }
      else s.addScalar (scalarType v) v)
  | .optional => state.map fun s => { s with required := false }

theorem lookup_record (states : States) (path : String) (o : Observation) (k : String) :
    (record states (path, o)).lookup k =
      if k = path then after (states.lookup path) o else states.lookup k := by
  cases o with
  | object => exact lookup_ensureKey path k _ states
  | array => exact lookup_ensureKey path k _ states
  | itemType type => simp only [record, setItemType, lookup_modifyKey, after]
  | optional => simp only [record, markOptional, lookup_modifyKey, after]
  | value v =>
    by_cases hv : scalarType v = .null
    · simp only [record, emitScalar, hv, ↓reduceIte, lookup_modifyKey, ensure, lookup_ensureKey,
        after, Option.map_some]
      split <;> rfl
    · simp only [record, emitScalar, hv, ↓reduceIte, lookup_modifyKey, ensure, lookup_ensureKey,
        after, Option.map_some]
      split <;> rfl

theorem lookup_walk (v : Json) (path : String) :
    (walk v "" []).lookup path = (observationsOf path (observe v)).foldl after none := by
  rw [walk_eq_record, lookup_foldl lookup_record]
  rfl

theorem nodup_keys_record {states : States} (h : (states.map Prod.fst).Nodup)
    (e : String × Observation) : ((record states e).map Prod.fst).Nodup := by
  obtain ⟨path, o⟩ := e
  cases o with
  | object => exact nodup_keys_ensureKey h
  | array => exact nodup_keys_ensureKey h
  | itemType type => simpa only [record, setItemType, keys_modifyKey] using h
  | optional => simpa only [record, markOptional, keys_modifyKey] using h
  | value v =>
    simp only [record, emitScalar]
    split
    · rw [keys_modifyKey]
      exact nodup_keys_ensureKey h
    · rw [keys_modifyKey]
      exact nodup_keys_ensureKey h

/-- Every path has one accumulator. -/
theorem nodup_keys_walk (v : Json) : ((walk v "" []).map Prod.fst).Nodup := by
  rw [walk_eq_record]
  exact List.foldlRecOn (motive := fun states : States => (states.map Prod.fst).Nodup) (observe v)
    record List.nodup_nil fun states h e _ => nodup_keys_record h e

/-! ### The first observation of a path -/

/-- The type of the accumulator that an observation makes. -/
def Observation.type? : Observation → Option JsonType
  | .object => some .object
  | .array => some .array
  | .value v => some (scalarType v)
  | .itemType _ => none
  | .optional => none

/-- The first observation of each path makes its accumulator. -/
def Founded (l : Observations) : Prop :=
  ∀ path o, (observationsOf path l).head? = some o → o.type?.isSome

theorem Founded.nil : Founded [] := by
  intro path o h
  simp [observationsOf] at h

theorem Founded.append {l l' : Observations} (h : Founded l) (h' : Founded l') :
    Founded (l ++ l') := by
  intro path o ho
  rw [observationsOf_append, List.head?_append, Option.or_eq_some_iff] at ho
  rcases ho with ho | ⟨-, ho⟩
  · exact h path o ho
  · exact h' path o ho

theorem Founded.single (path : String) {o : Observation} (h : o.type?.isSome) :
    Founded [(path, o)] := by
  intro path' o' ho
  by_cases hp : path = path'
  · subst hp
    rw [observationsOf_cons_self] at ho
    exact Option.some.inj ho ▸ h
  · rw [observationsOf_cons_ne hp] at ho
    exact Founded.nil path' o' ho

theorem observationsOf_ne_nil {l : Observations} {path : String} (h : path ∈ l.map Prod.fst) :
    observationsOf path l ≠ [] := by
  obtain ⟨e, he, rfl⟩ := List.mem_map.mp h
  refine List.ne_nil_of_mem (a := e.2) (List.mem_filterMap.mpr ⟨e, he, ?_⟩)
  exact if_pos rfl

/-- More about paths that have been seen. -/
theorem Founded.append_seen {l l' : Observations} (h : Founded l)
    (hseen : ∀ e ∈ l', e.1 ∈ l.map Prod.fst) : Founded (l ++ l') := by
  intro path o ho
  rw [observationsOf_append, List.head?_append] at ho
  by_cases hp : path ∈ l.map Prod.fst
  · obtain ⟨o', hhead⟩ := Option.ne_none_iff_exists'.mp
      (mt List.head?_eq_none_iff.mp (observationsOf_ne_nil hp))
    rw [hhead, Option.some_or] at ho
    exact h path o (ho ▸ hhead)
  · have hnil : observationsOf path l' = [] := by
      rw [observationsOf, List.filterMap_eq_nil_iff]
      intro e he
      have hne : e.1 ≠ path := fun heq => hp (heq ▸ hseen e he)
      simp [hne]
    rw [hnil, List.head?_nil, Option.or_none] at ho
    exact h path o ho

theorem joinPath_ne_empty {parent : String} (h : parent ≠ "") (key : String) :
    joinPath parent key ≠ "" := by
  rw [joinPath, if_neg h]
  intro he
  have hdot : toString "." = "" := by
    have h := he
    simp only [String.append_eq_empty_iff] at h
    exact h.1.2
  exact absurd hdot (by decide)

theorem arrayPath_ne_empty (parent : String) : arrayPath parent ≠ "" := by
  rw [arrayPath]
  split
  · decide
  · intro he
    have hstar : toString "[*]" = "" := by
      have h := he
      simp only [String.append_eq_empty_iff] at h
      exact h.2
    exact absurd hstar (by decide)

theorem mem_keys_observeValue {v : Json} {path : String} (h : path ≠ "") :
    path ∈ (observeValue v path).map Prod.fst := by
  cases v with
  | arr items => simp [observeValue, observeList, h]
  | _ => simp [observeValue]

/-- The member of an object is observed under its own path. -/
theorem mem_keys_observeMembers {members : List (String × Json)} {parentPath key : String}
    (h : parentPath ≠ "") (hkey : key ∈ members.map Prod.fst) :
    joinPath parentPath key ∈ (observeMembers members parentPath).map Prod.fst := by
  induction members with
  | nil => simp at hkey
  | cons e members ih =>
    obtain ⟨k, v⟩ := e
    rw [observeMembers, List.map_append, List.mem_append]
    rcases List.mem_cons.mp hkey with rfl | hkey
    · exact .inl (mem_keys_observeValue (joinPath_ne_empty h key))
    · exact .inr (ih hkey)

theorem mem_keys_observeObjects {items : List Json} {itemPath key : String} (h : itemPath ≠ "")
    (hkey : key ∈ items.flatMap keysOf) :
    joinPath itemPath key ∈ (observeObjects items itemPath).map Prod.fst := by
  induction items with
  | nil => simp at hkey
  | cons v items ih =>
    rw [List.flatMap_cons, List.mem_append] at hkey
    cases v with
    | obj members =>
      rw [observeObjects, List.map_append, List.mem_append]
      rcases hkey with hkey | hkey
      · exact .inl (mem_keys_observeMembers h hkey)
      · exact .inr (ih hkey)
    | _ => simpa [observeObjects] using ih (by simpa [keysOf] using hkey)

theorem founded_observeMembers {members : List (String × Json)}
    (h : ∀ e ∈ members, ∀ path, Founded (observeValue e.2 path)) (parentPath : String) :
    Founded (observeMembers members parentPath) := by
  induction members with
  | nil =>
    rw [observeMembers]
    exact .nil
  | cons e members ih =>
    obtain ⟨k, v⟩ := e
    rw [List.forall_mem_cons] at h
    rw [observeMembers]
    exact (h.1 _).append (ih h.2)

theorem founded_observeItems {items : List Json} (h : ∀ v ∈ items, ∀ path, Founded (observeValue v path))
    (itemPath : String) : Founded (observeItems items itemPath) := by
  induction items with
  | nil =>
    rw [observeItems]
    exact .nil
  | cons v items ih =>
    rw [List.forall_mem_cons] at h
    rw [observeItems]
    exact (h.1 _).append (ih h.2)

theorem founded_observeObjects {items : List Json}
    (h : ∀ v ∈ items, ∀ members, v = .obj members → ∀ path, Founded (observeMembers members path))
    (itemPath : String) : Founded (observeObjects items itemPath) := by
  induction items with
  | nil =>
    rw [observeObjects]
    exact .nil
  | cons v items ih =>
    rw [List.forall_mem_cons] at h
    cases v with
    | obj members =>
      rw [observeObjects]
      exact (h.1 members rfl _).append (ih h.2)
    | _ => simpa [observeObjects] using ih h.2

theorem founded_observeList {items : List Json} {objects each : String → Observations}
    (hobjects : ∀ path, Founded (objects path)) (heach : ∀ path, Founded (each path))
    (hkeys : ∀ path key, path ≠ "" → key ∈ items.flatMap keysOf →
      joinPath path key ∈ (objects path).map Prod.fst) (parentPath : String) :
    Founded (observeList items parentPath objects each) := by
  simp only [observeList]
  generalize (if parentPath = "" then "[*]" else parentPath) = path
  have hpath : Founded [(path, .array)] := .single path rfl
  have hseen : ∀ {o : Observation}, ∀ e ∈ [(path, o)], e.1 ∈ [(path, Observation.array)].map Prod.fst :=
    by simp
  by_cases hempty : items.isEmpty
  · rw [if_pos hempty]
    exact hpath.append_seen hseen
  · rw [if_neg hempty]
    by_cases hdict : items.all isDict
    · rw [if_pos hdict]
      have hoptional : Founded (objects (arrayPath parentPath) ++
          observeOptional items (arrayPath parentPath)) := by
        refine (hobjects _).append_seen fun e he => ?_
        simp only [observeOptional, keysSeen, List.mem_map, List.mem_filter] at he
        obtain ⟨e', ⟨⟨key, hkey, rfl⟩, -⟩, rfl⟩ := he
        exact hkeys _ key (arrayPath_ne_empty _) (List.mem_dedup.mp hkey)
      exact (hpath.append_seen hseen).append hoptional
    · rw [if_neg hdict]
      exact (hpath.append (heach _)).append_seen (by simp)

theorem founded_observeValue (v : Json) : (∀ path, Founded (observeValue v path)) ∧
    (∀ members, v = .obj members → ∀ path, Founded (observeMembers members path)) := by
  induction v using Json.induction with
  | scalar v k hk =>
    refine ⟨fun path => ?_, ?_⟩
    · have h : observeValue v path = [(path, .value v)] := by
        cases v <;> simp_all [Json.kind, observeValue]
      rw [h]
      exact .single path rfl
    · rintro members rfl
      simp [Json.kind] at hk
  | arr items ih =>
    refine ⟨fun path => ?_, ?_⟩
    · rw [observeValue]
      exact founded_observeList (founded_observeObjects fun v hv => (ih v hv).2)
        (founded_observeItems fun v hv => (ih v hv).1) (fun _ _ => mem_keys_observeObjects) path
    · intro members h
      cases h
  | obj members ih =>
    have hmembers := founded_observeMembers fun e he => (ih e he).1
    refine ⟨fun path => ?_, ?_⟩
    · rw [observeValue, observeEnter]
      have henter : Founded (if path = "" then [] else [(path, .object)]) := by
        split
        · exact .nil
        · exact .single path rfl
      exact (Founded.single path (o := .object) rfl).append (henter.append (hmembers path))
    · rintro members' h path
      obtain rfl : members = members' := Json.obj.inj h
      exact hmembers path

theorem founded_observe (v : Json) : Founded (observe v) := by
  cases v with
  | obj members => exact (founded_observeValue (.obj members)).2 members rfl ""
  | arr items => exact (founded_observeValue (.arr items)).1 ""
  | _ => exact .single _ rfl

end Driftgate.Monitor
