import Driftgate.Monitor.Values

/-!
# Required keys

`infer_schema` counts how many items of a list of objects have a key, list by list, and only for the
keys of the items themselves. Objects that share a location without being items of one such list are
not compared: the objects under a key of the items, and the items of two lists.
-/

namespace Driftgate.Monitor

open Driftgate.Lib Driftgate.Schema

/-! ### Missing keys -/

/-- Some object at the location has the key, and another one lacks it. -/
def KeyMissing (body : Json) (location key : String) : Prop :=
  (∃ members, (location, .obj members) ∈ visited body ∧ key ∈ members.map Prod.fst) ∧
    ∃ members, (location, .obj members) ∈ visited body ∧ key ∉ members.map Prod.fst

/-- Some list of objects has an item with a key and one without it, where the key has this path. -/
def MissingInList (body : Json) (path : String) : Prop :=
  ∃ parent items key, (parent, .arr items) ∈ visited body ∧ items.all isDict = true ∧
    joinPath (arrayPath parent) key = path ∧ (∃ v ∈ items, key ∈ keysOf v) ∧
    ∃ v ∈ items, key ∉ keysOf v

/-! ### Counting keys -/

/-- As many items have a key as it is counted, and fewer than all if one lacks it. -/
theorem count_keys {items : List Json} (h : ∀ v ∈ items, (keysOf v).Nodup) (key : String) :
    (items.flatMap keysOf).count key ≤ items.length ∧
      ((items.flatMap keysOf).count key < items.length ↔ ∃ v ∈ items, key ∉ keysOf v) := by
  induction items with
  | nil => exact ⟨le_refl 0, iff_of_false (lt_irrefl 0) fun ⟨_, hv, _⟩ => List.not_mem_nil hv⟩
  | cons v items ih =>
    rw [List.forall_mem_cons] at h
    obtain ⟨hle, hlt⟩ := ih h.2
    rw [List.flatMap_cons, List.count_append, List.length_cons]
    by_cases hv : key ∈ keysOf v
    · rw [List.count_eq_one_of_mem h.1 hv]
      refine ⟨by omega, ?_⟩
      have hsame : (1 + (items.flatMap keysOf).count key < items.length + 1) ↔
          (items.flatMap keysOf).count key < items.length := by omega
      rw [hsame, hlt]
      constructor
      · rintro ⟨w, hw, hkey⟩
        exact ⟨w, List.mem_cons_of_mem _ hw, hkey⟩
      · rintro ⟨w, hw, hkey⟩
        obtain rfl | hw := List.mem_cons.mp hw
        · exact absurd hv hkey
        · exact ⟨w, hw, hkey⟩
    · rw [List.count_eq_zero_of_not_mem hv]
      exact ⟨by omega, iff_of_true (by omega) ⟨v, List.mem_cons_self, hv⟩⟩

/-! ### Unique keys of all values -/

/-- What is inside a value with unique keys has unique keys. -/
theorem uniqueKeys_visitValue (v : Json) (h : v.UniqueKeys) (path : String) :
    ∀ e ∈ visitValue v path, e.2.UniqueKeys := by
  induction v using Json.induction generalizing path with
  | scalar v k hk =>
    have hvisit : visitValue v path = [(path, v)] := by
      cases v with
      | arr items => cases hk
      | obj members => cases hk
      | _ => rfl
    intro e he
    rw [hvisit] at he
    rwa [List.mem_singleton.mp he]
  | arr items ih =>
    have hitems : ∀ (l : List Json), (∀ v ∈ l, v ∈ items) → ∀ p, ∀ e ∈ visitItems l p,
        e.2.UniqueKeys := by
      intro l hl p
      induction l with
      | nil => exact fun e he => absurd he List.not_mem_nil
      | cons v l ihl =>
        rw [List.forall_mem_cons] at hl
        intro e he
        obtain he | he := List.mem_append.mp he
        · exact ih v hl.1 (uniqueKeysItems_iff.mp h v hl.1) p e he
        · exact ihl hl.2 e he
    intro e he
    obtain rfl | he := List.mem_cons.mp he
    · exact h
    · exact hitems items (fun _ hv => hv) _ e he
  | obj members ih =>
    have hmembers : ∀ (l : List (String × Json)), (∀ e ∈ l, e ∈ members) → ∀ p,
        ∀ e ∈ visitMembers l p, e.2.UniqueKeys := by
      intro l hl p
      induction l with
      | nil => exact fun e he => absurd he List.not_mem_nil
      | cons m l ihl =>
        rw [List.forall_mem_cons] at hl
        intro e he
        obtain he | he := List.mem_append.mp he
        · exact ih m hl.1 (uniqueKeysMembers_iff.mp h.2 m hl.1) _ e he
        · exact ihl hl.2 e he
    intro e he
    obtain rfl | he := List.mem_cons.mp he
    · exact h
    · exact hmembers members (fun _ hm => hm) _ e he

theorem uniqueKeys_visited {body : Json} (h : body.UniqueKeys) :
    ∀ e ∈ visited body, e.2.UniqueKeys :=
  uniqueKeys_visitValue body h _

theorem nodup_keysOf {v : Json} (h : v.UniqueKeys) : (keysOf v).Nodup := by
  cases v with
  | obj members => exact h.1
  | _ => exact List.nodup_nil

/-! ### What is marked -/

/-- The keys that a list marks. -/
theorem mem_observeOptional {items : List Json} (h : ∀ v ∈ items, (keysOf v).Nodup)
    {itemPath path : String} : (path, .optional) ∈ observeOptional items itemPath ↔
      ∃ key, joinPath itemPath key = path ∧ (∃ v ∈ items, key ∈ keysOf v) ∧
        ∃ v ∈ items, key ∉ keysOf v := by
  simp only [observeOptional, keysSeen, List.mem_map, List.mem_filter, Prod.mk.injEq, and_true]
  constructor
  · rintro ⟨e, ⟨⟨key, hkey, rfl⟩, hcount⟩, hpath⟩
    refine ⟨key, hpath, ?_, (count_keys h key).2.mp (of_decide_eq_true hcount)⟩
    obtain ⟨v, hv, hin⟩ := List.mem_flatMap.mp (List.mem_dedup.mp hkey)
    exact ⟨v, hv, hin⟩
  · rintro ⟨key, hpath, ⟨v, hv, hin⟩, hmissing⟩
    refine ⟨(key, _), ⟨⟨key, ?_, rfl⟩, ?_⟩, hpath⟩
    · exact List.mem_dedup.mpr (List.mem_flatMap.mpr ⟨v, hv, hin⟩)
    · exact decide_eq_true ((count_keys h key).2.mpr hmissing)

/-- A list marks keys if all its items are objects. -/
theorem optional_mem_list {parent path : String} {items : List Json} :
    (path, .optional) ∈ ownObservations (parent, .arr items) ↔
      items.all isDict = true ∧ (path, .optional) ∈ observeOptional items (arrayPath parent) := by
  simp only [ownObservations, observeList]
  cases items with
  | nil => simp [observeOptional, keysSeen]
  | cons v items =>
    by_cases hdict : (v :: items).all isDict = true
    · simp [hdict]
    · simp [hdict]

/-- A path is marked if some list of objects marks it. -/
theorem optional_observed_iff {body : Json} (h : body.UniqueKeys) {path : String} :
    (path, .optional) ∈ observe body ↔ MissingInList body path := by
  rw [contributed body path .optional (fun h => by cases h)]
  constructor
  · rintro ⟨⟨parent, v⟩, he, hown⟩
    cases v with
    | arr items =>
      have hunique := uniqueKeysItems_iff.mp (uniqueKeys_visited h _ he)
      obtain ⟨hdict, hmarked⟩ := optional_mem_list.mp hown
      obtain ⟨key, hpath, hhas, hlacks⟩ :=
        (mem_observeOptional fun v hv => nodup_keysOf (hunique v hv)).mp hmarked
      exact ⟨parent, items, key, he, hdict, hpath, hhas, hlacks⟩
    | obj members => cases hown
    | _ => cases (Prod.mk.inj (List.mem_singleton.mp hown)).2
  · rintro ⟨parent, items, key, he, hdict, hpath, hhas, hlacks⟩
    have hunique := uniqueKeysItems_iff.mp (uniqueKeys_visited h _ he)
    refine ⟨(parent, .arr items), he, optional_mem_list.mpr ⟨hdict, ?_⟩⟩
    exact (mem_observeOptional fun v hv => nodup_keysOf (hunique v hv)).mpr ⟨key, hpath, hhas, hlacks⟩

/-- A node is not required if its path is marked. -/
theorem not_required_iff {body : Json} {path : String} :
    (∃ node ∈ inferSchema body, node.path = path ∧ node.required = false) ↔
      (path, .optional) ∈ observe body := by
  have hany : (observationsOf path (observe body)).any Observation.isOptional = true ↔
      (path, .optional) ∈ observe body := by
    rw [List.any_eq_true, ← mem_observationsOf]
    constructor
    · rintro ⟨o, ho, hoptional⟩
      cases o with
      | optional => exact ho
      | _ => cases hoptional
    · intro h
      exact ⟨.optional, h, rfl⟩
  have hreq : ∀ node ∈ inferSchema body,
      (!(observationsOf node.path (observe body)).any Observation.isOptional) = node.required := by
    intro node hnode
    have hprofile := profileAt_of_mem hnode
    rw [profileAt, profileOf, Option.map_eq_some_iff] at hprofile
    obtain ⟨first, -, hfirst⟩ := hprofile
    exact congrArg Profile.required hfirst
  rw [← hany]
  constructor
  · rintro ⟨node, hnode, rfl, hrequired⟩
    have hnot := hreq node hnode
    rw [hrequired] at hnot
    simpa using hnot
  · intro hoptional
    -- What is marked has been seen, so it has a node.
    have hseen : path ∈ (observe body).map Prod.fst := by
      obtain ⟨o, ho, -⟩ := List.any_eq_true.mp hoptional
      exact List.mem_map_of_mem (f := Prod.fst) (mem_observationsOf.mp ho)
    obtain ⟨node, hnode, rfl⟩ := List.mem_map.mp (mem_paths_iff.mpr hseen)
    refine ⟨node, hnode, rfl, ?_⟩
    rw [← hreq node hnode, hoptional]
    rfl

/-- **When the required flag is exact.** The node of a key is marked exactly if an object of its
location lacks the key that another one has, if and only if this is so exactly when two items of one
list of objects differ in it. -/
theorem required_exact_iff {body : Json} (h : body.UniqueKeys) (location key : String) :
    ((∃ node ∈ inferSchema body, node.path = joinPath location key ∧ node.required = false) ↔
        KeyMissing body location key) ↔
      (KeyMissing body location key ↔ MissingInList body (joinPath location key)) := by
  rw [not_required_iff, optional_observed_iff h]
  exact Iff.comm

/-- Two orders of one list, one without a note. -/
def notesBody : Json := .obj [("orders", .arr [.obj [("note", .str "x")], .obj []])]

theorem required_exact_iff_notes :
    ((∃ node ∈ inferSchema notesBody, node.path = joinPath "orders[*]" "note" ∧
        node.required = false) ↔ KeyMissing notesBody "orders[*]" "note") ↔
      (KeyMissing notesBody "orders[*]" "note" ↔
        MissingInList notesBody (joinPath "orders[*]" "note")) :=
  required_exact_iff (by
    show (["orders"].Nodup ∧ ((["note"].Nodup ∧ True ∧ True) ∧ (([] : List String).Nodup ∧ True) ∧
      True) ∧ True)
    decide) "orders[*]" "note"

/-- Two customers under the items of a list, one without an e-mail address. -/
def customersBody : Json := .obj [("orders", .arr [
  .obj [("customer", .obj [("email", .str "a")])], .obj [("customer", .obj [])]])]

theorem nested_key_stays_required : ¬∀ (body : Json) (location key : String), body.UniqueKeys →
    ((∃ node ∈ inferSchema body, node.path = joinPath location key ∧ node.required = false) ↔
      KeyMissing body location key) := by
  intro h
  have hunique : customersBody.UniqueKeys := by
    show (["orders"].Nodup ∧ ((["customer"].Nodup ∧ (["email"].Nodup ∧ True ∧ True) ∧ True) ∧
      (["customer"].Nodup ∧ (([] : List String).Nodup ∧ True) ∧ True) ∧ True) ∧ True)
    decide
  have hvisited : visited customersBody = [("", customersBody),
      ("orders", .arr [.obj [("customer", .obj [("email", .str "a")])],
        .obj [("customer", .obj [])]]),
      ("orders[*]", .obj [("customer", .obj [("email", .str "a")])]),
      ("orders[*].customer", .obj [("email", .str "a")]),
      ("orders[*].customer.email", .str "a"),
      ("orders[*]", .obj [("customer", .obj [])]),
      ("orders[*].customer", .obj [])] := rfl
  have hmissing : KeyMissing customersBody "orders[*].customer" "email" := by
    refine ⟨⟨[("email", .str "a")], ?_, by decide⟩, ⟨[], ?_, by decide⟩⟩
    · rw [hvisited]
      simp
    · rw [hvisited]
      simp
  obtain ⟨node, hnode, -, hrequired⟩ := (h customersBody _ _ hunique).mpr hmissing
  have hall : (inferSchema customersBody).all (fun node => node.required) = true := by
    decide
  rw [List.all_eq_true.mp hall node hnode] at hrequired
  cases hrequired

end Driftgate.Monitor
