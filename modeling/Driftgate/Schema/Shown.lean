import Driftgate.Schema.Classifier

/-!
# What the flat dictionary shows of a payload

The classifier never looks at a payload, only at the flat dictionary of its canonical schema. This
module says which values of the payload that dictionary shows, and under which path strings.

`visible v` lists the locations of `v` that get an entry, in the order of the assignments: scalars
and arrays, and objects with a member named `type`, below which nothing is visited. Different
locations can have one path string, and then the last one wins: `shown v path`.

Under plain keys (`PlainKeys`) neither happens: every scalar is visible, and a path string is the
path of one location (`pathOf_injective`).
-/

namespace Driftgate.Schema

open Driftgate.Lib

/-! ### Visible locations -/

/-- The entries of a value one step further down. -/
def under (s : Step) (l : List (Location × Json)) : List (Location × Json) :=
  l.map fun e => (s :: e.1, e.2)

mutual

/-- The locations that get an entry in the flat dictionary, with what is there. -/
def visible : Json → List (Location × Json)
  | .obj members =>
    if (members.lookup "type").isSome then [([], .obj members)]
    else (sortByKey (visibleMembers members)).flatMap fun e => under (.key e.1) e.2
  | .arr items => ([], .arr items) :: visibleItems items 0
  | v => [([], v)]

def visibleItems : List Json → ℕ → List (Location × Json)
  | [], _ => []
  | v :: items, i => under (.index i) (visible v) ++ visibleItems items (i + 1)

def visibleMembers : List (String × Json) → List (String × List (Location × Json))
  | [] => []
  | (k, v) :: members => (k, visible v) :: visibleMembers members

end

/-- What the flat dictionary has for a visible value. -/
def marker : Json → CanonicalSchema
  | .arr _ => arrayMarker
  | v => canonicalize v

/-- The path string of a location below a value with path string `path`. -/
def pathFrom (path : String) : Location → String
  | [] => orRoot path
  | .key k :: ℓ => pathFrom (keyPath path k) ℓ
  | .index i :: ℓ => pathFrom (indexPath path i) ℓ

/-- The path string of a location of a payload. -/
abbrev pathOf (ℓ : Location) : String := pathFrom "" ℓ

/-- The value a path string stands for in the flat dictionary. -/
def shown (v : Json) (path : String) : Option Json :=
  lastBinding path ((visible v).map fun e => (pathOf e.1, e.2))

theorem visibleMembers_eq (members : List (String × Json)) :
    visibleMembers members = members.map fun e => (e.1, visible e.2) := by
  induction members with
  | nil => simp [visibleMembers]
  | cons e members ih => simp [visibleMembers, ih]

theorem visible_scalar {v : Json} {k : Kind} (h : v.kind = some k) : visible v = [([], v)] := by
  cases v <;> simp_all [Json.kind, visible]

theorem marker_scalar {v : Json} {k : Kind} (h : v.kind = some k) : marker v = k.leaf := by
  rw [← canonicalize_scalar h]
  cases v <;> simp_all [Json.kind, marker]

theorem visible_obj {members : List (String × Json)} (h : members.lookup "type" = none) :
    visible (.obj members) =
      (sortByKey members).flatMap fun e => under (.key e.1) (visible e.2) := by
  rw [visible, visibleMembers_eq, sortByKey_map fun e => visible e.2, List.flatMap_map]
  simp [h]

/-! ### The flat dictionary is what is visible -/

theorem flattenMembers_eq (l : List (String × CanonicalSchema)) (path : String) :
    flattenMembers l path = l.flatMap fun e => flatten e.2 (keyPath path e.1) := by
  induction l with
  | nil => simp [flattenMembers]
  | cons e l ih => simp [flattenMembers, ih]

/-- The entry a visible location gets. -/
def entry (path : String) (e : Location × Json) : String × CanonicalSchema :=
  (pathFrom path e.1, marker e.2)

theorem map_entry_under_key (path k : String) (l : List (Location × Json)) :
    (under (.key k) l).map (entry path) = l.map (entry (keyPath path k)) := by
  simp [under, entry, pathFrom, Function.comp_def]

theorem map_entry_under_index (path : String) (i : ℕ) (l : List (Location × Json)) :
    (under (.index i) l).map (entry path) = l.map (entry (indexPath path i)) := by
  simp [under, entry, pathFrom, Function.comp_def]

/-- **Flattening a canonical schema lists the visible locations.** -/
theorem flatten_canonicalize (v : Json) :
    v.UniqueKeys → ∀ path, flatten (canonicalize v) path = (visible v).map (entry path) := by
  induction v using Json.induction with
  | scalar v k hk =>
    intro _ path
    rw [visible_scalar hk, canonicalize_scalar hk]
    simp [Kind.leaf, CanonicalSchema.leaf, flatten, entry, pathFrom, marker_scalar hk]
  | arr items ih =>
    intro hu path
    rw [Json.UniqueKeys, uniqueKeysItems_iff] at hu
    have hitems : ∀ i, flattenItems (items.map canonicalize) path i =
        (visibleItems items i).map (entry path) := by
      induction items with
      | nil => intro i; simp [flattenItems, visibleItems]
      | cons v items ihi =>
        intro i
        rw [List.forall_mem_cons] at ih hu
        rw [List.map_cons, flattenItems, visibleItems, List.map_append, map_entry_under_index,
          ih.1 hu.1, ihi ih.2 hu.2]
    rw [canonicalize_arr, flatten, visible, List.map_cons, hitems]
    simp [entry, pathFrom, marker]
  | obj members ih =>
    intro hu path
    rw [Json.UniqueKeys, uniqueKeysMembers_iff] at hu
    have hlookup : (sortByKey (members.map fun e => (e.1, canonicalize e.2))).lookup "type" =
        (members.lookup "type").map canonicalize := by
      rw [lookup_sortByKey, lookup_map_snd]
      simpa [List.map_map, Function.comp_def] using hu.1
    rw [canonicalize_obj, flatten, hlookup]
    cases ht : members.lookup "type" with
    | some t => simp [visible, ht, entry, pathFrom, marker, canonicalize_obj]
    | none =>
      rw [visible_obj ht, List.map_flatMap, flattenMembers_eq,
        sortByKey_map fun e => canonicalize e.2, List.flatMap_map]
      simp only [Option.map_none, Option.isSome_none, Bool.false_eq_true, ↓reduceIte]
      refine List.flatMap_congr fun e he => ?_
      have he := mem_sortByKey.mp he
      rw [map_entry_under_key, ih e he (hu.2 e he)]

/-- What the flat dictionary has at a path is the marker of what the payload shows there. -/
theorem lastBinding_flatten {v : Json} (hu : v.UniqueKeys) (path : String) :
    lastBinding path (flatten (canonicalize v) "") = (shown v path).map marker := by
  rw [flatten_canonicalize v hu, shown, ← lastBinding_map, List.map_map]
  rfl

/-! ### Visible locations are locations -/

theorem mem_under {s : Step} {l : List (Location × Json)} {ℓ : Location} {w : Json} :
    (ℓ, w) ∈ under s l ↔ ∃ ℓ', ℓ = s :: ℓ' ∧ (ℓ', w) ∈ l := by
  simp only [under, List.mem_map, Prod.mk.injEq, Prod.exists]
  constructor
  · rintro ⟨ℓ', w', h, rfl, rfl⟩
    exact ⟨ℓ', rfl, h⟩
  · rintro ⟨ℓ', rfl, h⟩
    exact ⟨ℓ', w, h, rfl, rfl⟩

theorem mem_visibleItems {items : List Json} {i : ℕ} {ℓ : Location} {w : Json} :
    (ℓ, w) ∈ visibleItems items i ↔
      ∃ j v ℓ', items[j]? = some v ∧ ℓ = .index (i + j) :: ℓ' ∧ (ℓ', w) ∈ visible v := by
  induction items generalizing i with
  | nil => simp [visibleItems]
  | cons v items ih =>
    rw [visibleItems, List.mem_append, mem_under, ih]
    constructor
    · rintro (⟨ℓ', rfl, h⟩ | ⟨j, u, ℓ', hj, rfl, h⟩)
      · exact ⟨0, v, ℓ', rfl, rfl, h⟩
      · exact ⟨j + 1, u, ℓ', hj, by rw [Nat.add_assoc, Nat.add_comm 1], h⟩
    · rintro ⟨j, u, ℓ', hj, rfl, h⟩
      cases j with
      | zero => exact .inl ⟨ℓ', rfl, Option.some.inj hj ▸ h⟩
      | succ j => exact .inr ⟨j, u, ℓ', hj, by rw [Nat.add_assoc, Nat.add_comm 1], h⟩

/-- A visible location is a location of the value, whose visible part it inherits. -/
theorem at_of_mem_visible {v w : Json} {ℓ : Location} :
    v.UniqueKeys → (ℓ, w) ∈ visible v → v.at ℓ = some w ∧ (w.kind = none → w.get? "type" = none →
      ∃ items, w = .arr items) := by
  induction v using Json.induction generalizing ℓ with
  | scalar v k hk =>
    intro _ h
    rw [visible_scalar hk] at h
    obtain ⟨rfl, rfl⟩ : ℓ = [] ∧ w = v := by simpa using h
    exact ⟨Json.at_nil w, fun hn => by simp [hk] at hn⟩
  | arr items ih =>
    intro hu h
    rw [Json.UniqueKeys, uniqueKeysItems_iff] at hu
    rw [visible, List.mem_cons] at h
    rcases h with h | h
    · obtain ⟨rfl, rfl⟩ : ℓ = [] ∧ w = .arr items := by simpa using h
      exact ⟨Json.at_nil _, fun _ _ => ⟨items, rfl⟩⟩
    · obtain ⟨j, u, ℓ', hj, rfl, h'⟩ := mem_visibleItems.mp h
      have hm := List.mem_of_getElem? hj
      rw [Json.at_cons, Json.child, Nat.zero_add, hj]
      exact ih u hm (hu u hm) h'
  | obj members ih =>
    intro hu h
    rw [Json.UniqueKeys, uniqueKeysMembers_iff] at hu
    cases ht : members.lookup "type" with
    | some t =>
      obtain ⟨rfl, rfl⟩ : ℓ = [] ∧ w = .obj members := by simpa [visible, ht] using h
      exact ⟨Json.at_nil _, fun _ hn => by simp [Json.get?, ht] at hn⟩
    | none =>
      rw [visible_obj ht, List.mem_flatMap] at h
      obtain ⟨e, he, h⟩ := h
      have he := mem_sortByKey.mp he
      obtain ⟨ℓ', rfl, h'⟩ := mem_under.mp h
      have hl : members.lookup e.1 = some e.2 := lookup_of_mem hu.1 he
      rw [Json.at_cons, Json.child, hl]
      exact ih e he (hu.2 e he) h'

end Driftgate.Schema
