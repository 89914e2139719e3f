import Driftgate.Monitor.JsonText

/-!
# Normalized bodies

`normalize` sorts the keys of a body, at every depth. If the compact text of the result is larger
than the cap, it is cut there and read again; what cannot be read becomes a marker with the size.
The cut text of an array or object never can be.
-/

namespace Driftgate.Monitor

open Driftgate.Lib Driftgate.Schema

/-! ### Sorted keys -/

mutual

/-- `_sort_keys` -/
def sortKeys : Json → Json
  | .obj members => .obj (sortByKey (sortKeysMembers members))
  | .arr items => .arr (sortKeysItems items)
  | v => v

def sortKeysItems : List Json → List Json
  | [] => []
  | v :: items => sortKeys v :: sortKeysItems items

def sortKeysMembers : List (String × Json) → List (String × Json)
  | [] => []
  | (k, v) :: members => (k, sortKeys v) :: sortKeysMembers members

end

/-! ### The cap -/

/-- `max_bytes or settings.raw_body_max_bytes` -/
def capOf (rawBodyMaxBytes : ℤ) : Option ℤ → ℤ
  | some cap => if cap = 0 then rawBodyMaxBytes else cap
  | none => rawBodyMaxBytes

/-- How many of `size` bytes a slice `[:cap]` keeps; a negative cap counts from the end. -/
def keptBytes (cap : ℤ) (size : ℕ) : ℕ := (if 0 ≤ cap then cap else size + cap).toNat

/-- The characters that lie within the first bytes; one that is cut through is ignored. -/
def decodeWithin : ℕ → List Char → List Char
  | _, [] => []
  | bytes, c :: s => if c.utf8Size ≤ bytes then c :: decodeWithin (bytes - c.utf8Size) s else []

/-- `text.encode("utf-8")[:cap].decode("utf-8", errors="ignore")` -/
def cutText (cap : ℤ) (text : String) : String :=
  String.ofList (decodeWithin (keptBytes cap text.utf8ByteSize) text.toList)

/-- `{"_truncated": True, "_size_bytes": size}` -/
def truncationMarker (size : ℕ) : Json :=
  .obj [("_truncated", .bool true), ("_size_bytes", .int size)]

/-- `normalize`, where the setting `raw_body_max_bytes` is a parameter. -/
def normalize (floats : FloatText) (rawBodyMaxBytes : ℤ) (body : Json) (maxBytes : Option ℤ) : Json :=
  let cap := capOf rawBodyMaxBytes maxBytes
  let sortedBody := sortKeys body
  let serialized := dumps floats sortedBody
  if cap < serialized.utf8ByteSize then
    match loads floats (cutText cap serialized) with
    | some value => value
    | none => truncationMarker serialized.utf8ByteSize
  else sortedBody

/-! ### Cut texts -/

theorem decodeWithin_initial (bytes : ℕ) (s : List Char) : decodeWithin bytes s <+: s := by
  induction s generalizing bytes with
  | nil => exact List.prefix_refl []
  | cons c s ih =>
    rw [decodeWithin]
    split_ifs
    · exact List.cons_prefix_cons.mpr ⟨rfl, ih _⟩
    · exact List.nil_prefix

theorem cutText_initial (cap : ℤ) (text : String) : (cutText cap text).toList <+: text.toList := by
  rw [cutText, String.toList_ofList]
  exact decodeWithin_initial _ _

/-- What is kept lies within the bytes. -/
theorem decodeWithin_size (bytes : ℕ) (s : List Char) :
    (String.ofList (decodeWithin bytes s)).utf8ByteSize ≤ bytes := by
  induction s generalizing bytes with
  | nil => exact Nat.zero_le bytes
  | cons c s ih =>
    rw [decodeWithin]
    split_ifs with hfits
    · have hrest := ih (bytes - c.utf8Size)
      rw [String.ofList_cons, String.utf8ByteSize_append, String.utf8ByteSize_singleton]
      omega
    · exact Nat.zero_le bytes

/-- A text that is larger than the cap is cut. -/
theorem cutText_ne {cap : ℤ} {text : String} (hne : text ≠ "") (h : cap < text.utf8ByteSize) :
    cutText cap text ≠ text := by
  intro heq
  have hsize := decodeWithin_size (keptBytes cap text.utf8ByteSize) text.toList
  rw [← cutText, heq, keptBytes] at hsize
  have hpos : text.utf8ByteSize ≠ 0 := mt String.utf8ByteSize_eq_zero_iff.mp hne
  split_ifs at hsize
  · omega
  · omega

/-! ### Sorting -/

theorem sortKeysItems_eq_map (items : List Json) : sortKeysItems items = items.map sortKeys := by
  induction items with
  | nil => rfl
  | cons v items ih => rw [sortKeysItems, ih, List.map_cons]

theorem sortKeysMembers_eq_map (members : List (String × Json)) :
    sortKeysMembers members = members.map fun e => (e.1, sortKeys e.2) := by
  induction members with
  | nil => rfl
  | cons e members ih => rw [sortKeysMembers, ih, List.map_cons]

theorem kind_sortKeys (v : Json) : (sortKeys v).kind = v.kind := by
  cases v <;> rfl

/-- Sorting leaves scalars as they are. -/
theorem sortKeys_scalar {v : Json} (h : v.kind ≠ none) : sortKeys v = v := by
  cases v with
  | arr items => exact absurd rfl h
  | obj members => exact absurd rfl h
  | _ => rfl

mutual

/-- The keys of every object are in order. -/
def KeysInOrder : Json → Prop
  | .obj members => members.Pairwise (fun e e' => e.1 ≤ e'.1) ∧ KeysInOrderMembers members
  | .arr items => KeysInOrderItems items
  | _ => True

def KeysInOrderItems : List Json → Prop
  | [] => True
  | v :: items => KeysInOrder v ∧ KeysInOrderItems items

def KeysInOrderMembers : List (String × Json) → Prop
  | [] => True
  | (_, v) :: members => KeysInOrder v ∧ KeysInOrderMembers members

end

theorem keysInOrderItems_iff {items : List Json} :
    KeysInOrderItems items ↔ ∀ v ∈ items, KeysInOrder v := by
  induction items with
  | nil => exact iff_of_true trivial fun _ h => absurd h List.not_mem_nil
  | cons v items ih => rw [KeysInOrderItems, ih, List.forall_mem_cons]

theorem keysInOrderMembers_iff {members : List (String × Json)} :
    KeysInOrderMembers members ↔ ∀ e ∈ members, KeysInOrder e.2 := by
  induction members with
  | nil => exact iff_of_true trivial fun _ h => absurd h List.not_mem_nil
  | cons e members ih => rw [KeysInOrderMembers, ih, List.forall_mem_cons]

/-- **Sorted at every depth.** -/
theorem keysInOrder_sortKeys (v : Json) : KeysInOrder (sortKeys v) := by
  induction v using Json.induction with
  | scalar v k hk =>
    cases v with
    | arr items => cases hk
    | obj members => cases hk
    | _ => exact trivial
  | arr items ih =>
    rw [sortKeys, sortKeysItems_eq_map, KeysInOrder, keysInOrderItems_iff]
    exact List.forall_mem_map.mpr ih
  | obj members ih =>
    rw [sortKeys, sortKeysMembers_eq_map, KeysInOrder, keysInOrderMembers_iff]
    refine ⟨List.pairwise_insertionSort _ _, fun e he => ?_⟩
    obtain ⟨e', he', rfl⟩ := List.mem_map.mp ((List.perm_insertionSort _ _).mem_iff.mp he)
    exact ih e' he'

/-! ### Truncation -/

/-- The marker stands for every array or object that is too large. -/
theorem normalize_truncated {floats : FloatText} {rawBodyMaxBytes : ℤ} {body : Json}
    {maxBytes : Option ℤ} (h : body.kind = none)
    (hlarge : capOf rawBodyMaxBytes maxBytes < (dumps floats (sortKeys body)).utf8ByteSize) :
    loads floats (cutText (capOf rawBodyMaxBytes maxBytes) (dumps floats (sortKeys body))) = none ∧
      normalize floats rawBodyMaxBytes body maxBytes =
        truncationMarker (dumps floats (sortKeys body)).utf8ByteSize := by
  have hkind : (sortKeys body).kind = none := (kind_sortKeys body).trans h
  have hnone := loads_cut_container hkind (cutText_initial (capOf rawBodyMaxBytes maxBytes) _)
    (cutText_ne (dumps_ne_empty floats _) hlarge)
  refine ⟨hnone, ?_⟩
  simp only [normalize, if_pos hlarge, hnone]

/-- **Truncation.** An array or object is normalized to itself with sorted keys, at every depth, if
its text fits, and otherwise to the marker with the full size, since the cut text cannot be read. -/
theorem normalize_container (floats : FloatText) (rawBodyMaxBytes : ℤ) {body : Json}
    (h : body.kind = none) {cap : ℤ} (hcap : 1 ≤ cap) :
    let serialized := dumps floats (sortKeys body)
    (serialized.utf8ByteSize ≤ cap →
      normalize floats rawBodyMaxBytes body (some cap) = sortKeys body ∧
        KeysInOrder (sortKeys body)) ∧
    (cap < serialized.utf8ByteSize →
      loads floats (cutText cap serialized) = none ∧
      normalize floats rawBodyMaxBytes body (some cap) =
        truncationMarker serialized.utf8ByteSize) := by
  have hcapOf : capOf rawBodyMaxBytes (some cap) = cap := if_neg (by omega)
  refine ⟨fun hfits => ⟨?_, keysInOrder_sortKeys body⟩, fun hlarge => ?_⟩
  · simp only [normalize, hcapOf, if_neg (not_lt.mpr hfits)]
  · have hlarge' : capOf rawBodyMaxBytes (some cap) <
        (dumps floats (sortKeys body)).utf8ByteSize := by rwa [hcapOf]
    have hmarker := normalize_truncated h hlarge'
    rwa [hcapOf] at hmarker

/-- Texts of floats as Python has them for `1.5`. -/
def sampleFloats : FloatText where
  repr _ := "1.5"
  float _ := 3 / 2
  repr_numeral _ := ⟨['1'], ['.', '5'], by decide, by decide⟩

/-- A body whose last text is a bracket. -/
def bracketBody : Json := .obj [("b", .str "]"), ("a", .float (3 / 2))]

theorem normalize_container_cut :
    loads sampleFloats (cutText 15 "\x7b\"a\":1.5,\"b\":\"]\"\x7d") = none ∧
    normalize sampleFloats 262144 bracketBody (some 15) = truncationMarker 17 := by
  have htext : dumps sampleFloats (sortKeys bracketBody) = "\x7b\"a\":1.5,\"b\":\"]\"\x7d" := by
    decide
  have hcap : (1 : ℤ) ≤ 15 := by decide
  have hcontainer := normalize_container sampleFloats 262144 (show bracketBody.kind = none from rfl) hcap
  simp only [htext] at hcontainer
  exact hcontainer.2 (by decide)

end Driftgate.Monitor
