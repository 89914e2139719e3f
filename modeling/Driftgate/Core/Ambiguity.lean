import Driftgate.Core.Parser
import Driftgate.Lib.PrefixCode

/-!
# Keys that read like structure

The structural string has keys and structure in one text and no escapes. Where two payloads have
one text and different types, there is a first place where the texts are read differently, and
there are two kinds of such places. At a key, one reading ends it and goes on with a value, for the
other the colon and what follows belong to the key, up to the next colon (`key_ends`). At the
beginning of an object, one reading ends the object, for the other the brace begins a key
(`brace_begins_no_key`). What the longer key takes in is what stands before the next key of the
shorter reading, and for that the alphabet of the keys has to contain the characters of structure
that are found there (`Confusable`).

So the structural string tells the types of all payloads over an alphabet exactly when the alphabet
is not confusable (`structuralString_unambiguous_iff`).
-/

namespace Driftgate.Core

open Driftgate.Lib Driftgate.Schema

/-! ### Alphabets of keys -/

/-- The text has characters of the alphabet only. -/
def Spelled (A : Set Char) (s : String) : Prop := ∀ c ∈ s.toList, c ∈ A

mutual

/-- The keys at all depths are spelled with the alphabet. -/
def KeysSpelled (A : Set Char) : Json → Prop
  | .arr items => KeysSpelledItems A items
  | .obj members => KeysSpelledMembers A members
  | _ => True

def KeysSpelledItems (A : Set Char) : List Json → Prop
  | [] => True
  | v :: items => KeysSpelled A v ∧ KeysSpelledItems A items

def KeysSpelledMembers (A : Set Char) : List (String × Json) → Prop
  | [] => True
  | (k, v) :: members => Spelled A k ∧ KeysSpelled A v ∧ KeysSpelledMembers A members

end

theorem keysSpelledItems_iff {A : Set Char} {items : List Json} :
    KeysSpelledItems A items ↔ ∀ v ∈ items, KeysSpelled A v := by
  induction items with
  | nil => simp [KeysSpelledItems]
  | cons v items ih => simp [KeysSpelledItems, ih]

theorem keysSpelledMembers_iff {A : Set Char} {members : List (String × Json)} :
    KeysSpelledMembers A members ↔ ∀ e ∈ members, Spelled A e.1 ∧ KeysSpelled A e.2 := by
  induction members with
  | nil => simp [KeysSpelledMembers]
  | cons e members ih => simp [KeysSpelledMembers, ih, and_assoc]

/-- The keys can contain enough of the structure to be taken for it: a colon and the beginning of an
object; a semicolon and the end of an object; the end of an object, a comma and the beginning of
an object; or a colon, the text of a scalar or of an empty array, and a semicolon. -/
def Confusable (A : Set Char) : Prop :=
  (':' ∈ A ∧ Spelled A "object\x7b") ∨ (';' ∈ A ∧ '\x7d' ∈ A) ∨
    ('\x7d' ∈ A ∧ ',' ∈ A ∧ Spelled A "object\x7b") ∨
    (':' ∈ A ∧ ';' ∈ A ∧ (Spelled A "array[empty_array]" ∨ ∃ k, Spelled A (primitiveType k)))

/-- Keys without colons and closing braces, such as identifiers. -/
theorem not_confusable {A : Set Char} (hcolon : ':' ∉ A) (hbrace : '\x7d' ∉ A) : ¬Confusable A := by
  intro h
  obtain h | h | h | h := h
  · exact hcolon h.1
  · exact hbrace h.2
  · exact hbrace h.1
  · exact hcolon h.1

/-! ### Texts of types -/

/-- The characters of a serialized type. -/
def text (t : StructuralType) : List Char := (serializeAst t).toList

def memberText (e : String × StructuralType) : List Char := e.1.toList ++ ':' :: text e.2

theorem text_items (l : List String) :
    text (.items l) = "array[".toList ++ sepBy ',' ']' String.toList l := by
  rw [text, serializeAst, String.toList_append, String.toList_append, String.toList_intercalate,
    sepBy, List.append_assoc]
  rfl

/-- A member as it is written. -/
theorem toList_member (e : String × StructuralType) :
    (e.1 ++ ":" ++ serializeAst e.2).toList = memberText e := by
  rw [String.toList_append, String.toList_append, memberText, List.append_assoc]
  rfl

theorem text_members (l : List (String × StructuralType)) :
    text (.members l) = "object\x7b".toList ++ sepBy ';' '\x7d' memberText (sortByKey l) := by
  have hparts : ((sortByKey (serializeMembers l)).map Prod.snd).map String.toList =
      (sortByKey l).map memberText := by
    rw [serializeMembers_eq, sortByKey_map, List.map_map, List.map_map]
    exact List.map_congr_left fun e _ => toList_member e
  rw [text, serializeAst, String.toList_append, String.toList_append, String.toList_intercalate,
    hparts, sepBy, List.append_assoc]
  rfl

/-- Sorted entries are not sorted again. -/
theorem sortByKey_sortByKey {α : Type*} (l : List (String × α)) :
    sortByKey (sortByKey l) = sortByKey l := by
  have : Std.Total fun a b : String × α => a.1 ≤ b.1 := ⟨fun a b => le_total a.1 b.1⟩
  have : IsTrans (String × α) fun a b => a.1 ≤ b.1 := ⟨fun _ _ _ => le_trans⟩
  exact List.Pairwise.insertionSort_eq (List.pairwise_insertionSort _ l)

theorem text_obj (members : List (String × Json)) :
    text (extractStructuralType (.obj members)) = "object\x7b".toList ++
      sepBy ';' '\x7d' memberText (sortByKey (extractMembers members)) := by
  rw [extractStructuralType, text_members, sortByKey_sortByKey]

theorem toList_structuralString (p : Payload) : (structuralString p).toList =
    (sortByKey (extractMembers p.members)).flatMap fun e => memberText e ++ [';'] := by
  rw [structuralString, String.toList_join, List.flatMap_map]
  refine List.flatMap_congr fun e _ => ?_
  rw [String.toList_append, toList_member]
  rfl

/-- `"empty_array"` stands for the items of an empty array. -/
def itemTexts (items : List Json) : List String :=
  if items.isEmpty then ["empty_array"] else arrayItems (extractItems items)

theorem extractStructuralType_items (items : List Json) :
    extractStructuralType (.arr items) = .items (itemTexts items) := by
  rw [extractStructuralType, itemTexts]

/-- The items of an array are the texts of its elements, of names and of structures. -/
theorem mem_arrayItems {resolved : List StructuralType} {s : String} :
    s ∈ arrayItems resolved ↔ ∃ t ∈ resolved, serializeAst t = s := by
  rw [arrayItems, List.mem_append, List.mem_insertionSort, List.mem_insertionSort, List.mem_dedup,
    innerTypes, arrayStructures, List.mem_filterMap, List.mem_filterMap, ← exists_or]
  refine exists_congr fun t => ?_
  cases t <;> simp [serializeAst]

theorem mem_itemTexts {items : List Json} (h : items ≠ []) {s : String} :
    s ∈ itemTexts items ↔ ∃ v ∈ items, serializeAst (extractStructuralType v) = s := by
  rw [itemTexts, if_neg (by simpa using h), extractItems_eq, mem_arrayItems]
  simp only [List.mem_map, exists_exists_and_eq_and]

/-- No array is written without items. -/
theorem itemTexts_ne_nil (items : List Json) : itemTexts items ≠ [] := by
  cases items with
  | nil => exact List.cons_ne_nil _ _
  | cons v items =>
    have hmem := (mem_itemTexts (List.cons_ne_nil v items)).mpr ⟨v, List.mem_cons_self, rfl⟩
    exact List.ne_nil_of_mem hmem

/-! ### Before the next colon -/

/-- What can follow a value: the next colon comes after a semicolon, or after a comma and the
beginning of an object. -/
def AfterValue : Set (List Char) :=
  {x | ∀ w z, x = w ++ ':' :: z → ';' ∈ w ∨ (',' ∈ w ∧ "object\x7b".toList ⊆ w)}

/-- The next colon comes after the beginning of an object, or after the text of a scalar or an empty
array and a semicolon. -/
def ValueFirst : Set (List Char) :=
  {x | ∀ w z, x = w ++ ':' :: z → "object\x7b".toList ⊆ w ∨
    (';' ∈ w ∧ ("array[empty_array]".toList ⊆ w ∨ ∃ k, (primitiveType k).toList ⊆ w))}

/-- A text without a colon comes before the next colon. -/
theorem split_colon {u x w z : List Char} (hu : ':' ∉ u) (h : u ++ x = w ++ ':' :: z) :
    ∃ w', w = u ++ w' ∧ x = w' ++ ':' :: z := by
  obtain ⟨w', hw, hx⟩ | ⟨c, hc, hz⟩ := List.append_eq_append_iff.mp h
  · exact ⟨w', hw, hx⟩
  · cases c with
    | nil => exact ⟨[], by simpa using hc.symm, by simpa using hz.symm⟩
    | cons d c =>
      have hd : ':' = d := (List.cons.inj hz).1
      exact absurd (hc ▸ List.mem_append_right w (hd ▸ List.mem_cons_self)) hu

theorem AfterValue.append {u : List Char} (hu : ':' ∉ u) {x : List Char} (hx : x ∈ AfterValue) :
    u ++ x ∈ AfterValue := by
  intro w z he
  obtain ⟨w', rfl, hx'⟩ := split_colon hu he
  have hmore : w' ⊆ u ++ w' := List.subset_append_right u w'
  obtain h | ⟨hcomma, hobject⟩ := hx w' z hx'
  · exact .inl (hmore h)
  · exact .inr ⟨hmore hcomma, List.Subset.trans hobject hmore⟩

theorem AfterValue.semicolon (x : List Char) : ';' :: x ∈ AfterValue := by
  intro w z he
  obtain ⟨w', rfl, -⟩ := split_colon (u := [';']) (by decide) he
  exact .inl List.mem_cons_self

/-- A further item of an array. -/
theorem AfterValue.comma {x : List Char} (hx : x ∈ ValueFirst) : ',' :: x ∈ AfterValue := by
  intro w z he
  obtain ⟨w', rfl, hx'⟩ := split_colon (u := [',']) (by decide) he
  obtain hobject | ⟨hsemicolon, -⟩ := hx w' z hx'
  · exact .inr ⟨List.mem_cons_self, List.subset_cons_of_subset _ hobject⟩
  · exact .inl (List.mem_cons_of_mem _ hsemicolon)

/-- Something in front of a value. -/
theorem ValueFirst.append {u : List Char} (hu : ':' ∉ u) {x : List Char} (hx : x ∈ ValueFirst) :
    u ++ x ∈ ValueFirst := by
  intro w z he
  obtain ⟨w', rfl, hx'⟩ := split_colon hu he
  have hmore : w' ⊆ u ++ w' := List.subset_append_right u w'
  obtain hobject | ⟨hsemicolon, hempty | ⟨k, hk⟩⟩ := hx w' z hx'
  · exact .inl (List.Subset.trans hobject hmore)
  · exact .inr ⟨hmore hsemicolon, .inl (List.Subset.trans hempty hmore)⟩
  · exact .inr ⟨hmore hsemicolon, .inr ⟨k, List.Subset.trans hk hmore⟩⟩

/-- The text of a scalar or an empty array. -/
theorem ValueFirst.leaf {u : List Char} (hu : ':' ∉ u)
    (hleaf : "array[empty_array]".toList ⊆ u ∨ ∃ k, (primitiveType k).toList ⊆ u) {x : List Char}
    (hx : x ∈ AfterValue) : u ++ x ∈ ValueFirst := by
  intro w z he
  obtain ⟨w', rfl, hx'⟩ := split_colon hu he
  have hless : u ⊆ u ++ w' := List.subset_append_left u w'
  have hmore : w' ⊆ u ++ w' := List.subset_append_right u w'
  obtain hsemicolon | ⟨-, hobject⟩ := hx w' z hx'
  · obtain hempty | ⟨k, hk⟩ := hleaf
    · exact .inr ⟨hmore hsemicolon, .inl (List.Subset.trans hempty hless)⟩
    · exact .inr ⟨hmore hsemicolon, .inr ⟨k, List.Subset.trans hk hless⟩⟩
  · exact .inl (List.Subset.trans hobject hmore)

/-- **A value comes before the next key.** -/
theorem text_valueFirst (v : Json) {x : List Char} (hx : x ∈ AfterValue) :
    text (extractStructuralType v) ++ x ∈ ValueFirst := by
  induction v using Json.induction generalizing x with
  | scalar v k hk =>
    rw [extractStructuralType_scalar hk, text, serializeAst]
    exact ValueFirst.leaf (by cases k <;> decide) (.inr ⟨k, List.Subset.refl _⟩) hx
  | arr items ih =>
    rw [extractStructuralType_items, text_items, List.append_assoc]
    by_cases hitems : items = []
    · subst hitems
      exact ValueFirst.leaf (u := "array[empty_array]".toList) (by decide)
        (.inl (List.Subset.refl _)) hx
    · obtain ⟨s, l, hl⟩ := List.exists_cons_of_ne_nil (itemTexts_ne_nil items)
      have hvalue : ∀ s' ∈ s :: l, ∀ y ∈ AfterValue, s'.toList ++ y ∈ ValueFirst := by
        intro s' hs' y hy
        obtain ⟨v, hv, rfl⟩ := (mem_itemTexts hitems).mp (hl ▸ hs')
        exact ih v hv hy
      rw [hl, sepBy_cons, List.append_assoc]
      -- behind the first item there are other items or the end of the array
      refine ValueFirst.append (by decide) (hvalue s List.mem_cons_self _ ?_)
      refine separated_mem (fun y hy => AfterValue.append (u := [']']) (by decide) hy)
        (fun s' hs' y hy => ?_) hx
      exact AfterValue.comma (hvalue s' (List.mem_cons_of_mem s hs') y hy)
  | obj members _ =>
    intro w z he
    rw [text_obj, List.append_assoc] at he
    obtain ⟨w', rfl, -⟩ := split_colon (by decide) he
    exact .inl (List.subset_append_left _ _)

/-! ### Reading -/

/-- The character that a type begins with. -/
def initial : Json → Char
  | .null => 'n'
  | .bool _ => 'b'
  | .int _ => 'i'
  | .float _ => 'f'
  | .str _ => 's'
  | .arr _ => 'a'
  | .obj _ => 'o'

theorem head_text (v : Json) (x : List Char) :
    (text (extractStructuralType v) ++ x).head? = some (initial v) := by
  cases v with
  | arr items => rw [extractStructuralType_items, text_items]; rfl
  | obj members => rw [text_obj]; rfl
  | null => rfl
  | bool b => rw [extractStructuralType]; rfl
  | int n => rw [extractStructuralType]; rfl
  | float q => rw [extractStructuralType]; rfl
  | str s => rw [extractStructuralType]; rfl

theorem kind_of_initial {v w : Json} {k : Kind} (hk : v.kind = some k)
    (h : initial v = initial w) : w.kind = some k := by
  cases v <;> cases w <;> simp_all [initial, Json.kind]

/-- Types that begin the same text begin with the same character. -/
theorem initial_eq {v w : Json} {x y : List Char}
    (h : text (extractStructuralType v) ++ x = text (extractStructuralType w) ++ y) :
    initial v = initial w := by
  have hheads := congrArg List.head? h
  rw [head_text, head_text] at hheads
  exact Option.some.inj hheads

/-- The types of documents over an alphabet. -/
def TypesOver (A : Set Char) : Set StructuralType :=
  {t | ∃ v, KeysSpelled A v ∧ extractStructuralType v = t}

def MembersOver (A : Set Char) : Set (String × StructuralType) :=
  {e | Spelled A e.1 ∧ e.2 ∈ TypesOver A}

section Over

variable {A : Set Char}

/-- **Keys end where they end.** A key with a colon in it and a value behind the colon would make
the alphabet confusable. -/
theorem key_ends (hA : ¬Confusable A) {k k' : String} {c x z : List Char} (hk' : Spelled A k')
    (hc : k'.toList = k.toList ++ c) (hx : x ∈ ValueFirst) (he : ':' :: x = c ++ ':' :: z) :
    k = k' := by
  cases c with
  | nil => exact String.toList_injective (by simpa using hc.symm)
  | cons d c =>
    obtain ⟨rfl, hx'⟩ := List.cons.inj he
    have hlonger : ':' :: c ⊆ k'.toList := hc ▸ List.subset_append_right k.toList _
    have hcolon : ':' ∈ A := hk' _ (hlonger List.mem_cons_self)
    have hmem : ∀ a ∈ c, a ∈ A := fun a ha => hk' a (hlonger (List.mem_cons_of_mem _ ha))
    refine absurd ?_ hA
    obtain hobject | ⟨hsemicolon, hempty | ⟨kind, hkind⟩⟩ := hx c z hx'
    · exact .inl ⟨hcolon, fun a ha => hmem a (hobject ha)⟩
    · exact .inr (.inr (.inr ⟨hcolon, hmem _ hsemicolon, .inl fun a ha => hmem a (hempty ha)⟩))
    · exact .inr (.inr (.inr
        ⟨hcolon, hmem _ hsemicolon, .inr ⟨kind, fun a ha => hmem a (hkind ha)⟩⟩))

/-- **A brace begins no key.** What follows the end of an object is not a key with a colon. -/
theorem brace_begins_no_key (hA : ¬Confusable A) {e : String × StructuralType}
    (he : Spelled A e.1) {x : List Char} (hx : x ∈ AfterValue) (y : List Char) :
    '\x7d' :: x ≠ memberText e ++ y := by
  intro heq
  rw [memberText, List.append_assoc] at heq
  cases hk : e.1.toList with
  | nil =>
    rw [hk] at heq
    exact absurd (List.cons.inj heq).1 (by decide)
  | cons c w =>
    rw [hk] at heq
    obtain ⟨rfl, hx'⟩ := List.cons.inj heq
    have hbrace : '\x7d' ∈ A := he _ (hk ▸ List.mem_cons_self)
    have hmem : ∀ a ∈ w, a ∈ A := fun a ha => he a (hk ▸ List.mem_cons_of_mem _ ha)
    refine absurd ?_ hA
    obtain hsemicolon | ⟨hcomma, hobject⟩ := hx w _ hx'
    · exact .inr (.inl ⟨hmem _ hsemicolon, hbrace⟩)
    · exact .inr (.inr (.inl ⟨hbrace, hmem _ hcomma, fun a ha => hmem a (hobject ha)⟩))

/-- A member is read back where its value is. -/
theorem memberText_readsBack (hA : ¬Confusable A) {e : String × StructuralType}
    (he : e ∈ MembersOver A) (h : ReadsBackAmong (TypesOver A) AfterValue text e.2) :
    ReadsBackAmong (MembersOver A) AfterValue memberText e := by
  rintro ⟨k', t'⟩ ⟨hk', ht'⟩ x hx y hy heq
  obtain ⟨k, t⟩ := e
  obtain ⟨hk, v, hv, rfl⟩ := he
  have hkey : k = k' := by
    obtain ⟨v', hv', rfl⟩ := ht'
    simp only [memberText, List.append_assoc, List.cons_append] at heq
    obtain ⟨c, hc, hrest⟩ | ⟨c, hc, hrest⟩ := List.append_eq_append_iff.mp heq
    · exact key_ends hA hk' hc (text_valueFirst v hx) hrest
    · exact (key_ends hA hk hc (text_valueFirst v' hy) hrest).symm
  subst hkey
  simp only [memberText, List.append_assoc, List.cons_append] at heq
  obtain ⟨rfl, hxy⟩ := h t' ht' x hx y hy (List.cons.inj (List.append_cancel_left heq)).2
  exact ⟨rfl, hxy⟩

/-- The items of an array. -/
def ItemsOver (A : Set Char) : Set String :=
  {s | s = "empty_array" ∨ ∃ t ∈ TypesOver A, serializeAst t = s}

/-- No item of an array begins with the bracket that ends it. -/
theorem head_item {s : String} (hs : s ∈ ItemsOver A) (x : List Char) :
    (s.toList ++ x).head? ≠ some ']' := by
  obtain rfl | ⟨t, ⟨v, -, rfl⟩, rfl⟩ := hs
  · show some 'e' ≠ some ']'
    decide
  · rw [← text, head_text]
    cases v <;> simp [initial]

theorem item_readsBack {t : StructuralType} (ht : t ∈ TypesOver A)
    (h : ReadsBackAmong (TypesOver A) AfterValue text t) :
    ReadsBackAmong (ItemsOver A) AfterValue String.toList (serializeAst t) := by
  intro s hs x hx y hy he
  obtain ⟨v, hv, rfl⟩ := ht
  obtain rfl | ⟨t', ht', rfl⟩ := hs
  · have hhead := head_text v x
    rw [text, he] at hhead
    cases v <;> cases hhead
  · obtain ⟨hrest, hxy⟩ := h t' ht' x hx y hy he
    exact ⟨congrArg serializeAst hrest, hxy⟩

theorem emptyArray_readsBack :
    ReadsBackAmong (ItemsOver A) AfterValue String.toList "empty_array" := by
  intro s hs x _ y _ he
  obtain rfl | ⟨t, ⟨v, -, rfl⟩, rfl⟩ := hs
  · exact ⟨rfl, List.append_cancel_left he⟩
  · have hhead := head_text v y
    rw [text, ← he] at hhead
    cases v <;> cases hhead

/-- A further item of an array, with what can follow it. -/
theorem item_afterValue {s : String} (hs : s ∈ ItemsOver A) {x : List Char}
    (hx : x ∈ AfterValue) : ',' :: (s.toList ++ x) ∈ AfterValue := by
  obtain rfl | ⟨t, ⟨v, -, rfl⟩, rfl⟩ := hs
  · exact AfterValue.append (u := ",empty_array".toList) (by decide) hx
  · exact AfterValue.comma (text_valueFirst v hx)

theorem itemTexts_over {items : List Json} (h : ∀ v ∈ items, KeysSpelled A v) :
    ∀ s ∈ itemTexts items, s ∈ ItemsOver A := by
  intro s hs
  by_cases hitems : items = []
  · subst hitems
    exact .inl (List.mem_singleton.mp hs)
  · obtain ⟨v, hv, rfl⟩ := (mem_itemTexts hitems).mp hs
    exact .inr ⟨_, ⟨v, h v hv, rfl⟩, rfl⟩

theorem itemTexts_readsBack {items : List Json} (h : ∀ v ∈ items, KeysSpelled A v)
    (ih : ∀ v ∈ items, KeysSpelled A v →
      ReadsBackAmong (TypesOver A) AfterValue text (extractStructuralType v)) :
    ∀ s ∈ itemTexts items, ReadsBackAmong (ItemsOver A) AfterValue String.toList s := by
  intro s hs
  by_cases hitems : items = []
  · subst hitems
    rw [List.mem_singleton.mp hs]
    exact emptyArray_readsBack
  · obtain ⟨v, hv, rfl⟩ := (mem_itemTexts hitems).mp hs
    exact item_readsBack ⟨v, h v hv, rfl⟩ (ih v hv (h v hv))

/-- The members of an object over the alphabet. -/
theorem extractMembers_over {members : List (String × Json)}
    (h : ∀ e ∈ members, Spelled A e.1 ∧ KeysSpelled A e.2) :
    ∀ e ∈ sortByKey (extractMembers members), e ∈ MembersOver A := by
  intro e he
  rw [mem_sortByKey, extractMembers_eq, List.mem_map] at he
  obtain ⟨e', he', rfl⟩ := he
  exact ⟨(h e' he').1, e'.2, (h e' he').2, rfl⟩

theorem extractMembers_readsBack (hA : ¬Confusable A) {members : List (String × Json)}
    (h : ∀ e ∈ members, Spelled A e.1 ∧ KeysSpelled A e.2)
    (ih : ∀ e ∈ members, KeysSpelled A e.2 →
      ReadsBackAmong (TypesOver A) AfterValue text (extractStructuralType e.2)) :
    ∀ e ∈ sortByKey (extractMembers members),
      ReadsBackAmong (MembersOver A) AfterValue memberText e := by
  intro e he
  refine memberText_readsBack hA (extractMembers_over h e he) ?_
  rw [mem_sortByKey, extractMembers_eq, List.mem_map] at he
  obtain ⟨e', he', rfl⟩ := he
  exact ih e' he' (h e' he').2

/-- **Types are read back.** -/
theorem text_readsBack (hA : ¬Confusable A) (v : Json) (hv : KeysSpelled A v) :
    ReadsBackAmong (TypesOver A) AfterValue text (extractStructuralType v) := by
  induction v using Json.induction with
  | scalar v k hk =>
    rintro t ⟨w, hw, rfl⟩ x - y - he
    have hkind := kind_of_initial hk (initial_eq he)
    rw [extractStructuralType_scalar hk, extractStructuralType_scalar hkind] at he ⊢
    exact ⟨rfl, List.append_cancel_left he⟩
  | arr items ih =>
    rintro t ⟨w, hw, rfl⟩ x hx y hy he
    have hinitial := initial_eq he
    cases w with
    | arr items' =>
      rw [KeysSpelled, keysSpelledItems_iff] at hv hw
      have hne : ',' ≠ ']' := by decide
      have hitems := ReadsBackAmong.sepBy hne
        (fun z hz => AfterValue.append (u := [']']) (by decide) hz)
        (fun s hs z hz => item_afterValue hs hz)
        (fun s hs z _ u h => head_item hs u (h ▸ rfl)) (itemTexts_over hv)
        (itemTexts_readsBack hv ih)
      rw [extractStructuralType_items, extractStructuralType_items] at he ⊢
      rw [text_items, text_items, List.append_assoc, List.append_assoc] at he
      obtain ⟨hl, hxy⟩ := hitems _ (itemTexts_over hw) x hx y hy (List.append_cancel_left he)
      exact ⟨congrArg StructuralType.items hl, hxy⟩
    | _ => cases hinitial
  | obj members ih =>
    rintro t ⟨w, hw, rfl⟩ x hx y hy he
    have hinitial := initial_eq he
    cases w with
    | obj members' =>
      rw [KeysSpelled, keysSpelledMembers_iff] at hv hw
      have hne : ';' ≠ '\x7d' := by decide
      have hmembers := ReadsBackAmong.sepBy hne
        (fun z hz => AfterValue.append (u := ['\x7d']) (by decide) hz)
        (fun e _ z _ => AfterValue.semicolon (memberText e ++ z))
        (fun e he z hz u => brace_begins_no_key hA he.1 hz u) (extractMembers_over hv)
        (extractMembers_readsBack hA hv ih)
      rw [text_obj, text_obj, List.append_assoc, List.append_assoc] at he
      obtain ⟨hl, hxy⟩ := hmembers _ (extractMembers_over hw) x hx y hy
        (List.append_cancel_left he)
      rw [extractStructuralType, extractStructuralType]
      exact ⟨congrArg StructuralType.members hl, hxy⟩
    | _ => cases hinitial

/-- **Sufficiency.** Over an alphabet that is not confusable one structural string is one type. -/
theorem extractStructuralType_eq_of_structuralString_eq (hA : ¬Confusable A) {p q : Payload}
    (hp : KeysSpelled A p.json) (hq : KeysSpelled A q.json)
    (he : structuralString p = structuralString q) :
    extractStructuralType p.json = extractStructuralType q.json := by
  rw [Payload.json, KeysSpelled, keysSpelledMembers_iff] at hp hq
  have hlists : (sortByKey (extractMembers p.members)).flatMap (fun e => memberText e ++ [';']) =
      (sortByKey (extractMembers q.members)).flatMap fun e => memberText e ++ [';'] := by
    rw [← toList_structuralString, ← toList_structuralString, he]
  have hread : ∀ e ∈ sortByKey (extractMembers p.members),
      ReadsBackAmong (MembersOver A) Set.univ (fun e => memberText e ++ [';']) e := by
    intro e he
    refine (extractMembers_readsBack hA hp (fun e _ hv => text_readsBack hA e.2 hv) e he).trail
      [';'] fun x _ => ?_
    exact AfterValue.semicolon x
  have hmembers := ReadsBackAmong.flatMap_eq (by simp) hread (extractMembers_over hq) hlists
  rw [Payload.json, Payload.json, extractStructuralType, extractStructuralType, hmembers]

end Over

/-! ### Confused payloads -/

/-- Two payloads over the alphabet have one structural string and different types. -/
def Confused (A : Set Char) : Prop :=
  ∃ p q : Payload, KeysSpelled A p.json ∧ KeysSpelled A q.json ∧
    structuralString p = structuralString q ∧
    extractStructuralType p.json ≠ extractStructuralType q.json

/-- The keys of an object, in order. -/
def StructuralType.keys : StructuralType → List String
  | .members l => l.map Prod.fst
  | _ => []

/-- How many items the arrays directly below an object have. -/
def StructuralType.itemCounts : StructuralType → List ℕ
  | .members l => l.map fun e => match e.2 with
    | .items texts => texts.length
    | _ => 0
  | _ => []

/-- `{":object{": {"": 1}}` and `{"": {":object{": 1}}`. -/
theorem confused_object {A : Set Char} (hcolon : ':' ∈ A) (hobject : Spelled A "object\x7b") :
    Confused A := by
  have hkey : Spelled A ":object\x7b" := by
    intro c hc
    obtain rfl | hc := List.mem_cons.mp (show c ∈ ':' :: "object\x7b".toList from hc)
    · exact hcolon
    · exact hobject c hc
  refine ⟨⟨[(":object\x7b", .obj [("", .int 1)])], by
      simp [Json.UniqueKeys, UniqueKeysMembers]⟩,
    ⟨[("", .obj [(":object\x7b", .int 1)])], by simp [Json.UniqueKeys, UniqueKeysMembers]⟩,
    ?_, ?_, by decide, ne_of_apply_ne StructuralType.keys (by decide)⟩
  · simpa [Payload.json, KeysSpelled, KeysSpelledMembers, Spelled] using hkey
  · simpa [Payload.json, KeysSpelled, KeysSpelledMembers, Spelled] using hkey

/-- `{"": {}, ";": {"};}}": 1}}` and `{"": {"};;": {}, "}}": 1}}`. -/
theorem confused_semicolon {A : Set Char} (hsemicolon : ';' ∈ A) (hbrace : '\x7d' ∈ A) :
    Confused A := by
  have hkey : ∀ s : String, (∀ c ∈ s.toList, c = ';' ∨ c = '\x7d') → Spelled A s := by
    intro s hs c hc
    obtain rfl | rfl := hs c hc
    · exact hsemicolon
    · exact hbrace
  refine ⟨⟨[("", .obj []), (";", .obj [("\x7d;\x7d\x7d", .int 1)])], by
      simp [Json.UniqueKeys, UniqueKeysMembers]⟩,
    ⟨[("", .obj [("\x7d;;", .obj []), ("\x7d\x7d", .int 1)])], by
      simp [Json.UniqueKeys, UniqueKeysMembers]⟩, ?_, ?_, by decide,
    ne_of_apply_ne StructuralType.keys (by decide)⟩
  · exact ⟨hkey _ (by simp), ⟨⟩, hkey _ (by simp), ⟨hkey _ (by simp), ⟨⟩, ⟨⟩⟩, ⟨⟩⟩
  · exact ⟨hkey _ (by simp), ⟨hkey _ (by simp), ⟨⟩, hkey _ (by simp), ⟨⟩, ⟨⟩⟩, ⟨⟩⟩

/-- `{"": [{}, {"}": 1}]}` and `{"": [{"},object{}": 1}]}`. -/
theorem confused_comma {A : Set Char} (hbrace : '\x7d' ∈ A) (hcomma : ',' ∈ A)
    (hobject : Spelled A "object\x7b") : Confused A := by
  have hkey : ∀ s : String, (∀ c ∈ s.toList, c = '\x7d' ∨ c = ',' ∨ c ∈ "object\x7b".toList) →
      Spelled A s := by
    intro s hs c hc
    obtain rfl | rfl | h := hs c hc
    · exact hbrace
    · exact hcomma
    · exact hobject c h
  refine ⟨⟨[("", .arr [.obj [], .obj [("\x7d", .int 1)]])], by
      simp [Json.UniqueKeys, UniqueKeysMembers, UniqueKeysItems]⟩,
    ⟨[("", .arr [.obj [("\x7d,object\x7b\x7d", .int 1)]])], by
      simp [Json.UniqueKeys, UniqueKeysMembers, UniqueKeysItems]⟩, ?_, ?_, by decide,
    ne_of_apply_ne StructuralType.itemCounts (by decide)⟩
  · exact ⟨hkey _ (by simp), ⟨⟨⟩, ⟨hkey _ (by simp), ⟨⟩, ⟨⟩⟩, ⟨⟩⟩, ⟨⟩⟩
  · exact ⟨hkey _ (by simp), ⟨⟨hkey _ (by simp), ⟨⟩, ⟨⟩⟩, ⟨⟩⟩, ⟨⟩⟩

/-- The string of a payload of known type. -/
theorem structuralString_of_type {p : Payload} {l : List (String × StructuralType)}
    (h : extractStructuralType p.json = .members l) :
    structuralString p = String.join (l.map fun e => e.1 ++ ":" ++ serializeAst e.2 ++ ";") := by
  rw [Payload.json, extractStructuralType] at h
  rw [structuralString, StructuralType.members.inj h]

/-- `{"": v, ";": 1}` and `{":T;;": 1}` where `T` is the text of `v`. -/
theorem confused_value {A : Set Char} (hcolon : ':' ∈ A) (hsemicolon : ';' ∈ A) {v : Json}
    (hunique : v.UniqueKeys) (hkeys : KeysSpelled A v)
    (htext : Spelled A (serializeAst (extractStructuralType v))) : Confused A := by
  have hsemi : Spelled A ";" := fun c hc => List.mem_singleton.mp hc ▸ hsemicolon
  have hkey : Spelled A (":" ++ serializeAst (extractStructuralType v) ++ ";;") := by
    intro c hc
    rw [String.toList_append, String.toList_append, List.mem_append, List.mem_append] at hc
    obtain (hc | hc) | hc := hc
    · exact List.mem_singleton.mp hc ▸ hcolon
    · exact htext c hc
    · obtain rfl : c = ';' := by simpa using hc
      exact hsemicolon
  let p : Payload := ⟨[("", v), (";", .int 1)], by
    simpa [Json.UniqueKeys, UniqueKeysMembers] using hunique⟩
  let q : Payload := ⟨[(":" ++ serializeAst (extractStructuralType v) ++ ";;", .int 1)], by
    simp [Json.UniqueKeys, UniqueKeysMembers]⟩
  have hlt : "" < ";" := by decide
  have hp : extractStructuralType p.json =
      .members [("", extractStructuralType v), (";", .name "int")] := by
    rw [Payload.json, extractStructuralType_obj]
    exact congrArg _ (sortByKey_of_keysSorted (List.pairwise_pair.mpr hlt))
  have hq : extractStructuralType q.json =
      .members [(":" ++ serializeAst (extractStructuralType v) ++ ";;", .name "int")] := by
    rw [Payload.json, extractStructuralType_obj]
    rfl
  have htail : ";" ++ (";" ++ (":" ++ ("int" ++ ";"))) = ";;" ++ (":" ++ ("int" ++ ";")) := by
    decide
  refine ⟨p, q, ⟨fun c hc => absurd hc (by simp), hkeys, hsemi, ⟨⟩, ⟨⟩⟩, ⟨hkey, ⟨⟩, ⟨⟩⟩, ?_, ?_⟩
  · rw [structuralString_of_type hp, structuralString_of_type hq]
    simp only [List.map_cons, List.map_nil, String.join_cons, String.join_nil, serializeAst,
      String.empty_append, String.append_empty, String.append_assoc, htail]
  · rw [hp, hq]
    exact ne_of_apply_ne (fun t => t.keys.length) (by simp [StructuralType.keys])

/-- **Necessity.** Over a confusable alphabet there are confused payloads. -/
theorem Confusable.confused {A : Set Char} (h : Confusable A) : Confused A := by
  obtain ⟨hcolon, hobject⟩ | ⟨hsemicolon, hbrace⟩ | ⟨hbrace, hcomma, hobject⟩ |
    ⟨hcolon, hsemicolon, hempty | ⟨k, hk⟩⟩ := h
  · exact confused_object hcolon hobject
  · exact confused_semicolon hsemicolon hbrace
  · exact confused_comma hbrace hcomma hobject
  · exact confused_value (v := .arr []) hcolon hsemicolon ⟨⟩ ⟨⟩ hempty
  · cases k with
    | null => exact confused_value (v := .null) hcolon hsemicolon ⟨⟩ ⟨⟩ hk
    | boolean => exact confused_value (v := .bool true) hcolon hsemicolon ⟨⟩ ⟨⟩ hk
    | integer => exact confused_value (v := .int 1) hcolon hsemicolon ⟨⟩ ⟨⟩ hk
    | number => exact confused_value (v := .float 1) hcolon hsemicolon ⟨⟩ ⟨⟩ hk
    | string => exact confused_value (v := .str "") hcolon hsemicolon ⟨⟩ ⟨⟩ hk

/-- **When the structural string is unambiguous.** For payloads whose keys are spelled with an
alphabet, equal structural strings are strings of equal types exactly when the alphabet is not
confusable. -/
theorem structuralString_unambiguous_iff (A : Set Char) :
    (∀ p q : Payload, KeysSpelled A p.json → KeysSpelled A q.json →
      structuralString p = structuralString q →
        extractStructuralType p.json = extractStructuralType q.json) ↔ ¬Confusable A := by
  constructor
  · intro h hA
    obtain ⟨p, q, hp, hq, he, hne⟩ := hA.confused
    exact hne (h p q hp hq he)
  · intro hA p q hp hq he
    exact extractStructuralType_eq_of_structuralString_eq hA hp hq he

/-- `{"a": 1, "b": 2}` and `{"a:int;b": 2}` have one structural string. -/
theorem two_members_or_one : ¬ ∀ p q : Payload, structuralString p = structuralString q →
    extractStructuralType p.json = extractStructuralType q.json := by
  intro h
  have he := h ⟨[("a", .int 1), ("b", .int 2)], by simp [Json.UniqueKeys, UniqueKeysMembers]⟩
    ⟨[("a:int;b", .int 2)], by simp [Json.UniqueKeys, UniqueKeysMembers]⟩ (by decide)
  exact absurd (congrArg StructuralType.keys he) (by decide)

/-- The legacy fingerprint: over such an alphabet a hash without collisions gives two payloads one
fingerprint exactly when their types are equal. -/
theorem fingerprintSchema_eq_iff {A : Set Char} (hA : ¬Confusable A) {cfg : Runtime.Config}
    (hsha : Function.Injective cfg.sha256) {p q : Payload} (hp : KeysSpelled A p.json)
    (hq : KeysSpelled A q.json) : cfg.fingerprintSchema p = cfg.fingerprintSchema q ↔
      extractStructuralType p.json = extractStructuralType q.json :=
  ⟨fun he => extractStructuralType_eq_of_structuralString_eq hA hp hq (hsha he),
    fun he => congrArg cfg.sha256 (structuralString_congr he)⟩

end Driftgate.Core
