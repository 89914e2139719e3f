import Driftgate.Schema.Verdict

/-!
# Lost leaves

A payload loses a leaf of an earlier one when a scalar of the earlier payload is gone, has become a
container, or has changed its type other than to or from null and from integer to number. The
verdict on such a pair should be BREAKING. It is whenever the keys of both payloads are plain:
then a leaf is visible and alone under its path string.

A member named `type` hides everything beside it and below it, and a key with a dot in it can give
two locations one path string. What the verdict is then is the condition of
`verdict_of_lost_leaf_iff`.
-/

namespace Driftgate.Schema

open Driftgate.Lib

/-- What became of a scalar of kind `k` makes it a lost leaf. -/
def Lost (k : Kind) : Option Json → Prop
  | none => True
  | some w => ∀ k', w.kind = some k' →
      k ≠ k' ∧ k ≠ .null ∧ k' ≠ .null ∧ ¬(k = .integer ∧ k' = .number)

/-- Some scalar leaf of `v` is lost in `w`. -/
def LosesLeaf (v w : Json) : Prop :=
  ∃ ℓ leaf k, v.at ℓ = some leaf ∧ leaf.kind = some k ∧ Lost k (w.at ℓ)

/-! ### Plain keys -/

/-- A key that neither collides with a type marker nor with the syntax of path strings. -/
def PlainKey (k : String) : Prop :=
  k ≠ "type" ∧ k ≠ "" ∧ '.' ∉ k.toList ∧ '[' ∉ k.toList

mutual

/-- Every key of the document is plain. -/
def Json.PlainKeys : Json → Prop
  | .arr items => PlainKeysItems items
  | .obj members => PlainKeysMembers members
  | _ => True

def PlainKeysItems : List Json → Prop
  | [] => True
  | v :: items => v.PlainKeys ∧ PlainKeysItems items

def PlainKeysMembers : List (String × Json) → Prop
  | [] => True
  | (k, v) :: members => (PlainKey k ∧ v.PlainKeys) ∧ PlainKeysMembers members

end

theorem plainKeysItems_iff {items : List Json} :
    PlainKeysItems items ↔ ∀ v ∈ items, v.PlainKeys := by
  induction items with
  | nil => simp [PlainKeysItems]
  | cons v items ih => simp [PlainKeysItems, ih]

theorem plainKeysMembers_iff {members : List (String × Json)} :
    PlainKeysMembers members ↔ ∀ e ∈ members, PlainKey e.1 ∧ e.2.PlainKeys := by
  induction members with
  | nil => simp [PlainKeysMembers]
  | cons e members ih =>
    obtain ⟨k, v⟩ := e
    simp [PlainKeysMembers, ih]

theorem Json.PlainKeys.lookup_type {members : List (String × Json)}
    (h : (Json.obj members).PlainKeys) : members.lookup "type" = none := by
  rw [Json.PlainKeys, plainKeysMembers_iff] at h
  by_contra hc
  obtain ⟨v, hv⟩ := Option.ne_none_iff_exists'.mp hc
  exact (h _ (mem_of_lookup hv)).1.1 rfl

/-- Every key of the location is plain. -/
def PlainLocation (ℓ : Location) : Prop := ∀ k, .key k ∈ ℓ → PlainKey k

theorem Json.PlainKeys.child {v w : Json} {s : Step} (h : v.PlainKeys) (hc : v.child s = some w) :
    w.PlainKeys ∧ ∀ k, s = .key k → PlainKey k := by
  cases v with
  | arr items =>
    cases s with
    | key k => simp [Json.child] at hc
    | index i =>
      rw [Json.PlainKeys, plainKeysItems_iff] at h
      exact ⟨h w (List.mem_of_getElem? (by simpa [Json.child] using hc)), by simp⟩
  | obj members =>
    cases s with
    | key k =>
      rw [Json.PlainKeys, plainKeysMembers_iff] at h
      obtain ⟨hk, hw⟩ := h _ (mem_of_lookup (by simpa [Json.child] using hc))
      exact ⟨hw, by rintro k ⟨⟩; exact hk⟩
    | index i => simp [Json.child] at hc
  | _ => simp [Json.child] at hc

theorem Json.PlainKeys.at {v w : Json} {ℓ : Location} (h : v.PlainKeys) (ha : v.at ℓ = some w) :
    w.PlainKeys ∧ PlainLocation ℓ := by
  induction ℓ generalizing v with
  | nil =>
    rw [Json.at_nil] at ha
    exact ⟨Option.some.inj ha ▸ h, by simp [PlainLocation]⟩
  | cons s ℓ ih =>
    rw [Json.at_cons] at ha
    obtain ⟨u, hu, ha⟩ := Option.bind_eq_some_iff.mp ha
    obtain ⟨hu', hs⟩ := h.child hu
    obtain ⟨hw, hℓ⟩ := ih hu' ha
    refine ⟨hw, fun k hk => ?_⟩
    rcases List.mem_cons.mp hk with hk | hk
    · exact hs k hk.symm
    · exact hℓ k hk

/-- Under plain keys everything but the objects is visible. -/
theorem mem_visible_of_at {v w : Json} {ℓ : Location} :
    v.PlainKeys → v.UniqueKeys → v.at ℓ = some w → (∀ members, w ≠ .obj members) →
      (ℓ, w) ∈ visible v := by
  induction v using Json.induction generalizing ℓ with
  | scalar v k hk =>
    intro _ _ ha _
    cases ℓ with
    | nil =>
      rw [Json.at_nil, Option.some.injEq] at ha
      rw [visible_scalar hk, ha]
      exact List.mem_singleton_self _
    | cons s ℓ => simp [Json.at_cons, Json.child_scalar hk] at ha
  | arr items ih =>
    intro hp hu ha ho
    rw [Json.PlainKeys, plainKeysItems_iff] at hp
    rw [Json.UniqueKeys, uniqueKeysItems_iff] at hu
    rw [visible, List.mem_cons]
    cases ℓ with
    | nil => exact .inl (by simpa using ha.symm)
    | cons s ℓ =>
      rw [Json.at_cons] at ha
      obtain ⟨u, hc, hu'⟩ := Option.bind_eq_some_iff.mp ha
      cases s with
      | key k => simp [Json.child] at hc
      | index i =>
        rw [Json.child] at hc
        have hm := List.mem_of_getElem? hc
        refine .inr (mem_visibleItems.mpr ⟨i, u, ℓ, hc, by rw [Nat.zero_add], ?_⟩)
        exact ih u hm (hp u hm) (hu u hm) hu' ho
  | obj members ih =>
    intro hp hu ha ho
    rw [visible_obj hp.lookup_type, List.mem_flatMap]
    rw [Json.PlainKeys, plainKeysMembers_iff] at hp
    rw [Json.UniqueKeys, uniqueKeysMembers_iff] at hu
    cases ℓ with
    | nil => exact absurd (by simpa using ha.symm) (ho members)
    | cons s ℓ =>
      rw [Json.at_cons] at ha
      obtain ⟨u, hc, hu'⟩ := Option.bind_eq_some_iff.mp ha
      cases s with
      | key k =>
        rw [Json.child] at hc
        have hm := mem_of_lookup hc
        refine ⟨(k, u), mem_sortByKey.mpr hm, mem_under.mpr ⟨ℓ, rfl, ?_⟩⟩
        exact ih (k, u) hm (hp _ hm).2 (hu.2 _ hm) hu' ho
      | index i => simp [Json.child] at hc

/-- Under plain keys no object is visible. -/
theorem not_obj_of_mem_visible {v w : Json} {ℓ : Location} (hp : v.PlainKeys) (hu : v.UniqueKeys)
    (h : (ℓ, w) ∈ visible v) (members : List (String × Json)) : w ≠ .obj members := by
  rintro rfl
  obtain ⟨ha, harr⟩ := at_of_mem_visible hu h
  obtain ⟨items, hi⟩ := harr rfl (hp.at ha).1.lookup_type
  cases hi

/-! ### Path strings of plain locations -/

/-- What one step adds to a path string that is not empty. -/
def stepText : Step → List Char
  | .key k => '.' :: k.toList
  | .index i => '[' :: '*' :: (toString i).toList ++ [']']

theorem pathFrom_toList {path : String} (h : path ≠ "") (ℓ : Location) :
    (pathFrom path ℓ).toList = path.toList ++ ℓ.flatMap stepText := by
  induction ℓ generalizing path with
  | nil => simp [pathFrom, orRoot, h]
  | cons s ℓ ih =>
    have hlong : ∀ t : String, path ++ t ≠ "" := by
      intro t ht
      exact h (String.append_eq_empty_iff.mp ht).1
    cases s with
    | key k =>
      have hk : keyPath path k = path ++ ("." ++ k) := by
        simp [keyPath, h, String.append_assoc, toString]
      rw [pathFrom, hk, ih (hlong _)]
      simp [stepText]
    | index i =>
      have hi : indexPath path i = path ++ ("[*" ++ toString i ++ "]") := by
        simp [indexPath, h, String.append_assoc, toString]
      rw [pathFrom, hi, ih (hlong _)]
      simp [stepText]

/-- Text up to the first character outside `P` can be read back. -/
theorem append_inj_of_stop {P : Char → Bool} {a b s t : List Char} (ha : ∀ c ∈ a, P c)
    (hb : ∀ c ∈ b, P c) (hs : s.takeWhile P = []) (ht : t.takeWhile P = [])
    (h : a ++ s = b ++ t) : a = b ∧ s = t := by
  have htake := congrArg (List.takeWhile P) h
  rw [List.takeWhile_append_of_pos ha, List.takeWhile_append_of_pos hb, hs, ht, List.append_nil,
    List.append_nil] at htake
  subst htake
  exact ⟨rfl, List.append_cancel_left h⟩

/-- The characters of a plain key. -/
def plainChar (c : Char) : Bool := c ≠ '.' && c ≠ '['

theorem PlainKey.plainChar {k : String} (h : PlainKey k) : ∀ c ∈ k.toList, plainChar c := by
  intro c hc
  have hdot : c ≠ '.' := fun he => h.2.2.1 (he ▸ hc)
  have hbracket : c ≠ '[' := fun he => h.2.2.2 (he ▸ hc)
  simp [Schema.plainChar, hdot, hbracket]

/-- A step begins with a character that ends a key. -/
theorem takeWhile_stepText (ℓ : Location) : (ℓ.flatMap stepText).takeWhile plainChar = [] := by
  cases ℓ with
  | nil => rfl
  | cons s ℓ =>
    cases s with
    | key k => simp [stepText, plainChar]
    | index i => simp [stepText, plainChar]

theorem digits_ne_bracket (i : ℕ) : ∀ c ∈ (toString i).toList, (c ≠ ']' : Bool) := by
  intro c hc
  have hm : c ∈ Nat.toDigits 10 i := by rwa [← Nat.toList_repr]
  have hd : c.isDigit := Nat.isDigit_of_mem_toDigits (by decide) (by decide) hm
  rw [decide_eq_true_eq]
  rintro rfl
  exact absurd hd (by decide)

theorem toString_injective {i j : ℕ} (h : (toString i).toList = (toString j).toList) : i = j := by
  have hd : Nat.toDigits 10 i = Nat.toDigits 10 j := by
    rw [← Nat.toList_repr, ← Nat.toList_repr]
    exact h
  rw [← @Nat.ofDigitChars_ten_toDigits i, hd, Nat.ofDigitChars_ten_toDigits]

theorem stepText_injective {ℓ ℓ' : Location} (h : PlainLocation ℓ) (h' : PlainLocation ℓ')
    (heq : ℓ.flatMap stepText = ℓ'.flatMap stepText) : ℓ = ℓ' := by
  induction ℓ generalizing ℓ' with
  | nil =>
    cases ℓ' with
    | nil => rfl
    | cons s ℓ' => cases s <;> simp [stepText] at heq
  | cons s ℓ ih =>
    have hℓ : PlainLocation ℓ := fun k hk => h k (List.mem_cons_of_mem s hk)
    cases ℓ' with
    | nil => cases s <;> simp [stepText] at heq
    | cons s' ℓ' =>
      have hℓ' : PlainLocation ℓ' := fun k hk => h' k (List.mem_cons_of_mem s' hk)
      rw [List.flatMap_cons, List.flatMap_cons] at heq
      cases s with
      | key k =>
        cases s' with
        | key k' =>
          have hk := h k List.mem_cons_self
          have hk' := h' k' List.mem_cons_self
          simp only [stepText, List.cons_append, List.cons.injEq, true_and] at heq
          obtain ⟨hkk, hrest⟩ := append_inj_of_stop hk.plainChar hk'.plainChar
            (takeWhile_stepText ℓ) (takeWhile_stepText ℓ') heq
          rw [String.toList_inj.mp hkk, ih hℓ hℓ' hrest]
        | index i => simp [stepText] at heq
      | index i =>
        cases s' with
        | key k => simp [stepText] at heq
        | index i' =>
          simp only [stepText, List.cons_append, List.cons.injEq, true_and,
            List.append_assoc] at heq
          obtain ⟨hii, hrest⟩ := append_inj_of_stop (digits_ne_bracket i) (digits_ne_bracket i')
            (by simp) (by simp) heq
          rw [toString_injective hii, ih hℓ hℓ' (by simpa using hrest)]

/-- **Path strings.** Under plain keys the locations of payloads have different path strings. -/
theorem pathOf_injective {p q : Payload} (hp : p.json.PlainKeys) (hq : q.json.PlainKeys)
    {ℓ ℓ' : Location} {v w : Json} (hv : (ℓ, v) ∈ visible p.json) (hw : (ℓ', w) ∈ visible q.json)
    (h : pathOf ℓ = pathOf ℓ') : ℓ = ℓ' := by
  have hstart : ∀ (r : Payload) ℓ u, r.json.PlainKeys → (ℓ, u) ∈ visible r.json →
      PlainLocation ℓ ∧ ∃ k ℓ₁, ℓ = .key k :: ℓ₁ := by
    intro r ℓ u hr hu
    have ha := (at_of_mem_visible r.uniqueKeys hu).1
    refine ⟨(hr.at ha).2, ?_⟩
    cases ℓ with
    | nil =>
      rw [Json.at_nil, Option.some.injEq] at ha
      exact absurd ha.symm (not_obj_of_mem_visible hr r.uniqueKeys hu r.members)
    | cons s ℓ =>
      cases s with
      | key k => exact ⟨k, ℓ, rfl⟩
      | index i => simp [Json.at_cons, Payload.json, Json.child] at ha
  obtain ⟨hℓ, k, ℓ₁, rfl⟩ := hstart p ℓ v hp hv
  obtain ⟨hℓ', k', ℓ₁', rfl⟩ := hstart q ℓ' w hq hw
  have hk := hℓ k List.mem_cons_self
  have hk' := hℓ' k' List.mem_cons_self
  have htext : k.toList ++ ℓ₁.flatMap stepText = k'.toList ++ ℓ₁'.flatMap stepText := by
    rw [← pathFrom_toList hk.2.1, ← pathFrom_toList hk'.2.1]
    exact congrArg String.toList h
  obtain ⟨hkk, hrest⟩ := append_inj_of_stop hk.plainChar hk'.plainChar
    (takeWhile_stepText ℓ₁) (takeWhile_stepText ℓ₁') htext
  rw [String.toList_inj.mp hkk, stepText_injective (fun k hk => hℓ k (List.mem_cons_of_mem _ hk))
    (fun k hk => hℓ' k (List.mem_cons_of_mem _ hk)) hrest]

/-- Under plain keys a path string shows what is visible at its location, and nothing else. -/
theorem shown_pathOf {p q : Payload} (hp : p.json.PlainKeys) (hq : q.json.PlainKeys)
    {ℓ : Location} {v w : Json} (hv : (ℓ, v) ∈ visible p.json)
    (hw : shown q.json (pathOf ℓ) = some w) : q.json.at ℓ = some w ∧ ∀ m, w ≠ .obj m := by
  obtain ⟨e, he, heq⟩ := List.mem_map.mp (mem_of_lastBinding hw)
  obtain ⟨hpath, rfl⟩ := Prod.mk.inj heq
  rw [pathOf_injective hp hq hv he hpath.symm]
  exact ⟨(at_of_mem_visible q.uniqueKeys he).1, not_obj_of_mem_visible hq q.uniqueKeys he⟩

theorem shown_of_mem_visible {p q : Payload} (hp : p.json.PlainKeys) (hq : q.json.PlainKeys)
    {ℓ : Location} {v w : Json} (hv : (ℓ, v) ∈ visible p.json) (hw : (ℓ, w) ∈ visible q.json) :
    shown q.json (pathOf ℓ) = some w := by
  refine lastBinding_of_mem (List.mem_map.mpr ⟨(ℓ, w), hw, rfl⟩) fun u hu => ?_
  obtain ⟨e, he, heq⟩ := List.mem_map.mp hu
  obtain ⟨hpath, rfl⟩ := Prod.mk.inj heq
  have hℓ := pathOf_injective hp hq hv he hpath.symm
  have he := (at_of_mem_visible q.uniqueKeys he).1
  rw [← hℓ, (at_of_mem_visible q.uniqueKeys hw).1] at he
  exact (Option.some.inj he).symm

/-! ### The verdict on a lost leaf -/

theorem Kind.name_injective {k k' : Kind} (h : k.name = k'.name) : k = k' := by
  cases k <;> cases k' <;> first | rfl | exact absurd h (by decide)

section TypeName

variable (printable : Char → Bool)

theorem typeName_scalar {v : Json} {k : Kind} (h : v.kind = some k) :
    typeName printable v = k.name := by
  rw [typeName, marker_scalar h]
  cases k <;> rfl

theorem typeName_arr (items : List Json) : typeName printable (.arr items) = "array" := rfl

/-- A leaf that is lost breaks at its path, unless what is there now is an object. -/
theorem breaksAt_of_lost {v : Json} {k : Kind} (hv : v.kind = some k) {o : Option Json}
    (ho : ∀ w ∈ o, ∀ members, w ≠ .obj members) (h : Lost k o) :
    BreaksAt printable (some v) o := by
  cases o with
  | none =>
    rw [BreaksAt, MarkedOptional]
    cases v <;> simp_all [Json.kind, Json.get?]
  | some w =>
    refine .inl ?_
    cases hw : w.kind with
    | some k' =>
      obtain ⟨hne, -, -, hwiden⟩ := h k' hw
      rw [TypeBreaks, typeName_scalar printable hv, typeName_scalar printable hw]
      refine ⟨fun he => hne (Kind.name_injective he), fun he => hwiden ?_⟩
      have hi : k.name = Kind.integer.name := he.1
      have hn : k'.name = Kind.number.name := he.2
      exact ⟨Kind.name_injective hi, Kind.name_injective hn⟩
    | none =>
      obtain ⟨items, rfl⟩ : ∃ items, w = .arr items := by
        cases w with
        | arr items => exact ⟨items, rfl⟩
        | obj members => exact absurd rfl (ho _ rfl members)
        | _ => simp [Json.kind] at hw
      rw [TypeBreaks, typeName_scalar printable hv, typeName_arr]
      cases k <;> decide

end TypeName

variable {printable : Char → Bool} {p q : Payload}

/-- Under plain keys nothing clashes: no object is shown. -/
theorem not_clashAt_of_plainKeys (hp : p.json.PlainKeys) (path : String) :
    ¬ClashAt printable (shown p.json path) (shown q.json path) := by
  intro h
  cases ho : shown p.json path with
  | none => rw [ho] at h; exact h
  | some v =>
    obtain ⟨e, he, heq⟩ := List.mem_map.mp (mem_of_lastBinding ho)
    obtain ⟨-, rfl⟩ := Prod.mk.inj heq
    cases hn : shown q.json path with
    | none => rw [ho, hn] at h; exact h
    | some w =>
      rw [ho, hn] at h
      obtain ⟨es, es', hes, -, -⟩ := h.enums
      cases hj : e.2 with
      | obj members => exact not_obj_of_mem_visible hp p.uniqueKeys he members hj
      | _ => simp [hj, Json.get?] at hes

/-- Under plain keys the path of a lost leaf breaks. -/
theorem breaksAt_of_plainKeys (hp : p.json.PlainKeys) (hq : q.json.PlainKeys)
    (h : LosesLeaf p.json q.json) :
    ∃ path, BreaksAt printable (shown p.json path) (shown q.json path) := by
  obtain ⟨ℓ, leaf, k, ha, hk, hlost⟩ := h
  have hobj : ∀ members, leaf ≠ .obj members := by
    rintro members rfl
    simp [Json.kind] at hk
  have hv : (ℓ, leaf) ∈ visible p.json := mem_visible_of_at hp p.uniqueKeys ha hobj
  refine ⟨pathOf ℓ, ?_⟩
  rw [shown_of_mem_visible hp hp hv hv]
  have hshown : ∀ w ∈ shown q.json (pathOf ℓ), q.json.at ℓ = some w ∧ ∀ m, w ≠ .obj m :=
    fun w hw => shown_pathOf hp hq hv hw
  refine breaksAt_of_lost printable hk (fun w hw => (hshown w hw).2) ?_
  cases ho : shown q.json (pathOf ℓ) with
  | none => trivial
  | some w => rw [← (hshown w ho).1]; exact hlost

/-- **The verdict on a lost leaf.** A lost leaf leads to BREAKING exactly when nothing clashes and
some path breaks. It always does when the keys of both payloads are plain. -/
theorem verdict_of_lost_leaf_iff (printable : Char → Bool) (p q : Payload) :
    ((LosesLeaf p.json q.json → verdict printable p q = .ok .breaking) ↔
      (LosesLeaf p.json q.json →
        (∀ path, ¬ClashAt printable (shown p.json path) (shown q.json path)) ∧
        ∃ path, BreaksAt printable (shown p.json path) (shown q.json path))) ∧
    (p.json.PlainKeys → q.json.PlainKeys →
      LosesLeaf p.json q.json → verdict printable p q = .ok .breaking) := by
  refine ⟨?_, fun hp hq h => ?_⟩
  · rw [verdict_breaking]
  · exact verdict_breaking.mpr
      ⟨fun path => not_clashAt_of_plainKeys hp path, breaksAt_of_plainKeys hp hq h⟩

/-- The keys of `{"a": 1}` are plain, so losing its leaf is BREAKING. -/
theorem verdict_of_lost_leaf_plain :
    verdict (fun _ => false) ⟨[("a", .int 1)], by simp [Json.UniqueKeys, UniqueKeysMembers]⟩
      ⟨[], by simp [Json.UniqueKeys, UniqueKeysMembers]⟩ = .ok .breaking := by
  refine (verdict_of_lost_leaf_iff _ _ _).2 ?_ ?_ ⟨[.key "a"], .int 1, .integer, rfl, rfl, ?_⟩
  · simp [Payload.json, Json.PlainKeys, PlainKeysMembers, PlainKey]
  · simp [Payload.json, Json.PlainKeys, PlainKeysMembers]
  · trivial

/-- A member named `type` hides its siblings: dropping one of them is SAFE. -/
theorem verdict_hidden_sibling :
    ¬∀ (printable : Char → Bool) (p q : Payload), LosesLeaf p.json q.json →
      verdict printable p q = .ok .breaking := by
  intro h
  have hv := h (fun _ => false)
    ⟨[("type", .str "x"), ("a", .int 1)], by simp [Json.UniqueKeys, UniqueKeysMembers]⟩
    ⟨[("type", .str "x")], by simp [Json.UniqueKeys, UniqueKeysMembers]⟩
    ⟨[.key "a"], .int 1, .integer, rfl, rfl, trivial⟩
  exact absurd hv (by decide)

end Driftgate.Schema
