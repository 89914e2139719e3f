import Driftgate.Schema.Shown

/-!
# Schemas in a JSONB column

PostgreSQL keeps the members of a JSONB object in the order of the lengths of their keys, keys of
one length in the order of their bytes. A schema is read back from its column with its dictionaries
in that order (`jsonb`).

Python's `==` compares dictionaries without regard to their order (`pyEq_jsonb_left`,
`pyEq_jsonb_right`), and what the flat dictionary has at a path is the same up to it
(`lastBinding_flatten_jsonb`): where two members of a dictionary get to one path, the key of one of
them is the beginning of the other's, and both orders have the shorter key first. Only the text of
a dictionary shows its order.
-/

namespace Driftgate.Schema

open Driftgate.Lib

/-! ### The order of keys -/

/-- The order of keys in a JSONB object. The bytes of UTF-8 have the order of the characters. -/
def JsonbLe (a b : String) : Prop :=
  a.utf8ByteSize < b.utf8ByteSize ∨ a.utf8ByteSize = b.utf8ByteSize ∧ a ≤ b

instance JsonbLe.decidable : DecidableRel JsonbLe := fun _ _ =>
  inferInstanceAs (Decidable (_ ∨ _ ∧ _))

theorem JsonbLe.total (a b : String) : JsonbLe a b ∨ JsonbLe b a := by
  obtain h | h | h := lt_trichotomy a.utf8ByteSize b.utf8ByteSize
  · exact .inl (.inl h)
  · exact (le_total a b).imp (fun hab => .inr ⟨h, hab⟩) fun hba => .inr ⟨h.symm, hba⟩
  · exact .inr (.inl h)

theorem JsonbLe.trans {a b c : String} (h : JsonbLe a b) (h' : JsonbLe b c) : JsonbLe a c := by
  obtain h | ⟨h, hab⟩ := h
  · exact .inl (h'.elim (fun h' => h.trans h') fun h' => h'.1 ▸ h)
  · obtain h' | ⟨h', hbc⟩ := h'
    · exact .inl (h ▸ h')
    · exact .inr ⟨h.trans h', hab.trans hbc⟩

/-- The members of an object in the order of JSONB. -/
def sortJsonb {α : Type*} (l : List (String × α)) : List (String × α) :=
  l.insertionSort fun a b => JsonbLe a.1 b.1

section Sorting

variable {α β : Type*} {l : List (String × α)}

theorem sortJsonb_perm (l : List (String × α)) : (sortJsonb l).Perm l :=
  List.perm_insertionSort _ l

@[simp] theorem mem_sortJsonb {e : String × α} : e ∈ sortJsonb l ↔ e ∈ l :=
  (sortJsonb_perm l).mem_iff

theorem sortJsonb_pairwise (l : List (String × α)) :
    (sortJsonb l).Pairwise fun a b => JsonbLe a.1 b.1 :=
  haveI : Std.Total fun a b : String × α => JsonbLe a.1 b.1 := ⟨fun a b => JsonbLe.total a.1 b.1⟩
  haveI : IsTrans (String × α) fun a b => JsonbLe a.1 b.1 := ⟨fun _ _ _ => JsonbLe.trans⟩
  List.pairwise_insertionSort _ l

theorem sortJsonb_map (f : String × α → β) (l : List (String × α)) :
    sortJsonb (l.map fun e => (e.1, f e)) = (sortJsonb l).map fun e => (e.1, f e) := by
  refine (List.map_insertionSort (fun a b : String × α => JsonbLe a.1 b.1)
    (fun a b : String × β => JsonbLe a.1 b.1) (fun e => (e.1, f e)) l ?_).symm
  exact fun a _ b _ => Iff.rfl

/-- Sorting again changes nothing. -/
theorem sortJsonb_sortJsonb (l : List (String × α)) : sortJsonb (sortJsonb l) = sortJsonb l :=
  List.Pairwise.insertionSort_eq (sortJsonb_pairwise l)

theorem lookup_sortJsonb (h : (l.map Prod.fst).Nodup) (k : String) :
    (sortJsonb l).lookup k = l.lookup k :=
  lookup_eq_of_perm h (sortJsonb_perm l).symm k

end Sorting

/-! ### Schemas -/

mutual

/-- What is read back of a schema that was stored in a JSONB column. -/
def jsonb : CanonicalSchema → CanonicalSchema
  | .text s => .text s
  | .flag b => .flag b
  | .items l => .items (jsonbItems l)
  | .members l => .members (sortJsonb (jsonbMembers l))

def jsonbItems : List CanonicalSchema → List CanonicalSchema
  | [] => []
  | v :: l => jsonb v :: jsonbItems l

def jsonbMembers : List (String × CanonicalSchema) → List (String × CanonicalSchema)
  | [] => []
  | (k, v) :: l => (k, jsonb v) :: jsonbMembers l

end

theorem jsonb_text (s : String) : jsonb (.text s) = .text s := rfl

theorem jsonb_flag (b : Bool) : jsonb (.flag b) = .flag b := rfl

theorem jsonb_items (l : List CanonicalSchema) : jsonb (.items l) = .items (l.map jsonb) := by
  have h : jsonbItems l = l.map jsonb := by
    induction l with
    | nil => rfl
    | cons v l ih => exact congrArg (jsonb v :: ·) ih
  exact congrArg CanonicalSchema.items h

theorem jsonb_members (l : List (String × CanonicalSchema)) :
    jsonb (.members l) = .members (sortJsonb (l.map fun e => (e.1, jsonb e.2))) := by
  have h : jsonbMembers l = l.map fun e => (e.1, jsonb e.2) := by
    induction l with
    | nil => rfl
    | cons e l ih => exact congrArg ((e.1, jsonb e.2) :: ·) ih
  exact congrArg (fun l => CanonicalSchema.members (sortJsonb l)) h

/-- A type marker has its keys in this order. -/
@[simp] theorem jsonb_leaf (type : String) (nullable : Bool) :
    jsonb (.leaf type nullable) = .leaf type nullable := by
  have hle : JsonbLe "type" "nullable" := by decide
  rw [CanonicalSchema.leaf, jsonb_members]
  simp [sortJsonb, jsonb_text, jsonb_flag, hle]

/-- What has been stored once comes back unchanged from then on. -/
theorem jsonb_jsonb (v : CanonicalSchema) : jsonb (jsonb v) = jsonb v := by
  induction v using CanonicalSchema.induction with
  | text s => rw [jsonb_text, jsonb_text]
  | flag b => rw [jsonb_flag, jsonb_flag]
  | items l ih =>
    rw [jsonb_items, jsonb_items, List.map_map]
    exact congrArg _ (List.map_congr_left ih)
  | members l ih =>
    rw [jsonb_members, jsonb_members, ← sortJsonb_map fun e => jsonb e.2, List.map_map,
      sortJsonb_sortJsonb]
    exact congrArg (fun l => CanonicalSchema.members (sortJsonb l))
      (List.map_congr_left fun e he => congrArg (Prod.mk e.1) (ih e he))

theorem jsonb_truthy (v : CanonicalSchema) : (jsonb v).truthy = v.truthy := by
  cases v with
  | text s => rw [jsonb_text]
  | flag b => rw [jsonb_flag]
  | items l => simp [jsonb_items, CanonicalSchema.truthy]
  | members l =>
    rw [jsonb_members, CanonicalSchema.truthy, CanonicalSchema.truthy,
      (sortJsonb_perm _).isEmpty_eq, List.isEmpty_map]

/-- The keys of a dictionary in canonical form are unique. -/
theorem Canonical.nodup {l : List (String × CanonicalSchema)} (h : Canonical (.members l)) :
    (l.map Prod.fst).Nodup := by
  cases h with
  | leaf type nullable => simp
  | members hl _ => exact hl.nodup

theorem Canonical.get?_jsonb {v : CanonicalSchema} (h : Canonical v) (k : String) :
    (jsonb v).get? k = (v.get? k).map jsonb := by
  cases v with
  | text s => rfl
  | flag b => rfl
  | items l => rw [jsonb_items]; rfl
  | members l =>
    rw [jsonb_members, CanonicalSchema.get?, CanonicalSchema.get?, lookup_sortJsonb, lookup_map_snd]
    simpa [List.map_map, Function.comp_def] using h.nodup

/-! ### Python equality -/

section Equality

variable {f : CanonicalSchema → CanonicalSchema} {l : List CanonicalSchema}

theorem pyEqItems_map_left (h : ∀ v ∈ l, ∀ w, pyEq (f v) w = pyEq v w)
    (l' : List CanonicalSchema) : pyEqItems (l.map f) l' = pyEqItems l l' := by
  induction l generalizing l' with
  | nil => rfl
  | cons v l ih =>
    rw [List.forall_mem_cons] at h
    cases l' with
    | nil => rfl
    | cons w l' => rw [List.map_cons, pyEqItems, pyEqItems, h.1, ih h.2]

theorem pyEqItems_map_right (h : ∀ w ∈ l, ∀ v, pyEq v (f w) = pyEq v w)
    (l' : List CanonicalSchema) : pyEqItems l' (l.map f) = pyEqItems l' l := by
  induction l generalizing l' with
  | nil => rfl
  | cons w l ih =>
    rw [List.forall_mem_cons] at h
    cases l' with
    | nil => rfl
    | cons v l' => rw [List.map_cons, pyEqItems, pyEqItems, h.1, ih h.2]

end Equality

theorem length_jsonb_members (l : List (String × CanonicalSchema)) :
    (sortJsonb (l.map fun e => (e.1, jsonb e.2))).length = l.length := by
  rw [(sortJsonb_perm _).length_eq, List.length_map]

theorem pyEq_jsonb_left (v : CanonicalSchema) : ∀ w, pyEq (jsonb v) w = pyEq v w := by
  induction v using CanonicalSchema.induction with
  | text s => intro w; rw [jsonb_text]
  | flag b => intro w; rw [jsonb_flag]
  | items l ih =>
    intro w
    rw [jsonb_items]
    cases w with
    | items l' => exact pyEqItems_map_left ih l'
    | _ => rfl
  | members l ih =>
    intro w
    rw [jsonb_members]
    cases w with
    | members l' =>
      rw [pyEq, pyEq, length_jsonb_members, Bool.eq_iff_iff, Bool.and_eq_true, Bool.and_eq_true,
        pyEqMembers_iff, pyEqMembers_iff]
      simp only [mem_sortJsonb, List.forall_mem_map]
      refine and_congr_right fun _ => forall₂_congr fun e he => ?_
      simp only [ih e he]
    | _ => rfl

theorem pyEq_jsonb_right {w : CanonicalSchema} (hw : Canonical w) :
    ∀ v, pyEq v (jsonb w) = pyEq v w := by
  induction hw with
  | leaf type nullable => intro v; rw [jsonb_leaf]
  | items _ ih =>
    intro v
    rw [jsonb_items]
    cases v with
    | items l' => exact pyEqItems_map_right ih l'
    | _ => rfl
  | @members l hl hc ih =>
    intro v
    have hlookup := fun k => (Canonical.members hl hc).get?_jsonb k
    rw [jsonb_members] at hlookup ⊢
    cases v with
    | members l' =>
      rw [pyEq, pyEq, length_jsonb_members, Bool.eq_iff_iff, Bool.and_eq_true, Bool.and_eq_true,
        pyEqMembers_iff, pyEqMembers_iff]
      refine and_congr_right fun _ => forall₂_congr fun e he => ?_
      rw [show (sortJsonb (l.map fun e => (e.1, jsonb e.2))).lookup e.1 = (l.lookup e.1).map jsonb
        from hlookup e.1]
      simp only [Option.map_eq_some_iff, exists_exists_and_eq_and]
      refine exists_congr fun w => and_congr_right fun hw => ?_
      rw [ih (e.1, w) (mem_of_lookup hw)]
    | _ => rfl

/-- Schemas that are stored alike are the same. -/
theorem jsonb_injective {v w : CanonicalSchema} (hv : Canonical v) (hw : Canonical w)
    (h : jsonb v = jsonb w) : v = w := by
  rw [← pyEq_iff_eq hv hw, ← pyEq_jsonb_left, h, pyEq_jsonb_left, pyEq_iff_eq hw hw]

/-! ### The flat dictionary -/

/-- A path begins with that of the value it was reached from. -/
theorem prefix_of_mem_flatten (v : CanonicalSchema) :
    ∀ {path : String} {e}, e ∈ flatten v path → path.toList <+: e.1.toList := by
  have hroot : ∀ path : String, path.toList <+: (orRoot path).toList := by
    intro path
    rw [orRoot]
    split
    · rename_i h
      exact h ▸ List.nil_prefix
    · exact List.prefix_rfl
  have hkey : ∀ path k : String, path.toList <+: (keyPath path k).toList := by
    intro path k
    rw [keyPath]
    split
    · rename_i h
      exact h ▸ List.nil_prefix
    · simp [toString]
  have hindex : ∀ (path : String) (i : ℕ), path.toList <+: (indexPath path i).toList := by
    intro path i
    rw [indexPath]
    split
    · rename_i h
      exact h ▸ List.nil_prefix
    · simp [toString]
  induction v using CanonicalSchema.induction with
  | text s =>
    intro path e he
    rw [flatten, List.mem_singleton] at he
    exact he ▸ hroot path
  | flag b =>
    intro path e he
    rw [flatten, List.mem_singleton] at he
    exact he ▸ hroot path
  | items l ih =>
    intro path e he
    rw [flatten, List.mem_cons] at he
    obtain rfl | he := he
    · exact hroot path
    · generalize 0 = i at he
      induction l generalizing i with
      | nil => simp [flattenItems] at he
      | cons v l ihl =>
        rw [List.forall_mem_cons] at ih
        rw [flattenItems, List.mem_append] at he
        exact he.elim (fun he => (hindex path i).trans (ih.1 he)) (ihl ih.2 _)
  | members l ih =>
    intro path e he
    rw [flatten] at he
    split at he
    · rw [List.mem_singleton] at he
      exact he ▸ hroot path
    · rw [flattenMembers_eq, List.mem_flatMap] at he
      obtain ⟨m, hm, he⟩ := he
      exact (hkey path m.1).trans (ih m hm he)

/-- Of two keys under which one path is reached, one is the beginning of the other. -/
theorem prefix_of_keyPath {path k k' : String} {w : List Char}
    (h : (keyPath path k).toList <+: w) (h' : (keyPath path k').toList <+: w) :
    k.toList <+: k'.toList ∨ k'.toList <+: k.toList := by
  have hboth := List.prefix_or_prefix_of_prefix h h'
  rw [keyPath, keyPath] at hboth
  split at hboth
  · exact hboth
  · simpa [toString] using hboth

/-- In the order of JSONB a key comes before those it is the beginning of. -/
theorem JsonbLe.not_prefix {a b : String} (h : JsonbLe a b) (hne : a ≠ b) :
    ¬b.toList <+: a.toList := by
  rintro ⟨w, hw⟩
  obtain rfl : b ++ String.ofList w = a := String.toList_inj.mp (by simpa using hw)
  rw [JsonbLe, String.utf8ByteSize_append] at h
  have hzero : (String.ofList w).utf8ByteSize = 0 := by omega
  rw [String.utf8ByteSize_eq_zero_iff.mp hzero] at hne
  exact hne (by simp)

/-- So it does in the order of strings. -/
theorem not_prefix_of_lt {a b : String} (h : a < b) : ¬b.toList <+: a.toList :=
  fun hp => hp.le (String.lt_iff_toList_lt.mp h)

/-- What the members of a dictionary put at a path does not depend on which of the two orders they
have. -/
theorem lastBinding_sortJsonb {l : List (String × CanonicalSchema)} (hl : KeysSorted l)
    {f : String × CanonicalSchema → List (String × CanonicalSchema)} {path path' : String}
    (hf : ∀ m, ∀ e ∈ f m, (keyPath path m.1).toList <+: e.1.toList) :
    lastBinding path' ((sortJsonb l).flatMap f) = lastBinding path' (l.flatMap f) := by
  -- the members that bind the path stand in one and the same order
  let binds := fun m => (lastBinding path' (f m)).isSome
  have hbinds : ∀ {m}, binds m = true → (keyPath path m.1).toList <+: path'.toList := by
    intro m hm
    obtain ⟨v, hv⟩ := Option.isSome_iff_exists.mp hm
    exact hf m _ (mem_of_lastBinding hv)
  have hnodup : ((sortJsonb l).map Prod.fst).Nodup :=
    ((sortJsonb_perm l).map Prod.fst).nodup_iff.mpr hl.nodup
  have hjsonb : ((sortJsonb l).filter binds).Pairwise fun a b => ¬b.1.toList <+: a.1.toList :=
    ((sortJsonb_pairwise l).imp₂ (fun _ _ => JsonbLe.not_prefix)
      (List.pairwise_map.mp hnodup)).filter _
  have hkeys : (l.filter binds).Pairwise fun a b => ¬b.1.toList <+: a.1.toList :=
    ((List.pairwise_map.mp hl).imp not_prefix_of_lt).filter _
  have hsame : (sortJsonb l).filter binds = l.filter binds := by
    refine ((sortJsonb_perm l).filter binds).eq_of_pairwise ?_ hjsonb hkeys
    intro a b ha hb hab hba
    exact ((prefix_of_keyPath (hbinds (List.mem_filter.mp ha).2)
      (hbinds (List.mem_filter.mp hb).2)).elim hba hab).elim
  rw [← lastBinding_flatMap_filter, hsame, lastBinding_flatMap_filter]

/-- **What is read back has the same flat dictionary**, up to the order in its values. -/
theorem lastBinding_flatten_jsonb {v : CanonicalSchema} (hv : Canonical v) (path' : String) :
    ∀ path, lastBinding path' (flatten (jsonb v) path) =
      (lastBinding path' (flatten v path)).map jsonb := by
  have hsingle : ∀ (path : String) (w : CanonicalSchema), lastBinding path' [(path, jsonb w)] =
      (lastBinding path' [(path, w)]).map jsonb := by
    intro path w
    exact lastBinding_map jsonb path' [(path, w)]
  induction hv with
  | leaf type nullable =>
    intro path
    have hmarker : flatten (.leaf type nullable) path = [(orRoot path, .leaf type nullable)] := by
      simp [CanonicalSchema.leaf, flatten]
    rw [jsonb_leaf, hmarker, ← hsingle, jsonb_leaf]
  | @items l hc ih =>
    intro path
    have hitems : ∀ i, lastBinding path' (flattenItems (l.map jsonb) path i) =
        (lastBinding path' (flattenItems l path i)).map jsonb := by
      induction l with
      | nil => intro i; rfl
      | cons v l ihl =>
        intro i
        rw [List.forall_mem_cons] at hc ih
        rw [List.map_cons, flattenItems, flattenItems, lastBinding_append, lastBinding_append,
          ih.1, ihl hc.2 ih.2, Option.map_or]
    rw [jsonb_items, flatten, flatten, lastBinding_cons, lastBinding_cons, hitems, Option.map_or]
    split <;> simp [arrayMarker]
  | @members l hl hc ih =>
    intro path
    have hget := (Canonical.members hl hc).get?_jsonb "type"
    have hstored := jsonb_members l
    rw [hstored] at hget ⊢
    have htype : (sortJsonb (l.map fun e => (e.1, jsonb e.2))).lookup "type" =
      (l.lookup "type").map jsonb := hget
    rw [flatten, flatten, htype, Option.isSome_map]
    split
    · rw [← hstored, hsingle]
    · rw [flattenMembers_eq, flattenMembers_eq, sortJsonb_map fun e => jsonb e.2, List.flatMap_map,
        lastBinding_sortJsonb hl fun m e => prefix_of_mem_flatten (jsonb m.2)]
      exact lastBinding_flatMap_map fun m hm => ih m hm (keyPath path m.1)

end Driftgate.Schema
