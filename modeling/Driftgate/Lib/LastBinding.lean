import Mathlib.Data.List.Sort
import Mathlib.Data.List.Perm.Basic

/-!
# Association lists

A dictionary filled by assignments is the list of the assignments in order; the value of a key is
that of its last assignment (`lastBinding`). Updating a dictionary with another is appending the
assignments.

A dictionary with unique keys that lists them in increasing order is determined by its bindings
(`eq_of_lookup`).
-/

namespace Driftgate.Lib

variable {α β γ : Type*} [DecidableEq α]

/-- The value assigned to `a` last. -/
def lastBinding (a : α) : List (α × β) → Option β
  | [] => none
  | (k, v) :: l => (lastBinding a l).or (if k = a then some v else none)

theorem lastBinding_nil (a : α) : lastBinding a ([] : List (α × β)) = none := rfl

theorem lastBinding_cons (a : α) (e : α × β) (l : List (α × β)) :
    lastBinding a (e :: l) = (lastBinding a l).or (if e.1 = a then some e.2 else none) := rfl

/-- Later assignments come first. -/
theorem lastBinding_append (a : α) (l l' : List (α × β)) :
    lastBinding a (l ++ l') = (lastBinding a l').or (lastBinding a l) := by
  induction l with
  | nil => exact (Option.or_none).symm
  | cons e l ih => rw [List.cons_append, lastBinding_cons, lastBinding_cons, ih, Option.or_assoc]

/-- Translating the values translates the last one. -/
theorem lastBinding_map (f : β → γ) (a : α) (l : List (α × β)) :
    lastBinding a (l.map fun e => (e.1, f e.2)) = (lastBinding a l).map f := by
  induction l with
  | nil => rfl
  | cons e l ih =>
    simp only [List.map_cons, lastBinding_cons, ih]
    cases lastBinding a l with
    | some v => rfl
    | none => by_cases h : e.1 = a <;> simp [h]

/-- Renaming the keys does not change what a key is bound to if no other gets its name. -/
theorem lastBinding_map_key [DecidableEq γ] (f : α → γ) {a : α} {l : List (α × β)}
    (h : ∀ e ∈ l, f e.1 = f a → e.1 = a) :
    lastBinding (f a) (l.map fun e => (f e.1, e.2)) = lastBinding a l := by
  induction l with
  | nil => rfl
  | cons e l ih =>
    rw [List.forall_mem_cons] at h
    have hkey : f e.1 = f a ↔ e.1 = a := ⟨h.1, fun he => congrArg f he⟩
    rw [List.map_cons, lastBinding_cons, lastBinding_cons, ih h.2]
    simp only [hkey]

theorem mem_of_lastBinding {a : α} {b : β} {l : List (α × β)} (h : lastBinding a l = some b) :
    (a, b) ∈ l := by
  induction l with
  | nil => cases h
  | cons e l ih =>
    rw [lastBinding_cons, Option.or_eq_some_iff] at h
    rcases h with h | ⟨-, h⟩
    · exact List.mem_cons_of_mem e (ih h)
    · by_cases he : e.1 = a
      · rw [if_pos he, Option.some.injEq] at h
        have heq : e = (a, b) := Prod.ext he h
        simp [heq]
      · simp [he] at h

theorem lastBinding_eq_none {a : α} {l : List (α × β)} :
    lastBinding a l = none ↔ a ∉ l.map Prod.fst := by
  induction l with
  | nil => simp [lastBinding_nil]
  | cons e l ih =>
    rw [lastBinding_cons, Option.or_eq_none_iff, ih]
    by_cases he : e.1 = a
    · simp [he]
    · simp [he, Ne.symm he]

/-- A key that is assigned once keeps that value. -/
theorem lastBinding_of_mem {a : α} {b : β} {l : List (α × β)} (hm : (a, b) ∈ l)
    (hu : ∀ c, (a, c) ∈ l → c = b) : lastBinding a l = some b := by
  cases h : lastBinding a l with
  | none => exact absurd (List.mem_map_of_mem hm) (lastBinding_eq_none.mp h)
  | some c => rw [hu c (mem_of_lastBinding h)]

/-- Only those that bind a key matter to it. -/
theorem lastBinding_flatMap_filter (a : α) (f : γ → List (α × β)) (l : List γ) :
    lastBinding a ((l.filter fun e => (lastBinding a (f e)).isSome).flatMap f) =
      lastBinding a (l.flatMap f) := by
  induction l with
  | nil => rfl
  | cons e l ih =>
    rw [List.flatMap_cons, lastBinding_append, ← ih]
    cases he : lastBinding a (f e) with
    | some b => rw [List.filter_cons_of_pos (by simp [he]), List.flatMap_cons, lastBinding_append, he]
    | none => rw [List.filter_cons_of_neg (by simp [he]), Option.or_none]

/-- A translation of each part is one of the whole. -/
theorem lastBinding_flatMap_map {δ : Type*} {a : α} {f : γ → List (α × δ)} {g : γ → List (α × β)}
    {h : β → δ} {l : List γ} (hfg : ∀ e ∈ l, lastBinding a (f e) = (lastBinding a (g e)).map h) :
    lastBinding a (l.flatMap f) = (lastBinding a (l.flatMap g)).map h := by
  induction l with
  | nil => rfl
  | cons e l ih =>
    rw [List.forall_mem_cons] at hfg
    rw [List.flatMap_cons, List.flatMap_cons, lastBinding_append, lastBinding_append, hfg.1,
      ih hfg.2, Option.map_or]

omit [DecidableEq α] in
/-- Lists are equal if a function that tells their elements apart does not tell the lists apart. -/
theorem eq_of_map_eq {f : α → β} {l l' : List α} (hf : ∀ a ∈ l, ∀ b ∈ l', f a = f b → a = b)
    (h : l.map f = l'.map f) : l = l' := by
  refine List.ext_getElem (by simpa using congrArg List.length h) fun i hi hi' => ?_
  refine hf _ (List.getElem_mem hi) _ (List.getElem_mem hi') ?_
  have heq : (l.map f)[i]? = (l'.map f)[i]? := by rw [h]
  simpa [hi, hi'] using heq

/-! ### Dictionaries with unique keys -/

omit [DecidableEq α] in
/-- With unique keys a binding is found by its key. -/
theorem lookup_of_mem [BEq α] [LawfulBEq α] {l : List (α × β)} (hn : (l.map Prod.fst).Nodup)
    {a : α} {b : β} (h : (a, b) ∈ l) : l.lookup a = some b := by
  induction l with
  | nil => simp at h
  | cons e l ih =>
    simp only [List.map_cons, List.nodup_cons] at hn
    rcases List.mem_cons.mp h with rfl | h
    · simp
    · have hne : a ≠ e.1 := fun he => hn.1 (he ▸ List.mem_map_of_mem h)
      rw [List.lookup_cons, beq_eq_false_iff_ne.mpr hne]
      exact ih hn.2 h

omit [DecidableEq α] in
theorem mem_of_lookup [BEq α] [LawfulBEq α] {l : List (α × β)} {a : α} {b : β}
    (h : l.lookup a = some b) : (a, b) ∈ l := by
  induction l with
  | nil => simp at h
  | cons e l ih =>
    rw [List.lookup_cons] at h
    by_cases he : a = e.1
    · have hb : e.2 = b := by simpa [he] using h
      simp [he, ← hb]
    · rw [beq_eq_false_iff_ne.mpr he] at h
      exact List.mem_cons_of_mem e (ih h)

omit [DecidableEq α] in
/-- With unique keys the order does not matter to a key. -/
theorem lookup_eq_of_perm [BEq α] [LawfulBEq α] {l l' : List (α × β)} (hn : (l.map Prod.fst).Nodup)
    (hp : l.Perm l') (a : α) : l'.lookup a = l.lookup a := by
  have hn' : (l'.map Prod.fst).Nodup := (hp.map Prod.fst).nodup_iff.mp hn
  cases h : l.lookup a with
  | some b => exact lookup_of_mem hn' (hp.mem_iff.mp (mem_of_lookup h))
  | none =>
    by_contra hc
    obtain ⟨b, hb⟩ := Option.ne_none_iff_exists'.mp hc
    rw [lookup_of_mem hn (hp.mem_iff.mpr (mem_of_lookup hb))] at h
    cases h

/-- With unique keys the last binding is the only one. -/
theorem lastBinding_eq_lookup {l : List (α × β)} (hn : (l.map Prod.fst).Nodup) (a : α) :
    lastBinding a l = l.lookup a := by
  cases h : lastBinding a l with
  | some b => exact (lookup_of_mem hn (mem_of_lastBinding h)).symm
  | none =>
    rw [eq_comm, List.lookup_eq_none_iff]
    intro e he
    rw [lastBinding_eq_none] at h
    exact bne_iff_ne.mpr fun heq => h (heq ▸ List.mem_map_of_mem he)

omit [DecidableEq α] in
theorem lookup_isSome_iff [BEq α] [LawfulBEq α] {l : List (α × β)} {a : α} :
    (l.lookup a).isSome ↔ a ∈ l.map Prod.fst := by
  constructor
  · intro h
    obtain ⟨b, hb⟩ := Option.isSome_iff_exists.mp h
    exact List.mem_map_of_mem (mem_of_lookup hb)
  · intro h
    by_contra hc
    rw [Option.not_isSome_iff_eq_none, List.lookup_eq_none_iff] at hc
    obtain ⟨e, he, rfl⟩ := List.mem_map.mp h
    simpa using hc e he

omit [DecidableEq α] in
/-- The keys of a dictionary listed in increasing order. -/
def KeysSorted [LinearOrder α] (l : List (α × β)) : Prop :=
  (l.map Prod.fst).Pairwise (· < ·)

omit [DecidableEq α] in
theorem KeysSorted.nodup [LinearOrder α] {l : List (α × β)} (h : KeysSorted l) :
    (l.map Prod.fst).Nodup :=
  List.Pairwise.imp ne_of_lt h

omit [DecidableEq α] in
/-- **Extensionality.** A dictionary with sorted keys is determined by its bindings. -/
theorem eq_of_lookup [LinearOrder α] {l l' : List (α × β)} (hl : KeysSorted l)
    (hl' : KeysSorted l') (hlen : l.length = l'.length) (hsub : ∀ e ∈ l, e ∈ l') : l = l' := by
  have hnod : l.Nodup := hl.nodup.of_map
  have hperm : l.Perm l' :=
    (List.subperm_of_subset hnod hsub).perm_of_length_le (le_of_eq hlen.symm)
  have hs : ∀ {m : List (α × β)}, KeysSorted m → m.Pairwise fun a b => a.1 < b.1 :=
    fun h => List.pairwise_map.mp h
  refine hperm.eq_of_pairwise ?_ (hs hl) (hs hl')
  intro a b _ _ hab hba
  exact absurd hab (not_lt_of_gt hba)

omit [DecidableEq α] in
/-- The bindings alone are enough. -/
theorem eq_of_lookup_eq [LinearOrder α] [BEq α] [LawfulBEq α] {l l' : List (α × β)} (hl : KeysSorted l)
    (hl' : KeysSorted l') (h : ∀ a, l.lookup a = l'.lookup a) : l = l' := by
  have hsub : ∀ {m m' : List (α × β)}, KeysSorted m → (∀ a, m.lookup a = m'.lookup a) →
      ∀ e ∈ m, e ∈ m' := by
    intro m m' hm h e he
    have hlookup := lookup_of_mem hm.nodup (show (e.1, e.2) ∈ m from he)
    rw [h] at hlookup
    exact mem_of_lookup hlookup
  have hlen : l.length = l'.length := by
    refine le_antisymm ?_ ?_
    · exact (List.subperm_of_subset hl.nodup.of_map (hsub hl h)).length_le
    · exact (List.subperm_of_subset hl'.nodup.of_map (hsub hl' fun a => (h a).symm)).length_le
  exact eq_of_lookup hl hl' hlen (hsub hl h)

end Driftgate.Lib
