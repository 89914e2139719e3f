import Driftgate.Lib.LastBinding

/-!
# Dictionaries of accumulators

A program that goes through its input and keeps one accumulator for each key does two things with
the dictionary: it makes sure that a key has an accumulator (`ensureKey`), and it modifies the
accumulator of a key (`modifyKey`). The dictionary is an association list in the order in which the
keys came up.

When every observation concerns one key, the accumulator of a key is a fold over the observations
of that key alone (`lookup_foldl`).
-/

namespace Driftgate.Lib

variable {α β ε : Type*} [DecidableEq α]

/-- A new key gets the accumulator `b`. -/
def ensureKey (a : α) (b : β) (l : List (α × β)) : List (α × β) :=
  if (l.lookup a).isSome then l else l ++ [(a, b)]

/-- The accumulator of a key is changed by `f`. -/
def modifyKey (a : α) (f : β → β) (l : List (α × β)) : List (α × β) :=
  l.map fun e => if e.1 = a then (e.1, f e.2) else e

theorem lookup_ensureKey (a k : α) (b : β) (l : List (α × β)) :
    (ensureKey a b l).lookup k = if k = a then some ((l.lookup a).getD b) else l.lookup k := by
  rw [ensureKey]
  cases ha : l.lookup a with
  | some c =>
    by_cases hk : k = a
    · simp [hk, ha]
    · simp [hk]
  | none =>
    by_cases hk : k = a
    · simp [hk, ha, List.lookup_append]
    · simp [hk, List.lookup_append, List.lookup_cons, beq_eq_false_iff_ne.mpr hk]

theorem lookup_modifyKey (a k : α) (f : β → β) (l : List (α × β)) :
    (modifyKey a f l).lookup k = if k = a then (l.lookup a).map f else l.lookup k := by
  induction l with
  | nil => simp [modifyKey]
  | cons e l ih =>
    obtain ⟨k', b⟩ := e
    rw [modifyKey] at ih
    rw [modifyKey, List.map_cons]
    by_cases hk : k = k'
    · subst hk
      by_cases ha : k = a
      · subst ha
        simp
      · simp [ha]
    · have hbeq : (k == k') = false := beq_eq_false_iff_ne.mpr hk
      have hkey : (if k' = a then (k', f b) else (k', b)).1 = k' := by split <;> rfl
      rw [List.lookup_cons, hkey, hbeq]
      simp only [ih]
      by_cases ha : k = a
      · subst ha
        simp [List.lookup_cons, hbeq]
      · simp [ha, List.lookup_cons, hbeq]

theorem nodup_keys_ensureKey {a : α} {b : β} {l : List (α × β)} (h : (l.map Prod.fst).Nodup) :
    ((ensureKey a b l).map Prod.fst).Nodup := by
  rw [ensureKey]
  split
  · exact h
  · next hs =>
    rw [List.map_append, List.nodup_append]
    refine ⟨h, by simp, ?_⟩
    intro k hk k' hk' heq
    obtain rfl : k' = a := by simpa using hk'
    obtain ⟨e, he, rfl⟩ := List.mem_map.mp hk
    rw [Bool.not_eq_true, Option.isSome_eq_false_iff, Option.isNone_iff_eq_none,
      List.lookup_eq_none_iff] at hs
    simpa [heq] using hs e he

theorem keys_modifyKey (a : α) (f : β → β) (l : List (α × β)) :
    (modifyKey a f l).map Prod.fst = l.map Prod.fst := by
  rw [modifyKey, List.map_map]
  refine List.map_congr_left fun e _ => ?_
  show (if e.1 = a then (e.1, f e.2) else e).1 = e.1
  split <;> rfl

/-- The observations of a key. -/
def observationsOf (a : α) (l : List (α × ε)) : List ε :=
  l.filterMap fun e => if e.1 = a then some e.2 else none

theorem observationsOf_append (a : α) (l l' : List (α × ε)) :
    observationsOf a (l ++ l') = observationsOf a l ++ observationsOf a l' :=
  List.filterMap_append

theorem observationsOf_cons_self (a : α) (o : ε) (l : List (α × ε)) :
    observationsOf a ((a, o) :: l) = o :: observationsOf a l := by
  simp [observationsOf]

theorem observationsOf_cons_ne {a b : α} (h : b ≠ a) (o : ε) (l : List (α × ε)) :
    observationsOf a ((b, o) :: l) = observationsOf a l := by
  simp [observationsOf, h]

/-- **One fold for each key.** If recording an observation changes the accumulator of its own key
only, by `after`, the accumulator of a key is the fold over its observations. -/
theorem lookup_foldl {record : List (α × β) → α × ε → List (α × β)}
    {after : Option β → ε → Option β}
    (h : ∀ st a o k, (record st (a, o)).lookup k =
      if k = a then after (st.lookup a) o else st.lookup k)
    (l : List (α × ε)) (st : List (α × β)) (k : α) :
    (l.foldl record st).lookup k = (observationsOf k l).foldl after (st.lookup k) := by
  induction l generalizing st with
  | nil => rfl
  | cons e l ih =>
    obtain ⟨a, o⟩ := e
    rw [List.foldl_cons, ih, h]
    by_cases hk : k = a
    · subst hk
      rw [if_pos rfl, observationsOf_cons_self, List.foldl_cons]
    · rw [if_neg hk, observationsOf_cons_ne (Ne.symm hk)]

end Driftgate.Lib
