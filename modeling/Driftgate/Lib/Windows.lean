import Mathlib.Data.List.Infix
import Mathlib.Data.List.Sort

/-!
# Windows on a sorted list

A query that takes the first entries of a list and filters them afterwards sees the members of a
class through a window that all entries share. How far it reaches among the members depends on the
others: a member is found if the others ahead of it leave room in the window. When the filter comes
first it is not so, since a stable sort and a filter commute.
-/

namespace Driftgate.Windows

variable {α : Type*}

/-! ### Filters and sorting -/

section Sorting

variable (r : α → α → Prop) [DecidableRel r] [IsTrans α r] [Std.Total r] (p : α → Bool)

omit [Std.Total r] in
theorem filter_orderedInsert (a : α) {l : List α} (hl : l.Pairwise r) :
    (l.orderedInsert r a).filter p =
      if p a then (l.filter p).orderedInsert r a else l.filter p := by
  induction l with
  | nil =>
    show [a].filter p = _
    rw [List.filter_cons]
    rfl
  | cons b l ih =>
    obtain ⟨hb, hl⟩ := List.pairwise_cons.mp hl
    by_cases hab : r a b
    · rw [List.orderedInsert_cons_of_le _ _ hab]
      by_cases ha : p a
      · rw [List.filter_cons_of_pos ha, if_pos ha]
        -- All members that remain are at or behind `b`.
        have hahead : ∀ c ∈ (b :: l).filter p, r a c := by
          intro c hc
          obtain hc | hc := List.mem_cons.mp (List.mem_of_mem_filter hc)
          · exact hc ▸ hab
          · exact IsTrans.trans _ _ _ hab (hb c hc)
        cases hf : (b :: l).filter p with
        | nil => rfl
        | cons c m =>
          rw [List.orderedInsert_cons_of_le _ _ (hahead c (by rw [hf]; exact List.mem_cons_self))]
      · rw [List.filter_cons_of_neg ha, if_neg ha]
    · rw [List.orderedInsert_of_not_le _ _ hab]
      by_cases hpb : p b
      · rw [List.filter_cons_of_pos hpb, List.filter_cons_of_pos hpb, ih hl]
        by_cases ha : p a
        · rw [if_pos ha, if_pos ha, List.orderedInsert_of_not_le _ _ hab]
        · rw [if_neg ha, if_neg ha]
      · rw [List.filter_cons_of_neg hpb, List.filter_cons_of_neg hpb, ih hl]

/-- A filter before a stable sort is a filter after it. -/
theorem filter_insertionSort (l : List α) :
    (l.insertionSort r).filter p = (l.filter p).insertionSort r := by
  induction l with
  | nil => rfl
  | cons a l ih =>
    rw [List.insertionSort_cons, filter_orderedInsert r p a (List.pairwise_insertionSort r l), ih]
    by_cases ha : p a
    · rw [if_pos ha, List.filter_cons_of_pos ha, List.insertionSort_cons]
    · rw [if_neg ha, List.filter_cons_of_neg ha]

end Sorting

/-- What is sorted does not tell in which order it came. -/
theorem insertionSort_eq_of_perm [LinearOrder α] {l l' : List α} (h : l.Perm l') :
    l.insertionSort (· ≤ ·) = l'.insertionSort (· ≤ ·) := by
  have hp : (l.insertionSort (· ≤ ·)).Perm (l'.insertionSort (· ≤ ·)) :=
    (List.perm_insertionSort _ l).trans (h.trans (List.perm_insertionSort _ l').symm)
  exact hp.eq_of_pairwise' (List.pairwise_insertionSort _ l) (List.pairwise_insertionSort _ l')

/-- Lists with the same members of a class have the same members of any part of it. -/
theorem filter_eq_of_imp {p q : α → Bool} (himp : ∀ a, p a → q a) {l l' : List α}
    (h : l.filter q = l'.filter q) : l.filter p = l'.filter p := by
  have hpart : ∀ m : List α, (m.filter q).filter p = m.filter p := by
    intro m
    rw [List.filter_filter]
    refine List.filter_congr fun a _ => ?_
    cases hp : p a with
    | false => rfl
    | true => exact himp a hp
  rw [← hpart l, h, hpart]

/-! ### Windows -/

section Window

variable (p : α → Bool) (w : ℕ)

/-- The members among the first `w` entries. -/
def window (l : List α) : List α := (l.take w).filter p

/-- How many others stand ahead of the member with index `i`. -/
def ahead : List α → ℕ → ℕ
  | [], _ => 0
  | a :: l, i => if p a then (if i = 0 then 0 else ahead l (i - 1)) else ahead l i + 1

theorem window_initial (l : List α) : window p w l <+: l.filter p :=
  (List.take_prefix w l).filter p

/-- A member is in the window if the others ahead of it leave room. -/
theorem lt_length_window_iff (l : List α) (i : ℕ) :
    i < (window p w l).length ↔ i < (l.filter p).length ∧ i + ahead p l i < w := by
  induction l generalizing w i with
  | nil =>
    show i < ((([] : List α).take w).filter p).length ↔ i < 0 ∧ _
    rw [List.take_nil]
    show i < 0 ↔ i < 0 ∧ _
    omega
  | cons a l ih =>
    cases w with
    | zero =>
      show i < 0 ↔ _
      omega
    | succ w =>
      rw [window, List.take_succ_cons]
      by_cases ha : p a
      · rw [List.filter_cons_of_pos ha, List.filter_cons_of_pos ha, List.length_cons,
          List.length_cons]
        rw [ahead, if_pos ha]
        cases i with
        | zero =>
          rw [if_pos rfl]
          omega
        | succ i =>
          rw [if_neg (Nat.succ_ne_zero i)]
          have hi := ih w i
          rw [window] at hi
          show i + 1 < _ ↔ _ ∧ i + 1 + ahead p l i < w + 1
          omega
      · rw [List.filter_cons_of_neg ha, List.filter_cons_of_neg ha, ahead, if_neg ha]
        have hi := ih w i
        rw [window] at hi
        omega

variable {p w} {l l' : List α}

/-- Of the first `k` members, the window shows the same ones. -/
def SameReach (p : α → Bool) (w k : ℕ) (l l' : List α) : Prop :=
  ∀ i < k, i < (l.filter p).length → (i + ahead p l i < w ↔ i + ahead p l' i < w)

theorem SameReach.length_iff (h : l.filter p = l'.filter p) {k : ℕ} :
    SameReach p w k l l' ↔ ((window p w l).take k).length = ((window p w l').take k).length := by
  have hlt := lt_length_window_iff p w l
  have hlt' := lt_length_window_iff p w l'
  rw [← h] at hlt'
  rw [List.length_take, List.length_take]
  constructor
  · intro hsame
    refine Nat.le_antisymm (Nat.le_of_not_lt fun hi => ?_) (Nat.le_of_not_lt fun hi => ?_)
    · obtain ⟨hk, hi⟩ := Nat.lt_min.mp hi
      have hk' : min k (window p w l').length < k := hk
      obtain ⟨hmem, hroom⟩ := (hlt _).mp hi
      have := (hlt' _).mpr ⟨hmem, (hsame _ hk' hmem).mp hroom⟩
      omega
    · obtain ⟨hk, hi⟩ := Nat.lt_min.mp hi
      have hk' : min k (window p w l).length < k := hk
      obtain ⟨hmem, hroom⟩ := (hlt' _).mp hi
      have := (hlt _).mpr ⟨hmem, (hsame _ hk' hmem).mpr hroom⟩
      omega
  · intro hlength i hk hmem
    have hi := hlt i
    have hi' := hlt' i
    omega

/-- Windows on lists with the same members are determined by how many they show. -/
theorem take_window_eq (h : l.filter p = l'.filter p) {k : ℕ}
    (hlength : ((window p w l).take k).length = ((window p w l').take k).length) :
    (window p w l).take k = (window p w l').take k := by
  have hl : (window p w l).take k <+: l.filter p :=
    (List.take_prefix k _).trans (window_initial p w l)
  have hl' : (window p w l').take k <+: l.filter p := by
    rw [h]
    exact (List.take_prefix k _).trans (window_initial p w l')
  exact (List.prefix_of_prefix_length_le hl hl' hlength.le).eq_of_length hlength

theorem SameReach.iff (h : l.filter p = l'.filter p) {k : ℕ} :
    SameReach p w k l l' ↔ (window p w l).take k = (window p w l').take k :=
  (SameReach.length_iff h).trans ⟨take_window_eq h, fun heq => by rw [heq]⟩

/-- **Members that a window shows.** It shows the first `k` members exactly when these are among
the first `w` entries. -/
theorem take_window_eq_take_filter_iff (hl : l.Nodup) {k : ℕ} :
    (window p w l).take k = (l.filter p).take k ↔ ∀ a ∈ (l.filter p).take k, a ∈ l.take w := by
  have hinitial : (window p w l).take k <+: (l.filter p).take k :=
    (window_initial p w l).take k
  constructor
  · intro h a ha
    rw [← h] at ha
    exact List.mem_of_mem_filter (List.mem_of_mem_take ha)
  · intro h
    have hsubset : (l.filter p).take k ⊆ window p w l := fun a ha =>
      List.mem_filter.mpr ⟨h a ha, (List.mem_filter.mp (List.mem_of_mem_take ha)).2⟩
    have hnodup : ((l.filter p).take k).Nodup := (hl.filter p).sublist (List.take_sublist k _)
    have hle : ((l.filter p).take k).length ≤ (window p w l).length :=
      (List.subperm_of_subset hnodup hsubset).length_le
    refine hinitial.eq_of_length_le ?_
    rw [List.length_take, List.length_take] at *
    omega

/-! ### Without a filter -/

/-- The others stand at the same places among the first `k` entries. -/
def SameOthers (p : α → Bool) (k : ℕ) (l l' : List α) : Prop :=
  ∀ i < k, ∀ a, p a = false → (l[i]? = some a ↔ l'[i]? = some a)

theorem SameOthers.tail {k : ℕ} {a b : α} (h : SameOthers p (k + 1) (a :: l) (b :: l')) :
    SameOthers p k l l' :=
  fun i hi c hc => h (i + 1) (Nat.succ_lt_succ hi) c hc

/-- Lists with the same members agree as far as the others do. -/
theorem SameOthers.iff (h : l.filter p = l'.filter p) {k : ℕ} :
    SameOthers p k l l' ↔ l.take k = l'.take k := by
  constructor
  · intro hsame
    induction k generalizing l l' with
    | zero => rfl
    | succ k ih =>
      have hhead := hsame 0 (Nat.succ_pos k)
      cases l with
      | nil =>
        cases l' with
        | nil => rfl
        | cons b l' =>
          by_cases hb : p b
          · rw [List.filter_cons_of_pos hb] at h
            cases h
          · cases (hhead b (Bool.eq_false_iff.mpr hb)).mpr rfl
      | cons a l =>
        cases l' with
        | nil =>
          by_cases ha : p a
          · rw [List.filter_cons_of_pos ha] at h
            cases h
          · cases (hhead a (Bool.eq_false_iff.mpr ha)).mp rfl
        | cons b l' =>
          by_cases ha : p a
          · by_cases hb : p b
            · rw [List.filter_cons_of_pos ha, List.filter_cons_of_pos hb] at h
              obtain ⟨rfl, htail⟩ := List.cons.inj h
              rw [List.take_succ_cons, List.take_succ_cons, ih htail hsame.tail]
            · cases (hhead b (Bool.eq_false_iff.mpr hb)).mpr rfl
              exact absurd ha hb
          · cases (hhead a (Bool.eq_false_iff.mpr ha)).mp rfl
            rw [List.filter_cons_of_neg ha, List.filter_cons_of_neg ha] at h
            rw [List.take_succ_cons, List.take_succ_cons, ih h hsame.tail]
  · intro htake i hi a ha
    have hget : l[i]? = l'[i]? := by
      rw [← List.getElem?_take_of_lt hi, htake, List.getElem?_take_of_lt hi]
    rw [hget]

end Window

end Driftgate.Windows
