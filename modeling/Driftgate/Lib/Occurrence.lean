import Mathlib.Data.List.Infix
import Mathlib.Data.String.Basic

/-!
# Words that occur in a text

A word that occurs in `a ++ b` occurs in one of the parts or lies across the place where they meet.
The second needs a beginning of the word at the end of `a`, which is decidable when `a` is known:
`Meets w a`. For a text with a known head the question is then one about the rest. The same holds
of a text with a known tail.
-/

namespace Driftgate.Occurrence

variable {α : Type*}

/-- The word lies across the place where two texts meet. -/
def Straddles (w a b : List α) : Prop :=
  ∃ x y, x ≠ [] ∧ y ≠ [] ∧ w = x ++ y ∧ x <:+ a ∧ y <+: b

theorem infix_append_iff {w a b : List α} :
    w <:+: a ++ b ↔ w <:+: a ∨ w <:+: b ∨ Straddles w a b := by
  constructor
  · rintro ⟨s, t, h⟩
    obtain ⟨a', rfl, rfl⟩ | ⟨c, hsw, rfl⟩ := List.append_eq_append_iff.mp h
    · exact .inl ⟨s, a', rfl⟩
    · obtain ⟨x, rfl, rfl⟩ | ⟨y, rfl, rfl⟩ := List.append_eq_append_iff.mp hsw
      · by_cases hx : x = []
        · subst hx
          exact .inr (.inl ⟨[], t, rfl⟩)
        by_cases hc : c = []
        · subst hc
          exact .inl ⟨s, [], by simp⟩
        exact .inr (.inr ⟨x, c, hx, hc, rfl, ⟨s, rfl⟩, ⟨t, rfl⟩⟩)
      · exact .inr (.inl ⟨y, t, rfl⟩)
  · rintro (h | h | ⟨x, y, -, -, rfl, ⟨s, rfl⟩, ⟨t, rfl⟩⟩)
    · exact List.infix_append_of_infix_left h
    · exact List.infix_append_of_infix_right h
    · exact ⟨s, t, by simp⟩

variable [DecidableEq α]

/-- A beginning of the word, neither empty nor all of it, ends the text. -/
def Meets (w a : List α) : Bool :=
  (List.range w.length).any fun k => k ≠ 0 && decide (w.take k <:+ a)

theorem meets_of_straddles {w a b : List α} (h : Straddles w a b) : Meets w a = true := by
  obtain ⟨x, y, hx, hy, rfl, hsuffix, -⟩ := h
  refine List.any_eq_true.mpr ⟨x.length, ?_, ?_⟩
  · have hpos := List.length_pos_of_ne_nil hy
    rw [List.mem_range, List.length_append]
    omega
  · simp [hx, hsuffix]

/-- In a text whose head the word does not meet, it occurs in the head or in the rest. -/
theorem infix_append_iff_of_not_meets {w a : List α} (h : Meets w a = false) (b : List α) :
    w <:+: a ++ b ↔ w <:+: a ∨ w <:+: b := by
  rw [infix_append_iff]
  constructor
  · rintro (ha | hb | hs)
    · exact .inl ha
    · exact .inr hb
    · rw [meets_of_straddles hs] at h
      cases h
  · rintro (ha | hb)
    · exact .inl ha
    · exact .inr (.inl hb)

/-- An ending of the word, neither empty nor all of it, begins the text. -/
def MeetsTail (w b : List α) : Bool :=
  (List.range w.length).any fun k => k ≠ 0 && decide (w.drop k <+: b)

/-- In a text whose tail the word does not meet, it occurs in what is before it or in the tail. -/
theorem infix_append_iff_of_not_meetsTail {w b : List α} (h : MeetsTail w b = false) (a : List α) :
    w <:+: a ++ b ↔ w <:+: a ∨ w <:+: b := by
  rw [infix_append_iff]
  refine or_congr_right (or_iff_left ?_)
  rintro ⟨x, y, hx, hy, rfl, -, hinitial⟩
  have hmeets : MeetsTail (x ++ y) b = true := by
    refine List.any_eq_true.mpr ⟨x.length, ?_, ?_⟩
    · have hpos := List.length_pos_of_ne_nil hy
      rw [List.mem_range, List.length_append]
      omega
    · simp [hx, hinitial]
  rw [hmeets] at h
  cases h

/-! ### Strings -/

/-- `word in text` -/
def contains (word text : String) : Bool := decide (word.toList <:+: text.toList)

theorem contains_append_left {word head : String} (h : contains word head = true) (t : String) :
    contains word (head ++ t) = true := by
  rw [contains, decide_eq_true_iff] at h ⊢
  rw [String.toList_append]
  exact List.infix_append_of_infix_left h

/-- A word that neither occurs in the head of a text nor begins at its end. -/
theorem contains_append {word head : String} (h : contains word head = false)
    (hmeets : Meets word.toList head.toList = false) (t : String) :
    contains word (head ++ t) = contains word t := by
  rw [contains, decide_eq_false_iff_not] at h
  rw [contains, contains, String.toList_append, decide_eq_decide,
    infix_append_iff_of_not_meets hmeets]
  exact or_iff_right h

end Driftgate.Occurrence
