import Driftgate.Lib.Occurrence
import Driftgate.Runtime.Registry

/-!
# Texts of documents

The review writes documents into texts: `str` of a value, `json.dumps` of a value, cut after a
number of characters. What Python adds from its tables is in `PyText`: which characters are
printed as they are, the shortest decimal text of a float, and `str.lower`. The review compares
lower-case texts with ASCII words; all that matters of `str.lower` there is what it does to texts
of ASCII characters.
-/

namespace Driftgate.Review

open Driftgate.Schema Driftgate.Runtime

/-- An ASCII character, or the ellipsis of a cut text. -/
def Plain (c : Char) : Prop := c.toNat < 128 ∨ c = '…'

instance : DecidablePred Plain := fun c => inferInstanceAs (Decidable (c.toNat < 128 ∨ c = '…'))

/-- A text of such characters. -/
def PlainText (s : String) : Prop := ∀ c ∈ s.toList, Plain c

/-- What Python's texts depend on. -/
structure PyText where
  /-- `str.isprintable` of one character. -/
  printable : Char → Bool
  /-- `repr` of a float. -/
  floatRepr : ℚ → String
  floatRepr_plain : ∀ q, PlainText (floatRepr q)
  /-- `str.lower` -/
  lower : String → String
  lower_plain : ∀ s, PlainText s → lower s = s.map Char.toLower

/-! ### Values -/

section Values

variable (py : PyText)

mutual

/-- `repr(v)` -/
def pyRepr : Json → String
  | .null => "None"
  | .bool b => if b then "True" else "False"
  | .int n => toString n
  | .float q => py.floatRepr q
  | .str s => reprString py.printable s
  | .arr items => "[" ++ ", ".intercalate (pyReprItems items) ++ "]"
  | .obj members => "\x7b" ++ ", ".intercalate (pyReprMembers members) ++ "\x7d"

def pyReprItems : List Json → List String
  | [] => []
  | v :: l => pyRepr v :: pyReprItems l

def pyReprMembers : List (String × Json) → List String
  | [] => []
  | (k, v) :: l => (reprString py.printable k ++ ": " ++ pyRepr v) :: pyReprMembers l

end

/-- `str(v)`: a text is itself. -/
def pyStr : Json → String
  | .str s => s
  | v => pyRepr py v

mutual

/-- `json.dumps(v, ensure_ascii=True)` -/
def jsonDumps : Json → String
  | .null => "null"
  | .bool b => if b then "true" else "false"
  | .int n => toString n
  | .float q => py.floatRepr q
  | .str s => dumpsString s
  | .arr items => "[" ++ ", ".intercalate (jsonDumpsItems items) ++ "]"
  | .obj members => "\x7b" ++ ", ".intercalate (jsonDumpsMembers members) ++ "\x7d"

def jsonDumpsItems : List Json → List String
  | [] => []
  | v :: l => jsonDumps v :: jsonDumpsItems l

def jsonDumpsMembers : List (String × Json) → List String
  | [] => []
  | (k, v) :: l => (dumpsString k ++ ": " ++ jsonDumps v) :: jsonDumpsMembers l

end

/-- A text cut after `limit` characters, the last one an ellipsis. -/
def cut (s : String) (limit : ℕ) : String :=
  if s.toList.length ≤ limit then s
  else String.ofList (s.toList.take (limit - 1) ++ ['…'])

/-- `_truncate` -/
def truncate (value : Json) (limit : ℕ) : String :=
  cut (match value with
    | .str s => s
    | v => jsonDumps py v) limit

end Values

/-! ### Plain texts -/

theorem plainText_of_all {s : String} (h : (s.toList.all fun c => decide (Plain c)) = true) :
    PlainText s :=
  fun c hc => of_decide_eq_true (List.all_eq_true.mp h c hc)

theorem PlainText.append {s t : String} (hs : PlainText s) (ht : PlainText t) :
    PlainText (s ++ t) := by
  intro c hc
  rw [String.toList_append, List.mem_append] at hc
  exact hc.elim (hs c) (ht c)

theorem plainText_singleton {c : Char} (h : Plain c) : PlainText (String.singleton c) := by
  intro d hd
  rw [String.toList_singleton, List.mem_singleton] at hd
  exact hd ▸ h

theorem PlainText.intercalate {sep : String} {l : List String} (hsep : PlainText sep)
    (hl : ∀ s ∈ l, PlainText s) : PlainText (sep.intercalate l) := by
  have hall : ∀ cs : List (List Char), (∀ s ∈ cs, ∀ c ∈ s, Plain c) →
      ∀ c ∈ sep.toList.intercalate cs, Plain c := by
    intro cs hcs
    induction cs with
    | nil => exact fun c hc => absurd hc List.not_mem_nil
    | cons s cs ih =>
      rw [List.forall_mem_cons] at hcs
      cases cs with
      | nil => simpa [List.intercalate] using hcs.1
      | cons t cs =>
        have hstep : sep.toList.intercalate (s :: t :: cs) =
            s ++ (sep.toList ++ sep.toList.intercalate (t :: cs)) := by
          simp [List.intercalate]
        intro c hc
        rw [hstep, List.mem_append, List.mem_append] at hc
        exact hc.elim (hcs.1 c) fun hc => hc.elim (hsep c) (ih hcs.2 c)
  intro c hc
  rw [String.toList_intercalate] at hc
  refine hall _ (fun s hs => ?_) c hc
  obtain ⟨t, ht, rfl⟩ := List.mem_map.mp hs
  exact hl t ht

theorem plainText_hex (width n : ℕ) : PlainText (hex width n) :=
  forall_mem_hex (by decide) width n

theorem plainText_unicodeEscape (n : ℕ) : PlainText (unicodeEscape n) :=
  PlainText.append (plainText_of_all rfl) (plainText_hex 4 n)

/-- With `ensure_ascii` a character is written in ASCII. -/
theorem plainText_dumpsChar (c : Char) : PlainText (dumpsChar c) := by
  simp only [dumpsChar]
  split_ifs with hq hb hn hr ht h8 hc hp hbmp
  · exact plainText_of_all rfl
  · exact plainText_of_all rfl
  · exact plainText_of_all rfl
  · exact plainText_of_all rfl
  · exact plainText_of_all rfl
  · exact plainText_of_all rfl
  · exact plainText_of_all rfl
  · exact plainText_singleton (.inl (Nat.lt_of_le_of_lt hp.2 (by decide)))
  · exact plainText_unicodeEscape _
  · exact (plainText_unicodeEscape _).append (plainText_unicodeEscape _)

theorem plainText_dumpsString (s : String) : PlainText (dumpsString s) := by
  have hquote : PlainText "\"" := plainText_of_all rfl
  refine (hquote.append fun c hc => ?_).append hquote
  rw [String.toList_join, List.flatMap_map] at hc
  obtain ⟨d, -, hc⟩ := List.mem_flatMap.mp hc
  exact plainText_dumpsChar d c hc

theorem plainText_int (n : ℤ) : PlainText (toString n) := by
  have hnat : ∀ m : ℕ, PlainText m.repr := by
    intro m c hc
    rw [Nat.repr, String.toList_ofList] at hc
    have hdigit := Nat.isDigit_of_mem_toDigits (by decide) le_rfl hc
    exact .inl (Nat.lt_of_le_of_lt (Char.isDigit_iff_toNat.mp hdigit).2 (by decide))
  cases n with
  | ofNat m => exact hnat m
  | negSucc m => exact PlainText.append (plainText_of_all rfl) (hnat (m + 1))

variable {py : PyText}

theorem jsonDumpsItems_eq_map (items : List Json) :
    jsonDumpsItems py items = items.map (jsonDumps py) := by
  induction items with
  | nil => rfl
  | cons v items ih => rw [jsonDumpsItems, ih, List.map_cons]

theorem jsonDumpsMembers_eq_map (members : List (String × Json)) :
    jsonDumpsMembers py members =
      members.map fun e => dumpsString e.1 ++ ": " ++ jsonDumps py e.2 := by
  induction members with
  | nil => rfl
  | cons e members ih => rw [jsonDumpsMembers, ih, List.map_cons]

/-- `json.dumps` with `ensure_ascii` is ASCII. -/
theorem plainText_jsonDumps (v : Json) : PlainText (jsonDumps py v) := by
  have hsep : PlainText ", " := plainText_of_all rfl
  induction v using Json.induction with
  | scalar v k hk =>
    cases v with
    | null => exact plainText_of_all (s := "null") rfl
    | bool b =>
      cases b with
      | false => exact plainText_of_all (s := "false") rfl
      | true => exact plainText_of_all (s := "true") rfl
    | int n => exact plainText_int n
    | float q => exact py.floatRepr_plain q
    | str s => exact plainText_dumpsString s
    | arr | obj => cases hk
  | arr items ih =>
    rw [jsonDumps, jsonDumpsItems_eq_map]
    refine (PlainText.append (plainText_of_all rfl) (.intercalate hsep ?_)).append
      (plainText_of_all rfl)
    exact List.forall_mem_map.mpr ih
  | obj members ih =>
    rw [jsonDumps, jsonDumpsMembers_eq_map]
    refine (PlainText.append (plainText_of_all rfl) (.intercalate hsep ?_)).append
      (plainText_of_all rfl)
    refine List.forall_mem_map.mpr fun e he => ((plainText_dumpsString e.1).append ?_).append (ih e he)
    exact plainText_of_all rfl

theorem plainText_cut {s : String} (h : PlainText s) (limit : ℕ) : PlainText (cut s limit) := by
  rw [cut]
  split
  · exact h
  · intro c hc
    rw [String.toList_ofList, List.mem_append, List.mem_singleton] at hc
    exact hc.elim (fun hc => h c (List.mem_of_mem_take hc)) .inr

/-- Tables that are enough for ASCII texts. -/
def samplePyText : PyText where
  printable _ := true
  floatRepr _ := "0.0"
  floatRepr_plain _ := plainText_of_all rfl
  lower s := s.map Char.toLower
  lower_plain _ _ := rfl

end Driftgate.Review
