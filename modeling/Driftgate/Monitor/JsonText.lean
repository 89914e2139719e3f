import Driftgate.Lib.Nesting
import Driftgate.Monitor.SchemaHash
import Mathlib.Data.List.TakeWhile
import Mathlib.Tactic.IntervalCases

/-!
# JSON texts

`json.dumps` without blanks, and `json.loads`. What Python adds from its tables is in `FloatText`:
the shortest decimal text of a float, which is a numeral with a fraction or an exponent, and the
float that a numeral denotes. `NaN` and the infinities, which `dumps` writes for no rational number,
are not read; a lone surrogate, which no text of Lean has, is read as the replacement character.

Whatever `loads` accepts closes each of its brackets and quotes (`loads_balanced`), and so does the
inside of every array and object that `dumps` writes (`dumps_container`).
-/

namespace Driftgate.Monitor

open Driftgate.Lib Driftgate.Schema
open Driftgate.Runtime (dumpsString dumpsChar unicodeEscape toList_dumpsString toList_unicodeEscape)

/-! ### Numerals -/

def scanNatural : List Char → Option (List Char × List Char)
  | [] => none
  | c :: s =>
    if c = '0' then some ([c], s)
    else if c.isDigit then some (c :: s.takeWhile Char.isDigit, s.dropWhile Char.isDigit)
    else none

/-- `-?(0|[1-9][0-9]*)` -/
def scanInteger : List Char → Option (List Char × List Char)
  | [] => none
  | c :: s =>
    if c = '-' then (scanNatural s).map fun e => (c :: e.1, e.2) else scanNatural (c :: s)

/-- `([.][0-9]+)?` -/
def scanFraction (s : List Char) : List Char × List Char :=
  match s with
  | c :: d :: rest =>
    if c = '.' ∧ d.isDigit then
      (c :: d :: rest.takeWhile Char.isDigit, rest.dropWhile Char.isDigit)
    else ([], s)
  | _ => ([], s)

def scanSign (s : List Char) : List Char × List Char :=
  match s with
  | c :: rest => if c = '+' ∨ c = '-' then ([c], rest) else ([], s)
  | [] => ([], s)

/-- `([eE][-+]?[0-9]+)?` -/
def scanExponent (s : List Char) : List Char × List Char :=
  match s with
  | c :: rest =>
    let sign := scanSign rest
    let digits := sign.2.takeWhile Char.isDigit
    if (c = 'e' ∨ c = 'E') ∧ digits ≠ [] then
      (c :: (sign.1 ++ digits), sign.2.dropWhile Char.isDigit)
    else ([], s)
  | [] => ([], s)

/-- `match_number`: the integer part, the fraction with the exponent, and the rest. -/
def scanNumeral (s : List Char) : Option (List Char × List Char × List Char) :=
  (scanInteger s).map fun e =>
    let fraction := scanFraction e.2
    let exponent := scanExponent fraction.2
    (e.1, fraction.1 ++ exponent.1, exponent.2)

/-- `int(digits)` -/
def natOf (digits : List Char) : ℕ := digits.foldl (fun n c => 10 * n + (c.toNat - '0'.toNat)) 0

/-- `int(text)` for an integer part. -/
def intOf : List Char → ℤ
  | [] => 0
  | c :: s => if c = '-' then -natOf s else natOf (c :: s)

/-- A numeral with a fraction or an exponent. -/
def IsFloatNumeral (s : List Char) : Prop :=
  ∃ integer fraction, scanNumeral s = some (integer, fraction, []) ∧ fraction ≠ []

/-- What the texts of floats depend on. -/
structure FloatText where
  /-- `float.__repr__` -/
  repr : ℚ → String
  /-- `float(text)` -/
  float : String → ℚ
  repr_numeral : ∀ q, IsFloatNumeral (repr q).toList

/-! ### Writing -/

mutual

/-- `json.dumps(v, separators=(",", ":"))` -/
def dumps (floats : FloatText) : Json → String
  | .null => "null"
  | .bool b => dumpsBool b
  | .int n => toString n
  | .float q => floats.repr q
  | .str s => dumpsString s
  | .arr items => "[" ++ ",".intercalate (dumpsItems floats items) ++ "]"
  | .obj members => "\x7b" ++ ",".intercalate (dumpsMembers floats members) ++ "\x7d"

def dumpsItems (floats : FloatText) : List Json → List String
  | [] => []
  | v :: l => dumps floats v :: dumpsItems floats l

def dumpsMembers (floats : FloatText) : List (String × Json) → List String
  | [] => []
  | (k, v) :: l => dumpsField k (dumps floats v) :: dumpsMembers floats l

end

/-! ### Reading strings -/

/-- `_decode_uXXXX` -/
def hexUnit? (digits : List Char) : Option ℕ :=
  (digits.mapM hexValue).map fun values => values.foldl (fun n d => 16 * n + d) 0

/-- `BACKSLASH` -/
def escapedChar? (c : Char) : Option Char :=
  if c = '"' ∨ c = '\\' ∨ c = '/' then some c
  else if c = 'b' then some '\x08'
  else if c = 'f' then some '\x0c'
  else if c = 'n' then some '\n'
  else if c = 'r' then some '\r'
  else if c = 't' then some '\t'
  else none

/-- `scanstring`, after the quote: the code units of the text, and the rest. -/
def scanString : List Char → Option (List ℕ × List Char)
  | [] => none
  | c :: s =>
    if c = '"' then some ([], s)
    else if c = '\\' then
      match s with
      | [] => none
      | e :: s =>
        if e = 'u' then
          match s with
          | d₁ :: d₂ :: d₃ :: d₄ :: s =>
            (hexUnit? [d₁, d₂, d₃, d₄]).bind fun unit =>
              (scanString s).map fun r => (unit :: r.1, r.2)
          | _ => none
        else (escapedChar? e).bind fun c => (scanString s).map fun r => (c.toNat :: r.1, r.2)
    -- `strict`: no control characters
    else if c.toNat < 0x20 then none
    else (scanString s).map fun r => (c.toNat :: r.1, r.2)

def charOf (unit : ℕ) : Char := if unit.isValidChar then Char.ofNat unit else '\ufffd'

/-- The characters of code units: two surrogates are one character. -/
def charsOf : List ℕ → List Char
  | [] => []
  | [unit] => [charOf unit]
  | hi :: lo :: units =>
    if 0xd800 ≤ hi ∧ hi ≤ 0xdbff ∧ 0xdc00 ≤ lo ∧ lo ≤ 0xdfff then
      charOf (0x10000 + (hi - 0xd800) * 0x400 + (lo - 0xdc00)) :: charsOf units
    else charOf hi :: charsOf (lo :: units)

/-! ### Reading values -/

def isBlank (c : Char) : Bool := c = ' ' ∨ c = '\t' ∨ c = '\n' ∨ c = '\r'

def skipBlanks (s : List Char) : List Char := s.dropWhile isBlank

/-- The rest after a fixed character. -/
def expect (c : Char) : List Char → Option (List Char)
  | [] => none
  | d :: s => if d = c then some s else none

/-- The rest after a fixed word. -/
def expectWord : List Char → List Char → Option (List Char)
  | [], s => some s
  | c :: word, s => (expect c s).bind (expectWord word)

def constants : List (String × Json) :=
  [("null", .null), ("true", .bool true), ("false", .bool false)]

/-- The number of a numeral. -/
def numberOf (floats : FloatText) (integer fraction : List Char) : Json :=
  if fraction = [] then .int (intOf integer)
  else .float (floats.float (String.ofList (integer ++ fraction)))

/-- A constant or a number. -/
def scanLiteral (floats : FloatText) (s : List Char) : Option (Json × List Char) :=
  (constants.findSome? fun e => (expectWord e.1.toList s).map fun rest => (e.2, rest)).or <|
    (scanNumeral s).map fun e => (numberOf floats e.1 e.2.1, e.2.2)

/-- `dict(pairs)`: the last value of a key stands where its first one did. -/
def dictOf (pairs : List (String × Json)) : List (String × Json) :=
  pairs.foldl (fun members e => modifyKey e.1 (fun _ => e.2) (ensureKey e.1 e.2 members)) []

section

variable (floats : FloatText)

mutual

/-- `scan_once`. The number bounds the nesting of the calls. -/
def scanValue : ℕ → List Char → Option (Json × List Char)
  | 0, _ => none
  | _ + 1, [] => none
  | n + 1, c :: s =>
    if c = '"' then (scanString s).map fun e => (.str (String.ofList (charsOf e.1)), e.2)
    else if c = '[' then
      match expect ']' (skipBlanks s) with
      | some rest => some (.arr [], rest)
      | none => (scanItems n (skipBlanks s)).map fun e => (.arr e.1, e.2)
    else if c = '\x7b' then
      match expect '\x7d' (skipBlanks s) with
      | some rest => some (.obj [], rest)
      | none => (scanMembers n (skipBlanks s)).map fun e => (.obj (dictOf e.1), e.2)
    else scanLiteral floats (c :: s)

/-- The loop of `JSONArray`. -/
def scanItems : ℕ → List Char → Option (List Json × List Char)
  | 0, _ => none
  | n + 1, s =>
    (scanValue n s).bind fun e =>
      match expect ']' (skipBlanks e.2) with
      | some rest => some ([e.1], rest)
      | none => (expect ',' (skipBlanks e.2)).bind fun rest =>
          (scanItems n (skipBlanks rest)).map fun l => (e.1 :: l.1, l.2)

/-- The loop of `JSONObject`. -/
def scanMembers : ℕ → List Char → Option (List (String × Json) × List Char)
  | 0, _ => none
  | n + 1, s =>
    (expect '"' s).bind fun s => (scanString s).bind fun key =>
      (expect ':' (skipBlanks key.2)).bind fun s => (scanValue n (skipBlanks s)).bind fun e =>
        let member := (String.ofList (charsOf key.1), e.1)
        match expect '\x7d' (skipBlanks e.2) with
        | some rest => some ([member], rest)
        | none => (expect ',' (skipBlanks e.2)).bind fun rest =>
            (scanMembers n (skipBlanks rest)).map fun l => (member :: l.1, l.2)

end

/-- `json.loads`, none for a `JSONDecodeError`. -/
def loads (text : String) : Option Json :=
  let s := skipBlanks text.toList
  (scanValue floats (2 * s.length + 1) s).bind fun e =>
    if skipBlanks e.2 = [] then some e.1 else none

end

/-! ### Brackets and quotes -/

/-- The role of a character in a JSON text. -/
def jsonRole (c : Char) : Role :=
  if c = '"' then .quote
  else if c = '\\' then .escape
  else if c = '[' ∨ c = '\x7b' then .opening
  else if c = ']' ∨ c = '\x7d' then .closing
  else .plain

theorem jsonRole_eq_plain {c : Char} (h : c ∉ ['"', '\\', '[', '\x7b', ']', '\x7d']) :
    jsonRole c = .plain := by
  simp only [List.mem_cons, List.not_mem_nil, or_false, not_or] at h
  rw [jsonRole, if_neg h.1, if_neg h.2.1, if_neg (not_or.mpr ⟨h.2.2.1, h.2.2.2.1⟩),
    if_neg (not_or.mpr ⟨h.2.2.2.2.1, h.2.2.2.2.2⟩)]

/-- A property of characters that the six special ones do not have. -/
theorem jsonRole_of (p : Char → Prop) [DecidablePred p]
    (hp : (['"', '\\', '[', '\x7b', ']', '\x7d'].all fun c => decide ¬p c) = true) {c : Char}
    (h : p c) : jsonRole c = .plain :=
  jsonRole_eq_plain fun hc => forall_mem_of_all hp c hc h

/-- The characters of numerals. -/
def NumeralChar (c : Char) : Prop := c.isDigit ∨ c ∈ ['-', '+', '.', 'e', 'E']

instance : DecidablePred NumeralChar := fun _ => inferInstanceAs (Decidable (_ ∨ _))

theorem NumeralChar.plain {c : Char} (h : NumeralChar c) : jsonRole c = .plain :=
  jsonRole_of NumeralChar (by decide) h

/-! ### What is consumed -/

/-- The text before the rest closes its brackets and quotes. -/
def Consumes (s rest : List Char) : Prop := ∃ w, s = w ++ rest ∧ Balanced jsonRole w

theorem Consumes.refl (s : List Char) : Consumes s s := ⟨[], rfl, .nil⟩

theorem Consumes.trans {s t u : List Char} (h : Consumes s t) (h' : Consumes t u) :
    Consumes s u := by
  obtain ⟨w, rfl, hw⟩ := h
  obtain ⟨w', rfl, hw'⟩ := h'
  exact ⟨w ++ w', (List.append_assoc w w' u).symm, hw.append hw'⟩

theorem Consumes.plain {w rest : List Char} (h : ∀ c ∈ w, jsonRole c = .plain) :
    Consumes (w ++ rest) rest := ⟨w, rfl, .plain h⟩

theorem Consumes.length_le {s rest : List Char} (h : Consumes s rest) :
    rest.length ≤ s.length := by
  obtain ⟨w, rfl, -⟩ := h
  rw [List.length_append]
  omega

/-- From an opening bracket to a closing one. -/
theorem Consumes.bracketed {o c : Char} {s rest : List Char} (ho : jsonRole o = .opening)
    (hc : jsonRole c = .closing) (h : Consumes s (c :: rest)) : Consumes (o :: s) rest := by
  obtain ⟨w, rfl, hw⟩ := h
  exact ⟨o :: (w ++ [c]), by simp, hw.bracketed ho hc⟩

theorem consumes_blanks (s : List Char) : Consumes s (skipBlanks s) := by
  have h : Consumes (s.takeWhile isBlank ++ skipBlanks s) (skipBlanks s) := .plain fun c hc =>
    jsonRole_of (fun c => isBlank c = true) (by decide) (List.mem_takeWhile_imp hc)
  rwa [skipBlanks, List.takeWhile_append_dropWhile] at h

theorem expect_eq_some {c : Char} {s rest : List Char} : expect c s = some rest ↔ s = c :: rest := by
  cases s with
  | nil => exact iff_of_false (fun h => nomatch h) fun h => nomatch h
  | cons d s =>
    rw [expect]
    by_cases hd : d = c
    · rw [if_pos hd, Option.some_inj, hd, List.cons_inj_right]
    · rw [if_neg hd]
      exact iff_of_false (fun h => nomatch h) fun h => hd (List.cons.inj h).1

/-- The next character that is no blank. -/
theorem consumes_to {c : Char} {s rest : List Char} (h : expect c (skipBlanks s) = some rest) :
    Consumes s (c :: rest) := by
  rw [← expect_eq_some.mp h]
  exact consumes_blanks s

theorem consumes_over {c : Char} {s rest : List Char} (h : expect c (skipBlanks s) = some rest)
    (hc : jsonRole c = .plain) : Consumes s rest :=
  (consumes_to h).trans (Consumes.plain (w := [c]) fun _ hd => by rwa [List.mem_singleton.mp hd])

theorem scanNatural_eq_some {s w rest : List Char} (h : scanNatural s = some (w, rest)) :
    s = w ++ rest ∧ w ≠ [] ∧ ∀ c ∈ w, NumeralChar c := by
  cases s with
  | nil => cases h
  | cons c s =>
    rw [scanNatural] at h
    split_ifs at h with hzero hdigit
    · obtain ⟨rfl, rfl⟩ := Prod.mk.inj (Option.some.inj h)
      refine ⟨rfl, List.cons_ne_nil c [], fun d hd => ?_⟩
      rw [List.mem_singleton.mp hd, hzero]
      decide
    · obtain ⟨rfl, rfl⟩ := Prod.mk.inj (Option.some.inj h)
      refine ⟨?_, List.cons_ne_nil c _, List.forall_mem_cons.mpr ⟨.inl hdigit, ?_⟩⟩
      · rw [List.cons_append, List.takeWhile_append_dropWhile]
      · exact fun d hd => .inl (List.mem_takeWhile_imp hd)

theorem scanInteger_eq_some {s w rest : List Char} (h : scanInteger s = some (w, rest)) :
    s = w ++ rest ∧ w ≠ [] ∧ ∀ c ∈ w, NumeralChar c := by
  cases s with
  | nil => cases h
  | cons c s =>
    rw [scanInteger] at h
    split_ifs at h with hminus
    · obtain ⟨⟨w', rest'⟩, hnat, heq⟩ := Option.map_eq_some_iff.mp h
      obtain ⟨rfl, rfl⟩ := Prod.mk.inj heq
      obtain ⟨rfl, -, hplain⟩ := scanNatural_eq_some hnat
      refine ⟨rfl, List.cons_ne_nil c w', List.forall_mem_cons.mpr ⟨?_, hplain⟩⟩
      rw [hminus]
      decide
    · exact scanNatural_eq_some h

theorem scanFraction_split (s : List Char) :
    s = (scanFraction s).1 ++ (scanFraction s).2 ∧ ∀ c ∈ (scanFraction s).1, NumeralChar c := by
  have hnone : ∀ s : List Char, s = [] ++ s ∧ ∀ c ∈ ([] : List Char), NumeralChar c :=
    fun s => ⟨rfl, fun _ hc => absurd hc List.not_mem_nil⟩
  match s with
  | [] => exact hnone []
  | [c] => exact hnone [c]
  | c :: d :: rest =>
    rw [scanFraction]
    split_ifs with hdot
    · refine ⟨?_, List.forall_mem_cons.mpr ⟨?_, List.forall_mem_cons.mpr ⟨.inl hdot.2, ?_⟩⟩⟩
      · rw [List.cons_append, List.cons_append, List.takeWhile_append_dropWhile]
      · rw [hdot.1]
        decide
      · exact fun e he => .inl (List.mem_takeWhile_imp he)
    · exact hnone (c :: d :: rest)

theorem scanSign_split (s : List Char) :
    s = (scanSign s).1 ++ (scanSign s).2 ∧ ∀ c ∈ (scanSign s).1, NumeralChar c := by
  cases s with
  | nil => exact ⟨rfl, fun _ hc => absurd hc List.not_mem_nil⟩
  | cons c rest =>
    rw [scanSign]
    split_ifs with hsign
    · refine ⟨rfl, fun d hd => ?_⟩
      rw [List.mem_singleton.mp hd]
      obtain rfl | rfl := hsign
      · decide
      · decide
    · exact ⟨rfl, fun _ hc => absurd hc List.not_mem_nil⟩

theorem scanExponent_split (s : List Char) :
    s = (scanExponent s).1 ++ (scanExponent s).2 ∧ ∀ c ∈ (scanExponent s).1, NumeralChar c := by
  cases s with
  | nil => exact ⟨rfl, fun _ hc => absurd hc List.not_mem_nil⟩
  | cons c rest =>
    obtain ⟨hsplit, hsign⟩ := scanSign_split rest
    simp only [scanExponent]
    split_ifs with hexp
    · refine ⟨?_, List.forall_mem_cons.mpr ⟨?_, fun d hd => ?_⟩⟩
      · rw [List.cons_append, List.append_assoc, List.takeWhile_append_dropWhile, ← hsplit]
      · obtain rfl | rfl := hexp.1
        · decide
        · decide
      · obtain hd | hd := List.mem_append.mp hd
        · exact hsign d hd
        · exact .inl (List.mem_takeWhile_imp hd)
    · exact ⟨rfl, fun _ hc => absurd hc List.not_mem_nil⟩

/-- A numeral at the start of a text. -/
theorem scanNumeral_eq_some {s integer fraction rest : List Char}
    (h : scanNumeral s = some (integer, fraction, rest)) : s = integer ++ fraction ++ rest ∧
      integer ≠ [] ∧ ∀ c ∈ integer ++ fraction, NumeralChar c := by
  obtain ⟨e, hint, heq⟩ := Option.map_eq_some_iff.mp h
  simp only [Prod.mk.injEq] at heq
  obtain ⟨rfl, rfl, rfl⟩ := heq
  obtain ⟨hs, hne, hplain⟩ := scanInteger_eq_some hint
  obtain ⟨hfraction, hplainFraction⟩ := scanFraction_split e.2
  obtain ⟨hexponent, hplainExponent⟩ := scanExponent_split (scanFraction e.2).2
  refine ⟨?_, hne, List.forall_mem_append.mpr ⟨hplain, ?_⟩⟩
  · rw [List.append_assoc, List.append_assoc, ← hexponent, ← hfraction]
    exact hs
  · exact List.forall_mem_append.mpr ⟨hplainFraction, hplainExponent⟩

theorem expectWord_eq_some {word s rest : List Char} :
    expectWord word s = some rest ↔ s = word ++ rest := by
  induction word generalizing s with
  | nil => exact Option.some_inj
  | cons c word ih =>
    rw [expectWord, Option.bind_eq_some_iff]
    simp only [expect_eq_some, ih]
    constructor
    · rintro ⟨s', rfl, rfl⟩
      rfl
    · rintro rfl
      exact ⟨_, rfl, rfl⟩

section Reading

variable {floats : FloatText}

theorem scanLiteral_consumes {s rest : List Char} {v : Json}
    (h : scanLiteral floats s = some (v, rest)) : Consumes s rest ∧ rest.length < s.length := by
  obtain h | ⟨-, h⟩ := Option.or_eq_some_iff.mp h
  · obtain ⟨e, he, hword⟩ := List.exists_of_findSome?_eq_some h
    obtain ⟨rest', hrest, heq⟩ := Option.map_eq_some_iff.mp hword
    obtain ⟨-, rfl⟩ := Prod.mk.inj heq
    have hplain : ∀ e ∈ constants, e.1.toList ≠ [] ∧
        (e.1.toList.all fun c => decide (jsonRole c = .plain)) = true := by decide
    obtain ⟨hne, hword⟩ := hplain e he
    rw [expectWord_eq_some.mp hrest]
    refine ⟨.plain (forall_mem_of_all hword), ?_⟩
    have hpos := List.length_pos_of_ne_nil hne
    rw [List.length_append]
    omega
  · obtain ⟨⟨integer, fraction, rest'⟩, hnumeral, heq⟩ := Option.map_eq_some_iff.mp h
    obtain ⟨-, rfl⟩ := Prod.mk.inj heq
    obtain ⟨rfl, hne, hplain⟩ := scanNumeral_eq_some hnumeral
    show Consumes _ rest' ∧ rest'.length < _
    refine ⟨.plain fun c hc => (hplain c hc).plain, ?_⟩
    have hpos := List.length_pos_of_ne_nil hne
    rw [List.length_append, List.length_append]
    omega

theorem hexUnit_digits {digits : List Char} {unit : ℕ} (h : hexUnit? digits = some unit) :
    ∀ c ∈ digits, jsonRole c = .plain := by
  obtain ⟨values, hvalues, -⟩ := Option.map_eq_some_iff.mp h
  clear h
  induction digits generalizing values with
  | nil => exact fun c hc => absurd hc List.not_mem_nil
  | cons c digits ih =>
    rw [List.mapM_cons] at hvalues
    obtain ⟨value, hvalue, hrest⟩ := Option.bind_eq_some_iff.mp hvalues
    obtain ⟨values', hvalues', -⟩ := Option.bind_eq_some_iff.mp hrest
    refine List.forall_mem_cons.mpr ⟨?_, ih values' hvalues'⟩
    exact jsonRole_of (fun c => (hexValue c).isSome) (by decide) (by rw [hvalue]; rfl)

/-- A string literal up to its closing quote. -/
theorem scanString_eq_some {s rest : List Char} {units : List ℕ}
    (h : scanString s = some (units, rest)) : ∃ w, s = w ++ '"' :: rest ∧ Quoted jsonRole w := by
  have hmore : ∀ {w s' : List Char}, Quoted jsonRole w → (∃ w', s' = w' ++ '"' :: rest ∧
      Quoted jsonRole w') → ∃ w', w ++ s' = w' ++ '"' :: rest ∧ Quoted jsonRole w' := by
    rintro w s' hw ⟨w', rfl, hw'⟩
    exact ⟨w ++ w', (List.append_assoc w w' _).symm, hw.append hw'⟩
  have hescaped : ∀ c, Quoted jsonRole ['\\', c] := fun c => .escaped rfl c
  induction s using scanString.induct generalizing units with
  | case1 => cases h
  | case2 s =>
    rw [scanString.eq_def] at h
    obtain ⟨-, rfl⟩ := Prod.mk.inj (Option.some.inj h)
    exact ⟨[], rfl, .nil⟩
  | case3 => cases h
  | case4 d₁ d₂ d₃ d₄ s _ ih =>
    obtain ⟨unit, hunit, hrest⟩ := Option.bind_eq_some_iff.mp h
    obtain ⟨e, he, heq⟩ := Option.map_eq_some_iff.mp hrest
    obtain ⟨-, rfl⟩ := Prod.mk.inj heq
    have hdigits : Quoted jsonRole [d₁, d₂, d₃, d₄] := .plain (hexUnit_digits hunit)
    exact hmore ((hescaped 'u').append hdigits) (ih he)
  | case5 s hshort _ =>
    rw [scanString.eq_def] at h
    simp only [Char.reduceEq, ↓reduceIte] at h
    cases h
  | case6 c s hu _ ih =>
    rw [scanString.eq_def] at h
    simp only [Char.reduceEq, ↓reduceIte, hu] at h
    obtain ⟨unit, -, hrest⟩ := Option.bind_eq_some_iff.mp h
    obtain ⟨e, he, heq⟩ := Option.map_eq_some_iff.mp hrest
    obtain ⟨-, rfl⟩ := Prod.mk.inj heq
    exact hmore (hescaped c) (ih he)
  | case7 c s hquote hescape hcontrol =>
    rw [scanString.eq_def] at h
    simp only [hquote, hescape, hcontrol, ↓reduceIte] at h
    cases h
  | case8 c s hquote hescape hcontrol ih =>
    rw [scanString.eq_def] at h
    simp only [hquote, hescape, hcontrol, ↓reduceIte] at h
    obtain ⟨e, he, heq⟩ := Option.map_eq_some_iff.mp h
    obtain ⟨-, rfl⟩ := Prod.mk.inj heq
    have hrole : jsonRole c ≠ .quote ∧ jsonRole c ≠ .escape := by
      rw [jsonRole, if_neg hquote, if_neg hescape]
      split_ifs <;> decide
    exact hmore (.symbol hrole.1 hrole.2) (ih he)

/-! ### Values -/

theorem scanValue_step {n : ℕ}
    (hitems : ∀ s l rest, scanItems floats n s = some (l, rest) → Consumes s (']' :: rest))
    (hmembers : ∀ s l rest, scanMembers floats n s = some (l, rest) → Consumes s ('\x7d' :: rest))
    {s rest : List Char} {v : Json} (h : scanValue floats (n + 1) s = some (v, rest)) :
    Consumes s rest ∧ rest.length < s.length := by
  have hbetween : ∀ {o c : Char} {s : List Char}, jsonRole o = .opening → jsonRole c = .closing →
      Consumes s (c :: rest) → Consumes (o :: s) rest ∧ rest.length < (o :: s).length := by
    intro o c s ho hc hs
    refine ⟨hs.bracketed ho hc, ?_⟩
    have hle := hs.length_le
    rw [List.length_cons] at hle ⊢
    omega
  cases s with
  | nil => cases h
  | cons c s =>
    rw [scanValue] at h
    split_ifs at h with hquote harray hobject
    · obtain ⟨e, he, heq⟩ := Option.map_eq_some_iff.mp h
      obtain ⟨-, rfl⟩ := Prod.mk.inj heq
      obtain ⟨w, rfl, hw⟩ := scanString_eq_some he
      refine ⟨⟨c :: (w ++ ['"']), by simp, ?_⟩, ?_⟩
      · rw [hquote]
        exact Balanced.quoted rfl hw
      · rw [List.length_cons, List.length_append, List.length_cons]
        omega
    · rw [harray]
      split at h
      · next rest' hclose =>
        obtain ⟨-, rfl⟩ := Prod.mk.inj (Option.some.inj h)
        exact hbetween rfl rfl (consumes_to hclose)
      · obtain ⟨e, he, heq⟩ := Option.map_eq_some_iff.mp h
        obtain ⟨-, rfl⟩ := Prod.mk.inj heq
        exact hbetween rfl rfl ((consumes_blanks s).trans (hitems _ _ _ he))
    · rw [hobject]
      split at h
      · next rest' hclose =>
        obtain ⟨-, rfl⟩ := Prod.mk.inj (Option.some.inj h)
        exact hbetween rfl rfl (consumes_to hclose)
      · obtain ⟨e, he, heq⟩ := Option.map_eq_some_iff.mp h
        obtain ⟨-, rfl⟩ := Prod.mk.inj heq
        exact hbetween rfl rfl ((consumes_blanks s).trans (hmembers _ _ _ he))
    · exact scanLiteral_consumes h

theorem scanItems_step {n : ℕ}
    (hvalue : ∀ s v rest, scanValue floats n s = some (v, rest) → Consumes s rest)
    (hitems : ∀ s l rest, scanItems floats n s = some (l, rest) → Consumes s (']' :: rest))
    {s rest : List Char} {l : List Json} (h : scanItems floats (n + 1) s = some (l, rest)) :
    Consumes s (']' :: rest) := by
  rw [scanItems] at h
  obtain ⟨e, he, hrest⟩ := Option.bind_eq_some_iff.mp h
  refine (hvalue _ _ _ he).trans ?_
  split at hrest
  · next rest' hclose =>
    obtain ⟨-, rfl⟩ := Prod.mk.inj (Option.some.inj hrest)
    exact consumes_to hclose
  · obtain ⟨rest', hcomma, hrest⟩ := Option.bind_eq_some_iff.mp hrest
    obtain ⟨e', he', heq⟩ := Option.map_eq_some_iff.mp hrest
    obtain ⟨-, rfl⟩ := Prod.mk.inj heq
    exact ((consumes_over hcomma rfl).trans (consumes_blanks rest')).trans (hitems _ _ _ he')

theorem scanMembers_step {n : ℕ}
    (hvalue : ∀ s v rest, scanValue floats n s = some (v, rest) → Consumes s rest)
    (hmembers : ∀ s l rest, scanMembers floats n s = some (l, rest) → Consumes s ('\x7d' :: rest))
    {s rest : List Char} {l : List (String × Json)}
    (h : scanMembers floats (n + 1) s = some (l, rest)) : Consumes s ('\x7d' :: rest) := by
  rw [scanMembers] at h
  obtain ⟨s', hquote, h⟩ := Option.bind_eq_some_iff.mp h
  obtain ⟨key, hkey, h⟩ := Option.bind_eq_some_iff.mp h
  obtain ⟨s'', hcolon, h⟩ := Option.bind_eq_some_iff.mp h
  obtain ⟨e, he, h⟩ := Option.bind_eq_some_iff.mp h
  have hstring : Consumes s key.2 := by
    obtain ⟨w, rfl, hw⟩ := scanString_eq_some hkey
    rw [expect_eq_some.mp hquote]
    exact ⟨'"' :: (w ++ ['"']), by simp, Balanced.quoted rfl hw⟩
  have hmember := ((hstring.trans (consumes_over hcolon rfl)).trans (consumes_blanks s'')).trans
    (hvalue _ _ _ he)
  refine hmember.trans ?_
  simp only at h
  split at h
  · next rest' hclose =>
    obtain ⟨-, rfl⟩ := Prod.mk.inj (Option.some.inj h)
    exact consumes_to hclose
  · obtain ⟨rest', hcomma, hrest⟩ := Option.bind_eq_some_iff.mp h
    obtain ⟨e', he', heq⟩ := Option.map_eq_some_iff.mp hrest
    obtain ⟨-, rfl⟩ := Prod.mk.inj heq
    exact ((consumes_over hcomma rfl).trans (consumes_blanks rest')).trans (hmembers _ _ _ he')

/-- **What is read closes its brackets and quotes.** -/
theorem scan_consumes (n : ℕ) :
    (∀ s v rest, scanValue floats n s = some (v, rest) →
      Consumes s rest ∧ rest.length < s.length) ∧
    (∀ s l rest, scanItems floats n s = some (l, rest) → Consumes s (']' :: rest)) ∧
    ∀ s l rest, scanMembers floats n s = some (l, rest) → Consumes s ('\x7d' :: rest) := by
  induction n with
  | zero => exact ⟨fun _ _ _ h => (nomatch h), fun _ _ _ h => (nomatch h), fun _ _ _ h => (nomatch h)⟩
  | succ n ih =>
    obtain ⟨hvalue, hitems, hmembers⟩ := ih
    exact ⟨fun s v rest h => scanValue_step hitems hmembers h,
      fun s l rest h => scanItems_step (fun s v rest h => (hvalue s v rest h).1) hitems h,
      fun s l rest h => scanMembers_step (fun s v rest h => (hvalue s v rest h).1) hmembers h⟩

theorem loads_balanced {text : String} {v : Json} (h : loads floats text = some v) :
    Balanced jsonRole text.toList := by
  obtain ⟨e, he, hend⟩ := Option.bind_eq_some_iff.mp h
  split_ifs at hend with hblank
  have hvalue : Consumes _ e.2 := ((scan_consumes _).1 _ _ _ he).1
  obtain ⟨w, hw, hbalanced⟩ := ((consumes_blanks text.toList).trans hvalue).trans (consumes_blanks e.2)
  rw [hblank, List.append_nil] at hw
  rwa [hw]

theorem loads_empty : loads floats "" = none := rfl

/-- **Numerals.** A text of the characters of numerals is read if it is a numeral. -/
theorem loads_numeral {text : String} (h : ∀ c ∈ text.toList, NumeralChar c) {v : Json} :
    loads floats text = some v ↔ ∃ integer fraction,
      scanNumeral text.toList = some (integer, fraction, []) ∧
      v = numberOf floats integer fraction := by
  have hblanks : ∀ s : List Char, (∀ c ∈ s, NumeralChar c) → skipBlanks s = s := by
    intro s hs
    cases s with
    | nil => rfl
    | cons c s =>
      have hblank : ¬isBlank c = true := by
        intro hblank
        have hno : ∀ c ∈ [' ', '\t', '\n', '\r'], ¬NumeralChar c := forall_mem_of_all (by decide)
        refine hno c ?_ (hs c List.mem_cons_self)
        simpa [isBlank] using hblank
      exact List.dropWhile_cons_of_neg hblank
  -- the rest of a numeral has no blanks either
  have hend : ∀ e : List Char × List Char × List Char, scanNumeral text.toList = some e →
      skipBlanks e.2.2 = e.2.2 := by
    rintro ⟨integer, fraction, rest⟩ he
    refine hblanks rest fun c hc => h c ?_
    rw [(scanNumeral_eq_some he).1]
    exact List.mem_append_right _ hc
  have hloads : loads floats text = (scanNumeral text.toList).bind fun e =>
      if e.2.2 = [] then some (numberOf floats e.1 e.2.1) else none := by
    rw [loads, hblanks _ h]
    cases htext : text.toList with
    | nil => rfl
    | cons c s =>
      have hc : NumeralChar c := h c (by rw [htext]; exact List.mem_cons_self)
      have hother : c ∉ ['"', '[', '\x7b', 'n', 't', 'f'] := by
        intro hmem
        have hno : ∀ c ∈ ['"', '[', '\x7b', 'n', 't', 'f'], ¬NumeralChar c :=
          forall_mem_of_all (by decide)
        exact hno c hmem hc
      simp only [List.mem_cons, List.not_mem_nil, or_false, not_or] at hother
      obtain ⟨hquote, harray, hobject, hn, ht, hf⟩ := hother
      have hconstants : (constants.findSome? fun e =>
          (expectWord e.1.toList (c :: s)).map fun rest => (e.2, rest)) = none := by
        rw [List.findSome?_eq_none_iff]
        intro e he
        rw [Option.map_eq_none_iff]
        cases hword : expectWord e.1.toList (c :: s) with
        | none => rfl
        | some rest =>
          have hhead : ∀ e ∈ constants, ∃ d w, e.1.toList = d :: w ∧ d ∈ ['n', 't', 'f'] := by
            intro e he
            simp only [constants, List.mem_cons, List.not_mem_nil, or_false] at he
            obtain rfl | rfl | rfl := he
            · exact ⟨'n', _, rfl, by decide⟩
            · exact ⟨'t', _, rfl, by decide⟩
            · exact ⟨'f', _, rfl, by decide⟩
          obtain ⟨d, w, hd, hmem⟩ := hhead e he
          have heq := expectWord_eq_some.mp hword
          rw [hd] at heq
          have hcd : c = d := (List.cons.inj heq).1
          rw [← hcd] at hmem
          simp [hn, ht, hf] at hmem
      rw [scanValue, if_neg hquote, if_neg harray, if_neg hobject, scanLiteral, hconstants,
        Option.none_or, Option.bind_map]
      refine Option.bind_congr fun e he => ?_
      rw [← htext] at he
      simp only [Function.comp_apply, hend e he]
  rw [hloads, Option.bind_eq_some_iff]
  constructor
  · rintro ⟨⟨integer, fraction, rest⟩, he, hv⟩
    split_ifs at hv with hrest
    obtain rfl : rest = [] := hrest
    exact ⟨integer, fraction, he, (Option.some.inj hv).symm⟩
  · rintro ⟨integer, fraction, he, rfl⟩
    exact ⟨_, he, if_pos rfl⟩

/-! ### The bound on the calls -/

/-- A larger bound changes nothing, if it is twice the length of the text. -/
theorem scan_succ (n : ℕ) :
    (∀ s, 2 * s.length + 1 ≤ n → scanValue floats (n + 1) s = scanValue floats n s) ∧
    (∀ s, 2 * s.length + 2 ≤ n → scanItems floats (n + 1) s = scanItems floats n s) ∧
    ∀ s, 2 * s.length + 2 ≤ n → scanMembers floats (n + 1) s = scanMembers floats n s := by
  have hblanks : ∀ s : List Char, (skipBlanks s).length ≤ s.length :=
    fun s => (consumes_blanks s).length_le
  induction n with
  | zero => exact ⟨fun _ h => by omega, fun _ h => by omega, fun _ h => by omega⟩
  | succ n ih =>
    obtain ⟨hvalue, hitems, hmembers⟩ := ih
    refine ⟨fun s hs => ?_, fun s hs => ?_, fun s hs => ?_⟩
    · cases s with
      | nil => rfl
      | cons c s =>
        rw [List.length_cons] at hs
        have hle := hblanks s
        rw [scanValue, scanValue, hitems _ (by omega), hmembers _ (by omega)]
    · rw [scanItems, scanItems, hvalue s (by omega)]
      refine Option.bind_congr fun e he => ?_
      have hlt := ((scan_consumes n).1 _ _ _ he).2
      split
      · rfl
      · refine Option.bind_congr fun rest hrest => ?_
        have hle := (consumes_to hrest).length_le
        have hle' := hblanks rest
        rw [List.length_cons] at hle
        rw [hitems _ (by omega)]
    · rw [scanMembers, scanMembers]
      refine Option.bind_congr fun s' hs' => Option.bind_congr fun key hkey =>
        Option.bind_congr fun s'' hs'' => ?_
      have hquote := congrArg List.length (expect_eq_some.mp hs')
      obtain ⟨w, rfl, -⟩ := scanString_eq_some hkey
      have hcolon := (consumes_to hs'').length_le
      have hle := hblanks s''
      rw [List.length_cons] at hcolon
      rw [List.length_cons, List.length_append, List.length_cons] at hquote
      rw [hvalue _ (by omega)]
      refine Option.bind_congr fun e he => ?_
      have hlt := ((scan_consumes n).1 _ _ _ he).2
      simp only
      split
      · rfl
      · refine Option.bind_congr fun rest hrest => ?_
        have hle' := (consumes_to hrest).length_le
        have hle'' := hblanks rest
        rw [List.length_cons] at hle'
        rw [hmembers _ (by omega)]

/-- The bound of `loads` is never reached. -/
theorem scanValue_of_le {n : ℕ} {s : List Char} (h : 2 * s.length + 1 ≤ n) :
    scanValue floats n s = scanValue floats (2 * s.length + 1) s := by
  induction n, h using Nat.le_induction with
  | base => rfl
  | succ n h ih => rw [(scan_succ n).1 s h, ih]

end Reading

/-! ### What is written -/

theorem dumpsItems_eq_map (floats : FloatText) (items : List Json) :
    dumpsItems floats items = items.map (dumps floats) := by
  induction items with
  | nil => rfl
  | cons v items ih => rw [dumpsItems, ih, List.map_cons]

theorem dumpsMembers_eq_map (floats : FloatText) (members : List (String × Json)) :
    dumpsMembers floats members = members.map fun e => dumpsField e.1 (dumps floats e.2) := by
  induction members with
  | nil => rfl
  | cons e members ih => rw [dumpsMembers, ih, List.map_cons]

theorem quoted_unicodeEscape (n : ℕ) : Quoted jsonRole (unicodeEscape n).toList := by
  have hhex : Quoted jsonRole (hex 4 n).toList := .plain (forall_mem_hex (by decide) 4 n)
  rw [toList_unicodeEscape]
  have hescaped : Quoted jsonRole ['\\', 'u'] := .escaped rfl 'u'
  exact hescaped.append hhex

theorem quoted_dumpsChar (c : Char) : Quoted jsonRole (dumpsChar c).toList := by
  have hescaped : ∀ d, Quoted jsonRole ['\\', d] := fun d => .escaped rfl d
  rw [dumpsChar]
  split_ifs with hquote hescape hn hr ht h8 hc hp hbmp
  · exact hescaped '"'
  · exact hescaped '\\'
  · exact hescaped 'n'
  · exact hescaped 'r'
  · exact hescaped 't'
  · exact hescaped 'b'
  · exact hescaped 'f'
  · rw [String.toList_singleton]
    have hrole : jsonRole c ≠ .quote ∧ jsonRole c ≠ .escape := by
      rw [jsonRole, if_neg hquote, if_neg hescape]
      split_ifs <;> decide
    exact .symbol hrole.1 hrole.2
  · exact quoted_unicodeEscape _
  · rw [String.toList_append]
    exact (quoted_unicodeEscape _).append (quoted_unicodeEscape _)

theorem balanced_dumpsString (s : String) : Balanced jsonRole (dumpsString s).toList := by
  rw [toList_dumpsString]
  refine Balanced.quoted rfl (Keeps.flatten (fun _ => .inl rfl) fun u hu => ?_)
  obtain ⟨c, -, rfl⟩ := List.mem_map.mp hu
  exact quoted_dumpsChar c

theorem numeral_int (n : ℤ) : ∀ c ∈ (toString n).toList, NumeralChar c := by
  have hnat : ∀ m : ℕ, ∀ c ∈ m.repr.toList, NumeralChar c := by
    intro m c hc
    rw [Nat.repr, String.toList_ofList] at hc
    exact .inl (Nat.isDigit_of_mem_toDigits (by decide) le_rfl hc)
  cases n with
  | ofNat m => exact hnat m
  | negSucc m =>
    have htext : (toString (Int.negSucc m)).toList = "-".toList ++ (m + 1).repr.toList :=
      String.toList_append
    rw [htext]
    exact List.forall_mem_append.mpr ⟨forall_mem_of_all (by decide), hnat (m + 1)⟩

theorem numeral_float (floats : FloatText) (q : ℚ) : ∀ c ∈ (floats.repr q).toList, NumeralChar c := by
  obtain ⟨integer, fraction, hnumeral, -⟩ := floats.repr_numeral q
  obtain ⟨htext, -, hplain⟩ := scanNumeral_eq_some hnumeral
  rw [List.append_nil] at htext
  rwa [htext]

/-- The items between the brackets. -/
theorem balanced_intercalate {texts : List String} (h : ∀ s ∈ texts, Balanced jsonRole s.toList) :
    Balanced jsonRole (",".intercalate texts).toList := by
  rw [String.toList_intercalate]
  refine Keeps.intercalate Nat.le_refl (Balanced.plain (forall_mem_of_all (by decide)))
    fun u hu => ?_
  obtain ⟨s, hs, rfl⟩ := List.mem_map.mp hu
  exact h s hs

theorem balanced_dumpsField (key : String) {text : String} (h : Balanced jsonRole text.toList) :
    Balanced jsonRole (dumpsField key text).toList := by
  have hcolon : Balanced jsonRole ":".toList :=
    .plain (forall_mem_of_all (by decide))
  rw [dumpsField, String.toList_append, String.toList_append]
  exact ((balanced_dumpsString key).append hcolon).append h

theorem toList_bracketed (o c : Char) (s : String) :
    (String.singleton o ++ s ++ String.singleton c).toList = o :: (s.toList ++ [c]) := by
  simp [String.toList_append]

/-- **What is written closes its brackets and quotes.** -/
theorem balanced_dumps (floats : FloatText) (v : Json) : Balanced jsonRole (dumps floats v).toList := by
  induction v using Json.induction with
  | scalar v k hk =>
    cases v with
    | null =>
      show Balanced jsonRole "null".toList
      exact .plain (forall_mem_of_all (by decide))
    | bool b =>
      have hwords : ∀ b, ((dumpsBool b).toList.all fun c => decide (jsonRole c = .plain)) = true := by
        decide
      exact .plain (forall_mem_of_all (hwords b))
    | int n => exact .plain fun c hc => (numeral_int n c hc).plain
    | float q => exact .plain fun c hc => (numeral_float floats q c hc).plain
    | str s => exact balanced_dumpsString s
    | arr | obj => cases hk
  | arr items ih =>
    rw [dumps, dumpsItems_eq_map]
    refine (toList_bracketed '[' ']' _).symm ▸ Balanced.bracketed rfl rfl (balanced_intercalate ?_)
    exact List.forall_mem_map.mpr ih
  | obj members ih =>
    rw [dumps, dumpsMembers_eq_map]
    refine (toList_bracketed '\x7b' '\x7d' _).symm ▸
      Balanced.bracketed rfl rfl (balanced_intercalate ?_)
    exact List.forall_mem_map.mpr fun e he => balanced_dumpsField e.1 (ih e he)

/-- The text of an array or object: a balanced text between brackets. -/
theorem dumps_container (floats : FloatText) {v : Json} (h : v.kind = none) :
    ∃ o c inner, (dumps floats v).toList = o :: (inner ++ [c]) ∧ jsonRole o = .opening ∧
      Balanced jsonRole inner := by
  cases v with
  | arr items =>
    refine ⟨'[', ']', _, toList_bracketed '[' ']' _, rfl, balanced_intercalate ?_⟩
    rw [dumpsItems_eq_map]
    exact List.forall_mem_map.mpr fun v _ => balanced_dumps floats v
  | obj members =>
    refine ⟨'\x7b', '\x7d', _, toList_bracketed '\x7b' '\x7d' _, rfl, balanced_intercalate ?_⟩
    rw [dumpsMembers_eq_map]
    exact List.forall_mem_map.mpr fun e _ => balanced_dumpsField e.1 (balanced_dumps floats e.2)
  | _ => cases h

theorem dumps_ne_empty (floats : FloatText) (v : Json) : dumps floats v ≠ "" := by
  have hcons : ∀ {text : String} {c : Char} {l : List Char}, text.toList = c :: l → text ≠ "" := by
    rintro text c l hlist rfl
    cases hlist
  cases v with
  | null => exact @hcons "null" _ _ rfl
  | bool b =>
    have hwords : ∀ b, dumpsBool b ≠ "" := by decide
    exact hwords b
  | int n =>
    have hnat : ∀ m : ℕ, m.repr ≠ "" := by
      intro m hempty
      have hdigits := congrArg String.toList hempty
      rw [Nat.repr, String.toList_ofList] at hdigits
      exact Nat.toDigits_ne_nil hdigits
    cases n with
    | ofNat m => exact hnat m
    | negSucc m => exact fun h => hnat (m + 1) (String.append_eq_empty_iff.mp h).2
  | float q =>
    obtain ⟨integer, fraction, hnumeral, -⟩ := floats.repr_numeral q
    intro hempty
    rw [show floats.repr q = "" from hempty] at hnumeral
    cases hnumeral
  | str s => exact hcons (toList_dumpsString s)
  | arr items => exact hcons (toList_bracketed '[' ']' _)
  | obj members => exact hcons (toList_bracketed '\x7b' '\x7d' _)

/-- **A cut container cannot be read.** -/
theorem loads_cut_container {floats : FloatText} {v : Json} (h : v.kind = none) {text : String}
    (hinitial : text.toList <+: (dumps floats v).toList) (hproper : text ≠ dumps floats v) :
    loads floats text = none := by
  obtain ⟨o, c, inner, hdumps, ho, hinner⟩ := dumps_container floats h
  cases hloads : loads floats text with
  | none => rfl
  | some w =>
    have hbalanced := loads_balanced hloads
    have hne : text.toList ≠ [] := by
      intro hempty
      have htext : text = "" := String.toList_inj.mp hempty
      rw [htext, loads_empty] at hloads
      cases hloads
    rw [hdumps] at hinitial
    refine absurd hbalanced (hinner.not_of_initial ho hinitial hne fun heq => hproper ?_)
    exact String.toList_inj.mp (heq.trans hdumps.symm)

/-- A cut string cannot be read either. -/
theorem loads_cut_string {floats : FloatText} {s text : String}
    (hinitial : text.toList <+: (dumpsString s).toList) (hproper : text ≠ dumpsString s) :
    loads floats text = none := by
  have hquoted : Quoted jsonRole (s.toList.map fun c => (dumpsChar c).toList).flatten := by
    refine Keeps.flatten (fun _ => .inl rfl) fun u hu => ?_
    obtain ⟨c, -, rfl⟩ := List.mem_map.mp hu
    exact quoted_dumpsChar c
  rw [toList_dumpsString] at hinitial
  cases hloads : loads floats text with
  | none => rfl
  | some w =>
    have hne : text.toList ≠ [] := by
      intro hempty
      have htext : text = "" := String.toList_inj.mp hempty
      rw [htext, loads_empty] at hloads
      cases hloads
    refine absurd (loads_balanced hloads) (hquoted.not_of_initial rfl hinitial hne fun heq => hproper ?_)
    exact String.toList_inj.mp (heq.trans (toList_dumpsString s).symm)

/-- Nor can a cut word. -/
theorem loads_cut_word {floats : FloatText} {word text : String}
    (hword : word ∈ constants.map Prod.fst) (hinitial : text.toList <+: word.toList)
    (hproper : text ≠ word) : loads floats text = none := by
  have hcut : ∀ s : List Char, text.toList = s → loads floats (String.ofList s) = none →
      loads floats text = none := by
    rintro s rfl hnone
    rwa [String.ofList_toList] at hnone
  have htake := List.prefix_iff_eq_take.mp hinitial
  have hlength : text.toList.length < word.toList.length := by
    refine lt_of_le_of_ne hinitial.length_le fun heq => hproper (String.toList_inj.mp ?_)
    exact hinitial.eq_of_length heq
  generalize text.toList.length = k at htake hlength
  simp only [constants, List.map_cons, List.map_nil, List.mem_cons, List.not_mem_nil, or_false] at hword
  obtain rfl | rfl | rfl := hword
  · replace hlength : k < 4 := hlength
    interval_cases k <;> exact hcut _ htake rfl
  · replace hlength : k < 4 := hlength
    interval_cases k <;> exact hcut _ htake rfl
  · replace hlength : k < 5 := hlength
    interval_cases k <;> exact hcut _ htake rfl

end Driftgate.Monitor
