import Driftgate.Runtime.Fingerprint

/-!
# Python's text of a schema

`str` of a dictionary or a list is its `repr`. Unlike the text that is hashed for the fingerprint it
lists the keys of a dictionary in their order. It can be read back: a string ends at its first
quote that no backslash stands before, whichever quote it has, and a character is written as itself
or as an escape that tells how many hexadecimal digits follow. So two schemas with one text are the
same, in the order of their keys too (`repr_injective`).
-/

namespace Driftgate.Runtime

open Driftgate.Schema Driftgate.Lib

variable {printable : Char → Bool}

/-! ### Characters -/

/-- The number of a character that is written with a backslash, and the text after it. -/
def readReprEscape : List Char → ℕ × List Char
  | 'x' :: x => (ofHex (x.take 2), x.drop 2)
  | 'u' :: x => (ofHex (x.take 4), x.drop 4)
  | 'U' :: x => (ofHex (x.take 8), x.drop 8)
  | 't' :: x => (0x9, x)
  | 'n' :: x => (0xa, x)
  | 'r' :: x => (0xd, x)
  | c :: x => (c.toNat, x)
  | [] => (0, [])

/-- The number of the first character of a string, and the text after it. -/
def readReprChar : List Char → ℕ × List Char
  | c :: x => if c = '\\' then readReprEscape x else (c.toNat, x)
  | [] => (0, [])

/-- The two quotes of Python's strings. -/
def IsQuote (c : Char) : Prop := c = '\'' ∨ c = '"'

theorem IsQuote.ne {c d : Char} (h : IsQuote c) (hd : d ≠ '\'' ∧ d ≠ '"') : c ≠ d := by
  rintro rfl
  exact h.elim hd.1 hd.2

/-- A character that is written by its number. -/
theorem readReprChar_hex {mark : Char} {width n : ℕ} (hwidth : 0 < width) (h : n < 16 ^ width)
    (hmark : ∀ x, readReprEscape (mark :: x) = (ofHex (x.take width), x.drop width))
    (x : List Char) :
    readReprChar ('\\' :: mark :: ((hex width n).toList ++ x)) = (n, x) := by
  have hlen := length_hex hwidth h
  rw [readReprChar, if_pos rfl, hmark, List.take_left' hlen, List.drop_left' hlen, ofHex_hex]

/-- **A character is read back.** -/
theorem readReprChar_reprChar {quote : Char} (hquote : IsQuote quote) (c : Char) (x : List Char) :
    readReprChar ((reprChar printable quote c).toList ++ x) = (c.toNat, x) := by
  have hmax : c.toNat < 0x110000 := by
    have hvalid : c.toNat < 0xd800 ∨ 0xdfff < c.toNat ∧ c.toNat < 0x110000 := c.valid
    omega
  have hx : "\\x".toList = ['\\', 'x'] := rfl
  have hu : "\\u".toList = ['\\', 'u'] := rfl
  have hU : "\\U".toList = ['\\', 'U'] := rfl
  rw [reprChar]
  split_ifs with hself ht hn hr hlow hplain h8 h16
  · rw [String.toList_ofList]
    obtain rfl | rfl := hself
    · obtain rfl | rfl := hquote <;> rfl
    · rfl
  · subst ht; rfl
  · subst hn; rfl
  · subst hr; rfl
  · rw [String.toList_append, hx]
    exact readReprChar_hex (by omega) (by omega) (fun _ => rfl) x
  · rw [String.toList_singleton]
    exact if_neg fun h => hself (.inr h)
  · rw [String.toList_append, hx]
    exact readReprChar_hex (by omega) (by omega) (fun _ => rfl) x
  · rw [String.toList_append, hu]
    exact readReprChar_hex (by omega) (by omega) (fun _ => rfl) x
  · rw [String.toList_append, hU]
    exact readReprChar_hex (by omega) (by omega) (fun _ => rfl) x

theorem reprChar_readsBack {quote : Char} (hquote : IsQuote quote) (c : Char) :
    ReadsBack id (fun c => (reprChar printable quote c).toList) c := by
  intro d x y h
  have heq : readReprChar ((reprChar printable quote c).toList ++ x) = (c.toNat, x) :=
    readReprChar_reprChar hquote c x
  rw [show _ = _ from h, readReprChar_reprChar hquote d y, Prod.mk.injEq] at heq
  exact ⟨(Char.toNat_inj.mp heq.1).symm, heq.2.symm⟩

/-- No character is written as the quote alone. -/
theorem reprChar_avoidsQuote {quote : Char} (hquote : IsQuote quote) :
    AvoidsHead quote fun c => (reprChar printable quote c).toList := by
  have hslash : '\\' ≠ quote := (hquote.ne (by decide)).symm
  intro c
  simp only [reprChar]
  split_ifs with hself ht hn hr hlow hplain h8 h16
  · exact ⟨'\\', [c], String.toList_ofList, hslash⟩
  · exact ⟨'\\', ['t'], rfl, hslash⟩
  · exact ⟨'\\', ['n'], rfl, hslash⟩
  · exact ⟨'\\', ['r'], rfl, hslash⟩
  · exact ⟨'\\', _, String.toList_append, hslash⟩
  · exact ⟨c, [], String.toList_singleton c, fun h => hself (.inl h)⟩
  · exact ⟨'\\', _, String.toList_append, hslash⟩
  · exact ⟨'\\', _, String.toList_append, hslash⟩
  · exact ⟨'\\', _, String.toList_append, hslash⟩

/-! ### Strings -/

/-- The quote that a string is written with. -/
def quoteOf (s : String) : Char :=
  if s.toList.contains '\'' && !s.toList.contains '"' then '"' else '\''

theorem quoteOf_isQuote (s : String) : IsQuote (quoteOf s) := by
  rw [quoteOf]
  split
  · exact .inr rfl
  · exact .inl rfl

theorem toList_reprString (s : String) : (reprString printable s).toList =
    quoteOf s :: (s.toList.flatMap (fun c => (reprChar printable (quoteOf s) c).toList) ++
      [quoteOf s]) := by
  simp [reprString, quoteOf, String.toList_append, String.toList_join, List.flatMap_map]

theorem reprString_readsBack (s : String) :
    ReadsBack id (fun s => (reprString printable s).toList) s := by
  intro t x y h
  simp only [toList_reprString] at h
  have hquote : quoteOf s = quoteOf t := (List.cons.inj h).1
  rw [← hquote] at h
  have hchars : ∀ c ∈ s.toList,
      ReadsBack id (fun c => (reprChar printable (quoteOf s) c).toList) c :=
    fun c _ => reprChar_readsBack (quoteOf_isQuote s) c
  have hl := (ReadsBack.closed (reprChar_avoidsQuote (quoteOf_isQuote s)) hchars).cons (quoteOf s)
  obtain ⟨heq, hxy⟩ := hl t.toList x y h
  exact ⟨String.toList_inj.mp (by simpa using heq), hxy⟩

/-! ### Schemas -/

/-- The text of a member. -/
def reprMember (printable : Char → Bool) (e : String × CanonicalSchema) : List Char :=
  (reprString printable e.1).toList ++ ':' :: ' ' :: (repr printable e.2).toList

theorem toList_repr_items (l : List CanonicalSchema) : (repr printable (.items l)).toList =
    '[' :: ([',', ' '].intercalate (l.map fun v => (repr printable v).toList) ++ [']']) := by
  have h : reprItems printable l = l.map (repr printable) := by
    induction l with
    | nil => simp [reprItems]
    | cons v l ih => simp [reprItems, ih]
  rw [Schema.repr, h, String.toList_append, String.toList_append, String.toList_intercalate,
    List.map_map]
  rfl

theorem toList_repr_members (l : List (String × CanonicalSchema)) :
    (repr printable (.members l)).toList =
      '\x7b' :: ([',', ' '].intercalate (l.map (reprMember printable)) ++ ['\x7d']) := by
  have h : reprMembers printable l =
      l.map fun e => reprString printable e.1 ++ ": " ++ repr printable e.2 := by
    induction l with
    | nil => simp [reprMembers]
    | cons e l ih => simp [reprMembers, ih]
  have htext : ∀ e : String × CanonicalSchema,
      (reprString printable e.1 ++ ": " ++ repr printable e.2).toList = reprMember printable e := by
    intro e
    rw [String.toList_append, String.toList_append, List.append_assoc]
    rfl
  rw [Schema.repr, h, String.toList_append, String.toList_append, String.toList_intercalate,
    List.map_map]
  simp only [Function.comp_def, htext]
  rfl

/-- The character a text starts with. -/
def reprOpening : CanonicalSchema → Char
  | .text s => quoteOf s
  | .flag b => if b then 'T' else 'F'
  | .items _ => '['
  | .members _ => '\x7b'

theorem repr_opening (v : CanonicalSchema) :
    ∃ w, (repr printable v).toList = reprOpening v :: w := by
  cases v with
  | text s => exact ⟨_, by rw [Schema.repr, toList_reprString]; rfl⟩
  | flag b =>
    cases b with
    | true => exact ⟨['r', 'u', 'e'], by rw [Schema.repr]; rfl⟩
    | false => exact ⟨['a', 'l', 's', 'e'], by rw [Schema.repr]; rfl⟩
  | items l => exact ⟨_, toList_repr_items l⟩
  | members l => exact ⟨_, toList_repr_members l⟩

/-- What texts start with tells schemas of different kinds apart. -/
theorem reprOpening_eq {v w : CanonicalSchema} (h : reprOpening v = reprOpening w) :
    (∃ s t, v = .text s ∧ w = .text t) ∨ (∃ b, v = .flag b ∧ w = .flag b) ∨
      (∃ l l', v = .items l ∧ w = .items l') ∨ ∃ l l', v = .members l ∧ w = .members l' := by
  have hquote : ∀ {s : String} {c : Char}, quoteOf s = c → IsQuote c :=
    fun {s _} h => h ▸ quoteOf_isQuote s
  cases v with
  | text s =>
    have hw := hquote h
    cases w with
    | text t => exact .inl ⟨s, t, rfl, rfl⟩
    | flag c => cases c <;> simp [IsQuote, reprOpening] at hw
    | _ => simp [IsQuote, reprOpening] at hw
  | flag b =>
    cases w with
    | text t =>
      have hv := hquote h.symm
      cases b <;> simp [IsQuote, reprOpening] at hv
    | flag c =>
      obtain rfl : b = c := by cases b <;> cases c <;> simp_all [reprOpening]
      exact .inr (.inl ⟨b, rfl, rfl⟩)
    | _ => cases b <;> simp [reprOpening] at h
  | items l =>
    cases w with
    | text t => exact absurd (hquote h.symm) (by simp [IsQuote, reprOpening])
    | flag c => cases c <;> simp [reprOpening] at h
    | items l' => exact .inr (.inr (.inl ⟨l, l', rfl, rfl⟩))
    | members l' => simp [reprOpening] at h
  | members l =>
    cases w with
    | text t => exact absurd (hquote h.symm) (by simp [IsQuote, reprOpening])
    | flag c => cases c <;> simp [reprOpening] at h
    | items l' => simp [reprOpening] at h
    | members l' => exact .inr (.inr (.inr ⟨l, l', rfl, rfl⟩))

/-- So do what texts with a common beginning start with. -/
theorem reprOpening_of_append {v w : CanonicalSchema} {x y : List Char}
    (h : (repr printable v).toList ++ x = (repr printable w).toList ++ y) :
    (∃ s t, v = .text s ∧ w = .text t) ∨ (∃ b, v = .flag b ∧ w = .flag b) ∨
      (∃ l l', v = .items l ∧ w = .items l') ∨ ∃ l l', v = .members l ∧ w = .members l' := by
  obtain ⟨r, hr⟩ := @repr_opening printable v
  obtain ⟨r', hr'⟩ := @repr_opening printable w
  rw [hr, hr'] at h
  exact reprOpening_eq (List.cons.inj h).1

theorem repr_avoidsBracket : AvoidsHead ']' fun v => (repr printable v).toList := by
  intro v
  obtain ⟨w, hw⟩ := repr_opening v
  refine ⟨_, w, hw, ?_⟩
  cases v with
  | text s => exact (quoteOf_isQuote s).ne (by decide)
  | flag b => cases b <;> decide
  | _ => exact of_decide_eq_true rfl

theorem reprMember_avoidsBrace : AvoidsHead '\x7d' (reprMember printable) := by
  intro e
  rw [reprMember, toList_reprString]
  exact ⟨_, _, rfl, (quoteOf_isQuote e.1).ne (by decide)⟩

/-- **The text of a schema can be read back.** -/
theorem repr_readsBack (v : CanonicalSchema) :
    ReadsBack id (fun v => (repr printable v).toList) v := by
  induction v using CanonicalSchema.induction with
  | text s =>
    intro w x y h
    obtain ⟨-, t, -, rfl⟩ | ⟨b, hv, -⟩ | ⟨l, -, hv, -⟩ | ⟨l, -, hv, -⟩ := reprOpening_of_append h
    · simp only [Schema.repr] at h
      obtain ⟨heq, hxy⟩ := reprString_readsBack s t x y h
      exact ⟨congrArg CanonicalSchema.text heq, hxy⟩
    · cases hv
    · cases hv
    · cases hv
  | flag b =>
    intro w x y h
    obtain ⟨s, -, hv, -⟩ | ⟨c, hv, rfl⟩ | ⟨l, -, hv, -⟩ | ⟨l, -, hv, -⟩ := reprOpening_of_append h
    · cases hv
    · rw [← hv] at h ⊢
      exact ⟨rfl, List.append_cancel_left h⟩
    · cases hv
    · cases hv
  | items l ih =>
    intro w x y h
    obtain ⟨s, -, hv, -⟩ | ⟨c, hv, -⟩ | ⟨-, l', -, rfl⟩ | ⟨l, -, hv, -⟩ := reprOpening_of_append h
    · cases hv
    · cases hv
    · simp only [toList_repr_items] at h
      have hl := (ReadsBack.intercalate [' '] (show ',' ≠ ']' by decide) repr_avoidsBracket
        ih).cons '['
      obtain ⟨heq, hxy⟩ := hl l' x y h
      exact ⟨by simpa using heq, hxy⟩
    · cases hv
  | members l ih =>
    intro w x y h
    obtain ⟨s, -, hv, -⟩ | ⟨c, hv, -⟩ | ⟨l, -, hv, -⟩ | ⟨-, l', -, rfl⟩ := reprOpening_of_append h
    · cases hv
    · cases hv
    · cases hv
    · simp only [toList_repr_members] at h
      have hmember : ∀ e ∈ l, ReadsBack (Prod.map id id) (reprMember printable) e :=
        fun e he => (reprString_readsBack e.1).pair ((ih e he).cons ' ') ':'
      have hl := (ReadsBack.intercalate [' '] (show ',' ≠ '\x7d' by decide) reprMember_avoidsBrace
        hmember).cons '\x7b'
      obtain ⟨heq, hxy⟩ := hl l' x y h
      exact ⟨by simpa using heq, hxy⟩

/-- **Schemas with one text are the same.** -/
theorem repr_injective : Function.Injective (repr printable) := fun v _ h =>
  (repr_readsBack v).eq (congrArg String.toList h)

end Driftgate.Runtime
