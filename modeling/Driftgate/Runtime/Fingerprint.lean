import Driftgate.Lib.PrefixCode
import Driftgate.Runtime.Registry
import Driftgate.Schema.Shape
import Mathlib.Logic.Equiv.Basic

/-!
# Fingerprints

A fingerprint is a hash of the text of a canonical schema. The text determines the schema: every
character of a string is written as escapes that can be read back, a string ends at its first
unescaped quote, lists and dictionaries end at their brackets. What the text does not keep is the
order of keys, and a schema in canonical form has the order that `sort_keys` makes.

So a hash without collisions gives two payloads the same fingerprint exactly when they have the
same shape.
-/

namespace Driftgate.Runtime

open Driftgate.Schema Driftgate.Lib

/-! ### Hexadecimal numbers -/

theorem hexDigit_digitChar {d : ℕ} (h : d < 16) : hexDigit d.digitChar = d := by
  have hall : ∀ d : Fin 16, hexDigit (d : ℕ).digitChar = d := by decide
  exact hall ⟨d, h⟩

theorem ofHex_append (l : List Char) (c : Char) :
    ofHex (l ++ [c]) = 16 * ofHex l + hexDigit c := by
  simp [ofHex]

theorem ofHex_toDigits (n : ℕ) : ofHex (Nat.toDigits 16 n) = n := by
  induction n using Nat.strongRecOn with
  | ind n ih =>
    by_cases h : n < 16
    · rw [Nat.toDigits_of_lt_base h]
      simpa [ofHex] using hexDigit_digitChar h
    · rw [Nat.toDigits_of_base_le (by omega) (by omega), ofHex_append, ih (n / 16) (by omega),
        hexDigit_digitChar (by omega)]
      omega

/-- Padding does not change the value. -/
theorem ofHex_replicate (k : ℕ) (l : List Char) : ofHex (List.replicate k '0' ++ l) = ofHex l := by
  induction k with
  | zero => rfl
  | succ k ih => exact ih

theorem ofHex_hex (width n : ℕ) : ofHex (hex width n).toList = n := by
  rw [hex, String.toList_ofList, ofHex_replicate, ofHex_toDigits]

theorem length_hex {width n : ℕ} (hwidth : 0 < width) (h : n < 16 ^ width) :
    (hex width n).toList.length = width := by
  have hlen : (Nat.toDigits 16 n).length ≤ width :=
    (Nat.length_toDigits_le_iff (by omega) hwidth).mpr h
  rw [hex, String.toList_ofList, List.length_append, List.length_replicate]
  omega

/-! ### Characters -/

/-- The code unit of an escape and the text after it. -/
def readEscape : List Char → ℕ × List Char
  | 'u' :: a :: b :: c :: d :: x => (ofHex [a, b, c, d], x)
  | 'n' :: x => (0xa, x)
  | 'r' :: x => (0xd, x)
  | 't' :: x => (0x9, x)
  | 'b' :: x => (0x8, x)
  | 'f' :: x => (0xc, x)
  | c :: x => (c.toNat, x)
  | [] => (0, [])

/-- The UTF-16 code unit at the head of a JSON string, and the text after it. -/
def readUnit : List Char → ℕ × List Char
  | c :: x => if c = '\\' then readEscape x else (c.toNat, x)
  | [] => (0, [])

theorem toList_unicodeEscape (n : ℕ) :
    (unicodeEscape n).toList = '\\' :: 'u' :: (hex 4 n).toList := by
  rw [unicodeEscape, String.toList_append]
  rfl

theorem readUnit_unicodeEscape {n : ℕ} (h : n ≤ 0xffff) (x : List Char) :
    readUnit ((unicodeEscape n).toList ++ x) = (n, x) := by
  have hval := ofHex_hex 4 n
  have hlen := length_hex (show 0 < 4 by omega) (show n < 16 ^ 4 by omega)
  rw [toList_unicodeEscape]
  match hl : (hex 4 n).toList, hlen with
  | [a, b, c, d], _ =>
    rw [hl] at hval
    show (ofHex [a, b, c, d], x) = (n, x)
    rw [hval]

/-- The code units of a character outside the basic plane. -/
def surrogates (n : ℕ) : ℕ × ℕ := (0xd800 + (n - 0x10000) / 0x400, 0xdc00 + (n - 0x10000) % 0x400)

/-- A character of the basic plane is written as one code unit. -/
theorem readUnit_dumpsChar {c : Char} (h : c.toNat ≤ 0xffff) (x : List Char) :
    readUnit ((dumpsChar c).toList ++ x) = (c.toNat, x) := by
  rw [dumpsChar]
  split_ifs with hq hb hn hr ht h8 hc hp
  · subst hq; rfl
  · subst hb; rfl
  · subst hn; rfl
  · subst hr; rfl
  · subst ht; rfl
  · rw [h8]; rfl
  · rw [hc]; rfl
  · rw [String.toList_singleton]
    exact if_neg hb
  · exact readUnit_unicodeEscape h x

/-- Any other character is written as two. -/
theorem readUnit_dumpsChar_pair {c : Char} (h : 0xffff < c.toNat) (hmax : c.toNat < 0x110000)
    (x : List Char) :
    ∃ rest, readUnit ((dumpsChar c).toList ++ x) = ((surrogates c.toNat).1, rest) ∧
      readUnit rest = ((surrogates c.toNat).2, x) := by
  have hne : ∀ d : Char, d.toNat ≤ 0xffff → c ≠ d := by
    rintro d hd rfl
    omega
  refine ⟨(unicodeEscape (surrogates c.toNat).2).toList ++ x, ?_, ?_⟩
  · rw [dumpsChar, if_neg (hne _ (by decide)), if_neg (hne _ (by decide)),
      if_neg (hne _ (by decide)), if_neg (hne _ (by decide)), if_neg (hne _ (by decide)),
      if_neg (by omega), if_neg (by omega), if_neg (by omega), if_neg (by omega),
      String.toList_append, List.append_assoc]
    refine readUnit_unicodeEscape ?_ _
    omega
  · refine readUnit_unicodeEscape ?_ _
    rw [surrogates]
    omega

/-- **A character is read back from its code units.** Those of a pair are no characters. -/
theorem dumpsChar_readsBack (c : Char) : ReadsBack id (fun c => (dumpsChar c).toList) c := by
  have hvalid : ∀ c : Char, c.toNat < 0xd800 ∨ 0xdfff < c.toNat ∧ c.toNat < 0x110000 :=
    fun c => c.valid
  intro d x y h
  simp only at h
  have hcv := hvalid c
  have hdv := hvalid d
  by_cases hc : c.toNat ≤ 0xffff <;> by_cases hd : d.toNat ≤ 0xffff
  · have heq := readUnit_dumpsChar hc x
    rw [h, readUnit_dumpsChar hd y, Prod.mk.injEq] at heq
    exact ⟨(Char.toNat_inj.mp heq.1).symm, heq.2.symm⟩
  · obtain ⟨rest, hrest, -⟩ := readUnit_dumpsChar_pair (c := d) (by omega) (by omega) y
    rw [← h, readUnit_dumpsChar hc x, surrogates, Prod.mk.injEq] at hrest
    omega
  · obtain ⟨rest, hrest, -⟩ := readUnit_dumpsChar_pair (c := c) (by omega) (by omega) x
    rw [h, readUnit_dumpsChar hd y, surrogates, Prod.mk.injEq] at hrest
    omega
  · obtain ⟨rest, hhi, hlo⟩ := readUnit_dumpsChar_pair (c := c) (by omega) (by omega) x
    obtain ⟨rest', hhi', hlo'⟩ := readUnit_dumpsChar_pair (c := d) (by omega) (by omega) y
    rw [h, hhi', Prod.mk.injEq] at hhi
    obtain ⟨hhi, rfl⟩ := hhi
    rw [hlo', Prod.mk.injEq] at hlo
    obtain ⟨hlo, rfl⟩ := hlo
    simp only [surrogates] at hhi hlo
    exact ⟨Char.toNat_inj.mp (show c.toNat = d.toNat by omega), rfl⟩

/-- No character is written as a quote alone. -/
theorem dumpsChar_avoidsQuote : AvoidsHead '"' fun c => (dumpsChar c).toList := by
  intro c
  simp only [dumpsChar]
  split_ifs with hq hb hn hr ht h8 hc hp hbmp
  · exact ⟨'\\', ['"'], by decide⟩
  · exact ⟨'\\', ['\\'], by decide⟩
  · exact ⟨'\\', ['n'], by decide⟩
  · exact ⟨'\\', ['r'], by decide⟩
  · exact ⟨'\\', ['t'], by decide⟩
  · exact ⟨'\\', ['b'], by decide⟩
  · exact ⟨'\\', ['f'], by decide⟩
  · exact ⟨c, [], String.toList_singleton c, hq⟩
  · rw [toList_unicodeEscape]
    exact ⟨'\\', _, rfl, by decide⟩
  · rw [String.toList_append, toList_unicodeEscape]
    exact ⟨'\\', _, rfl, by decide⟩

/-! ### Strings and schemas -/

theorem toList_dumpsString (s : String) :
    (dumpsString s).toList = '"' :: (s.toList.flatMap (fun c => (dumpsChar c).toList) ++ ['"']) := by
  simp [dumpsString, String.toList_append, String.toList_join, List.flatMap_map]

theorem dumpsString_readsBack (s : String) : ReadsBack id (fun s => (dumpsString s).toList) s := by
  intro t x y h
  simp only [toList_dumpsString] at h
  have hl := (ReadsBack.closed dumpsChar_avoidsQuote (l := s.toList)
    (fun c _ => dumpsChar_readsBack c)).cons '"'
  obtain ⟨heq, hxy⟩ := hl t.toList x y h
  exact ⟨String.toList_inj.mp (by simpa using heq), hxy⟩

mutual

/-- What `sort_keys` makes of a schema. -/
def sortKeys : CanonicalSchema → CanonicalSchema
  | .text s => .text s
  | .flag b => .flag b
  | .items l => .items (sortKeysItems l)
  | .members l => .members (sortByKey (sortKeysMembers l))

def sortKeysItems : List CanonicalSchema → List CanonicalSchema
  | [] => []
  | v :: l => sortKeys v :: sortKeysItems l

def sortKeysMembers : List (String × CanonicalSchema) → List (String × CanonicalSchema)
  | [] => []
  | (k, v) :: l => (k, sortKeys v) :: sortKeysMembers l

end

theorem sortKeys_items (l : List CanonicalSchema) :
    sortKeys (.items l) = .items (l.map sortKeys) := by
  have h : sortKeysItems l = l.map sortKeys := by
    induction l with
    | nil => simp [sortKeysItems]
    | cons v l ih => simp [sortKeysItems, ih]
  rw [sortKeys, h]

theorem sortKeys_members (l : List (String × CanonicalSchema)) :
    sortKeys (.members l) = .members ((sortByKey l).map (Prod.map id sortKeys)) := by
  have h : sortKeysMembers l = l.map fun e => (e.1, sortKeys e.2) := by
    induction l with
    | nil => simp [sortKeysMembers]
    | cons e l ih => simp [sortKeysMembers, ih]
  rw [sortKeys, h, sortByKey_map fun e => sortKeys e.2]
  rfl

/-- The text of a member. -/
def memberText (e : String × CanonicalSchema) : List Char :=
  (dumpsString e.1).toList ++ ':' :: (dumps e.2).toList

theorem toList_dumps_items (l : List CanonicalSchema) :
    (dumps (.items l)).toList = '[' :: sepBy ',' ']' (fun v => (dumps v).toList) l := by
  have h : dumpsItems l = l.map dumps := by
    induction l with
    | nil => simp [dumpsItems]
    | cons v l ih => simp [dumpsItems, ih]
  rw [dumps, h, sepBy, String.toList_append, String.toList_append, String.toList_intercalate,
    List.map_map]
  rfl

theorem toList_dumps_members (l : List (String × CanonicalSchema)) :
    (dumps (.members l)).toList = '\x7b' :: sepBy ',' '\x7d' memberText (sortByKey l) := by
  have h : dumpsMembers l = l.map fun e => (e.1, dumpsString e.1 ++ ":" ++ dumps e.2) := by
    induction l with
    | nil => simp [dumpsMembers]
    | cons e l ih => simp [dumpsMembers, ih]
  have htext : ∀ e : String × CanonicalSchema,
      (dumpsString e.1 ++ ":" ++ dumps e.2).toList = memberText e := by
    intro e
    rw [String.toList_append, String.toList_append, List.append_assoc]
    rfl
  rw [dumps, h, sortByKey_map fun e => dumpsString e.1 ++ ":" ++ dumps e.2, sepBy,
    String.toList_append, String.toList_append, String.toList_intercalate, List.map_map,
    List.map_map]
  simp only [Function.comp_def, htext]
  rfl

/-- The character a text starts with. -/
def opening : CanonicalSchema → Char
  | .text _ => '"'
  | .flag b => if b then 't' else 'f'
  | .items _ => '['
  | .members _ => '\x7b'

theorem dumps_opening (v : CanonicalSchema) : ∃ w, (dumps v).toList = opening v :: w := by
  cases v with
  | text s => exact ⟨_, by rw [dumps, toList_dumpsString]; rfl⟩
  | flag b =>
    cases b with
    | true => exact ⟨['r', 'u', 'e'], by rw [dumps]; rfl⟩
    | false => exact ⟨['a', 'l', 's', 'e'], by rw [dumps]; rfl⟩
  | items l => exact ⟨_, toList_dumps_items l⟩
  | members l => exact ⟨_, toList_dumps_members l⟩

theorem dumps_avoidsBracket : AvoidsHead ']' fun v => (dumps v).toList := by
  intro v
  obtain ⟨w, hw⟩ := dumps_opening v
  refine ⟨_, w, hw, ?_⟩
  cases v with
  | flag b => cases b <;> decide
  | _ => exact of_decide_eq_true rfl

theorem memberText_avoidsBrace : AvoidsHead '\x7d' memberText := by
  intro e
  rw [memberText, toList_dumpsString]
  exact ⟨'"', _, rfl, by decide⟩

/-- Texts with a common beginning start with the same character. -/
theorem opening_eq {v w : CanonicalSchema} {x y : List Char}
    (h : (dumps v).toList ++ x = (dumps w).toList ++ y) : opening v = opening w := by
  obtain ⟨r, hr⟩ := dumps_opening v
  obtain ⟨r', hr'⟩ := dumps_opening w
  rw [hr, hr'] at h
  exact (List.cons.inj h).1

/-- **The text of a schema can be read back**, up to the order of keys. -/
theorem dumps_readsBack (v : CanonicalSchema) :
    ReadsBack sortKeys (fun v => (dumps v).toList) v := by
  induction v using CanonicalSchema.induction with
  | text s =>
    intro w x y h
    have hopen := opening_eq h
    cases w with
    | text t =>
      simp only [dumps] at h
      obtain ⟨heq, hxy⟩ := dumpsString_readsBack s t x y h
      exact ⟨congrArg (sortKeys ∘ .text) heq, hxy⟩
    | flag c => cases c <;> simp [opening] at hopen
    | items l => simp [opening] at hopen
    | members l => simp [opening] at hopen
  | flag b =>
    intro w x y h
    have hopen := opening_eq h
    cases w with
    | text t => cases b <;> simp [opening] at hopen
    | flag c =>
      obtain rfl : b = c := by cases b <;> cases c <;> simp_all [opening]
      exact ⟨rfl, List.append_cancel_left h⟩
    | items l => cases b <;> simp [opening] at hopen
    | members l => cases b <;> simp [opening] at hopen
  | items l ih =>
    intro w x y h
    have hopen := opening_eq h
    cases w with
    | text t => simp [opening] at hopen
    | flag c => cases c <;> simp [opening] at hopen
    | items l' =>
      simp only [toList_dumps_items] at h
      have hl := (ReadsBack.sepBy (show ',' ≠ ']' by decide) dumps_avoidsBracket ih).cons '['
      obtain ⟨heq, hxy⟩ := hl l' x y h
      exact ⟨by rw [sortKeys_items, sortKeys_items, heq], hxy⟩
    | members l' => simp [opening] at hopen
  | members l ih =>
    intro w x y h
    have hopen := opening_eq h
    cases w with
    | text t => simp [opening] at hopen
    | flag c => cases c <;> simp [opening] at hopen
    | items l' => simp [opening] at hopen
    | members l' =>
      simp only [toList_dumps_members] at h
      have hmember : ∀ e ∈ sortByKey l, ReadsBack (Prod.map id sortKeys) memberText e :=
        fun e he => (dumpsString_readsBack e.1).pair (ih e (mem_sortByKey.mp he)) ':'
      have hl := (ReadsBack.sepBy (show ',' ≠ '\x7d' by decide) memberText_avoidsBrace hmember).cons '\x7b'
      obtain ⟨heq, hxy⟩ := hl (sortByKey l') x y h
      exact ⟨by rw [sortKeys_members, sortKeys_members, heq], hxy⟩

/-! ### Canonical schemas -/

theorem sortKeys_leaf (type : String) (nullable : Bool) :
    sortKeys (.leaf type nullable) =
      .members [("nullable", .flag nullable), ("type", .text type)] := by
  have hsort : sortByKey [("type", CanonicalSchema.text type), ("nullable", .flag nullable)] =
      [("nullable", .flag nullable), ("type", .text type)] := by
    simp [sortByKey]
  rw [CanonicalSchema.leaf, sortKeys_members, hsort]
  simp [sortKeys]

/-- In canonical form only a flag is sorted to a flag. -/
theorem sortKeys_ne_flag {v : CanonicalSchema} (h : Canonical v) (b : Bool) :
    sortKeys v ≠ .flag b := by
  cases h with
  | leaf type nullable => simp [sortKeys_leaf]
  | items _ => simp [sortKeys_items]
  | members _ _ => simp [sortKeys_members]

/-- A type marker is not sorted to what an object is sorted to. -/
theorem sortKeys_leaf_ne_members {type : String} {nullable : Bool}
    {l : List (String × CanonicalSchema)} (hl : ∀ e ∈ l, Canonical e.2) :
    sortKeys (.leaf type nullable) ≠ sortKeys (.members l) := by
  intro h
  rw [sortKeys_leaf, sortKeys_members, CanonicalSchema.members.injEq] at h
  have hm : ("nullable", CanonicalSchema.flag nullable) ∈
      (sortByKey l).map (Prod.map id sortKeys) := by
    rw [← h]
    exact List.mem_cons_self
  obtain ⟨e, he, heq⟩ := List.mem_map.mp hm
  exact sortKeys_ne_flag (hl e (mem_sortByKey.mp he)) nullable (congrArg Prod.snd heq)

/-- In canonical form the order of keys is fixed. -/
theorem sortKeys_injective {v w : CanonicalSchema} (hv : Canonical v) (hw : Canonical w)
    (h : sortKeys v = sortKeys w) : v = w := by
  induction hv generalizing w with
  | leaf type nullable =>
    cases hw with
    | leaf type' nullable' =>
      rw [sortKeys_leaf, sortKeys_leaf] at h
      simp_all
    | items _ => simp [sortKeys_leaf, sortKeys_items] at h
    | members _ hl => exact absurd h (sortKeys_leaf_ne_members hl)
  | @items l _ ih =>
    cases hw with
    | leaf type nullable => simp [sortKeys_leaf, sortKeys_items] at h
    | @items l' hl' =>
      rw [sortKeys_items, sortKeys_items, CanonicalSchema.items.injEq] at h
      rw [CanonicalSchema.items.injEq]
      exact eq_of_map_eq (fun v hv w hw => ih v hv (hl' w hw)) h
    | members _ _ => simp [sortKeys_items, sortKeys_members] at h
  | @members l hs hc ih =>
    cases hw with
    | leaf type nullable => exact absurd h.symm (sortKeys_leaf_ne_members hc)
    | items _ => simp [sortKeys_items, sortKeys_members] at h
    | @members l' hs' hc' =>
      rw [sortKeys_members, sortKeys_members, sortByKey_of_keysSorted hs,
        sortByKey_of_keysSorted hs', CanonicalSchema.members.injEq] at h
      rw [CanonicalSchema.members.injEq]
      refine eq_of_map_eq (fun e he e' he' heq => ?_) h
      obtain ⟨hkey, hvalue⟩ := Prod.mk.inj heq
      exact Prod.ext hkey (ih e he (hc' e' he') hvalue)

/-- **A fingerprint identifies a canonical schema.** -/
theorem Config.fingerprint_eq_iff {cfg : Config} (hsha : Function.Injective cfg.sha256)
    {v w : CanonicalSchema} (hv : Canonical v) (hw : Canonical w) :
    cfg.fingerprint v = cfg.fingerprint w ↔ v = w := by
  constructor
  · intro h
    have htext : dumps v = dumps w := hsha h
    exact sortKeys_injective hv hw ((dumps_readsBack v).eq (congrArg String.toList htext))
  · rintro rfl
    rfl

/-- **Fingerprints identify shapes.** In particular a scalar is not confused with an object,
whatever its members are. -/
theorem fingerprint_eq_iff_sameShape {cfg : Config} (hsha : Function.Injective cfg.sha256)
    {p q : Json} (hp : p.UniqueKeys) (hq : q.UniqueKeys) :
    (cfg.fingerprint (canonicalize p) = cfg.fingerprint (canonicalize q) ↔ SameShape p q) ∧
    (∀ members k, p = .obj members → q.kind = some k →
      cfg.fingerprint (canonicalize p) ≠ cfg.fingerprint (canonicalize q)) := by
  have h : cfg.fingerprint (canonicalize p) = cfg.fingerprint (canonicalize q) ↔ SameShape p q :=
    (cfg.fingerprint_eq_iff hsha (canonicalize_canonical hp) (canonicalize_canonical hq)).trans
      (canonicalize_eq_iff hp hq)
  refine ⟨h, ?_⟩
  rintro members k rfl hk heq
  cases h.mp heq with
  | scalar hp _ => simp [Json.kind] at hp
  | obj _ _ => simp [Json.kind] at hk

/-- A hash without collisions that is SHA-256 on the texts of the two shapes below. -/
def swapSha256 : String → String :=
  Equiv.swap
      ("\x7b\"nullable\":\x7b\"nullable\":false,\"type\":\"boolean\"\x7d," ++
        "\"type\":\x7b\"nullable\":false,\"type\":\"string\"\x7d\x7d")
      "61f9c7b0feae968f322bb85388c4e89d33c065cab555a2c1979ad557e7fcbe06" ∘
    Equiv.swap "\x7b\"nullable\":false,\"type\":\"integer\"\x7d"
      "9c8dffa18fd1fb3d9b4078cc4639411db0586a492eea7cc57d95a36e4f65f3f8"

theorem swapSha256_injective : Function.Injective swapSha256 :=
  (Equiv.injective _).comp (Equiv.injective _)

/-- Two objects that look like type markers have one fingerprint, and no scalar has it. -/
theorem fingerprint_eq_iff_sameShape_marker :
    let cfg : Config := ⟨swapSha256, fun _ => "", fun _ => true, false⟩
    let p : Json := .obj [("type", .str "integer"), ("nullable", .bool false)]
    let q : Json := .obj [("nullable", .bool true), ("type", .str "string")]
    cfg.fingerprint (canonicalize p) =
      "61f9c7b0feae968f322bb85388c4e89d33c065cab555a2c1979ad557e7fcbe06" ∧
    cfg.fingerprint (canonicalize p) = cfg.fingerprint (canonicalize q) ∧
    cfg.fingerprint (canonicalize p) ≠ cfg.fingerprint (canonicalize (.int 5)) := by
  intro cfg p q
  have hsha : Function.Injective cfg.sha256 := swapSha256_injective
  have hp : p.UniqueKeys := by simp [p, Json.UniqueKeys, UniqueKeysMembers]
  have hq : q.UniqueKeys := by simp [q, Json.UniqueKeys, UniqueKeysMembers]
  have hshape : SameShape p q := by
    refine (canonicalize_eq_iff hp hq).mp ?_
    simp [p, q, canonicalize, canonicalizeMembers, sortByKey, Kind.leaf]
  refine ⟨by decide, ?_, ?_⟩
  · exact (fingerprint_eq_iff_sameShape hsha hp hq).1.mpr hshape
  · exact (fingerprint_eq_iff_sameShape hsha hp
      (by simp [Json.UniqueKeys])).2 _ .integer rfl rfl

end Driftgate.Runtime
