import Driftgate.Schema.Canonical
import Mathlib.Data.List.Dedup

/-!
# The drift classifier

`diffAndClassify` compares two canonical schemas. `flatten` turns a schema into a dictionary from
path strings to nodes, `classify` judges what a path has in the old and in the new schema, and
`summarizeClassification` takes the worst verdict. The dictionary is kept as the list of its
assignments, so that a path that is assigned twice has its last node.

A dictionary with a member named `type` counts as a node whatever that member is; `str` of the
member is then its type name. `str` follows Python's `repr`, whose one outside ingredient is the
set of printable characters: the parameter `printable`.

The only exception the comparison can raise is that of `set(enum)` on unhashable elements.
-/

namespace Driftgate.Schema

open Driftgate.Lib

/-! ### Verdicts -/

/-- The compatibility classes, in increasing `SeverityRank`. -/
inductive Compatibility
  | safe
  | backwardCompatible
  | forwardCompatible
  | risky
  | breaking
  deriving DecidableEq, Repr

def Compatibility.name : Compatibility → String
  | .safe => "SAFE"
  | .backwardCompatible => "BACKWARD_COMPATIBLE"
  | .forwardCompatible => "FORWARD_COMPATIBLE"
  | .risky => "RISKY"
  | .breaking => "BREAKING"

/-- `int(SeverityRank[c])`. -/
def Compatibility.rank : Compatibility → ℕ
  | .safe => 0
  | .backwardCompatible => 1
  | .forwardCompatible => 2
  | .risky => 3
  | .breaking => 4

/-- An exception of the comparison. -/
inductive Failure
  | typeError (message : String)
  deriving DecidableEq, Repr

/-! ### Python's `str` -/

/-- `n` in lower-case hexadecimal, padded to `width`. -/
def hex (width n : ℕ) : String :=
  let digits := Nat.toDigits 16 n
  String.ofList (List.replicate (width - digits.length) '0' ++ digits)

/-- The value of a hexadecimal digit in either case. -/
def hexValue (c : Char) : Option ℕ :=
  if c.isDigit then some (c.toNat - '0'.toNat)
  else if 'a' ≤ c ∧ c ≤ 'f' then some (c.toNat - 'a'.toNat + 10)
  else if 'A' ≤ c ∧ c ≤ 'F' then some (c.toNat - 'A'.toNat + 10)
  else none

theorem forall_mem_toDigits_sixteen {p : Char → Prop} (h : ∀ d : Fin 16, p (d : ℕ).digitChar) (n : ℕ) :
    ∀ c ∈ Nat.toDigits 16 n, p c := by
  induction n using Nat.strongRecOn with
  | ind n ih =>
    intro c hc
    by_cases hn : n < 16
    · rw [Nat.toDigits_of_lt_base hn, List.mem_singleton] at hc
      exact hc ▸ h ⟨n, hn⟩
    · rw [Nat.toDigits_of_base_le (by omega) (by omega), List.mem_append, List.mem_singleton] at hc
      obtain hc | rfl := hc
      · exact ih (n / 16) (by omega) c hc
      · exact h ⟨n % 16, Nat.mod_lt n (by omega)⟩

/-- Every character of `hex` has what the hexadecimal digits have. -/
theorem forall_mem_hex {p : Char → Prop} (h : ∀ d : Fin 16, p (d : ℕ).digitChar) (width n : ℕ) :
    ∀ c ∈ (hex width n).toList, p c := by
  intro c hc
  rw [hex, String.toList_ofList, List.mem_append] at hc
  obtain hc | hc := hc
  · rw [List.eq_of_mem_replicate hc]
    exact h 0
  · exact forall_mem_toDigits_sixteen h n c hc

section Str

variable (printable : Char → Bool)

/-- One character inside a string literal quoted with `quote`. -/
def reprChar (quote c : Char) : String :=
  if c = quote ∨ c = '\\' then String.ofList ['\\', c]
  else if c = '\t' then "\\t"
  else if c = '\n' then "\\n"
  else if c = '\r' then "\\r"
  else if c.toNat < 0x20 ∨ c.toNat = 0x7f then "\\x" ++ hex 2 c.toNat
  else if c.toNat < 0x7f ∨ printable c then String.singleton c
  else if c.toNat ≤ 0xff then "\\x" ++ hex 2 c.toNat
  else if c.toNat ≤ 0xffff then "\\u" ++ hex 4 c.toNat
  else "\\U" ++ hex 8 c.toNat

/-- `repr` of a string. Double quotes are used only around a single quote and no double one. -/
def reprString (s : String) : String :=
  let quote := if s.toList.contains '\'' && !s.toList.contains '"' then '"' else '\''
  String.singleton quote ++ String.join (s.toList.map (reprChar printable quote)) ++
    String.singleton quote

mutual

/-- `repr(schema)`. -/
def repr : CanonicalSchema → String
  | .text s => reprString printable s
  | .flag b => if b then "True" else "False"
  | .items l => "[" ++ ", ".intercalate (reprItems l) ++ "]"
  | .members l => "\x7b" ++ ", ".intercalate (reprMembers l) ++ "\x7d"

def reprItems : List CanonicalSchema → List String
  | [] => []
  | v :: l => repr v :: reprItems l

def reprMembers : List (String × CanonicalSchema) → List String
  | [] => []
  | (k, v) :: l => (reprString printable k ++ ": " ++ repr v) :: reprMembers l

end

/-- `str(schema)`: a string is itself. -/
def str : CanonicalSchema → String
  | .text s => s
  | v => repr printable v

/-! ### Nodes -/

/-- `_type_of`. -/
def typeOf (node : CanonicalSchema) : String :=
  match node.get? "type", node with
  | some t, _ => str printable t
  | none, .members _ => "object"
  | none, .items _ => "array"
  | none, _ => "unknown"

end Str

/-- `_nullable_of`. -/
def nullableOf (node : CanonicalSchema) : Option Bool :=
  (node.get? "nullable").map CanonicalSchema.truthy

/-- What a path with a list maps to. -/
def arrayMarker : CanonicalSchema := .leaf "array" false

/-- What a path with anything else maps to. -/
def unknownMarker : CanonicalSchema := .leaf "unknown" true

/-- `prefix or "[root]"`. -/
def orRoot (path : String) : String := if path = "" then "[root]" else path

/-- The path of a member. -/
def keyPath (path key : String) : String := if path = "" then key else s!"{path}.{key}"

/-- The path of a list element. -/
def indexPath (path : String) (i : ℕ) : String :=
  if path = "" then s!"[*{i}]" else s!"{path}[*{i}]"

mutual

/-- `_flatten`: the assignments to the flat dictionary, in order. -/
def flatten : CanonicalSchema → String → List (String × CanonicalSchema)
  | .members l, path =>
    if (l.lookup "type").isSome then [(orRoot path, .members l)] else flattenMembers l path
  | .items l, path => (orRoot path, arrayMarker) :: flattenItems l path 0
  | .text _, path => [(orRoot path, unknownMarker)]
  | .flag _, path => [(orRoot path, unknownMarker)]

def flattenMembers : List (String × CanonicalSchema) → String → List (String × CanonicalSchema)
  | [], _ => []
  | (k, v) :: l, path => flatten v (keyPath path k) ++ flattenMembers l path

def flattenItems : List CanonicalSchema → String → ℕ → List (String × CanonicalSchema)
  | [], _, _ => []
  | v :: l, path, i => flatten v (indexPath path i) ++ flattenItems l path (i + 1)

end

/-! ### Rules -/

/-- `set(enum)`: lists and dictionaries cannot be hashed. -/
def toSet : List CanonicalSchema → Except Failure (List CanonicalSchema)
  | [] => .ok []
  | .items _ :: _ => .error (.typeError "unhashable type: 'list'")
  | .members _ :: _ => .error (.typeError "unhashable type: 'dict'")
  | v :: l => do
    let s ← toSet l
    return v :: s

/-- `a < b` on sets. -/
def properSubset (a b : List CanonicalSchema) : Bool :=
  a.all (fun v => b.any (pyEq v)) && !b.all (fun v => a.any (pyEq v))

/-- The rule for `enum`: both nodes list their values. -/
def classifyEnum (old new : CanonicalSchema) : Except Failure (Compatibility × String) :=
  match old.get? "enum", new.get? "enum" with
  | some (.items oldEnum), some (.items newEnum) => do
    let oldSet ← toSet oldEnum
    let newSet ← toSet newEnum
    if properSubset oldSet newSet then
      return (.forwardCompatible, "enum expansion")
    else if properSubset newSet oldSet then
      return (.breaking, "enum contraction")
    else return (.safe, "no compatibility risk")
  | _, _ => return (.safe, "no compatibility risk")

section Classify

variable (printable : Char → Bool)

/-- The rules for a path that both schemas have. -/
def classifyChange (old new : CanonicalSchema) : Except Failure (Compatibility × String) :=
  let oldT := typeOf printable old
  let newT := typeOf printable new
  if oldT ≠ newT then
    if oldT = "integer" ∧ newT = "number" then return (.risky, "int->float widening")
    else if oldT = "number" ∧ newT = "integer" then return (.breaking, "float->int narrowing")
    else if oldT = "string" ∧ (newT = "integer" ∨ newT = "number") then
      return (.breaking, "string->number")
    else if oldT = "array" ∧ newT = "array" then return (.breaking, "array item mutation")
    else return (.breaking, s!"type changed {oldT}->{newT}")
  else if nullableOf old = some false ∧ nullableOf new = some true then
    return (.backwardCompatible, "required field becomes nullable")
  else if nullableOf old = some true ∧ nullableOf new = some false then
    return (.breaking, "nullable field becomes required")
  else classifyEnum old new

/-- `_classify`. -/
def classify : Option CanonicalSchema → Option CanonicalSchema →
    Except Failure (Compatibility × String)
  | none, some new =>
    if (new.get? "required").any CanonicalSchema.truthy then
      return (.forwardCompatible, "added required field")
    else return (.safe, "added optional field")
  | some old, none =>
    if (old.get? "required").all CanonicalSchema.truthy then
      return (.breaking, "removed required field")
    else return (.risky, "removed optional field")
  | some old, some new => classifyChange printable old new
  | none, none => return (.safe, "no compatibility risk")

/-- `DiffItem`. -/
structure DiffItem where
  path : String
  oldType : Option String
  newType : Option String
  oldNullable : Option Bool
  newNullable : Option Bool
  classification : Compatibility
  reason : String

/-- `old == new` for what the two flat dictionaries have at a path. -/
def sameNode : Option CanonicalSchema → Option CanonicalSchema → Bool
  | none, none => true
  | some old, some new => pyEq old new
  | _, _ => false

/-- The loop over the paths. -/
def diffPaths (oldFlat newFlat : List (String × CanonicalSchema)) :
    List String → Except Failure (List DiffItem)
  | [] => return []
  | path :: paths => do
    let old := lastBinding path oldFlat
    let new := lastBinding path newFlat
    if sameNode old new then diffPaths oldFlat newFlat paths
    else
      let (cls, reason) ← classify printable old new
      let diffs ← diffPaths oldFlat newFlat paths
      return {
        path := path
        oldType := old.map (typeOf printable)
        newType := new.map (typeOf printable)
        oldNullable := old.bind nullableOf
        newNullable := new.bind nullableOf
        classification := cls
        reason := reason } :: diffs

/-- `sorted(old_flat.keys() | new_flat.keys())`. -/
def allPaths (oldFlat newFlat : List (String × CanonicalSchema)) : List String :=
  ((oldFlat ++ newFlat).map Prod.fst).dedup.insertionSort (· ≤ ·)

/-- `diff_and_classify`. -/
def diffAndClassify (old new : CanonicalSchema) : Except Failure (List DiffItem) :=
  let oldFlat := flatten old ""
  let newFlat := flatten new ""
  diffPaths printable oldFlat newFlat (allPaths oldFlat newFlat)

end Classify

/-- `max(classifications, key=rank)`: the first one of the highest rank. -/
def summarizeClassification : List DiffItem → Compatibility
  | [] => .safe
  | d :: ds => ds.foldl
      (fun worst d => if worst.rank < d.classification.rank then d.classification else worst)
      d.classification

/-! ### What the verdict depends on -/

theorem Compatibility.name_injective {c c' : Compatibility} (h : c.name = c'.name) : c = c' := by
  revert h
  cases c <;> cases c' <;> decide

theorem Compatibility.rank_le (c : Compatibility) : c.rank ≤ Compatibility.breaking.rank := by
  cases c <;> decide

theorem Compatibility.eq_breaking {c : Compatibility} :
    c = .breaking ↔ Compatibility.breaking.rank ≤ c.rank := by
  cases c <;> decide

/-- **The verdict is BREAKING exactly when some item is.** -/
theorem summarizeClassification_breaking {ds : List DiffItem} :
    summarizeClassification ds = .breaking ↔ ∃ d ∈ ds, d.classification = .breaking := by
  cases ds with
  | nil => simp [summarizeClassification]
  | cons d ds =>
    rw [summarizeClassification]
    suffices h : ∀ c : Compatibility, ds.foldl
        (fun worst d => if worst.rank < d.classification.rank then d.classification else worst) c =
          .breaking ↔ c = .breaking ∨ ∃ d ∈ ds, d.classification = .breaking by
      rw [h]
      simp
    intro c
    induction ds generalizing c with
    | nil => simp
    | cons e ds ih =>
      rw [List.foldl_cons, ih]
      simp only [List.mem_cons, exists_eq_or_imp]
      by_cases hlt : c.rank < e.classification.rank
      · have hc : c ≠ .breaking := by
          rintro rfl
          exact absurd hlt (not_lt_of_ge (Compatibility.rank_le _))
        simp [hlt, hc]
      · have he : e.classification = .breaking → c = .breaking := by
          intro he
          rw [he] at hlt
          exact Compatibility.eq_breaking.mpr (le_of_not_gt hlt)
        simp only [hlt, ↓reduceIte]
        tauto

variable {printable : Char → Bool} {oldFlat newFlat : List (String × CanonicalSchema)}

/-- What the loop returns when it returns: an item for each path whose nodes differ, with the
verdict of `classify`. -/
theorem mem_diffPaths {paths : List String} {ds : List DiffItem}
    (h : diffPaths printable oldFlat newFlat paths = .ok ds) (c : Compatibility) :
    (∃ d ∈ ds, d.classification = c) ↔ ∃ path ∈ paths,
      sameNode (lastBinding path oldFlat) (lastBinding path newFlat) = false ∧
      ∃ reason, classify printable (lastBinding path oldFlat) (lastBinding path newFlat) =
        .ok (c, reason) := by
  induction paths generalizing ds with
  | nil =>
    obtain rfl : [] = ds := Except.ok.inj h
    simp
  | cons path paths ih =>
    simp only [diffPaths] at h
    split at h
    · rename_i hsame
      rw [ih h]
      simp [hsame]
    · rename_i hsame
      cases hc : classify printable (lastBinding path oldFlat) (lastBinding path newFlat) with
      | error e => simp [hc, bind, Except.bind] at h
      | ok v =>
        obtain ⟨cls, reason⟩ := v
        cases hd : diffPaths printable oldFlat newFlat paths with
        | error e => simp [hc, hd, bind, Except.bind] at h
        | ok ds' =>
          simp only [hc, hd, bind, Except.bind, pure, Except.pure, Except.ok.injEq] at h
          subst h
          simp only [List.mem_cons, exists_eq_or_imp, ih hd, hc, hsame, Except.ok.injEq,
            Prod.mk.injEq, true_and, exists_and_left, exists_eq', and_true]

/-- The loop returns exactly when no path with differing nodes raises. -/
theorem diffPaths_ok {paths : List String} :
    (∃ ds, diffPaths printable oldFlat newFlat paths = .ok ds) ↔ ∀ path ∈ paths,
      sameNode (lastBinding path oldFlat) (lastBinding path newFlat) = false →
      ∃ v, classify printable (lastBinding path oldFlat) (lastBinding path newFlat) = .ok v := by
  induction paths with
  | nil => simp [diffPaths, pure, Except.pure]
  | cons path paths ih =>
    rw [List.forall_mem_cons, ← ih]
    simp only [diffPaths]
    split
    · rename_i hsame
      simp [hsame]
    · rename_i hsame
      cases hc : classify printable (lastBinding path oldFlat) (lastBinding path newFlat) with
      | error e => simp [hsame, bind, Except.bind]
      | ok v =>
        cases hd : diffPaths printable oldFlat newFlat paths with
        | error e => simp [bind, Except.bind]
        | ok ds' => simp [bind, Except.bind, pure, Except.pure]

theorem mem_allPaths {path : String} :
    path ∈ allPaths oldFlat newFlat ↔
      path ∈ oldFlat.map Prod.fst ∨ path ∈ newFlat.map Prod.fst := by
  rw [allPaths, List.mem_insertionSort, List.mem_dedup, List.map_append, List.mem_append]

/-- A path that neither schema has shows no difference. -/
theorem sameNode_of_notMem {path : String} (h : path ∉ allPaths oldFlat newFlat) :
    sameNode (lastBinding path oldFlat) (lastBinding path newFlat) = true := by
  rw [mem_allPaths, not_or] at h
  rw [lastBinding_eq_none.mpr h.1, lastBinding_eq_none.mpr h.2]
  rfl

end Driftgate.Schema
