import Driftgate.Lib.Exceptions
import Driftgate.Lib.Windows
import Driftgate.Runtime.PythonText
import Driftgate.Schema.EmptyDiff
import Driftgate.Schema.Jsonb
import Driftgate.Schema.Verdict

/-!
# Comparing with a stored schema

`track_contract` compares the schema of a payload with one that it reads back from a JSONB column.
The rules look at an object with a member `type` through the text of that member, and a text shows
the order of keys. So an object whose `type` holds a dictionary that JSONB orders in another way
counts as one of another type, although nothing has changed there (`Misread`), and the verdict is
BREAKING if anything else has changed in it.

Comparing two stored schemas has the verdict of the payloads (`verdict_stored`), and so has
comparing with a stored schema unless some path is misread (`verdict_reread`).
-/

namespace Driftgate.Runtime

open Driftgate.Schema Driftgate.Lib Driftgate.Windows

/-! ### Rules that do not see the order -/

section Rules

variable {v w : CanonicalSchema}

theorem nullableOf_jsonb (hv : Canonical v) : nullableOf (jsonb v) = nullableOf v := by
  rw [nullableOf, nullableOf, hv.get?_jsonb, Option.map_map]
  exact congrArg (fun f => Option.map f _) (funext jsonb_truthy)

theorem toSet_jsonb (l : List CanonicalSchema) : toSet (l.map jsonb) = toSet l := by
  induction l with
  | nil => rfl
  | cons v l ih =>
    cases v with
    | text s => simp only [List.map_cons, jsonb_text, toSet, ih]
    | flag b => simp only [List.map_cons, jsonb_flag, toSet, ih]
    | items l' => rw [List.map_cons, jsonb_items, toSet, toSet]
    | members l' => rw [List.map_cons, jsonb_members, toSet, toSet]

theorem classifyEnum_jsonb_left (hv : Canonical v) :
    classifyEnum (jsonb v) w = classifyEnum v w := by
  rw [classifyEnum, classifyEnum, hv.get?_jsonb]
  cases v.get? "enum" with
  | none => rfl
  | some e =>
    cases e with
    | items l =>
      rw [Option.map_some, jsonb_items]
      cases w.get? "enum" with
      | none => rfl
      | some e' =>
        cases e' with
        | items l' => simp only [toSet_jsonb]
        | _ => rfl
    | members l => rw [Option.map_some, jsonb_members]
    | _ => rfl

theorem classifyEnum_jsonb_right (hw : Canonical w) :
    classifyEnum v (jsonb w) = classifyEnum v w := by
  rw [classifyEnum, classifyEnum, hw.get?_jsonb]
  cases v.get? "enum" with
  | none => rfl
  | some e =>
    cases e with
    | items l =>
      cases w.get? "enum" with
      | none => rfl
      | some e' =>
        cases e' with
        | items l' =>
          rw [Option.map_some, jsonb_items]
          simp only [toSet_jsonb]
        | members l' => rw [Option.map_some, jsonb_members]
        | _ => rfl
    | _ => rfl

end Rules

/-! ### Type texts -/

section Types

variable {printable : Char → Bool} {v w : Json}

/-- What an object has under `type` comes back from the column in another order. -/
def Reordered (v : Json) : Prop :=
  ∃ t, v.get? "type" = some t ∧ jsonb (canonicalize t) ≠ canonicalize t

/-- The names that are no text of a dictionary or a list. -/
def plainNames : List String :=
  ["null", "boolean", "integer", "number", "string", "array", "object"]

/-- A value counts as one of a plain name, or of the text of what it has under `type`. -/
inductive Typed (printable : Char → Bool) (v : Json) : Prop
  | plain (name : typeName printable v ∈ plainNames)
      (stored : typeOf printable (jsonb (marker v)) = typeName printable v)
      (kept : ¬Reordered v)
  | text {t : Json} (type : v.get? "type" = some t)
      (name : typeName printable v = repr printable (canonicalize t))
      (stored : typeOf printable (jsonb (marker v)) = repr printable (jsonb (canonicalize t)))

theorem typeOf_of_get? {v t : CanonicalSchema} (h : v.get? "type" = some t) :
    typeOf printable v = str printable t := by
  simp only [typeOf, h]

theorem typeOf_members {l : List (String × CanonicalSchema)} (h : l.lookup "type" = none) :
    typeOf printable (.members l) = "object" := by
  simp only [typeOf, CanonicalSchema.get?, h]

theorem str_canonicalize (t : Json) :
    str printable (canonicalize t) = Schema.repr printable (canonicalize t) ∧
      str printable (jsonb (canonicalize t)) = Schema.repr printable (jsonb (canonicalize t)) := by
  obtain ⟨l, hl⟩ | ⟨l, hl⟩ := canonicalize_container t
  · rw [hl, jsonb_members]
    exact ⟨rfl, rfl⟩
  · rw [hl, jsonb_items]
    exact ⟨rfl, rfl⟩

theorem typed (hv : v.UniqueKeys) : Typed printable v := by
  have hscalar : ∀ {k : Kind}, v.kind = some k → Typed printable v := by
    intro k hk
    have hname : typeName printable v = k.name := by
      rw [typeName, marker_scalar hk]
      rfl
    refine .plain ?_ ?_ ?_
    · rw [hname]
      cases k <;> decide
    · rw [typeName, marker_scalar hk, Kind.leaf, jsonb_leaf]
    · rintro ⟨t, ht, -⟩
      cases v <;> simp_all [Json.kind, Json.get?]
  cases v with
  | arr items =>
    have hname : typeName printable (.arr items) = "array" := rfl
    refine .plain ?_ ?_ ?_
    · rw [hname]
      decide
    · rw [typeName, marker, arrayMarker, jsonb_leaf]
    · rintro ⟨t, ht, -⟩
      cases ht
  | obj members =>
    have hget := canonicalize_get? rfl hv "type"
    have hgetj := (canonicalize_canonical hv).get?_jsonb "type"
    rw [hget] at hgetj
    cases ht : (Json.obj members).get? "type" with
    | none =>
      rw [ht] at hget hgetj
      have hname : typeName printable (.obj members) = "object" := by
        rw [canonicalize_obj] at hget
        rw [typeName, marker, canonicalize_obj]
        · exact typeOf_members hget
        · simp
      refine .plain ?_ ?_ ?_
      · rw [hname]
        decide
      · rw [hname, marker, canonicalize_obj, jsonb_members]
        · rw [canonicalize_obj, jsonb_members] at hgetj
          exact typeOf_members hgetj
        · simp
      · rintro ⟨t, ht', -⟩
        rw [ht] at ht'
        cases ht'
    | some t =>
      rw [ht] at hget hgetj
      refine .text ht ?_ ?_
      · exact (typeOf_of_get? hget).trans (str_canonicalize t).1
      · exact (typeOf_of_get? hgetj).trans (str_canonicalize t).2
  | null => exact hscalar rfl
  | bool b => exact hscalar rfl
  | int n => exact hscalar rfl
  | float q => exact hscalar rfl
  | str s => exact hscalar rfl

/-- No plain name is the text of a dictionary or a list. -/
theorem repr_not_plain (t : Json) : Schema.repr printable (canonicalize t) ∉ plainNames ∧
    Schema.repr printable (jsonb (canonicalize t)) ∉ plainNames := by
  have hplain : ∀ name ∈ plainNames, ∀ {v : CanonicalSchema},
      (reprOpening v = '[' ∨ reprOpening v = '\x7b') → Schema.repr printable v ≠ name := by
    intro name hname v hv he
    obtain ⟨w, hw⟩ := @repr_opening printable v
    rw [he] at hw
    have hhead : ∀ name ∈ plainNames, name.toList.head? ≠ some '[' ∧
        name.toList.head? ≠ some '\x7b' := by decide
    have hsome : name.toList.head? = some (reprOpening v) := by rw [hw]; rfl
    obtain hv | hv := hv
    · exact (hhead name hname).1 (hsome.trans (congrArg some hv))
    · exact (hhead name hname).2 (hsome.trans (congrArg some hv))
  obtain ⟨l, hl⟩ | ⟨l, hl⟩ := canonicalize_container t
  · rw [hl, jsonb_members]
    exact ⟨fun h => hplain _ h (.inr rfl) rfl, fun h => hplain _ h (.inr rfl) rfl⟩
  · rw [hl, jsonb_items]
    exact ⟨fun h => hplain _ h (.inl rfl) rfl, fun h => hplain _ h (.inl rfl) rfl⟩

/-- Stored values count as of one type exactly when the values do. -/
theorem stored_types_eq (hv : v.UniqueKeys) (hw : w.UniqueKeys) :
    typeOf printable (jsonb (marker v)) = typeOf printable (jsonb (marker w)) ↔
      typeName printable v = typeName printable w := by
  obtain ⟨hname, hstored, -⟩ | ⟨ht, hname, hstored⟩ := @typed printable _ hv
  · rw [hstored]
    obtain ⟨-, hstored', -⟩ | ⟨-, hname', hstored'⟩ := @typed printable _ hw
    · rw [hstored']
    · rw [hstored', hname']
      exact iff_of_false (fun h => (repr_not_plain _).2 (h ▸ hname))
        fun h => (repr_not_plain _).1 (h ▸ hname)
  · rw [hstored, hname]
    obtain ⟨hname', hstored', -⟩ | ⟨ht', hname', hstored'⟩ := @typed printable _ hw
    · rw [hstored']
      exact iff_of_false (fun h => (repr_not_plain _).2 (h ▸ hname'))
        fun h => (repr_not_plain _).1 (h ▸ hname')
    · rw [hstored', hname', repr_injective.eq_iff, repr_injective.eq_iff]
      exact ⟨jsonb_injective (canonicalize_canonical (hv.of_get? ht))
        (canonicalize_canonical (hw.of_get? ht')), congrArg jsonb⟩

/-- **A stored value and another one** count as of one type exactly when the values do and the text
of the other one is in the order of the column. -/
theorem reread_types_eq (hv : v.UniqueKeys) (hw : w.UniqueKeys) :
    typeOf printable (jsonb (marker v)) = typeName printable w ↔
      typeName printable v = typeName printable w ∧ ¬Reordered w := by
  obtain ⟨hname, hstored, -⟩ | ⟨ht, hname, hstored⟩ := @typed printable _ hv
  · rw [hstored]
    obtain ⟨-, -, hkept⟩ | @⟨t, -, hname', -⟩ := @typed printable _ hw
    · exact (and_iff_left hkept).symm
    · rw [hname']
      have hne : typeName printable v ≠ Schema.repr printable (canonicalize t) :=
        fun h => (repr_not_plain _).1 (h ▸ hname)
      exact iff_of_false hne fun h => hne h.1
  · rw [hstored, hname]
    obtain ⟨hname', -, -⟩ | @⟨t', ht', hname', -⟩ := @typed printable _ hw
    · exact iff_of_false (fun h => (repr_not_plain _).2 (h ▸ hname'))
        fun h => (repr_not_plain _).1 (h.1 ▸ hname')
    · have hreordered : Reordered w ↔ jsonb (canonicalize t') ≠ canonicalize t' := by
        constructor
        · rintro ⟨t, ht, hne⟩
          rw [ht'] at ht
          exact Option.some.inj ht ▸ hne
        · exact fun hne => ⟨t', ht', hne⟩
      rw [hname', repr_injective.eq_iff, repr_injective.eq_iff, hreordered, not_not]
      constructor
      · intro h
        have hkept : jsonb (canonicalize t') = canonicalize t' := by rw [← h, jsonb_jsonb]
        exact ⟨jsonb_injective (canonicalize_canonical (hv.of_get? ht))
          (canonicalize_canonical (hw.of_get? ht')) (h.trans hkept.symm), hkept⟩
      · rintro ⟨h, hkept⟩
        rw [h, hkept]

theorem typeName_of_get? {t : Json} (hv : v.UniqueKeys) (ht : v.get? "type" = some t) :
    typeName printable v = Schema.repr printable (canonicalize t) := by
  cases v with
  | obj members =>
    have hget := canonicalize_get? (v := .obj members) rfl hv "type"
    rw [ht] at hget
    exact (typeOf_of_get? hget).trans (str_canonicalize t).1
  | _ => cases ht

theorem stored_type_eq_name (hv : v.UniqueKeys) {name : String} (h : name ∈ plainNames) :
    typeOf printable (jsonb (marker v)) = name ↔ typeName printable v = name := by
  obtain ⟨-, hstored, -⟩ | ⟨-, hname, hstored⟩ := @typed printable _ hv
  · rw [hstored]
  · rw [hname, hstored]
    exact iff_of_false (fun he => (repr_not_plain _).2 (he ▸ h)) fun he =>
      (repr_not_plain _).1 (he ▸ h)

end Types

/-! ### Verdicts that do not see the order -/

section Verdicts

variable {printable : Char → Bool}

/-- The class of a change depends on whether the types agree, whether an integer is widened, and the
rules that follow. -/
theorem classifyChange_class {o o' n n' : CanonicalSchema}
    (htype : typeOf printable o' = typeOf printable n' ↔ typeOf printable o = typeOf printable n)
    (hwiden : (typeOf printable o' = "integer" ∧ typeOf printable n' = "number") ↔
      (typeOf printable o = "integer" ∧ typeOf printable n = "number"))
    (ho : nullableOf o' = nullableOf o) (hn : nullableOf n' = nullableOf n)
    (henum : classifyEnum o' n' = classifyEnum o n) :
    (classifyChange printable o' n').map Prod.fst =
      (classifyChange printable o n).map Prod.fst := by
  simp only [classifyChange, ne_eq, htype, hwiden, ho, hn, henum]
  split_ifs <;> rfl

/-- The classes that the loop finds, when at each path the nodes differ in both dictionaries or in
neither, and in one and the same class. -/
theorem diffPaths_classes {o o' n n' : List (String × CanonicalSchema)} {paths : List String}
    (h : ∀ path ∈ paths,
      sameNode (lastBinding path o') (lastBinding path n') =
        sameNode (lastBinding path o) (lastBinding path n) ∧
      (sameNode (lastBinding path o) (lastBinding path n) = false →
        (classify printable (lastBinding path o') (lastBinding path n')).map Prod.fst =
          (classify printable (lastBinding path o) (lastBinding path n)).map Prod.fst)) :
    (diffPaths printable o' n' paths).map (List.map (·.classification)) =
      (diffPaths printable o n paths).map (List.map (·.classification)) := by
  induction paths with
  | nil => rfl
  | cons path paths ih =>
    rw [List.forall_mem_cons] at h
    obtain ⟨⟨hsame, hclass⟩, hpaths⟩ := h
    simp only [diffPaths, hsame]
    split
    · exact ih hpaths
    · rename_i hdiffer
      have hclass := hclass (Bool.eq_false_of_not_eq_true hdiffer)
      have ih := ih hpaths
      generalize classify printable (lastBinding path o) (lastBinding path n) = x at hclass ⊢
      generalize classify printable (lastBinding path o') (lastBinding path n') = x' at hclass ⊢
      generalize diffPaths printable o n paths = y at ih ⊢
      generalize diffPaths printable o' n' paths = y' at ih ⊢
      cases x with
      | error e =>
        cases x' with
        | error e' =>
          obtain rfl : e' = e := Except.error.inj hclass
          rfl
        | ok r' => cases hclass
      | ok r =>
        cases x' with
        | error e' => cases hclass
        | ok r' =>
          have hclass : r'.1 = r.1 := Except.ok.inj hclass
          cases y with
          | error e =>
            cases y' with
            | error e' =>
              obtain rfl : e' = e := Except.error.inj ih
              rfl
            | ok ds' => cases ih
          | ok ds =>
            cases y' with
            | error e' => cases ih
            | ok ds' =>
              have ih : ds'.map (·.classification) = ds.map (·.classification) :=
                Except.ok.inj ih
              show Except.ok (r'.1 :: ds'.map (·.classification)) =
                Except.ok (r.1 :: ds.map (·.classification))
              rw [hclass, ih]

theorem summarizeClassification_congr {ds ds' : List DiffItem}
    (h : ds.map (·.classification) = ds'.map (·.classification)) :
    summarizeClassification ds = summarizeClassification ds' := by
  cases ds with
  | nil =>
    obtain rfl := List.map_eq_nil_iff.mp h.symm
    rfl
  | cons d ds =>
    cases ds' with
    | nil => cases h
    | cons d' ds' =>
      obtain ⟨hd, hds⟩ := List.cons.inj h
      have hd : d.classification = d'.classification := hd
      have hfold : ∀ (l : List DiffItem) (c : Compatibility),
          l.foldl (fun worst d =>
            if worst.rank < d.classification.rank then d.classification else worst) c =
          (l.map (·.classification)).foldl
            (fun worst c => if worst.rank < c.rank then c else worst) c :=
        fun l c => by rw [List.foldl_map]
      rw [summarizeClassification, summarizeClassification, hfold, hfold, hds, hd]

/-- The verdict depends on the classes alone. -/
theorem map_summarizeClassification {x y : Except Failure (List DiffItem)}
    (h : x.map (List.map (·.classification)) = y.map (List.map (·.classification))) :
    x.map summarizeClassification = y.map summarizeClassification := by
  cases x with
  | error e =>
    cases y with
    | error e' =>
      obtain rfl : e = e' := Except.error.inj h
      rfl
    | ok ds' => cases h
  | ok ds =>
    cases y with
    | error e' => cases h
    | ok ds' => exact congrArg Except.ok (summarizeClassification_congr (Except.ok.inj h))

/-- The paths of a comparison are those that some node is at. -/
theorem allPaths_congr {o o' n n' : List (String × CanonicalSchema)}
    (ho : ∀ path, (lastBinding path o').isSome = (lastBinding path o).isSome)
    (hn : ∀ path, (lastBinding path n').isSome = (lastBinding path n).isSome) :
    allPaths o' n' = allPaths o n := by
  have hmem : ∀ {l l' : List (String × CanonicalSchema)} {path : String},
      (lastBinding path l').isSome = (lastBinding path l).isSome →
        (path ∈ l'.map Prod.fst ↔ path ∈ l.map Prod.fst) := by
    intro l l' path h
    rw [← not_iff_not, ← lastBinding_eq_none, ← lastBinding_eq_none,
      ← Option.not_isSome_iff_eq_none, ← Option.not_isSome_iff_eq_none, h]
  refine insertionSort_eq_of_perm ?_
  rw [List.perm_ext_iff_of_nodup (List.nodup_dedup _) (List.nodup_dedup _)]
  intro path
  rw [List.mem_dedup, List.mem_dedup, List.map_append, List.map_append, List.mem_append,
    List.mem_append, hmem (ho path), hmem (hn path)]

/-- Both values have the same under `type`, whose text the column changes, and they differ
elsewhere. -/
structure Misread (v w : Json) : Prop where
  differ : marker v ≠ marker w
  type : ∃ t t', v.get? "type" = some t ∧ w.get? "type" = some t' ∧
    canonicalize t = canonicalize t' ∧ jsonb (canonicalize t') ≠ canonicalize t'

/-- A path that is misread. -/
def MisreadAt : Option Json → Option Json → Prop
  | some v, some w => Misread v w
  | _, _ => False

theorem misreadAt_iff {o n : Option Json} :
    MisreadAt o n ↔ ∃ v w, o = some v ∧ n = some w ∧ Misread v w := by
  constructor
  · intro h
    cases o with
    | none => exact h.elim
    | some v =>
      cases n with
      | none => exact h.elim
      | some w => exact ⟨v, w, rfl, rfl, h⟩
  · rintro ⟨v, w, rfl, rfl, h⟩
    exact h

theorem misread_iff {v w : Json} (hv : v.UniqueKeys) (hw : w.UniqueKeys) :
    Misread v w ↔
      marker v ≠ marker w ∧ typeName printable v = typeName printable w ∧ Reordered w := by
  constructor
  · rintro ⟨hdiffer, t, t', ht, ht', heq, hne⟩
    refine ⟨hdiffer, ?_, t', ht', hne⟩
    rw [typeName_of_get? hv ht, typeName_of_get? hw ht', heq]
  · rintro ⟨hdiffer, htype, t', ht', hne⟩
    rw [typeName_of_get? hw ht'] at htype
    obtain ⟨hname, -, -⟩ | ⟨ht, hname, -⟩ := @typed printable _ hv
    · exact absurd (htype ▸ hname) (repr_not_plain t').1
    · exact ⟨hdiffer, _, t', ht, ht', repr_injective (hname.symm.trans htype), hne⟩

/-- What a column may have done to a schema: nothing if it was not stored. -/
def AsRead (f : CanonicalSchema → CanonicalSchema) : Prop := f = id ∨ f = jsonb

/-- The rules for one path, when what they see of the types is the same. -/
theorem classify_class {f : CanonicalSchema → CanonicalSchema} (hf : AsRead f) {o n : Option Json}
    (ho : ∀ v ∈ o, v.UniqueKeys) (hn : ∀ w ∈ n, w.UniqueKeys)
    (htype : ∀ v ∈ o, ∀ w ∈ n, typeOf printable (jsonb (marker v)) =
      typeOf printable (f (marker w)) ↔ typeName printable v = typeName printable w) :
    (classify printable (o.map fun v => jsonb (marker v)) (n.map fun w => f (marker w))).map
        Prod.fst = (classify printable (o.map marker) (n.map marker)).map Prod.fst := by
  have hrequired : ∀ {v : Json}, v.UniqueKeys → ∀ {f}, AsRead f →
      ((f (marker v)).get? "required").any CanonicalSchema.truthy =
          ((marker v).get? "required").any CanonicalSchema.truthy ∧
        ((f (marker v)).get? "required").all CanonicalSchema.truthy =
          ((marker v).get? "required").all CanonicalSchema.truthy := by
    rintro v hv f (rfl | rfl)
    · exact ⟨rfl, rfl⟩
    · rw [(marker_canonical hv).get?_jsonb]
      cases (marker v).get? "required" with
      | none => exact ⟨rfl, rfl⟩
      | some r => exact ⟨jsonb_truthy r, jsonb_truthy r⟩
  cases o with
  | none =>
    cases n with
    | none => rfl
    | some w =>
      simp only [Option.map_none, Option.map_some, classify, (hrequired (hn w rfl) hf).1]
  | some v =>
    have hv := marker_canonical (ho v rfl)
    cases n with
    | none =>
      simp only [Option.map_none, Option.map_some, classify, (hrequired (ho v rfl) (.inr rfl)).2]
    | some w =>
      have hw := marker_canonical (hn w rfl)
      have hnumber :
          typeOf printable (f (marker w)) = "number" ↔ typeName printable w = "number" := by
        obtain rfl | rfl := hf
        · exact Iff.rfl
        · exact stored_type_eq_name (hn w rfl) (by decide)
      refine classifyChange_class (htype v rfl w rfl)
        (and_congr (stored_type_eq_name (ho v rfl) (by decide)) hnumber) (nullableOf_jsonb hv) ?_ ?_
      · obtain rfl | rfl := hf
        · rfl
        · exact nullableOf_jsonb hw
      · rw [classifyEnum_jsonb_left hv]
        obtain rfl | rfl := hf
        · rfl
        · exact classifyEnum_jsonb_right hw

theorem sameNode_asRead {f : CanonicalSchema → CanonicalSchema} (hf : AsRead f) {o n : Option Json}
    (hn : ∀ w ∈ n, w.UniqueKeys) :
    sameNode (o.map fun v => jsonb (marker v)) (n.map fun w => f (marker w)) =
      sameNode (o.map marker) (n.map marker) := by
  cases o with
  | none => cases n <;> rfl
  | some v =>
    cases n with
    | none => rfl
    | some w =>
      show pyEq (jsonb (marker v)) (f (marker w)) = pyEq (marker v) (marker w)
      rw [pyEq_jsonb_left]
      obtain rfl | rfl := hf
      · rfl
      · exact pyEq_jsonb_right (marker_canonical (hn w rfl)) _

variable {p q : Payload}

theorem lastBinding_asRead {f : CanonicalSchema → CanonicalSchema} (hf : AsRead f) (p : Payload)
    (path : String) : lastBinding path (flatten (f (canonicalize p.json)) "") =
      (shown p.json path).map fun v => f (marker v) := by
  have hp := p.uniqueKeys
  obtain rfl | rfl := hf
  · exact lastBinding_flatten hp path
  · rw [lastBinding_flatten_jsonb (canonicalize_canonical hp), lastBinding_flatten hp,
      Option.map_map]
    rfl

/-- What a column does to schemas does not change the paths of a comparison. -/
theorem allPaths_asRead {f : CanonicalSchema → CanonicalSchema} (hf : AsRead f) (p q : Payload) :
    allPaths (flatten (jsonb (canonicalize p.json)) "") (flatten (f (canonicalize q.json)) "") =
      allPaths (flatten (canonicalize p.json) "") (flatten (canonicalize q.json) "") := by
  refine allPaths_congr (fun path => ?_) fun path => ?_
  · rw [lastBinding_asRead (.inr rfl), lastBinding_flatten p.uniqueKeys, Option.isSome_map,
      Option.isSome_map]
  · rw [lastBinding_asRead hf, lastBinding_flatten q.uniqueKeys, Option.isSome_map,
      Option.isSome_map]

/-- The rules see the types at a path as they are. -/
def TypesAsRead (printable : Char → Bool) (f : CanonicalSchema → CanonicalSchema)
    (o n : Option Json) : Prop :=
  ∀ v ∈ o, ∀ w ∈ n, marker v ≠ marker w →
    (typeOf printable (jsonb (marker v)) = typeOf printable (f (marker w)) ↔
      typeName printable v = typeName printable w)

/-- The class of a path where the rules see the types as they are. -/
theorem classify_asRead {f : CanonicalSchema → CanonicalSchema} (hf : AsRead f) {o n : Option Json}
    (ho : ∀ v ∈ o, v.UniqueKeys) (hn : ∀ w ∈ n, w.UniqueKeys) (htype : TypesAsRead printable f o n)
    (hdiffer : sameNode (o.map marker) (n.map marker) = false) :
    (classify printable (o.map fun v => jsonb (marker v)) (n.map fun w => f (marker w))).map
        Prod.fst = (classify printable (o.map marker) (n.map marker)).map Prod.fst := by
  refine classify_class hf ho hn fun v hv w hw => htype v hv w hw fun heq => ?_
  have hsame := (sameNode_marker (ho v hv) (hn w hw)).mpr heq
  rw [Option.mem_def.mp hv, Option.mem_def.mp hw] at hdiffer
  rw [show sameNode (some (marker v)) (some (marker w)) = false from hdiffer] at hsame
  cases hsame

/-- **Verdicts without misread types.** Comparing a stored schema with one that is, or is not,
stored has the verdict of the payloads where the rules see the types at each path as they are. -/
theorem verdict_asRead {f : CanonicalSchema → CanonicalSchema} (hf : AsRead f)
    (htype : ∀ path, TypesAsRead printable f (shown p.json path) (shown q.json path)) :
    (diffAndClassify printable (jsonb (canonicalize p.json)) (f (canonicalize q.json))).map
      summarizeClassification = verdict printable p q := by
  have hp := p.uniqueKeys
  have hq := q.uniqueKeys
  refine map_summarizeClassification ?_
  rw [diffAndClassify, diffAndClassify, allPaths_asRead hf]
  refine diffPaths_classes fun path _ => ?_
  rw [lastBinding_asRead (.inr rfl), lastBinding_asRead hf, lastBinding_flatten hp,
    lastBinding_flatten hq]
  exact ⟨sameNode_asRead hf fun w => shown_uniqueKeys hq, classify_asRead hf
    (fun v => shown_uniqueKeys hp) (fun w => shown_uniqueKeys hq) (htype path)⟩

/-- **Two stored schemas** have the verdict of their payloads. -/
theorem verdict_stored :
    (diffAndClassify printable (jsonb (canonicalize p.json)) (jsonb (canonicalize q.json))).map
      summarizeClassification = verdict printable p q :=
  verdict_asRead (.inr rfl) fun _ _ hv _ hw _ =>
    stored_types_eq (shown_uniqueKeys p.uniqueKeys hv) (shown_uniqueKeys q.uniqueKeys hw)

/-- Comparing with a stored schema finds no difference exactly when comparing with the schema itself
finds none. -/
theorem reread_eq_nil :
    diffAndClassify printable (jsonb (canonicalize p.json)) (canonicalize q.json) = .ok [] ↔
      diffAndClassify printable (canonicalize p.json) (canonicalize q.json) = .ok [] := by
  have hq := q.uniqueKeys
  rw [diffAndClassify, diffAndClassify, diffPaths_eq_nil, diffPaths_eq_nil,
    show allPaths (flatten (jsonb (canonicalize p.json)) "") (flatten (canonicalize q.json) "") = _
      from allPaths_asRead (.inl rfl) p q]
  refine forall₂_congr fun path _ => ?_
  rw [lastBinding_asRead (.inr rfl), lastBinding_flatten p.uniqueKeys, lastBinding_flatten hq,
    ← sameNode_asRead (.inl rfl) fun w => shown_uniqueKeys hq]
  rfl

/-- Where a path is not misread, the rules see the types of a stored schema as they are. -/
theorem typesAsRead_of_not_misreadAt {o n : Option Json} (ho : ∀ v ∈ o, v.UniqueKeys)
    (hn : ∀ w ∈ n, w.UniqueKeys) (h : ¬MisreadAt o n) : TypesAsRead printable id o n := by
  intro v hv w hw hdiffer
  rw [Option.mem_def.mp hv, Option.mem_def.mp hw] at h
  refine (reread_types_eq (ho v hv) (hn w hw)).trans (and_iff_left_of_imp ?_)
  intro htype hreordered
  exact h ((@misread_iff printable _ _ (ho v hv) (hn w hw)).mpr
    ⟨hdiffer, htype, hreordered⟩)

/-- Where a path is misread, the rules see another type. -/
theorem classify_misread {v w : Json} (hv : v.UniqueKeys) (hw : w.UniqueKeys) (h : Misread v w) :
    sameNode (some (jsonb (marker v))) (some (marker w)) = false ∧ ∃ reason,
      classify printable (some (jsonb (marker v))) (some (marker w)) = .ok (.breaking, reason) := by
  obtain ⟨hdiffer, -, hreordered⟩ := (@misread_iff printable _ _ hv hw).mp h
  have hnode : sameNode (some (jsonb (marker v))) (some (marker w)) = false := by
    rw [Bool.eq_false_iff]
    intro hsame
    have hsame : pyEq (marker v) (marker w) = true := by
      rw [← pyEq_jsonb_left]
      exact hsame
    exact hdiffer ((sameNode_marker hv hw).mp hsame)
  have htype : typeOf printable (jsonb (marker v)) ≠ typeOf printable (marker w) :=
    fun h => ((reread_types_eq hv hw).mp h).2 hreordered
  refine ⟨hnode, classifyChange_of_type_ne htype ?_⟩
  rintro ⟨-, hnumber⟩
  obtain ⟨t, ht, -⟩ := hreordered
  have hplain : typeName printable w ∈ plainNames := by
    rw [show typeName printable w = "number" from hnumber]
    decide
  rw [typeName_of_get? hw ht] at hplain
  exact (repr_not_plain t).1 hplain

/-- **A stored schema and another one** have the verdict of their payloads if no path is misread. -/
theorem verdict_reread (h : ∀ path, ¬MisreadAt (shown p.json path) (shown q.json path)) :
    (diffAndClassify printable (jsonb (canonicalize p.json)) (canonicalize q.json)).map
      summarizeClassification = verdict printable p q :=
  verdict_asRead (.inl rfl) fun path => typesAsRead_of_not_misreadAt
    (fun _ => shown_uniqueKeys p.uniqueKeys) (fun _ => shown_uniqueKeys q.uniqueKeys) (h path)

/-- **Otherwise** the verdict is BREAKING. -/
theorem verdict_misread {path : String} (h : MisreadAt (shown p.json path) (shown q.json path))
    {ds : List DiffItem} (hds : diffAndClassify printable (jsonb (canonicalize p.json))
      (canonicalize q.json) = .ok ds) : summarizeClassification ds = .breaking := by
  have hp := p.uniqueKeys
  have hq := q.uniqueKeys
  obtain ⟨v, w, hv, hw, h⟩ := misreadAt_iff.mp h
  have hold := lastBinding_asRead (.inr rfl) p path
  have hnew := lastBinding_flatten hq path
  rw [hv, Option.map_some] at hold
  rw [hw, Option.map_some] at hnew
  rw [summarizeClassification_breaking, mem_diffPaths hds]
  refine ⟨path, mem_allPaths.mpr (.inl ?_), ?_⟩
  · exact List.mem_map_of_mem (mem_of_lastBinding hold)
  · rw [hold, hnew]
    exact classify_misread (shown_uniqueKeys hp hv) (shown_uniqueKeys hq hw) h

/-- **Raising at a path** of a stored schema. The rules raise on differing nodes exactly when what
they show clashes, and is not misread. -/
theorem classify_reread_ok {o n : Option Json} (ho : ∀ v ∈ o, v.UniqueKeys)
    (hn : ∀ w ∈ n, w.UniqueKeys) :
    (sameNode (o.map fun v => jsonb (marker v)) (n.map marker) = false →
      ∃ r, classify printable (o.map fun v => jsonb (marker v)) (n.map marker) = .ok r) ↔
      (ClashAt printable o n → MisreadAt o n) := by
  by_cases h : MisreadAt o n
  · refine iff_of_true (fun _ => ?_) fun _ => h
    obtain ⟨v, w, rfl, rfl, h⟩ := misreadAt_iff.mp h
    obtain ⟨-, reason, hr⟩ := classify_misread (ho v rfl) (hn w rfl) h
    exact ⟨_, hr⟩
  · have hsame : sameNode (o.map fun v => jsonb (marker v)) (n.map marker) =
        sameNode (o.map marker) (n.map marker) := sameNode_asRead (.inl rfl) hn
    rw [imp_iff_not h, ← classify_ok ho hn, hsame]
    exact imp_congr_right fun hdiffer => exists_ok_congr
      (classify_asRead (.inl rfl) ho hn (typesAsRead_of_not_misreadAt ho hn h) hdiffer)

/-- **When a comparison with a stored schema returns.** It raises exactly when what some path shows
clashes, and is not misread. -/
theorem reread_ok :
    (∃ ds, diffAndClassify printable (jsonb (canonicalize p.json)) (canonicalize q.json) = .ok ds) ↔
      ∀ path, ClashAt printable (shown p.json path) (shown q.json path) →
        MisreadAt (shown p.json path) (shown q.json path) := by
  have hpath : ∀ path, _ ↔ (ClashAt printable (shown p.json path) (shown q.json path) →
      MisreadAt (shown p.json path) (shown q.json path)) := fun path => classify_reread_ok
    (fun _ => shown_uniqueKeys p.uniqueKeys) fun _ => shown_uniqueKeys q.uniqueKeys
  rw [diffAndClassify, diffPaths_ok]
  simp only [← hpath, ← lastBinding_flatten q.uniqueKeys, ← lastBinding_asRead (.inr rfl) p]
  refine ⟨fun h path hdiffer => h path ?_ hdiffer, fun h path _ => h path⟩
  by_contra hm
  rw [sameNode_of_notMem hm] at hdiffer
  cases hdiffer

/-- **The label of a new version.** Its comparison with a stored schema has found a verdict. That is
the verdict on the payloads unless some path is misread and nothing breaks. -/
theorem reread_verdict_iff {ds : List DiffItem} (hds : diffAndClassify printable
      (jsonb (canonicalize p.json)) (canonicalize q.json) = .ok ds) :
    verdict printable p q = .ok (summarizeClassification ds) ↔
      (∀ path, ¬MisreadAt (shown p.json path) (shown q.json path)) ∨
        verdict printable p q = .ok .breaking := by
  by_cases h : ∀ path, ¬MisreadAt (shown p.json path) (shown q.json path)
  · rw [← verdict_reread h, hds]
    exact iff_of_true rfl (.inl h)
  · obtain ⟨path, hpath⟩ := not_forall_not.mp h
    rw [verdict_misread hpath hds]
    exact (or_iff_right h).symm

/-- The label that was found before the new schema was stored is that of comparing both as they are
stored, unless some path is misread and nothing breaks. -/
theorem stored_label_iff {ds : List DiffItem} (hds : diffAndClassify printable
      (jsonb (canonicalize p.json)) (canonicalize q.json) = .ok ds) :
    (∃ diffs, diffAndClassify printable (jsonb (canonicalize p.json))
        (jsonb (canonicalize q.json)) = .ok diffs ∧
        (summarizeClassification ds).name = (summarizeClassification diffs).name) ↔
      (∀ path, ¬MisreadAt (shown p.json path) (shown q.json path)) ∨
        (∀ path, ¬ClashAt printable (shown p.json path) (shown q.json path)) ∧
          ∃ path, BreaksAt printable (shown p.json path) (shown q.json path) := by
  rw [← verdict_breaking, ← reread_verdict_iff hds, ← verdict_stored, map_eq_ok]
  refine exists_congr fun diffs => and_congr_right fun _ => ?_
  exact ⟨fun h => (Compatibility.name_injective h).symm,
    fun h => congrArg Compatibility.name h.symm⟩

end Verdicts

end Driftgate.Runtime
