import Driftgate.Core.TwoEngines
import Driftgate.Core.Parser
import Mathlib.Data.Set.Card

/-!
# Payloads with one fingerprint as baselines

Of the payloads that share a fingerprint the legacy tables keep the one that came first, and later
payloads are compared with that one. The fingerprint is about the set of scalar types and the
sorted structures of an array, the comparison about its positions, so that two payloads with one
fingerprint can be told apart by it.

They are not told apart exactly when they have leaves at the same path strings, and leaves of the
same primitive type wherever one of them has a primitive type (`same_severities_iff`).
-/

namespace Driftgate.Core

open Driftgate.Lib Driftgate.Schema

/-! ### Numbers of items -/

/-- The number of items with a severity that a comparison with a baseline gives. -/
def severities (baseline incoming : Payload) (severity : Severity) : ℕ :=
  (classifyContractDrift (structuralDiff (normalizeTypes baseline.json)
    (normalizeTypes incoming.json))).countP fun d => d.severity = some severity

/-- What the severity of a difference says of the two leaves. -/
def SeverityAt : Severity → Option Json → Option Json → Prop
  | .safe, o, n => o = none ∧ n ≠ none
  | .risky, o, n => o.bind Json.kind = some .integer ∧ n.bind Json.kind = some .number
  | .breaking, o, n => LeafBreaksAt o n

/-- Both leaves are there and of one kind, or both are missing. -/
theorem map_leafName_eq_iff {o n : Option Json} :
    o.map leafName = n.map leafName ↔ o.map Json.kind = n.map Json.kind := by
  cases o <;> cases n <;> simp [leafName_eq_iff]

/-- A difference with a severity is a difference. -/
theorem SeverityAt.ne {s : Severity} {o n : Option Json} (h : SeverityAt s o n) :
    o.map leafName ≠ n.map leafName := by
  rw [Ne, map_leafName_eq_iff]
  intro he
  cases s with
  | safe =>
    obtain ⟨ho, hn⟩ := h
    rw [ho, Option.map_none, eq_comm, Option.map_eq_none_iff] at he
    exact hn he
  | risky =>
    obtain ⟨ho, hn⟩ := h
    cases o with
    | none => cases ho
    | some v =>
      cases n with
      | none => cases hn
      | some w =>
        have hkind : v.kind = w.kind := Option.some.inj he
        rw [Option.bind_some] at ho hn
        rw [ho, hn] at hkind
        cases hkind
  | breaking =>
    cases o with
    | none => exact h
    | some v =>
      cases n with
      | none => cases he
      | some w => exact h.2.1 (Option.some.inj he)

/-- The severity of a leaf that has changed its kind. -/
theorem classifyItem_changed (path : String) {v w : Json} (hne : leafName v ≠ leafName w) :
    (classifyItem ⟨path, some (leafName v), some (leafName w), none⟩).severity =
      if leafName v ∈ primitiveTypes ∧ leafName w ∈ primitiveTypes then
        if leafName v = "int" ∧ leafName w = "float" then some .risky else some .breaking
      else none := by
  by_cases hp : leafName v ∈ primitiveTypes ∧ leafName w ∈ primitiveTypes
  · simp only [classifyItem, classifySafe, reduceCtorEq, false_and, ↓reduceIte, classifyRisky, hp,
      hne, ne_eq, not_true_eq_false, not_false_eq_true, and_self, ite_self]
    split_ifs <;> simp [classifyBreaking]
  · rw [if_neg hp]
    refine (classifyItem_severity_none rfl fun h => hne (Option.some.inj h)).mpr
      ⟨_, _, rfl, rfl, hp, ?_⟩
    rw [requiredOld_leafName]
    intro he
    cases he

/-- The severity of a difference. -/
theorem classifyItem_severity (path : String) {o n : Option Json} (s : Severity)
    (hne : o.map leafName ≠ n.map leafName) :
    (classifyItem ⟨path, o.map leafName, n.map leafName, none⟩).severity = some s ↔
      SeverityAt s o n := by
  cases s with
  | breaking => exact classifyItem_breaking path hne
  | safe =>
    cases o with
    | none =>
      cases n with
      | none => exact absurd rfl hne
      | some w => simp [SeverityAt, classifyItem, classifySafe, classifyRisky, classifyBreaking]
    | some v =>
      cases n with
      | none => simp [SeverityAt, classifyItem, classifySafe, classifyRisky, classifyBreaking]
      | some w =>
        have hchanged := classifyItem_changed path fun h => hne (congrArg some h)
        refine iff_of_false (fun h => ?_) fun h => Option.some_ne_none v h.1
        rw [Option.map_some, Option.map_some, hchanged] at h
        split_ifs at h <;> cases h
  | risky =>
    cases o with
    | none =>
      cases n with
      | none => exact absurd rfl hne
      | some w => simp [SeverityAt, classifyItem, classifySafe, classifyRisky, classifyBreaking]
    | some v =>
      cases n with
      | none => simp [SeverityAt, classifyItem, classifySafe, classifyRisky, classifyBreaking]
      | some w =>
        have hchanged := classifyItem_changed path fun h => hne (congrArg some h)
        have hint : leafName v = "int" ↔ v.kind = some .integer :=
          leafName_eq_primitiveType (k := .integer)
        have hfloat : leafName w = "float" ↔ w.kind = some .number :=
          leafName_eq_primitiveType (k := .number)
        rw [Option.map_some, Option.map_some, hchanged, SeverityAt, Option.bind_some,
          Option.bind_some, ← hint, ← hfloat]
        constructor
        · intro h
          by_contra hrisky
          rw [if_neg hrisky] at h
          split_ifs at h
          cases h
        · intro h
          have hp : leafName v ∈ primitiveTypes ∧ leafName w ∈ primitiveTypes := by
            rw [h.1, h.2]
            exact ⟨by decide, by decide⟩
          rw [if_pos hp, if_pos h]

/-- The path strings of the items with a severity. -/
def severityPaths (s : Severity) (p q : Json) : Set String :=
  {path | SeverityAt s (leafAt p path) (leafAt q path)}

/-- A difference is determined by its path string. -/
theorem eq_of_mem_structuralDiff {p q : Json} {d : DiffItem}
    (hd : d ∈ structuralDiff (normalizeTypes p) (normalizeTypes q)) :
    d = ⟨d.path, (leafAt p d.path).map leafName, (leafAt q d.path).map leafName, none⟩ := by
  obtain ⟨hs, ho, hn, -⟩ := mem_structuralDiff.mp hd
  rw [← hs, ← ho, ← hn]

/-- No path string has two differences. -/
theorem nodup_structuralDiff_path (p q : Json) :
    ((structuralDiff (normalizeTypes p) (normalizeTypes q)).map DiffItem.path).Nodup := by
  have hitems : (structuralDiff (normalizeTypes p) (normalizeTypes q)).Nodup := by
    have hpaths : (flatPaths (flattenSchema (normalizeTypes p) "")
        (flattenSchema (normalizeTypes q) "")).Nodup :=
      (List.perm_insertionSort _ _).nodup_iff.mpr (List.nodup_dedup _)
    refine List.Nodup.filterMap (fun path path' d hd hd' => ?_) hpaths
    simp only [Option.mem_def, Option.ite_none_left_eq_some, Option.some.injEq] at hd hd'
    exact (congrArg DiffItem.path hd.2).trans (congrArg DiffItem.path hd'.2).symm
  refine hitems.map_on fun d hd d' hd' hpath => ?_
  rw [eq_of_mem_structuralDiff hd, eq_of_mem_structuralDiff hd', hpath]

/-- The items with a severity, as the set of their path strings. -/
theorem mem_severityItems {p q : Json} {s : Severity} {path : String} :
    path ∈ ((classifyContractDrift (structuralDiff (normalizeTypes p) (normalizeTypes q))).filter
      fun d => d.severity = some s).map DiffItem.path ↔ path ∈ severityPaths s p q := by
  rw [classifyContractDrift_eq, List.filter_map, List.map_map, List.mem_map]
  constructor
  · rintro ⟨d, hd, rfl⟩
    obtain ⟨hd, hsev⟩ := List.mem_filter.mp hd
    obtain ⟨-, ho, hn, hne⟩ := mem_structuralDiff.mp hd
    rw [Function.comp_apply, decide_eq_true_eq, eq_of_mem_structuralDiff hd,
      classifyItem_severity d.path s (by rw [← ho, ← hn]; exact hne)] at hsev
    rw [Function.comp_apply, (classifyItem_fields d).1]
    exact hsev
  · intro h
    have hne := SeverityAt.ne h
    refine ⟨⟨path, (leafAt p path).map leafName, (leafAt q path).map leafName, none⟩, ?_, ?_⟩
    · refine List.mem_filter.mpr ⟨mem_structuralDiff.mpr ⟨rfl, rfl, rfl, hne⟩, ?_⟩
      rw [Function.comp_apply, decide_eq_true_eq, classifyItem_severity path s hne]
      exact h
    · exact (classifyItem_fields _).1

/-- **The numbers of a comparison count path strings.** -/
theorem severities_eq_ncard (p q : Payload) (s : Severity) :
    severities p q s = (severityPaths s p.json q.json).ncard := by
  have hset : severityPaths s p.json q.json = ↑(((classifyContractDrift (structuralDiff
      (normalizeTypes p.json) (normalizeTypes q.json))).filter fun d =>
        d.severity = some s).map DiffItem.path).toFinset := by
    ext path
    rw [List.coe_toFinset, Set.mem_ofPred_eq, mem_severityItems]
  have hpaths : ((classifyContractDrift (structuralDiff (normalizeTypes p.json)
      (normalizeTypes q.json))).map DiffItem.path).Nodup := by
    rw [classifyContractDrift_eq, List.map_map]
    have hpath : DiffItem.path ∘ classifyItem = DiffItem.path :=
      funext fun d => (classifyItem_fields d).1
    rw [hpath]
    exact nodup_structuralDiff_path p.json q.json
  have hnodup := hpaths.sublist ((List.filter_sublist (p := fun d : DiffItem =>
    decide (d.severity = some s))).map DiffItem.path)
  rw [hset, Set.ncard_coe_finset, List.toFinset_card_of_nodup hnodup, List.length_map, severities,
    List.countP_eq_length_filter]

/-! ### Baselines that cannot be told apart -/

/-- The leaves are both there or both missing, and of one primitive type if one of them has a
primitive type. -/
def SameLeaf (o o' : Option Json) : Prop :=
  (o = none ↔ o' = none) ∧
    ∀ k, k ≠ .null → (o.bind Json.kind = some k ↔ o'.bind Json.kind = some k)

/-- A leaf that breaks, of which only the primitive type matters. -/
theorem leafBreaksAt_iff {o : Option Json} {n : Option Json} : LeafBreaksAt o n ↔
    o ≠ none ∧ (n = none ∨ ∃ k k', k ≠ .null ∧ k' ≠ .null ∧ o.bind Json.kind = some k ∧
      n.bind Json.kind = some k' ∧ k ≠ k' ∧ ¬(k = .integer ∧ k' = .number)) := by
  cases o with
  | none => simp [LeafBreaksAt]
  | some v =>
    cases n with
    | none => simp [LeafBreaksAt]
    | some w =>
      simp only [LeafBreaksAt, Primitive, ne_eq, reduceCtorEq, not_false_eq_true, true_and,
        false_or, Option.bind_some]
      constructor
      · rintro ⟨⟨⟨k, hv, hk⟩, k', hw, hk'⟩, hne, hwide⟩
        rw [hv, hw] at hne hwide
        exact ⟨k, k', hk, hk', hv, hw, fun h => hne (congrArg some h),
          fun h => hwide ⟨congrArg some h.1, congrArg some h.2⟩⟩
      · rintro ⟨k, k', hk, hk', hv, hw, hne, hwide⟩
        refine ⟨⟨⟨k, hv, hk⟩, k', hw, hk'⟩, ?_, ?_⟩
        · rw [hv, hw]
          exact fun h => hne (Option.some.inj h)
        · rw [hv, hw]
          exact fun h => hwide ⟨Option.some.inj h.1, Option.some.inj h.2⟩

/-- Leaves that are the same in this sense get the same severity. -/
theorem SameLeaf.severityAt_iff {o o' : Option Json} (h : SameLeaf o o') (s : Severity)
    (n : Option Json) : SeverityAt s o n ↔ SeverityAt s o' n := by
  cases s with
  | safe =>
    show o = none ∧ _ ↔ o' = none ∧ _
    rw [h.1]
  | risky =>
    show _ = some Kind.integer ∧ _ ↔ _ = some Kind.integer ∧ _
    rw [h.2 .integer (by decide)]
  | breaking =>
    show LeafBreaksAt o n ↔ LeafBreaksAt o' n
    rw [leafBreaksAt_iff, leafBreaksAt_iff, Ne, Ne, h.1]
    refine and_congr_right fun _ => or_congr_right ?_
    refine exists_congr fun k => exists_congr fun k' => and_congr_right fun hk => ?_
    rw [h.2 k hk]

/-- Whether a primitive type breaks when it becomes another. -/
def BreaksTo (x : Option Kind) (k' : Kind) : Prop :=
  ∃ k, k ≠ .null ∧ x = some k ∧ k ≠ k' ∧ ¬(k = .integer ∧ k' = .number)

theorem leafBreaksAt_some_iff {o : Option Json} {w : Json} {k' : Kind} (hw : w.kind = some k')
    (hk' : k' ≠ .null) : LeafBreaksAt o (some w) ↔ BreaksTo (o.bind Json.kind) k' := by
  rw [leafBreaksAt_iff, BreaksTo]
  constructor
  · rintro ⟨-, h | ⟨k, k'', hk, -, ho, hn, hne, hwide⟩⟩
    · cases h
    · rw [Option.bind_some, hw, Option.some.injEq] at hn
      subst hn
      exact ⟨k, hk, ho, hne, hwide⟩
  · rintro ⟨k, hk, ho, hne, hwide⟩
    refine ⟨?_, .inr ⟨k, k', hk, hk', ho, hw, hne, hwide⟩⟩
    rintro rfl
    cases ho

/-- The changes that break tell which primitive type there was. -/
theorem eq_of_breaksTo {x x' : Option Kind}
    (h : ∀ k', k' ≠ .null → (BreaksTo x k' ↔ BreaksTo x' k')) {k : Kind} (hk : k ≠ .null) :
    x = some k → x' = some k := by
  rintro rfl
  -- a change to a fourth type breaks, and a change to the same type does not
  have hself : ¬BreaksTo x' k := fun hx => by
    obtain ⟨k', -, he, hne, -⟩ := (h k hk).mpr hx
    exact hne (Option.some.inj he).symm
  have hother : ∃ k'', BreaksTo x' k'' := by
    by_cases hstr : k = .string
    · subst hstr
      exact ⟨.integer, (h .integer (by decide)).mp ⟨.string, by decide, rfl, by decide, by decide⟩⟩
    · exact ⟨.string, (h .string (by decide)).mp ⟨k, hk, rfl, hstr, by simp⟩⟩
  obtain ⟨-, k', hk', rfl, -, -⟩ := hother
  by_contra hne
  -- then only the widening of an integer does not break, and narrowing it back does
  have hwide : k' = .integer ∧ k = .number := by
    by_contra hwide
    exact hself ⟨k', hk', rfl, fun he => hne (congrArg some he), hwide⟩
  obtain ⟨rfl, rfl⟩ := hwide
  obtain ⟨k'', -, he, hself', -⟩ := (h .integer (by decide)).mp
    ⟨.number, by decide, rfl, by decide, by decide⟩
  exact hself' (Option.some.inj he).symm

/-- The scalars of the four primitive types tell leaves apart that are not the same. -/
theorem sameLeaf_of_leafBreaksAt {o o' : Option Json} (hnone : o = none ↔ o' = none)
    (h : ∀ w k, w.kind = some k → (LeafBreaksAt o (some w) ↔ LeafBreaksAt o' (some w))) :
    SameLeaf o o' := by
  have hbreaks : ∀ k', k' ≠ .null →
      (BreaksTo (o.bind Json.kind) k' ↔ BreaksTo (o'.bind Json.kind) k') := by
    intro k' hk'
    obtain ⟨w, hw⟩ : ∃ w : Json, w.kind = some k' := by
      cases k' with
      | null => exact ⟨.null, rfl⟩
      | boolean => exact ⟨.bool false, rfl⟩
      | integer => exact ⟨.int 0, rfl⟩
      | number => exact ⟨.float 0, rfl⟩
      | string => exact ⟨.str "", rfl⟩
    rw [← leafBreaksAt_some_iff hw hk', ← leafBreaksAt_some_iff hw hk']
    exact h w k' hw
  exact ⟨hnone, fun k hk => ⟨eq_of_breaksTo hbreaks hk,
    eq_of_breaksTo (fun k' hk' => (hbreaks k' hk').symm) hk⟩⟩

/-- What a payload with one scalar member shows. -/
theorem leafAt_single {v : Json} {k : Kind} (hv : v.kind = some k) (key path : String) :
    leafAt (.obj [(key, v)]) path = if key = path then some v else none := by
  have hleaves : leaves v = [([], v)] := by
    cases v <;> simp_all [leaves, Json.kind]
  have hkey : flatPathFrom "" [.key key] = key := by simp [flatPathFrom, keyPath]
  have hsingle : leaves (.obj [(key, v)]) = [([.key key], v)] := by
    rw [leaves, leavesMembers_eq, List.map_cons, List.map_nil, hleaves]
    rfl
  rw [leafAt, hsingle, List.map_cons, List.map_nil, hkey, lastBinding_cons, lastBinding_nil,
    Option.none_or]

/-- A payload with one scalar member. -/
def singleMember (key : String) (v : Json) (hv : v.kind ≠ none) : Payload :=
  ⟨[(key, v)], by cases v <;> simp_all [Json.UniqueKeys, UniqueKeysMembers, Json.kind]⟩

/-- A payload has finitely many leaves. -/
theorem finite_leafAt (v : Json) : {path | leafAt v path ≠ none}.Finite := by
  refine (List.finite_toSet (((leaves v).map fun e => (flatPathFrom "" e.1, e.2)).map
    Prod.fst)).subset fun path h => ?_
  by_contra hc
  exact h (lastBinding_eq_none.mpr hc)

/-- A set with one more element or not. -/
theorem ncard_union_at_iff {α : Type*} {B : Set α} (hB : B.Finite) {a : α} (ha : a ∉ B)
    (P Q : Prop) :
    (B ∪ {x | x = a ∧ P}).ncard = (B ∪ {x | x = a ∧ Q}).ncard ↔ (P ↔ Q) := by
  have hinsert : (insert a B).ncard = B.ncard + 1 := Set.ncard_insert_of_notMem ha hB
  by_cases hP : P
  · by_cases hQ : Q
    · simp [hP, hQ]
    · simp [hP, hQ, hinsert]
  · by_cases hQ : Q
    · simp [hP, hQ, hinsert]
    · simp [hP, hQ]

/-- What a comparison with a single member gives as SAFE. -/
theorem severityPaths_safe_single {v w : Json} {k : Kind} (hw : w.kind = some k) (key : String) :
    severityPaths .safe v (.obj [(key, w)]) = {path | path = key ∧ leafAt v key = none} := by
  ext path
  rw [severityPaths, Set.mem_ofPred_eq, Set.mem_ofPred_eq, leafAt_single hw, SeverityAt]
  by_cases hkey : key = path
  · subst hkey
    simp
  · simp [hkey, Ne.symm hkey]

/-- And what it gives as BREAKING: every leaf elsewhere, and the one at the member if it breaks. -/
theorem severityPaths_breaking_single {v w : Json} {k : Kind} (hw : w.kind = some k)
    (key : String) : severityPaths .breaking v (.obj [(key, w)]) =
      {path | leafAt v path ≠ none} \ {key} ∪
        {path | path = key ∧ LeafBreaksAt (leafAt v key) (some w)} := by
  ext path
  rw [severityPaths, Set.mem_ofPred_eq, Set.mem_union, Set.mem_sdiff, Set.mem_ofPred_eq,
    Set.mem_ofPred_eq, Set.mem_singleton_iff, leafAt_single hw, SeverityAt]
  by_cases hkey : key = path
  · subst hkey
    simp
  · rw [if_neg hkey]
    cases leafAt v path <;> simp [LeafBreaksAt, Ne.symm hkey]

/-- **Which payload came first.** Of two payloads with one fingerprint it makes no difference which
one is the baseline, whatever it is compared with, exactly when they have the same leaves: at the
same path strings, and of the same primitive types. -/
theorem same_severities_iff (cfg : Runtime.Config) (p p' : Payload) :
    (cfg.fingerprintSchema p = cfg.fingerprintSchema p' →
      ∀ q s, severities p q s = severities p' q s) ↔
    (cfg.fingerprintSchema p = cfg.fingerprintSchema p' →
      ∀ path, SameLeaf (leafAt p.json path) (leafAt p'.json path)) := by
  refine imp_congr_right fun _ => ⟨fun h => ?_, fun h q s => ?_⟩
  · -- a null under the key of a path string is SAFE where the baseline has nothing
    have hnone : ∀ path, leafAt p.json path = none ↔ leafAt p'.json path = none := by
      intro path
      have hsafe := h (singleMember path .null (by simp [Json.kind])) .safe
      rw [severities_eq_ncard, severities_eq_ncard] at hsafe
      change (severityPaths .safe p.json (.obj [(path, .null)])).ncard =
        (severityPaths .safe p'.json (.obj [(path, .null)])).ncard at hsafe
      rw [severityPaths_safe_single rfl, severityPaths_safe_single rfl] at hsafe
      refine (ncard_union_at_iff Set.finite_empty (Set.notMem_empty path) _ _).mp ?_
      rw [Set.empty_union, Set.empty_union]
      exact hsafe
    have hsame : {path | leafAt p.json path ≠ none} = {path | leafAt p'.json path ≠ none} := by
      ext path
      exact not_congr (hnone path)
    refine fun path => sameLeaf_of_leafBreaksAt (hnone path) fun w k hw => ?_
    have hbreaking := h (singleMember path w (by rw [hw]; exact Option.some_ne_none k)) .breaking
    rw [severities_eq_ncard, severities_eq_ncard] at hbreaking
    change (severityPaths .breaking p.json (.obj [(path, w)])).ncard =
      (severityPaths .breaking p'.json (.obj [(path, w)])).ncard at hbreaking
    rw [severityPaths_breaking_single hw, severityPaths_breaking_single hw, ← hsame] at hbreaking
    have hmem : path ∉ {path | leafAt p.json path ≠ none} \ {path} := fun hmem => hmem.2 rfl
    exact (ncard_union_at_iff ((finite_leafAt p.json).subset Set.sdiff_subset) hmem _ _).mp
      hbreaking
  · rw [severities_eq_ncard, severities_eq_ncard]
    have hset : severityPaths s p.json q.json = severityPaths s p'.json q.json := by
      ext path
      exact (h path).severityAt_iff s _
    rw [hset]

/-- A list of two numbers and a list of one have one fingerprint. With the longer one as baseline a
list of one number has lost its second element, which is BREAKING. -/
theorem first_stored_matters : ¬∀ (cfg : Runtime.Config) (p p' q : Payload),
    cfg.fingerprintSchema p = cfg.fingerprintSchema p' →
      ∀ s, severities p q s = severities p' q s := by
  intro h
  have heq := h ⟨id, id, fun _ => false, false⟩
    ⟨[("a", .arr [.int 1, .int 2])], by simp [Json.UniqueKeys, UniqueKeysMembers, UniqueKeysItems]⟩
    ⟨[("a", .arr [.int 1])], by simp [Json.UniqueKeys, UniqueKeysMembers, UniqueKeysItems]⟩
    ⟨[("a", .arr [.int 1]), ("b", .int 1)], by
      simp [Json.UniqueKeys, UniqueKeysMembers, UniqueKeysItems]⟩ (by decide) .breaking
  exact absurd heq (by decide)

end Driftgate.Core
