import Driftgate.Schema.EmptyDiff

/-!
# Changes one after the other

Where no object has a member named `type`, every node that the classifier compares is a scalar or
the marker of an array, and is known by its type name. At a path it finds one of four things:
nothing changed, a value was added, an integer was widened, or something broke. What happens over
two steps is then never worse than the worse of the two: a value that is gone at the end, or has
another type, is so after one of the steps. So the verdict on two payloads is bounded by the
verdicts on any payloads in between.

With members named `type` this fails: such an object counts as one node, whose nullability is that
of its member `nullable`, and a step may take that member away and the next one bring it back.
-/

namespace Driftgate.Schema

open Driftgate.Lib

/-! ### The verdict as a maximum -/

theorem foldl_worst_rank_le {n : ℕ} {ds : List DiffItem} {worst : Compatibility} :
    (ds.foldl
      (fun worst d => if worst.rank < d.classification.rank then d.classification else worst)
      worst).rank ≤ n ↔ worst.rank ≤ n ∧ ∀ d ∈ ds, d.classification.rank ≤ n := by
  induction ds generalizing worst with
  | nil => simp
  | cons d ds ih =>
    rw [List.foldl_cons, ih, List.forall_mem_cons, ← and_assoc]
    refine and_congr_left fun _ => ?_
    split
    next hlt => exact ⟨fun h => ⟨Nat.le_trans (Nat.le_of_lt hlt) h, h⟩, fun h => h.2⟩
    next hge => exact ⟨fun h => ⟨h, Nat.le_trans (Nat.le_of_not_lt hge) h⟩, fun h => h.1⟩

/-- The verdict is the maximum of the classifications. -/
theorem summarizeClassification_rank_le {n : ℕ} {ds : List DiffItem} :
    (summarizeClassification ds).rank ≤ n ↔ ∀ d ∈ ds, d.classification.rank ≤ n := by
  cases ds with
  | nil => exact iff_of_true (Nat.zero_le n) (by simp)
  | cons d ds => rw [summarizeClassification, foldl_worst_rank_le, List.forall_mem_cons]

/-! ### Values without members named `type` -/

/-- No object of the document has a member named `type`. -/
def Json.NoTypeKey (v : Json) : Prop :=
  ∀ ℓ members, v.at ℓ = some (.obj members) → members.lookup "type" = none

/-- An object of scalars has no such member below its own. -/
theorem Json.NoTypeKey.of_scalars {members : List (String × Json)}
    (ht : members.lookup "type" = none) (hscalars : ∀ e ∈ members, ∃ k, e.2.kind = some k) :
    (Json.obj members).NoTypeKey := by
  intro ℓ members' h
  cases ℓ with
  | nil =>
    rw [Json.at_nil, Option.some.injEq, Json.obj.injEq] at h
    exact h ▸ ht
  | cons s ℓ =>
    rw [Json.at_cons, Option.bind_eq_some_iff] at h
    obtain ⟨v, hv, hat⟩ := h
    cases s with
    | index i => cases hv
    | key name =>
      obtain ⟨k, hk⟩ := hscalars (name, v) (mem_of_lookup hv)
      cases ℓ with
      | nil =>
        rw [Json.at_nil, Option.some.injEq] at hat
        rw [hat] at hk
        cases hk
      | cons s' ℓ' =>
        rw [Json.at_cons, Json.child_scalar hk] at hat
        cases hat

/-- A scalar or an array. -/
def Json.Solid (v : Json) : Prop := ∀ members, v ≠ .obj members

theorem solid_of_shown {v w : Json} (hu : v.UniqueKeys) (ht : v.NoTypeKey) {path : String}
    (h : shown v path = some w) : w.Solid := by
  obtain ⟨e, he, heq⟩ := List.mem_map.mp (mem_of_lastBinding h)
  obtain ⟨-, rfl⟩ := Prod.mk.inj heq
  obtain ⟨hat, harray⟩ := at_of_mem_visible hu he
  rintro members hobj
  rw [hobj] at hat harray
  obtain ⟨items, hitems⟩ := harray rfl (ht _ members hat)
  cases hitems

section Steps

variable {printable : Char → Bool}

/-- The type name of a solid value is all there is to it. -/
theorem Json.Solid.marker_eq {v w : Json} (hv : v.Solid) (hw : w.Solid)
    (h : typeName printable v = typeName printable w) : marker v = marker w := by
  have hname : ∀ k : Kind, k.name ≠ "array" := by
    intro k
    cases k <;> decide
  cases hkv : v.kind with
  | some k =>
    rw [typeName_scalar printable hkv] at h
    cases hkw : w.kind with
    | some k' =>
      rw [typeName_scalar printable hkw] at h
      rw [marker_scalar hkv, marker_scalar hkw, Kind.name_injective h]
    | none =>
      cases w with
      | arr items => exact absurd h (hname k)
      | obj members => exact absurd rfl (hw members)
      | _ => cases hkw
  | none =>
    cases v with
    | arr items =>
      cases hkw : w.kind with
      | some k' =>
        rw [typeName_scalar printable hkw] at h
        exact absurd h.symm (hname k')
      | none =>
        cases w with
        | arr items' => rfl
        | obj members => exact absurd rfl (hw members)
        | _ => cases hkw
    | obj members => exact absurd rfl (hv members)
    | _ => cases hkv

theorem Json.Solid.get?_eq_none {v : Json} (hv : v.Solid) (k : String) : v.get? k = none := by
  cases v with
  | obj members => exact absurd rfl (hv members)
  | _ => rfl

/-- A change from one type name to another. -/
def changeOfType (t u : String) : Compatibility :=
  if t = u then .safe
  else if t = "integer" ∧ u = "number" then .risky
  else .breaking

/-- What changes at a path, for solid values. -/
def changeAt (printable : Char → Bool) : Option Json → Option Json → Compatibility
  | none, _ => .safe
  | some _, none => .breaking
  | some v, some w => changeOfType (typeName printable v) (typeName printable w)

/-- **At one path** the classifier finds what has changed. -/
theorem classify_solid {o n : Option Json} (ho : ∀ v ∈ o, v.UniqueKeys ∧ v.Solid)
    (hn : ∀ w ∈ n, w.UniqueKeys ∧ w.Solid)
    (hdiffer : sameNode (o.map marker) (n.map marker) = false) :
    ∃ reason, classify printable (o.map marker) (n.map marker) =
      .ok (changeAt printable o n, reason) := by
  have hrequired : ∀ {v : Json}, v.UniqueKeys → v.Solid → (marker v).get? "required" = none := by
    intro v hu hv
    rw [marker_get? hu (by decide) (by decide), hv.get?_eq_none]
    rfl
  cases o with
  | none =>
    cases n with
    | none => cases hdiffer
    | some w =>
      obtain ⟨hu, hw⟩ := hn w rfl
      refine ⟨"added optional field", ?_⟩
      simp only [Option.map_none, Option.map_some, classify, hrequired hu hw, Option.any_none]
      rfl
  | some v =>
    obtain ⟨hu, hv⟩ := ho v rfl
    cases n with
    | none =>
      refine ⟨"removed required field", ?_⟩
      simp only [Option.map_none, Option.map_some, classify, hrequired hu hv, Option.all_none]
      rfl
    | some w =>
      obtain ⟨hu', hw⟩ := hn w rfl
      rw [Option.map_some, Option.map_some, ← Bool.not_eq_true, sameNode_marker hu hu'] at hdiffer
      have hne : typeName printable v ≠ typeName printable w :=
        fun heq => hdiffer (hv.marker_eq hw heq)
      rw [changeAt, changeOfType, if_neg hne, Option.map_some, Option.map_some, classify]
      split
      next hwiden => exact ⟨_, classifyChange_widening hwiden.1 hwiden.2⟩
      next hbreaks => exact classifyChange_typeBreaks ⟨hne, hbreaks⟩

theorem changeAt_of_sameNode {o n : Option Json} (ho : ∀ v ∈ o, v.UniqueKeys)
    (hn : ∀ w ∈ n, w.UniqueKeys) (h : sameNode (o.map marker) (n.map marker) = true) :
    changeAt printable o n = .safe := by
  cases o with
  | none => rfl
  | some v =>
    cases n with
    | none => cases h
    | some w =>
      rw [Option.map_some, Option.map_some, sameNode_marker (ho v rfl) (hn w rfl)] at h
      exact if_pos (congrArg (typeOf printable) h)

/-- A type that two steps have changed, one of them has changed as badly. -/
theorem changeOfType_rank_le (t u w : String) :
    (changeOfType t w).rank ≤ max (changeOfType t u).rank (changeOfType u w).rank := by
  by_cases htu : t = u
  · rw [htu]
    exact Nat.le_max_right ..
  · by_cases huw : u = w
    · rw [huw]
      exact Nat.le_max_left ..
    · by_cases hwiden : t = "integer" ∧ u = "number"
      · -- after the widening a number can only break
        have hbreaking : changeOfType u w = .breaking := by
          have hnumber : ¬(u = "integer" ∧ w = "number") :=
            fun h => absurd (hwiden.2.symm.trans h.1) (by decide)
          rw [changeOfType, if_neg huw, if_neg hnumber]
        rw [hbreaking]
        exact Nat.le_trans (Compatibility.rank_le _) (Nat.le_max_right ..)
      · have hbreaking : changeOfType t u = .breaking := by
          rw [changeOfType, if_neg htu, if_neg hwiden]
        rw [hbreaking]
        exact Nat.le_trans (Compatibility.rank_le _) (Nat.le_max_left ..)

/-- Two steps at a path are no better than their sum. -/
theorem changeAt_rank_le (o m n : Option Json) :
    (changeAt printable o n).rank ≤
      max (changeAt printable o m).rank (changeAt printable m n).rank := by
  cases o with
  | none => exact Nat.zero_le _
  | some v =>
    cases m with
    | none => exact Nat.le_trans (Compatibility.rank_le _) (Nat.le_max_left ..)
    | some u =>
      cases n with
      | none => exact Nat.le_max_right ..
      | some w => exact changeOfType_rank_le ..

/-! ### Payloads -/

variable {p q r : Payload}

theorem shown_solid (ht : p.json.NoTypeKey) (path : String) :
    ∀ v ∈ shown p.json path, v.UniqueKeys ∧ v.Solid := fun _ h =>
  ⟨shown_uniqueKeys p.uniqueKeys h, solid_of_shown p.uniqueKeys ht h⟩

/-- The comparison goes through, and its verdict is the worst change at a path. -/
theorem verdict_rank_le (printable : Char → Bool) (hp : p.json.NoTypeKey) (hq : q.json.NoTypeKey) :
    ∃ ds, diffAndClassify printable (canonicalize p.json) (canonicalize q.json) = .ok ds ∧
      ∀ n, (summarizeClassification ds).rank ≤ n ↔
        ∀ path, (changeAt printable (shown p.json path) (shown q.json path)).rank ≤ n := by
  have hclassify := fun path =>
    @classify_solid printable _ _ (shown_solid hp path) (shown_solid hq path)
  have hok : ∃ ds,
      diffAndClassify printable (canonicalize p.json) (canonicalize q.json) = .ok ds := by
    rw [diffAndClassify, diffPaths_ok]
    intro path _ hdiffer
    rw [lastBinding_flatten p.uniqueKeys, lastBinding_flatten q.uniqueKeys] at hdiffer ⊢
    obtain ⟨reason, hreason⟩ := hclassify path hdiffer
    exact ⟨_, hreason⟩
  obtain ⟨ds, hds⟩ := hok
  refine ⟨ds, hds, fun n => ?_⟩
  have hmem := mem_diffPaths hds
  simp only [lastBinding_flatten p.uniqueKeys, lastBinding_flatten q.uniqueKeys] at hmem
  rw [summarizeClassification_rank_le]
  constructor
  · intro hle path
    cases hdiffer : sameNode ((shown p.json path).map marker) ((shown q.json path).map marker) with
    | true =>
      refine Nat.le_trans (Nat.le_of_eq ?_) (Nat.zero_le n)
      exact congrArg Compatibility.rank (changeAt_of_sameNode
        (fun _ => shown_uniqueKeys p.uniqueKeys) (fun _ => shown_uniqueKeys q.uniqueKeys) hdiffer)
    | false =>
      obtain ⟨reason, hreason⟩ := hclassify path hdiffer
      obtain ⟨d, hd, hc⟩ := (hmem _).mpr
        ⟨path, mem_allPaths_of_differ p.uniqueKeys q.uniqueKeys hdiffer, hdiffer, reason, hreason⟩
      exact hc ▸ hle d hd
  · intro hle d hd
    obtain ⟨path, -, hdiffer, reason, hreason⟩ := (hmem d.classification).mp ⟨d, hd, rfl⟩
    obtain ⟨reason', hreason'⟩ := hclassify path hdiffer
    rw [hreason', Except.ok.injEq, Prod.mk.injEq] at hreason
    exact hreason.1 ▸ hle path

/-- **Two steps.** The change over two steps is no worse than the worse of the two. -/
theorem verdict_compose (hp : p.json.NoTypeKey) (hq : q.json.NoTypeKey) (hr : r.json.NoTypeKey)
    {ds ds' : List DiffItem}
    (hpq : diffAndClassify printable (canonicalize p.json) (canonicalize q.json) = .ok ds)
    (hqr : diffAndClassify printable (canonicalize q.json) (canonicalize r.json) = .ok ds') :
    ∃ ds'', diffAndClassify printable (canonicalize p.json) (canonicalize r.json) = .ok ds'' ∧
      (summarizeClassification ds'').rank ≤
        max (summarizeClassification ds).rank (summarizeClassification ds').rank := by
  obtain ⟨e, he, hfirst⟩ := verdict_rank_le printable hp hq
  obtain ⟨e', he', hsecond⟩ := verdict_rank_le printable hq hr
  obtain ⟨e'', he'', hboth⟩ := verdict_rank_le printable hp hr
  obtain rfl := Except.ok.inj (he.symm.trans hpq)
  obtain rfl := Except.ok.inj (he'.symm.trans hqr)
  refine ⟨e'', he'', (hboth _).mpr fun path => ?_⟩
  refine Nat.le_trans (changeAt_rank_le _ (shown q.json path) _) (max_le_max ?_ ?_)
  · exact (hfirst _).mp (Nat.le_refl _) path
  · exact (hsecond _).mp (Nat.le_refl _) path

end Steps

/-- The verdict on two schemas of an object with a member named `type`. -/
def typedVerdict (old new : List (String × Json)) : Except Failure Compatibility :=
  (diffAndClassify (fun _ => true) (canonicalize (.obj (("type", .int 1) :: old)))
    (canonicalize (.obj (("type", .int 1) :: new)))).map summarizeClassification

/-- Two steps that are SAFE, and BREAKING together. -/
example : typedVerdict [("nullable", .int 1)] [] = .ok .safe ∧
    typedVerdict [] [("nullable", .arr [])] = .ok .safe ∧
    typedVerdict [("nullable", .int 1)] [("nullable", .arr [])] = .ok .breaking :=
  ⟨rfl, rfl, rfl⟩

end Driftgate.Schema
