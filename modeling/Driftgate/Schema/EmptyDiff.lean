import Driftgate.Schema.LostLeaf
import Driftgate.Schema.Shape

/-!
# Empty diffs

Two payloads of different shape have different canonical schemas, but the classifier compares what
their flat dictionaries show. An object without members shows nothing, an object with a member named
`type` hides what is below it only in part, and of two locations with one path string the earlier
one is overwritten. What is not shown can change without a single diff item.

The diff is empty exactly when every path string shows things that look alike. Under plain keys
that is when both payloads have the same scalars and arrays at the same locations, so only the
objects without members can differ.
-/

namespace Driftgate.Schema

open Driftgate.Lib

/-! ### What looks alike -/

/-- What one path string shows in two payloads: nothing, arrays, or values of the same shape. -/
def LooksAlike : Option Json → Option Json → Prop
  | none, none => True
  | some (.arr _), some (.arr _) => True
  | some v, some w => SameShape v w
  | _, _ => False

theorem LooksAlike.isSome_eq {o o' : Option Json} (h : LooksAlike o o') : o.isSome = o'.isSome := by
  cases o with
  | none => cases o' with
    | none => rfl
    | some w => exact absurd h (by simp [LooksAlike])
  | some v => cases o' with
    | none => exact absurd h (by simp [LooksAlike])
    | some w => rfl

theorem LooksAlike.symm {o o' : Option Json} (h : LooksAlike o o') : LooksAlike o' o := by
  cases o with
  | none => cases o' with
    | none => trivial
    | some w => exact absurd h (by simp [LooksAlike])
  | some v => cases o' with
    | none => exact absurd h (by simp [LooksAlike])
    | some w => cases v <;> cases w <;> first | trivial | exact SameShape.symm h

/-- The marker of an array is the marker of nothing else. -/
theorem canonicalize_ne_arrayMarker {v : Json} (hv : v.UniqueKeys) :
    canonicalize v ≠ arrayMarker := by
  intro h
  cases hk : v.kind with
  | some k =>
    rw [canonicalize_scalar hk] at h
    cases k <;> simp [Kind.leaf, Kind.name, arrayMarker, CanonicalSchema.leaf] at h
  | none =>
    cases v with
    | arr items => simp [canonicalize, arrayMarker, CanonicalSchema.leaf] at h
    | obj members =>
      rw [canonicalize_obj] at h
      refine absurd h.symm (leaf_pyEq_members fun e he => ?_).2.2
      rw [Json.UniqueKeys, uniqueKeysMembers_iff] at hv
      obtain ⟨⟨k', v⟩, hm, rfl⟩ := List.mem_map.mp (mem_sortByKey.mp he)
      exact canonicalize_canonical (hv.2 _ hm)
    | _ => simp [Json.kind] at hk

/-- Two values have one marker if they are arrays or of the same shape. -/
theorem marker_eq_iff {v w : Json} (hv : v.UniqueKeys) (hw : w.UniqueKeys) :
    marker v = marker w ↔ LooksAlike (some v) (some w) := by
  have hmarker : ∀ u : Json, (∃ items, u = .arr items) ∨ marker u = canonicalize u := by
    intro u
    cases u with
    | arr items => exact .inl ⟨items, rfl⟩
    | _ => exact .inr rfl
  by_cases harr : (∃ items, v = .arr items) ∧ ∃ items, w = .arr items
  · obtain ⟨⟨l, rfl⟩, l', rfl⟩ := harr
    simp [marker, LooksAlike]
  · have hlook : LooksAlike (some v) (some w) ↔ SameShape v w := by
      cases v with
      | arr items =>
        cases w with
        | arr items' => exact absurd ⟨⟨_, rfl⟩, _, rfl⟩ harr
        | _ => exact Iff.rfl
      | _ => exact Iff.rfl
    rw [hlook, ← canonicalize_eq_iff hv hw]
    rcases hmarker v with ⟨l, rfl⟩ | hmv
    · rcases hmarker w with ⟨l', rfl⟩ | hmw
      · exact absurd ⟨⟨_, rfl⟩, _, rfl⟩ harr
      · rw [hmw]
        refine iff_of_false (Ne.symm (canonicalize_ne_arrayMarker hw)) fun h => ?_
        cases sameShape_of_canonicalize hv hw h with
        | scalar hk _ => simp [Json.kind] at hk
        | arr _ _ => exact harr ⟨⟨_, rfl⟩, _, rfl⟩
    · rcases hmarker w with ⟨l', rfl⟩ | hmw
      · rw [hmv]
        refine iff_of_false (canonicalize_ne_arrayMarker hv) fun h => ?_
        cases sameShape_of_canonicalize hv hw h with
        | scalar _ hk => simp [Json.kind] at hk
        | arr _ _ => exact harr ⟨⟨_, rfl⟩, _, rfl⟩
      · rw [hmv, hmw]

/-! ### Empty diffs -/

/-- The loop returns the empty list exactly when it finds the same nodes at every path. -/
theorem diffPaths_eq_nil {printable : Char → Bool} {oldFlat newFlat : List (String × CanonicalSchema)}
    {paths : List String} :
    diffPaths printable oldFlat newFlat paths = .ok [] ↔
      ∀ path ∈ paths, sameNode (lastBinding path oldFlat) (lastBinding path newFlat) = true := by
  induction paths with
  | nil => simp [diffPaths, pure, Except.pure]
  | cons path paths ih =>
    rw [List.forall_mem_cons, diffPaths]
    split
    · rename_i hsame
      simp [hsame, ih]
    · rename_i hsame
      refine iff_of_false (fun h => ?_) fun h => hsame h.1
      cases hc : classify printable (lastBinding path oldFlat) (lastBinding path newFlat) with
      | error e => simp [hc, bind, Except.bind] at h
      | ok v =>
        cases hd : diffPaths printable oldFlat newFlat paths with
        | error e => simp [hc, hd, bind, Except.bind] at h
        | ok ds => simp [hc, hd, bind, Except.bind, pure, Except.pure] at h

/-- Nodes are the same if they show things that look alike. -/
theorem sameNode_iff_looksAlike {o o' : Option Json} (h : ∀ v ∈ o, v.UniqueKeys)
    (h' : ∀ v ∈ o', v.UniqueKeys) :
    sameNode (o.map marker) (o'.map marker) = true ↔ LooksAlike o o' := by
  cases o with
  | none => cases o' <;> simp [sameNode, LooksAlike]
  | some v =>
    cases o' with
    | none => simp [sameNode, LooksAlike]
    | some w => exact (sameNode_marker (h v rfl) (h' w rfl)).trans (marker_eq_iff (h v rfl) (h' w rfl))

/-- **Empty diffs.** The diff of two payloads is empty exactly when every path string shows things
that look alike. -/
theorem diffAndClassify_eq_nil {printable : Char → Bool} {v w : Json} (hv : v.UniqueKeys)
    (hw : w.UniqueKeys) :
    diffAndClassify printable (canonicalize v) (canonicalize w) = .ok [] ↔
      ∀ path, LooksAlike (shown v path) (shown w path) := by
  rw [diffAndClassify, diffPaths_eq_nil]
  have hnode : ∀ path, sameNode (lastBinding path (flatten (canonicalize v) ""))
      (lastBinding path (flatten (canonicalize w) "")) = true ↔
        LooksAlike (shown v path) (shown w path) := by
    intro path
    rw [lastBinding_flatten hv, lastBinding_flatten hw]
    exact sameNode_iff_looksAlike (fun _ => shown_uniqueKeys hv) fun _ => shown_uniqueKeys hw
  constructor
  · intro h path
    by_cases hmem : path ∈ allPaths (flatten (canonicalize v) "") (flatten (canonicalize w) "")
    · exact (hnode path).mp (h path hmem)
    · exact (hnode path).mp (sameNode_of_notMem hmem)
  · exact fun h path _ => (hnode path).mpr (h path)

/-! ### Plain keys -/

/-- The scalar or array at a location. -/
def Json.solidAt (v : Json) (ℓ : Location) : Option Json :=
  (v.at ℓ).filter fun w => match w with
    | .obj _ => false
    | _ => true

theorem Json.solidAt_eq_some {v w : Json} {ℓ : Location} :
    v.solidAt ℓ = some w ↔ v.at ℓ = some w ∧ ∀ members, w ≠ .obj members := by
  rw [solidAt, Option.filter_eq_some_iff]
  cases w <;> simp

theorem Json.solidAt_cons {v w : Json} {s : Step} (h : v.child s = some w) (ℓ : Location) :
    v.solidAt (s :: ℓ) = w.solidAt ℓ := by
  rw [solidAt, solidAt, Json.at_cons, h]
  rfl

section Plain

variable {p q : Payload}

/-- Under plain keys a scalar or array is shown under the path string of its location. -/
theorem shown_of_solidAt (hp : p.json.PlainKeys) {ℓ : Location} {v : Json}
    (h : p.json.solidAt ℓ = some v) : (ℓ, v) ∈ visible p.json ∧ shown p.json (pathOf ℓ) = some v := by
  obtain ⟨ha, ho⟩ := Json.solidAt_eq_some.mp h
  have hv := mem_visible_of_at hp p.uniqueKeys ha ho
  exact ⟨hv, shown_of_mem_visible hp hp hv hv⟩

/-- Under plain keys a path string shows a scalar or array at some location. -/
theorem exists_solidAt_of_shown (hp : p.json.PlainKeys) {path : String} {v : Json}
    (h : shown p.json path = some v) : ∃ ℓ, p.json.solidAt ℓ = some v ∧ pathOf ℓ = path := by
  obtain ⟨e, he, heq⟩ := List.mem_map.mp (mem_of_lastBinding h)
  obtain ⟨hpath, rfl⟩ := Prod.mk.inj heq
  exact ⟨e.1, Json.solidAt_eq_some.mpr ⟨(at_of_mem_visible p.uniqueKeys he).1,
    not_obj_of_mem_visible hp p.uniqueKeys he⟩, hpath⟩

/-- Under plain keys what path strings show is what is at locations. -/
theorem looksAlike_plain (hp : p.json.PlainKeys) (hq : q.json.PlainKeys) :
    (∀ path, LooksAlike (shown p.json path) (shown q.json path)) ↔
      ∀ ℓ, LooksAlike (p.json.solidAt ℓ) (q.json.solidAt ℓ) := by
  constructor
  · intro h ℓ
    cases hv : p.json.solidAt ℓ with
    | some v =>
      obtain ⟨hvis, hshown⟩ := shown_of_solidAt hp hv
      have hlook := h (pathOf ℓ)
      rw [hshown] at hlook
      obtain ⟨w, hw⟩ := Option.isSome_iff_exists.mp hlook.isSome_eq.symm
      rw [hw] at hlook
      rwa [Json.solidAt_eq_some.mpr (shown_pathOf hp hq hvis hw)]
    | none =>
      cases hw : q.json.solidAt ℓ with
      | none => trivial
      | some w =>
        obtain ⟨hvis, hshown⟩ := shown_of_solidAt hq hw
        have hlook := h (pathOf ℓ)
        rw [hshown] at hlook
        obtain ⟨v, hv'⟩ := Option.isSome_iff_exists.mp hlook.isSome_eq
        rw [Json.solidAt_eq_some.mpr (shown_pathOf hq hp hvis hv')] at hv
        cases hv
  · intro h path
    cases hv : shown p.json path with
    | some v =>
      obtain ⟨ℓ, hℓ, rfl⟩ := exists_solidAt_of_shown hp hv
      have hlook := h ℓ
      rw [hℓ] at hlook
      obtain ⟨w, hw⟩ := Option.isSome_iff_exists.mp hlook.isSome_eq.symm
      rw [hw] at hlook
      rwa [(shown_of_solidAt hq hw).2]
    | none =>
      cases hw : shown q.json path with
      | none => trivial
      | some w =>
        obtain ⟨ℓ, hℓ, rfl⟩ := exists_solidAt_of_shown hq hw
        have hlook := h ℓ
        rw [hℓ] at hlook
        obtain ⟨v, hv'⟩ := Option.isSome_iff_exists.mp hlook.isSome_eq
        rw [(shown_of_solidAt hp hv').2] at hv
        cases hv

end Plain

/-! ### No empty objects -/

/-- No object below the root is empty. -/
def Json.FullBelow (v : Json) : Prop := ∀ s ℓ, v.at (s :: ℓ) ≠ some (.obj [])

theorem Json.FullBelow.child {v w : Json} {s : Step} (h : v.FullBelow) (hc : v.child s = some w) :
    w.FullBelow ∧ w ≠ .obj [] := by
  have hat : ∀ ℓ, v.at (s :: ℓ) = w.at ℓ := fun ℓ => by rw [Json.at_cons, hc]; rfl
  refine ⟨fun s' ℓ => ?_, ?_⟩
  · rw [← hat]
    exact h s (s' :: ℓ)
  · rintro rfl
    exact h s [] ((hat []).trans (Json.at_nil _))

/-- An object of scalars has no object below it. -/
theorem fullBelow_of_scalars {members : List (String × Json)}
    (h : ∀ e ∈ members, e.2.kind ≠ none) : (Json.obj members).FullBelow := by
  intro s ℓ hat
  rw [Json.at_cons] at hat
  obtain ⟨w, hw, hbelow⟩ := Option.bind_eq_some_iff.mp hat
  cases s with
  | index i => simp [Json.child] at hw
  | key k =>
    obtain ⟨kind, hkind⟩ := Option.ne_none_iff_exists'.mp (h _ (mem_of_lookup hw))
    have hkind : w.kind = some kind := hkind
    cases ℓ with
    | nil =>
      rw [Json.at_nil, Option.some.injEq] at hbelow
      simp [hbelow, Json.kind] at hkind
    | cons s' ℓ => simp [Json.at_cons, Json.child_scalar hkind] at hbelow

/-- A document without empty objects has a scalar or array somewhere. -/
theorem exists_solidAt {v : Json} : v.FullBelow → v ≠ .obj [] → ∃ ℓ, (v.solidAt ℓ).isSome := by
  induction v using Json.induction with
  | scalar v k hk =>
    intro _ _
    refine ⟨[], Option.isSome_iff_exists.mpr ⟨v, Json.solidAt_eq_some.mpr ⟨Json.at_nil v, ?_⟩⟩⟩
    rintro members rfl
    simp [Json.kind] at hk
  | arr items _ =>
    intro _ _
    exact ⟨[], Option.isSome_iff_exists.mpr
      ⟨_, Json.solidAt_eq_some.mpr ⟨Json.at_nil _, by simp⟩⟩⟩
  | obj members ih =>
    intro hf hne
    cases members with
    | nil => exact absurd rfl hne
    | cons e members =>
      obtain ⟨k, u⟩ := e
      have hc : (Json.obj ((k, u) :: members)).child (.key k) = some u := by simp [Json.child]
      obtain ⟨hf', hne'⟩ := hf.child hc
      obtain ⟨ℓ, hℓ⟩ := ih (k, u) List.mem_cons_self hf' hne'
      exact ⟨.key k :: ℓ, by rwa [Json.solidAt_cons hc]⟩

/-- What is directly below a document without empty objects is also below one that has the same
scalars and arrays. -/
theorem child_of_solidAt {v w u : Json} (hf : v.FullBelow)
    (h : ∀ ℓ, LooksAlike (v.solidAt ℓ) (w.solidAt ℓ)) {s : Step} (hc : v.child s = some u) :
    (w.child s).isSome := by
  obtain ⟨hfu, hne⟩ := hf.child hc
  obtain ⟨ℓ, hℓ⟩ := exists_solidAt hfu hne
  rw [← Json.solidAt_cons hc, (h (s :: ℓ)).isSome_eq] at hℓ
  obtain ⟨x, hx⟩ := Option.isSome_iff_exists.mp hℓ
  have hat := (Json.solidAt_eq_some.mp hx).1
  rw [Json.at_cons] at hat
  obtain ⟨y, hy, -⟩ := Option.bind_eq_some_iff.mp hat
  exact Option.isSome_iff_exists.mpr ⟨y, hy⟩

theorem solidAt_nil_isSome {v : Json} : (v.solidAt []).isSome ↔ ∀ members, v ≠ .obj members := by
  rw [Option.isSome_iff_exists]
  constructor
  · rintro ⟨w, hw⟩
    obtain ⟨ha, ho⟩ := Json.solidAt_eq_some.mp hw
    rw [Json.at_nil, Option.some.injEq] at ha
    exact ha ▸ ho
  · exact fun ho => ⟨v, Json.solidAt_eq_some.mpr ⟨Json.at_nil v, ho⟩⟩

theorem solidAt_nil {v : Json} (h : ∀ members, v ≠ .obj members) : v.solidAt [] = some v :=
  Json.solidAt_eq_some.mpr ⟨Json.at_nil v, h⟩

/-- Without empty objects the scalars and arrays determine the shape. -/
theorem sameShape_of_solidAt {v w : Json} : v.FullBelow → w.FullBelow →
    (∀ ℓ, LooksAlike (v.solidAt ℓ) (w.solidAt ℓ)) →
    (∀ ℓ, LooksAlike (w.solidAt ℓ) (v.solidAt ℓ)) → SameShape v w := by
  induction v using Json.induction generalizing w with
  | scalar v k hk =>
    intro _ _ h _
    have hv : ∀ members, v ≠ .obj members := by
      rintro members rfl
      simp [Json.kind] at hk
    have hw := solidAt_nil_isSome.mp ((h []).isSome_eq ▸ solidAt_nil_isSome.mpr hv)
    have hlook := h []
    rw [solidAt_nil hv, solidAt_nil hw] at hlook
    cases v <;> first | exact hlook | simp [Json.kind] at hk
  | arr items ih =>
    intro hf hf' h h'
    have hv : ∀ members, Json.arr items ≠ .obj members := by simp
    have hw := solidAt_nil_isSome.mp ((h []).isSome_eq ▸ solidAt_nil_isSome.mpr hv)
    have hlook := h []
    rw [solidAt_nil hv, solidAt_nil hw] at hlook
    cases w with
    | arr items' =>
      have hsome : ∀ i : ℕ, items[i]?.isSome = items'[i]?.isSome := by
        intro i
        rw [Bool.eq_iff_iff]
        constructor
        · intro hi
          obtain ⟨u, hu⟩ := Option.isSome_iff_exists.mp hi
          exact child_of_solidAt (s := .index i) hf h hu
        · intro hi
          obtain ⟨u, hu⟩ := Option.isSome_iff_exists.mp hi
          exact child_of_solidAt (s := .index i) hf' h' hu
      refine .arr ?_ fun i u y hi hi' => ?_
      · have hiff : ∀ i, i < items.length ↔ i < items'.length := by
          intro i
          have hi := hsome i
          rw [Bool.eq_iff_iff] at hi
          simpa using hi
        have hlen := hiff items.length
        have hlen' := hiff items'.length
        omega
      · have hc : (Json.arr items).child (.index i) = some u := hi
        have hc' : (Json.arr items').child (.index i) = some y := hi'
        refine ih u (List.mem_of_getElem? hi) (hf.child hc).1 (hf'.child hc').1 (fun ℓ => ?_) fun ℓ => ?_
        · rw [← Json.solidAt_cons hc, ← Json.solidAt_cons hc']
          exact h _
        · rw [← Json.solidAt_cons hc, ← Json.solidAt_cons hc']
          exact h' _
    | obj members => exact absurd rfl (hw members)
    | _ => cases hlook with | scalar hk _ => simp [Json.kind] at hk
  | obj members ih =>
    intro hf hf' h h'
    cases w with
    | obj members' =>
      refine .obj (fun k => ?_) fun k u y hk hk' => ?_
      · rw [← lookup_isSome_iff, ← lookup_isSome_iff]
        constructor
        · intro hk
          obtain ⟨u, hu⟩ := Option.isSome_iff_exists.mp hk
          exact child_of_solidAt (s := .key k) hf h hu
        · intro hk
          obtain ⟨u, hu⟩ := Option.isSome_iff_exists.mp hk
          exact child_of_solidAt (s := .key k) hf' h' hu
      · have hc : (Json.obj members).child (.key k) = some u := hk
        have hc' : (Json.obj members').child (.key k) = some y := hk'
        refine ih (k, u) (mem_of_lookup hk) (hf.child hc).1 (hf'.child hc').1 (fun ℓ => ?_) fun ℓ => ?_
        · rw [← Json.solidAt_cons hc, ← Json.solidAt_cons hc']
          exact h _
        · rw [← Json.solidAt_cons hc, ← Json.solidAt_cons hc']
          exact h' _
    | _ =>
      have hv : ((Json.obj members).solidAt []).isSome :=
        (h' []).isSome_eq ▸ solidAt_nil_isSome.mpr (by simp)
      exact absurd rfl (solidAt_nil_isSome.mp hv members)

/-! ### Concealed changes -/

/-- A change of shape of which no path string shows anything. -/
def Conceals (p q : Payload) : Prop :=
  ¬SameShape p.json q.json ∧ ∀ path, LooksAlike (shown p.json path) (shown q.json path)

/-- Payloads of the same shape have an empty diff. -/
theorem diffAndClassify_self {printable : Char → Bool} {v : Json} (hv : v.UniqueKeys) :
    diffAndClassify printable (canonicalize v) (canonicalize v) = .ok [] := by
  refine (diffAndClassify_eq_nil hv hv).mpr fun path => ?_
  cases hs : shown v path with
  | none => trivial
  | some w =>
    have hrefl := SameShape.refl (shown_uniqueKeys hv hs)
    cases w <;> first | exact hrefl | trivial

/-- The diff tells two payloads apart as their schemas do, unless it conceals the change. -/
theorem canonicalize_eq_iff_diff {printable : Char → Bool} {p q : Payload} :
    (canonicalize p.json = canonicalize q.json ↔
      diffAndClassify printable (canonicalize p.json) (canonicalize q.json) = .ok []) ↔
      ¬Conceals p q := by
  rw [diffAndClassify_eq_nil p.uniqueKeys q.uniqueKeys]
  constructor
  · rintro h ⟨hshape, hlook⟩
    exact hshape (sameShape_of_canonicalize p.uniqueKeys q.uniqueKeys (h.mpr hlook))
  · intro h
    constructor
    · intro heq
      refine (@diffAndClassify_eq_nil printable _ _ p.uniqueKeys q.uniqueKeys).mp ?_
      rw [← heq]
      exact diffAndClassify_self p.uniqueKeys
    · intro hlook
      by_contra hne
      exact h ⟨fun hshape => hne (hshape.canonicalize_eq p.uniqueKeys q.uniqueKeys), hlook⟩

/-- With plain keys and without empty objects nothing is concealed. -/
theorem not_conceals_of_plainKeys {p q : Payload} (hp : p.json.PlainKeys) (hq : q.json.PlainKeys)
    (hfp : p.json.FullBelow) (hfq : q.json.FullBelow) : ¬Conceals p q := by
  rintro ⟨hshape, hlook⟩
  have h := (looksAlike_plain hp hq).mp hlook
  exact hshape (sameShape_of_solidAt hfp hfq h fun ℓ => (h ℓ).symm)

end Driftgate.Schema
