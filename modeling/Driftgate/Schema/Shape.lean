import Driftgate.Schema.Canonical

/-!
# Shapes

Two documents have the same shape if they differ only in the order of members and in scalar values:
objects have the same keys, arrays the same length, scalars the same kind, and so on below them.
The canonical schema of a document says exactly what its shape is.
-/

namespace Driftgate.Schema

open Driftgate.Lib

inductive SameShape : Json → Json → Prop
  | scalar {v w : Json} {k : Kind} : v.kind = some k → w.kind = some k → SameShape v w
  | arr {items items' : List Json} : items.length = items'.length →
      (∀ (i : ℕ) v w, items[i]? = some v → items'[i]? = some w → SameShape v w) →
      SameShape (.arr items) (.arr items')
  | obj {members members' : List (String × Json)} :
      (∀ k, k ∈ members.map Prod.fst ↔ k ∈ members'.map Prod.fst) →
      (∀ k v w, members.lookup k = some v → members'.lookup k = some w → SameShape v w) →
      SameShape (.obj members) (.obj members')

theorem SameShape.symm {v w : Json} (h : SameShape v w) : SameShape w v := by
  induction h with
  | scalar hv hw => exact .scalar hw hv
  | arr hlen _ ih => exact .arr hlen.symm fun i v w hv hw => ih i w v hw hv
  | obj hkeys _ ih => exact .obj (fun k => (hkeys k).symm) fun k v w hv hw => ih k w v hw hv

/-- The marker of a kind names it. -/
theorem Kind.leaf_injective {k k' : Kind} (h : k.leaf = k'.leaf) : k = k' := by
  have hname : k.name = k'.name := by
    simp only [Kind.leaf, CanonicalSchema.leaf, CanonicalSchema.members.injEq, List.cons.injEq,
      Prod.mk.injEq, CanonicalSchema.text.injEq] at h
    exact h.1.2
  cases k <;> cases k' <;> simp_all [Kind.name]

/-- The canonical schemas of the members of an object. -/
theorem nodup_keys_canonicalize {members : List (String × Json)}
    (hu : (members.map Prod.fst).Nodup) :
    ((members.map fun e => (e.1, canonicalize e.2)).map Prod.fst).Nodup := by
  simpa [List.map_map, Function.comp_def] using hu

/-- Documents of the same shape have the same canonical schema. -/
theorem SameShape.canonicalize_eq {v w : Json} (h : SameShape v w) :
    v.UniqueKeys → w.UniqueKeys → canonicalize v = canonicalize w := by
  induction h with
  | scalar hv hw =>
    intro _ _
    rw [canonicalize_scalar hv, canonicalize_scalar hw]
  | @arr items items' hlen _ ih =>
    intro hv hw
    rw [Json.UniqueKeys, uniqueKeysItems_iff] at hv hw
    rw [canonicalize_arr, canonicalize_arr, CanonicalSchema.items.injEq]
    refine List.ext_getElem (by simpa using hlen) fun i hi hi' => ?_
    rw [List.length_map] at hi hi'
    rw [List.getElem_map, List.getElem_map]
    exact ih i _ _ (List.getElem?_eq_getElem hi) (List.getElem?_eq_getElem hi')
      (hv _ (List.getElem_mem hi)) (hw _ (List.getElem_mem hi'))
  | @obj members members' hkeys _ ih =>
    intro hv hw
    rw [Json.UniqueKeys, uniqueKeysMembers_iff] at hv hw
    rw [canonicalize_obj, canonicalize_obj, CanonicalSchema.members.injEq]
    have hperm : (members.map Prod.fst).Perm (members'.map Prod.fst) :=
      (List.perm_ext_iff_of_nodup hv.1 hw.1).mpr hkeys
    refine eq_of_lookup (sortByKey_keysSorted (nodup_keys_canonicalize hv.1))
      (sortByKey_keysSorted (nodup_keys_canonicalize hw.1)) ?_ ?_
    · rw [(sortByKey_perm _).length_eq, (sortByKey_perm _).length_eq]
      simpa using hperm.length_eq
    · intro e he
      obtain ⟨⟨k, v⟩, hm, rfl⟩ := List.mem_map.mp (mem_sortByKey.mp he)
      obtain ⟨⟨k', w⟩, hm', hk⟩ :=
        List.mem_map.mp ((hkeys k).mp (List.mem_map.mpr ⟨(k, v), hm, rfl⟩))
      obtain rfl : k' = k := hk
      have heq : canonicalize v = canonicalize w :=
        ih k' v w (lookup_of_mem hv.1 hm) (lookup_of_mem hw.1 hm') (hv.2 _ hm) (hw.2 _ hm')
      rw [mem_sortByKey, heq]
      exact List.mem_map.mpr ⟨(k', w), hm', rfl⟩

/-- Only a scalar of the kind has the marker of the kind. -/
theorem kind_of_canonicalize {w : Json} {k : Kind} (hw : w.UniqueKeys)
    (h : canonicalize w = k.leaf) : w.kind = some k := by
  cases hk : w.kind with
  | some k' =>
    rw [canonicalize_scalar hk] at h
    rw [Kind.leaf_injective h]
  | none =>
    cases w with
    | arr items => simp [canonicalize, Kind.leaf, CanonicalSchema.leaf] at h
    | obj members =>
      -- the values of a marker are no schemas
      have hc := canonicalize_canonical hw
      rw [canonicalize_obj] at h
      refine absurd h.symm (leaf_pyEq_members fun e he => ?_).2.2
      rw [Json.UniqueKeys, uniqueKeysMembers_iff] at hw
      obtain ⟨⟨k', v⟩, hm, rfl⟩ := List.mem_map.mp (mem_sortByKey.mp he)
      exact canonicalize_canonical (hw.2 _ hm)
    | _ => simp [Json.kind] at hk

/-- Documents with the same canonical schema have the same shape. -/
theorem sameShape_of_canonicalize {v w : Json} :
    v.UniqueKeys → w.UniqueKeys → canonicalize v = canonicalize w → SameShape v w := by
  induction v using Json.induction generalizing w with
  | scalar v k hk =>
    intro _ hw h
    rw [canonicalize_scalar hk] at h
    exact .scalar hk (kind_of_canonicalize hw h.symm)
  | arr items ih =>
    intro hv hw h
    cases hk : w.kind with
    | some k =>
      rw [canonicalize_scalar hk] at h
      simpa [Json.kind] using kind_of_canonicalize hv h
    | none =>
      cases w with
      | arr items' =>
        rw [Json.UniqueKeys, uniqueKeysItems_iff] at hv hw
        rw [canonicalize_arr, canonicalize_arr, CanonicalSchema.items.injEq] at h
        refine .arr (by simpa using congrArg List.length h) fun i v w hi hi' => ?_
        have heq : (items.map canonicalize)[i]? = (items'.map canonicalize)[i]? := by rw [h]
        rw [List.getElem?_map, List.getElem?_map, hi, hi'] at heq
        exact ih v (List.mem_of_getElem? hi) (hv v (List.mem_of_getElem? hi))
          (hw w (List.mem_of_getElem? hi')) (Option.some.inj heq)
      | obj members => simp [canonicalize] at h
      | _ => simp [Json.kind] at hk
  | obj members ih =>
    intro hv hw h
    cases hk : w.kind with
    | some k =>
      rw [canonicalize_scalar hk] at h
      simpa [Json.kind] using kind_of_canonicalize hv h
    | none =>
      cases w with
      | arr items => simp [canonicalize] at h
      | obj members' =>
        rw [Json.UniqueKeys, uniqueKeysMembers_iff] at hv hw
        rw [canonicalize_obj, canonicalize_obj, CanonicalSchema.members.injEq] at h
        have hlookup : ∀ k, (members.lookup k).map canonicalize =
            (members'.lookup k).map canonicalize := by
          intro k
          rw [← lookup_map_snd, ← lookup_map_snd, ← lookup_sortByKey (nodup_keys_canonicalize hv.1),
            ← lookup_sortByKey (nodup_keys_canonicalize hw.1), h]
        refine .obj (fun k => ?_) fun k v w hkv hkw => ?_
        · rw [← lookup_isSome_iff, ← lookup_isSome_iff, ← Option.isSome_map (f := canonicalize),
            hlookup k, Option.isSome_map]
        · have heq := hlookup k
          rw [hkv, hkw] at heq
          exact ih (k, v) (mem_of_lookup hkv) (hv.2 _ (mem_of_lookup hkv))
            (hw.2 _ (mem_of_lookup hkw)) (Option.some.inj heq)
      | _ => simp [Json.kind] at hk

/-- **The canonical schema is the shape.** -/
theorem canonicalize_eq_iff {v w : Json} (hv : v.UniqueKeys) (hw : w.UniqueKeys) :
    canonicalize v = canonicalize w ↔ SameShape v w :=
  ⟨sameShape_of_canonicalize hv hw, fun h => h.canonicalize_eq hv hw⟩

theorem SameShape.refl {v : Json} (hv : v.UniqueKeys) : SameShape v v :=
  (canonicalize_eq_iff hv hv).mp rfl

end Driftgate.Schema
