import Driftgate.Monitor.Normalize
import Driftgate.Monitor.RootArray

/-!
# The schema of a normalized body

Inference runs on the normalized body. Sorting its keys changes the order of what is observed, which
matters only where members of different objects have one path string. A body that is cut has the
schema of the marker; the one other case is that of a number alone, whose cut text may be a numeral
too.
-/

namespace Driftgate.Monitor

open Driftgate.Lib Driftgate.Schema
open Driftgate.Runtime (dumpsString toList_dumpsString)

/-! ### Sorting permutes the observations -/

/-- The observations of a value and of its members, sorted. -/
structure SortedAlike (v : Json) : Prop where
  value : ∀ path, (observeValue v path).Perm (observeValue (sortKeys v) path)
  members : ∀ path, (observeMembers (membersOf v) path).Perm
    (observeMembers (membersOf (sortKeys v)) path)

theorem sameOutside_sortKeys (items : List Json) : SameOutside items (items.map sortKeys) := by
  have hdict : ∀ v, isDict (sortKeys v) = isDict v := fun v => by cases v <;> rfl
  have htype : ∀ v, scalarType (sortKeys v) = scalarType v := fun v => by cases v <;> rfl
  have hkeys : ∀ v, (keysOf v).Perm (keysOf (sortKeys v)) := by
    intro v
    cases v with
    | obj members =>
      rw [sortKeys, sortKeysMembers_eq_map, keysOf, keysOf]
      have hsorted := (List.perm_insertionSort (fun a b : String × Json => a.1 ≤ b.1)
        (members.map fun e => (e.1, sortKeys e.2))).map Prod.fst
      rw [List.map_map] at hsorted
      exact hsorted.symm
    | _ => exact .refl _
  refine ⟨List.length_map _ |>.symm, ?_, ?_, ?_⟩
  · rw [List.all_map]
    exact congrArg items.all (funext fun v => (hdict v).symm)
  · rw [List.flatMap_map]
    exact List.Perm.flatMap_left items fun v _ => hkeys v
  · rw [List.map_map]
    exact .of_eq (congrArg (List.map · items) (funext fun v => (htype v).symm))

theorem observeMembers_sortKeys {members : List (String × Json)}
    (h : ∀ e ∈ members, SortedAlike e.2) (path : String) :
    (observeMembers members path).Perm
      (observeMembers (sortByKey (sortKeysMembers members)) path) := by
  rw [sortKeysMembers_eq_map, observeMembers_eq_flatMap, observeMembers_eq_flatMap]
  have hsorted := List.perm_insertionSort (fun a b : String × Json => a.1 ≤ b.1)
    (members.map fun e => (e.1, sortKeys e.2))
  refine List.Perm.trans ?_ (hsorted.symm.flatMap_right _)
  rw [List.flatMap_map]
  exact List.Perm.flatMap_left members fun e he => (h e he).value (joinPath path e.1)

theorem sortedAlike (v : Json) : SortedAlike v := by
  induction v using Json.induction with
  | scalar v k hk =>
    have hsame : sortKeys v = v := sortKeys_scalar (by rw [hk]; exact nofun)
    refine ⟨fun path => ?_, fun path => ?_⟩
    · rw [hsame]
    · rw [hsame]
  | arr items ih =>
    refine ⟨fun path => ?_, fun path => .refl _⟩
    rw [sortKeys, sortKeysItems_eq_map, observeValue, observeValue]
    refine observeList_perm (sameOutside_sortKeys items) (fun path => ?_) (fun path => ?_) path
    · rw [observeObjects_eq_flatMap, observeObjects_eq_flatMap, List.flatMap_map]
      exact List.Perm.flatMap_left items fun v hv => (ih v hv).members path
    · rw [observeItems_eq_flatMap, observeItems_eq_flatMap, List.flatMap_map]
      exact List.Perm.flatMap_left items fun v hv => (ih v hv).value path
  | obj members ih =>
    have hmembers := observeMembers_sortKeys ih
    refine ⟨fun path => ?_, fun path => hmembers path⟩
    rw [sortKeys, observeValue, observeValue]
    exact ((hmembers path).append_left _).cons _

/-- **Sorting the keys permutes the observations.** -/
theorem observe_sortKeys (body : Json) : (observe body).Perm (observe (sortKeys body)) := by
  cases body with
  | obj members => exact (sortedAlike (.obj members)).members ""
  | arr items => exact (sortedAlike (.arr items)).value ""
  | _ => exact .refl _

/-! ### Numbers -/

/-- A numeral without a fraction and an exponent. -/
def IsIntNumeral (s : List Char) : Prop := ∃ integer, scanNumeral s = some (integer, [], [])

/-- A number whose text is a numeral of the same kind. -/
def SameNumeral : Json → String → Prop
  | .int _, text => IsIntNumeral text.toList
  | .float _, text => IsFloatNumeral text.toList
  | _, _ => False

theorem profileAt_scalar {v : Json} (h : v.kind ≠ none) (path : String) :
    profileAt v path = if path = "[root]" then profileOf [.value v] else none := by
  have hobserve : observe v = [("[root]", .value v)] := by
    cases v with
    | arr items => exact absurd rfl h
    | obj members => exact absurd rfl h
    | _ => rfl
  rw [profileAt, hobserve]
  by_cases hpath : path = "[root]"
  · rw [if_pos hpath, hpath, observationsOf_cons_self]
    rfl
  · rw [if_neg hpath, observationsOf_cons_ne (Ne.symm hpath)]
    rfl

/-- Numbers have one schema if they are of one type. -/
theorem profileAt_number_iff {v w : Json} (hv : scalarType v = .integer ∨ scalarType v = .number)
    (hw : scalarType w = .integer ∨ scalarType w = .number) :
    (∀ path, profileAt v path = profileAt w path) ↔ scalarType v = scalarType w := by
  have hnumber : ∀ {v : Json}, scalarType v = .integer ∨ scalarType v = .number →
      v.kind ≠ none ∧ profileOf [.value v] = some ⟨scalarType v, true, false, none, none⟩ := by
    intro v hv
    cases v with
    | int n => exact ⟨nofun, rfl⟩
    | float q => exact ⟨nofun, rfl⟩
    | _ => exact absurd hv (by simp [scalarType])
  obtain ⟨hvk, hvp⟩ := hnumber hv
  obtain ⟨hwk, hwp⟩ := hnumber hw
  constructor
  · intro h
    have hroot := h "[root]"
    rw [profileAt_scalar hvk, profileAt_scalar hwk, if_pos rfl, if_pos rfl, hvp, hwp] at hroot
    exact congrArg Profile.type (Option.some.inj hroot)
  · intro h path
    rw [profileAt_scalar hvk, profileAt_scalar hwk, hvp, hwp, h]

theorem scalarType_numberOf (floats : FloatText) (integer fraction : List Char) :
    scalarType (numberOf floats integer fraction) = if fraction = [] then .integer else .number := by
  rw [numberOf]
  split_ifs <;> rfl

/-! ### The marker -/

/-- An object with the two members of the marker. -/
def MarkerShaped (body : Json) : Prop := ∃ members b n, body = .obj members ∧
  members.Perm [("_truncated", .bool b), ("_size_bytes", .int n)]

/-- The first path that is observed of a value. -/
theorem path_observed (v : Json) (path : String) :
    ∃ e ∈ observeValue v path, e.1 = path ∨ e.1 = "[*]" := by
  cases v with
  | obj members => exact ⟨_, List.mem_cons_self, .inl rfl⟩
  | arr items =>
    rw [observeValue]
    refine ⟨_, List.mem_cons_self, ?_⟩
    by_cases hpath : path = ""
    · exact .inr (if_pos hpath)
    · exact .inl (if_neg hpath)
  | _ => exact ⟨_, List.mem_singleton_self _, .inl rfl⟩

theorem truncated_or_size {path : String} {size : ℕ} :
    (∃ profile, profileAt (truncationMarker size) path = some profile) ↔
      path = "_truncated" ∨ path = "_size_bytes" := by
  rw [exists_profileAt_iff]
  show path ∈ ["_truncated", "_size_bytes"] ↔ _
  rw [List.mem_pair]

/-- Two scalars under two keys. -/
theorem profileAt_pair {k k' : String} {v v' : Json} (hk : k ≠ k') (hv : v.kind ≠ none)
    (hv' : v'.kind ≠ none) (path : String) : profileAt (.obj [(k, v), (k', v')]) path =
      if path = k then profileOf [.value v] else if path = k' then profileOf [.value v'] else none := by
  have hscalar : ∀ {v : Json}, v.kind ≠ none → ∀ path, observeValue v path = [(path, .value v)] := by
    intro v hv path
    cases v with
    | arr items => exact absurd rfl hv
    | obj members => exact absurd rfl hv
    | _ => rfl
  have hobserve : observe (.obj [(k, v), (k', v')]) = [(k, .value v), (k', .value v')] := by
    show observeMembers [(k, v), (k', v')] "" = _
    simp [observeMembers, hscalar hv, hscalar hv', joinPath]
  rw [profileAt, hobserve]
  by_cases hpath : path = k
  · rw [if_pos hpath, hpath, observationsOf_cons_self, observationsOf_cons_ne (Ne.symm hk)]
    rfl
  · rw [if_neg hpath, observationsOf_cons_ne (Ne.symm hpath)]
    by_cases hpath' : path = k'
    · rw [if_pos hpath', hpath', observationsOf_cons_self]
      rfl
    · rw [if_neg hpath', observationsOf_cons_ne (Ne.symm hpath')]
      rfl

/-- A value whose path has the profile of a scalar is one, if nothing is below it. -/
theorem scalar_of_profile {v : Json} {path : String} {os : List Observation} {type : JsonType}
    (hpath : path ≠ "") (hown : ∀ o ∈ observeValue v path, o.1 = path)
    (hperm : os.Perm ((observeValue v path).map Prod.snd))
    (hprofile : profileOf os = some ⟨type, true, false, none, none⟩) (htype : ¬type.IsContainer) :
    v.kind ≠ none ∧ scalarType v = type := by
  obtain ⟨first, hfirst, heq⟩ := Option.map_eq_some_iff.mp hprofile
  cases v with
  | arr items =>
    have hitems : lastItemType os = none := congrArg Profile.arrayItemType heq
    have hseen : ∃ type, (path, Observation.itemType type) ∈ observeValue (.arr items) path := by
      rw [observeValue]
      simp only [observeList, if_neg hpath]
      split_ifs
      · exact ⟨_, List.mem_cons_of_mem _ (List.mem_singleton_self _)⟩
      · exact ⟨_, List.mem_cons_of_mem _ List.mem_cons_self⟩
      · exact ⟨_, List.mem_cons_of_mem _ (List.mem_append_right _ (List.mem_singleton_self _))⟩
    obtain ⟨type', hmem⟩ := hseen
    have hin : type' ∈ os.filterMap Observation.itemType? := by
      refine List.mem_filterMap.mpr ⟨.itemType type', hperm.mem_iff.mpr ?_, rfl⟩
      exact List.mem_map_of_mem (f := Prod.snd) hmem
    rw [lastItemType, List.getLast?_eq_none_iff] at hitems
    rw [hitems] at hin
    exact absurd hin List.not_mem_nil
  | obj members =>
    have hempty : members = [] := by
      cases members with
      | nil => rfl
      | cons e members =>
        obtain ⟨o, ho, hopath⟩ := List.mem_map.mp
          (mem_keys_observeValue (v := e.2) (joinPath_ne_empty hpath e.1))
        have hbelow : o ∈ observeValue (.obj (e :: members)) path := by
          rw [observeValue, observeMembers_eq_flatMap, List.flatMap_cons]
          exact List.mem_cons_of_mem _ (List.mem_append_right _ (List.mem_append_left _ ho))
        have hjoin : joinPath path e.1 ≠ path := by
          rw [joinPath_eq hpath]
          refine append_ne_self (fun he => ?_) path
          exact absurd (String.append_eq_empty_iff.mp he).1 (by decide)
        exact absurd (hopath.symm.trans (hown o hbelow)) hjoin
    have hobjects : os = [.object, .object] := by
      refine List.perm_replicate (n := 2).mp ?_
      rw [hempty, observeValue, observeEnter, if_neg hpath] at hperm
      exact hperm
    rw [hobjects] at hfirst heq
    have htypes : first = type := congrArg Profile.type heq
    exact absurd (.inl (htypes.symm.trans (Option.some.inj hfirst).symm)) htype
  | null =>
    obtain rfl : os = [.value .null] := List.perm_singleton.mp hperm
    have hnull : true = false := congrArg Profile.nullable heq
    cases hnull
  | _ =>
    have hos := List.perm_singleton.mp hperm
    subst hos
    obtain rfl := Option.some.inj hfirst
    exact ⟨Option.some_ne_none _, congrArg Profile.type heq⟩

/-- Below the keys of the marker there is none of its paths but the key itself. -/
theorem marker_key_below {v : Json} {key : String} (hkey : key = "_truncated" ∨ key = "_size_bytes")
    {o : String × Observation} (ho : o ∈ observeValue v key)
    (hpath : o.1 = "_truncated" ∨ o.1 = "_size_bytes") : o.1 = key := by
  have hshift := (shifts_value v).1
  have hsplit : ∀ {start rest : String}, rest ≠ "" → o ∈ observeValue v (start ++ rest) →
      ∃ path, o.1 = start ++ path := by
    intro start rest hrest ho
    rw [hshift.shift start rest hrest] at ho
    obtain ⟨o', -, rfl⟩ := List.mem_map.mp ho
    exact ⟨o'.1, rfl⟩
  have hhead : ∀ {s t : String} {c d : Char} {w : List Char}, s.toList = '_' :: c :: w →
      t.toList = ['_', d] → c ≠ d → ∀ path, s ≠ t ++ path := by
    intro s t c d w hs ht hne path heq
    have hlist := congrArg String.toList heq
    rw [String.toList_append, hs, ht] at hlist
    exact hne (List.cons.inj (List.cons.inj hlist).2).1
  obtain rfl | rfl := hkey
  · obtain h | h := hpath
    · exact h
    · obtain ⟨path, heq⟩ := @hsplit "_t" "runcated" (by decide) ho
      exact absurd (h.symm.trans heq) (hhead rfl rfl (by decide) path)
  · obtain h | h := hpath
    · obtain ⟨path, heq⟩ := @hsplit "_s" "ize_bytes" (by decide) ho
      exact absurd (h.symm.trans heq) (hhead rfl rfl (by decide) path)
    · exact h

theorem observationsOf_all {l : Observations} {path : String} (h : ∀ o ∈ l, o.1 = path) :
    observationsOf path l = l.map Prod.snd := by
  rw [observationsOf, ← List.filterMap_eq_map]
  refine List.filterMap_congr fun o ho => ?_
  rw [if_pos (h o ho)]
  rfl

theorem observationsOf_none {l : Observations} {path : String} (h : ∀ o ∈ l, o.1 ≠ path) :
    observationsOf path l = [] :=
  List.filterMap_eq_nil_iff.mpr fun o ho => if_neg (h o ho)

theorem eq_or_swap_of_perm {α : Type*} {l : List α} {a b : α} (h : l.Perm [a, b]) :
    l = [a, b] ∨ l = [b, a] := by
  obtain ⟨x, y, rfl⟩ := List.length_eq_two.mp h.length_eq
  obtain rfl | rfl := List.mem_pair.mp (h.mem_iff.mp List.mem_cons_self)
  · obtain rfl := List.singleton_perm_singleton.mp h.cons_inv
    exact .inl rfl
  · obtain rfl := List.singleton_perm_singleton.mp (h.trans (List.Perm.swap _ _ [])).cons_inv
    exact .inr rfl

/-- What a member of an object is observed as, if its other members keep to their keys. -/
theorem observationsOf_member {members : List (String × Json)} {key key' : String} {v v' : Json}
    (hperm : members.Perm [(key, v), (key', v')]) (hne : key ≠ key')
    (hown : ∀ e ∈ members, ∀ o ∈ observeValue e.2 e.1, o.1 = e.1) :
    (observationsOf key (members.flatMap fun e => observeValue e.2 e.1)).Perm
      ((observeValue v key).map Prod.snd) := by
  have hall : ∀ o ∈ observeValue v key, o.1 = key :=
    hown (key, v) (hperm.mem_iff.mpr List.mem_cons_self)
  have hnone : ∀ o ∈ observeValue v' key', o.1 ≠ key := by
    intro o ho
    have ho := hown (key', v') (hperm.mem_iff.mpr (List.mem_cons_of_mem _ List.mem_cons_self)) o ho
    rw [ho]
    exact Ne.symm hne
  refine ((hperm.flatMap_right _).filterMap _).trans ?_
  show (observationsOf key ([(key, v), (key', v')].flatMap fun e => observeValue e.2 e.1)).Perm _
  rw [List.flatMap_cons, List.flatMap_cons, List.flatMap_nil, List.append_nil, observationsOf_append,
    observationsOf_all hall, observationsOf_none hnone, List.append_nil]

/-- **Bodies with the schema of the marker.** -/
theorem markerShaped_iff {body : Json} (h : body.UniqueKeys) (size : ℕ) :
    (∀ path, profileAt (truncationMarker size) path = profileAt body path) ↔ MarkerShaped body := by
  have hmarker : ∀ path, profileAt (truncationMarker size) path =
      if path = "_truncated" then some ⟨.boolean, true, false, none, none⟩
      else if path = "_size_bytes" then some ⟨.integer, true, false, none, none⟩ else none :=
    profileAt_pair (by decide) nofun nofun
  constructor
  · intro hsame
    have hpaths : ∀ path, path ∈ (observe body).map Prod.fst ↔
        path = "_truncated" ∨ path = "_size_bytes" := by
      intro path
      rw [← exists_profileAt_iff, ← hsame path, truncated_or_size]
    cases body with
    | arr items =>
      have hroot : "[*]" ∈ (observe (.arr items)).map Prod.fst := by
        show "[*]" ∈ (observeValue (.arr items) "").map Prod.fst
        rw [observeValue]
        exact List.mem_cons_self
      exact absurd ((hpaths "[*]").mp hroot) (by decide)
    | obj members =>
      have hobserve : observe (.obj members) = members.flatMap fun e => observeValue e.2 e.1 :=
        observeMembers_eq_flatMap members ""
      have hseen : ∀ e ∈ members, ∀ o ∈ observeValue e.2 e.1,
          o.1 = "_truncated" ∨ o.1 = "_size_bytes" := by
        intro e he o ho
        refine (hpaths o.1).mp (List.mem_map_of_mem (f := Prod.fst) ?_)
        rw [hobserve]
        exact List.mem_flatMap.mpr ⟨e, he, ho⟩
      have hkeys : ∀ e ∈ members, e.1 = "_truncated" ∨ e.1 = "_size_bytes" := by
        intro e he
        obtain ⟨o, ho, hpath⟩ := path_observed e.2 e.1
        have hmarked := hseen e he o ho
        obtain hpath | hpath := hpath
        · rwa [hpath] at hmarked
        · rw [hpath] at hmarked
          exact absurd hmarked (by decide)
      have hown : ∀ e ∈ members, ∀ o ∈ observeValue e.2 e.1, o.1 = e.1 :=
        fun e he o ho => marker_key_below (hkeys e he) ho (hseen e he o ho)
      have hmember : ∀ key, key = "_truncated" ∨ key = "_size_bytes" → ∃ v, (key, v) ∈ members := by
        intro key hkey
        obtain ⟨o, ho, rfl⟩ := List.mem_map.mp ((hpaths key).mpr hkey)
        rw [hobserve] at ho
        obtain ⟨e, he, ho⟩ := List.mem_flatMap.mp ho
        rw [hown e he o ho]
        exact ⟨e.2, he⟩
      obtain ⟨v, hv⟩ := hmember "_truncated" (.inl rfl)
      obtain ⟨w, hw⟩ := hmember "_size_bytes" (.inr rfl)
      have hperm : members.Perm [("_truncated", v), ("_size_bytes", w)] := by
        refine (List.perm_ext_iff_of_nodup h.1.of_map ?_).mpr fun e => ?_
        · exact List.Nodup.of_map Prod.fst (by decide : ["_truncated", "_size_bytes"].Nodup)
        · constructor
          · intro he
            obtain ⟨key, u⟩ := e
            have hsameKey : ∀ u', (key, u') ∈ members → u = u' := by
              intro u' hu'
              have hlookup := lookup_of_mem h.1 hu'
              rw [lookup_of_mem h.1 he] at hlookup
              exact Option.some.inj hlookup
            obtain rfl | rfl := hkeys _ he
            · rw [hsameKey v hv]
              exact List.mem_cons_self
            · rw [hsameKey w hw]
              exact List.mem_cons_of_mem _ List.mem_cons_self
          · intro he
            obtain rfl | rfl := List.mem_pair.mp he
            · exact hv
            · exact hw
      have hprofile : ∀ path, profileOf (observationsOf path (members.flatMap
          fun e => observeValue e.2 e.1)) = profileAt (truncationMarker size) path := by
        intro path
        rw [hsame path, profileAt, hobserve]
      have ht : "_truncated" ≠ "" := by decide
      have hs : "_size_bytes" ≠ "" := by decide
      have hne : "_truncated" ≠ "_size_bytes" := by decide
      obtain ⟨-, hbool⟩ := scalar_of_profile ht (hown _ hv) (observationsOf_member hperm hne hown)
        ((hprofile _).trans (hmarker _)) (by decide)
      have hswap := hperm.trans (List.Perm.swap _ _ [])
      obtain ⟨-, hint⟩ := scalar_of_profile hs (hown _ hw)
        (observationsOf_member hswap (Ne.symm hne) hown) ((hprofile _).trans (hmarker _)) (by decide)
      obtain ⟨b, rfl⟩ : ∃ b, v = .bool b := by
        cases v with
        | bool b => exact ⟨b, rfl⟩
        | _ => cases hbool
      obtain ⟨n, rfl⟩ : ∃ n, w = .int n := by
        cases w with
        | int n => exact ⟨n, rfl⟩
        | _ => cases hint
      exact ⟨members, b, n, rfl, hperm⟩
    | _ => exact absurd ((hpaths "[root]").mp List.mem_cons_self) (by decide)
  · rintro ⟨members, b, n, rfl, hperm⟩ path
    rw [hmarker]
    have hbool : profileOf [.value (.bool b)] = some ⟨.boolean, true, false, none, none⟩ := rfl
    have hint : profileOf [.value (.int n)] = some ⟨.integer, true, false, none, none⟩ := rfl
    have hboolKind : (Json.bool b).kind ≠ none := Option.some_ne_none Kind.boolean
    have hintKind : (Json.int n).kind ≠ none := Option.some_ne_none Kind.integer
    obtain rfl | rfl := eq_or_swap_of_perm hperm
    · rw [profileAt_pair (by decide) hboolKind hintKind, hbool, hint]
    · rw [profileAt_pair (by decide) hintKind hboolKind, hbool, hint]
      by_cases ht : path = "_truncated"
      · rw [if_pos ht, ht]
        rfl
      · rw [if_neg ht, if_neg ht]

/-! ### The schema hash -/

/-- What the schema of a normalized body depends on. If the body fits, the order of its keys decides
no choice of inference. If it does not, its schema is that of the marker, or it is a number whose cut
text is a numeral of the same kind. -/
def SchemaKept (floats : FloatText) (rawBodyMaxBytes : ℤ) (body : Json) (maxBytes : Option ℤ) : Prop :=
  let cap := capOf rawBodyMaxBytes maxBytes
  let serialized := dumps floats (sortKeys body)
  if cap < serialized.utf8ByteSize then
    MarkerShaped body ∨ SameNumeral body (cutText cap serialized)
  else ∀ path, AgreesAt (observedAt body path) (observedAt (sortKeys body) path)

/-- A cut text that is read as a number of the same type. -/
theorem sameNumeral_iff (floats : FloatText) {v : Json} {text : String}
    (hv : scalarType v = .integer ∨ scalarType v = .number)
    (hchars : ∀ c ∈ text.toList, NumeralChar c) :
    SameNumeral v text ↔ ∃ w, loads floats text = some w ∧ scalarType w = scalarType v := by
  simp only [loads_numeral hchars]
  cases v with
  | int n =>
    constructor
    · rintro ⟨integer, hnumeral⟩
      exact ⟨_, ⟨integer, [], hnumeral, rfl⟩, rfl⟩
    · rintro ⟨w, ⟨integer, fraction, hnumeral, rfl⟩, htype⟩
      rw [scalarType_numberOf] at htype
      split_ifs at htype with hfraction
      · exact ⟨integer, hfraction ▸ hnumeral⟩
      · cases htype
  | float q =>
    constructor
    · rintro ⟨integer, fraction, hnumeral, hfraction⟩
      refine ⟨_, ⟨integer, fraction, hnumeral, rfl⟩, ?_⟩
      rw [scalarType_numberOf, if_neg hfraction]
      rfl
    · rintro ⟨w, ⟨integer, fraction, hnumeral, rfl⟩, htype⟩
      rw [scalarType_numberOf] at htype
      split_ifs at htype with hfraction
      · cases htype
      · exact ⟨integer, fraction, hnumeral, hfraction⟩
  | _ => exact absurd hv (by simp [scalarType])

/-- A cut scalar is read as a number or not at all. -/
theorem loads_cut_scalar {floats : FloatText} {v : Json} (h : v.kind ≠ none) {text : String}
    (hinitial : text.toList <+: (dumps floats v).toList) (hproper : text ≠ dumps floats v) :
    (loads floats text = none ∧ ¬SameNumeral v text) ∨
      ((scalarType v = .integer ∨ scalarType v = .number) ∧ ∀ c ∈ text.toList, NumeralChar c) := by
  cases v with
  | null => exact .inl ⟨@loads_cut_word _ "null" _ (by decide) hinitial hproper, id⟩
  | bool b =>
    have hword : ∀ b, dumpsBool b ∈ constants.map Prod.fst := by decide
    exact .inl ⟨loads_cut_word (hword b) hinitial hproper, id⟩
  | int n => exact .inr ⟨.inl rfl, fun c hc => numeral_int n c (hinitial.subset hc)⟩
  | float q => exact .inr ⟨.inr rfl, fun c hc => numeral_float floats q c (hinitial.subset hc)⟩
  | str s => exact .inl ⟨loads_cut_string hinitial hproper, id⟩
  | arr | obj => exact absurd rfl h

theorem profileAt_normalize_large {floats : FloatText} {rawBodyMaxBytes : ℤ} {body : Json}
    (h : body.UniqueKeys) {maxBytes : Option ℤ}
    (hlarge : capOf rawBodyMaxBytes maxBytes < (dumps floats (sortKeys body)).utf8ByteSize) :
    (∀ path, profileAt (normalize floats rawBodyMaxBytes body maxBytes) path = profileAt body path) ↔
      MarkerShaped body ∨ SameNumeral body
        (cutText (capOf rawBodyMaxBytes maxBytes) (dumps floats (sortKeys body))) := by
  have hnormalize : normalize floats rawBodyMaxBytes body maxBytes =
      (loads floats (cutText (capOf rawBodyMaxBytes maxBytes) (dumps floats (sortKeys body)))).getD
        (truncationMarker (dumps floats (sortKeys body)).utf8ByteSize) := by
    rw [normalize, if_pos hlarge]
    cases loads floats (cutText (capOf rawBodyMaxBytes maxBytes) (dumps floats (sortKeys body))) with
    | none => rfl
    | some value => rfl
  have hinitial := cutText_initial (capOf rawBodyMaxBytes maxBytes) (dumps floats (sortKeys body))
  have hproper := cutText_ne (dumps_ne_empty floats _) hlarge
  by_cases hkind : body.kind = none
  · have hno : ∀ text, ¬SameNumeral body text := by
      intro text
      cases body with
      | arr | obj => exact id
      | _ => cases hkind
    rw [(normalize_truncated hkind hlarge).2, markerShaped_iff h, or_iff_left (hno _)]
  · have hsort : sortKeys body = body := sortKeys_scalar hkind
    rw [hsort] at hnormalize hinitial hproper ⊢
    obtain ⟨hnone, hno⟩ | ⟨hnumber, hchars⟩ := loads_cut_scalar hkind hinitial hproper
    · rw [hnormalize, hnone, or_iff_left hno]
      exact markerShaped_iff h _
    · rw [sameNumeral_iff floats hnumber hchars]
      have hshape : ¬MarkerShaped body := by
        rintro ⟨members, b, n, rfl, -⟩
        exact hkind rfl
      rw [or_iff_right hshape, hnormalize]
      cases hloads : loads floats (cutText (capOf rawBodyMaxBytes maxBytes) (dumps floats body)) with
      | none =>
        rw [Option.getD_none, markerShaped_iff h]
        refine iff_of_false hshape ?_
        rintro ⟨w, hw, -⟩
        cases hw
      | some w =>
        obtain ⟨integer, fraction, -, rfl⟩ := (loads_numeral hchars).mp hloads
        have hread : scalarType (numberOf floats integer fraction) = .integer ∨
            scalarType (numberOf floats integer fraction) = .number := by
          rw [scalarType_numberOf]
          split_ifs
          · exact .inl rfl
          · exact .inr rfl
        rw [Option.getD_some, profileAt_number_iff hread hnumber]
        constructor
        · exact fun htype => ⟨_, rfl, htype⟩
        · rintro ⟨w, hw, htype⟩
          rwa [Option.some.inj hw]

/-- **When normalizing keeps the schema hash.** -/
theorem schemaHash_normalize_iff {sha256 : String → String} (hsha : Function.Injective sha256)
    (floats : FloatText) (rawBodyMaxBytes : ℤ) {body : Json} (h : body.UniqueKeys)
    (maxBytes : Option ℤ) :
    stableSchemaHash sha256 (inferSchema (normalize floats rawBodyMaxBytes body maxBytes)) =
        stableSchemaHash sha256 (inferSchema body) ↔
      SchemaKept floats rawBodyMaxBytes body maxBytes := by
  rw [stableSchemaHash_eq_iff hsha]
  by_cases hlarge : capOf rawBodyMaxBytes maxBytes < (dumps floats (sortKeys body)).utf8ByteSize
  · rw [profileAt_normalize_large h hlarge]
    exact Iff.of_eq (if_pos hlarge).symm
  · have hnormalize : normalize floats rawBodyMaxBytes body maxBytes = sortKeys body := if_neg hlarge
    have hkept : SchemaKept floats rawBodyMaxBytes body maxBytes =
        ∀ path, AgreesAt (observedAt body path) (observedAt (sortKeys body) path) := if_neg hlarge
    rw [hnormalize, hkept]
    refine forall_congr' fun path => ?_
    rw [eq_comm, profileAt_perm_iff (observe_sortKeys body)]

/-- A body within the default cap. -/
def nullableBody : Json := .obj [("a", .arr [.obj [("x", .null)], .obj [("x", .str "u")]])]

theorem schemaHash_normalize_small :
    stableSchemaHash swapSha256 (inferSchema (normalize sampleFloats 262144 nullableBody none)) =
      "3b4860a2181fd7cc9dc29984664f2674e0af8ecd87d1a539e9db960ee33b62a4" ∧
    SchemaKept sampleFloats 262144 nullableBody none := by
  have hunique : nullableBody.UniqueKeys := by
    show ["a"].Nodup ∧ ((["x"].Nodup ∧ True ∧ True) ∧ (["x"].Nodup ∧ True ∧ True) ∧ True) ∧ True
    decide
  have hnormalized : stableSchemaHash swapSha256
      (inferSchema (normalize sampleFloats 262144 nullableBody none)) =
        "3b4860a2181fd7cc9dc29984664f2674e0af8ecd87d1a539e9db960ee33b62a4" := by decide +kernel
  have hbody : stableSchemaHash swapSha256 (inferSchema nullableBody) =
      "3b4860a2181fd7cc9dc29984664f2674e0af8ecd87d1a539e9db960ee33b62a4" := by decide +kernel
  exact ⟨hnormalized, (schemaHash_normalize_iff (Equiv.injective _) sampleFloats 262144 hunique
    none).mp (hnormalized.trans hbody.symm)⟩

/-- A body that does not fit into ten bytes. -/
def namesBody : Json := .obj [("names", .arr [.str "Ada", .str "Grace"])]

theorem cut_body_has_another_schema :
    ((inferSchema namesBody).map fun n => (n.path, n.type)) =
      [("names", .array), ("names[*]", .string)] ∧
    ((inferSchema (normalize sampleFloats 262144 namesBody (some 10))).map fun n =>
      (n.path, n.type)) = [("_size_bytes", .integer), ("_truncated", .boolean)] ∧
    ∀ sha256 : String → String, Function.Injective sha256 →
      stableSchemaHash sha256 (inferSchema (normalize sampleFloats 262144 namesBody (some 10))) ≠
        stableSchemaHash sha256 (inferSchema namesBody) := by
  refine ⟨by decide +kernel, by decide +kernel, fun sha256 hsha heq => ?_⟩
  exact absurd (hsha heq) (by decide +kernel)

end Driftgate.Monitor
