import Driftgate.Monitor.ElementOrder
import Driftgate.Monitor.Values

/-!
# Arrays at the root

An array at the root has the path `[*]`, and so have its items unless all of them are objects: the
array and its items then share one accumulator, where an array under a key has one for each. A list
of objects is inferred alike at the root and under a key, up to the names of the paths; any other
list is not. Nor is a list under the empty key, which is walked as if it were at the root.
-/

namespace Driftgate.Monitor

open Driftgate.Lib Driftgate.Schema

/-! ### Renamed observations -/

/-- A body that is observed as another one with renamed paths has its nodes, with renamed paths. -/
theorem entries_renamed {v w : Json} {rename : String → String}
    (hobserve : observe w = (observe v).map fun e => (rename e.1, e.2))
    (hinj : Set.InjOn rename {path | path ∈ (observe v).map Prod.fst}) :
    ((inferSchema w).map SchemaNode.entry).Perm
      ((inferSchema v).map fun node => (rename node.path, node.profile)) := by
  have hseen : ∀ {path : String} {profile : Profile}, profileAt v path = some profile →
      path ∈ (observe v).map Prod.fst := fun h => exists_profileAt_iff.mp ⟨_, h⟩
  have hprofileAt : ∀ path ∈ (observe v).map Prod.fst,
      profileAt w (rename path) = profileAt v path := by
    intro path hpath
    show profileOf (observationsOf (rename path) (observe w)) = profileOf _
    rw [hobserve, observationsOf, observationsOf, List.filterMap_map]
    refine congrArg profileOf (List.filterMap_congr fun e he => ?_)
    have hsame : rename e.1 = rename path ↔ e.1 = path :=
      ⟨fun h => hinj (List.mem_map_of_mem (f := Prod.fst) he) hpath h, congrArg rename⟩
    simp only [Function.comp_apply, hsame]
  have hentries : ((inferSchema v).map fun node => (rename node.path, node.profile)) =
      ((inferSchema v).map SchemaNode.entry).map fun e => (rename e.1, e.2) := by
    rw [List.map_map]
    rfl
  rw [hentries]
  refine (List.perm_ext_iff_of_nodup (inferSchema_entries w).1.nodup.of_map ?_).mpr ?_
  · refine List.Nodup.map_on ?_ (inferSchema_entries v).1.nodup.of_map
    rintro ⟨path, profile⟩ he ⟨path', profile'⟩ he' heq
    obtain ⟨hpath, hprofile⟩ := Prod.mk.inj heq
    have hsame : path = path' :=
      hinj (hseen (mem_entries_iff.mp he)) (hseen (mem_entries_iff.mp he')) hpath
    rw [hsame, show profile = profile' from hprofile]
  · rintro ⟨path, profile⟩
    rw [mem_entries_iff, List.mem_map]
    constructor
    · intro hprofile
      have hpath : path ∈ (observe w).map Prod.fst := exists_profileAt_iff.mp ⟨_, hprofile⟩
      rw [hobserve, List.map_map] at hpath
      obtain ⟨e, he, rfl⟩ := List.mem_map.mp hpath
      refine ⟨(e.1, profile), mem_entries_iff.mpr ?_, rfl⟩
      rw [← hprofileAt e.1 (List.mem_map_of_mem (f := Prod.fst) he)]
      exact hprofile
    · rintro ⟨⟨path', profile'⟩, he, heq⟩
      obtain ⟨rfl, rfl⟩ := Prod.mk.inj heq
      have hprofile := mem_entries_iff.mp he
      rw [hprofileAt path' (hseen hprofile)]
      exact hprofile

/-! ### Longer paths -/

theorem append_ne_empty {path : String} (h : path ≠ "") (start : String) : start ++ path ≠ "" :=
  fun he => h (String.append_eq_empty_iff.mp he).2

theorem joinPath_eq {path : String} (h : path ≠ "") (key : String) :
    joinPath path key = path ++ ("." ++ key) := by
  rw [joinPath, if_neg h]
  show path ++ "." ++ key = _
  rw [String.append_assoc]

theorem arrayPath_eq {path : String} (h : path ≠ "") : arrayPath path = path ++ "[*]" := by
  rw [arrayPath, if_neg h]
  rfl

/-- Observations of paths that all have one more prefix. -/
def shifted (start : String) (os : Observations) : Observations := os.map fun e => (start ++ e.1, e.2)

theorem shifted_append (start : String) (os os' : Observations) :
    shifted start (os ++ os') = shifted start os ++ shifted start os' := List.map_append

/-- What is walked through under a longer path is observed under longer paths. -/
structure Shifts (walked : String → Observations) : Prop where
  shift : ∀ start path, path ≠ "" → walked (start ++ path) = shifted start (walked path)
  named : ∀ path, path ≠ "" → ∀ e ∈ walked path, e.1 ≠ ""

theorem shifts_members {members : List (String × Json)}
    (h : ∀ e ∈ members, Shifts (observeValue e.2)) : Shifts (observeMembers members) := by
  constructor
  · intro start path hpath
    induction members with
    | nil => rfl
    | cons e members ih =>
      obtain ⟨key, v⟩ := e
      rw [List.forall_mem_cons] at h
      rw [observeMembers, observeMembers, shifted_append, ih h.2,
        joinPath_eq (append_ne_empty hpath start), String.append_assoc, ← joinPath_eq hpath,
        h.1.shift start _ (joinPath_ne_empty hpath key)]
  · intro path hpath e he
    rw [observeMembers_eq_flatMap] at he
    obtain ⟨member, hmember, he⟩ := List.mem_flatMap.mp he
    exact (h member hmember).named _ (joinPath_ne_empty hpath member.1) e he

theorem shifts_items {items : List Json} (h : ∀ v ∈ items, Shifts (observeValue v)) :
    Shifts (observeItems items) := by
  constructor
  · intro start path hpath
    induction items with
    | nil => rfl
    | cons v items ih =>
      rw [List.forall_mem_cons] at h
      rw [observeItems, observeItems, shifted_append, h.1.shift start path hpath, ih h.2]
  · intro path hpath e he
    rw [observeItems_eq_flatMap] at he
    obtain ⟨v, hv, he⟩ := List.mem_flatMap.mp he
    exact (h v hv).named path hpath e he

theorem shifts_objects {items : List Json}
    (h : ∀ v ∈ items, Shifts (observeMembers (membersOf v))) : Shifts (observeObjects items) := by
  constructor
  · intro start path hpath
    rw [observeObjects_eq_flatMap, observeObjects_eq_flatMap]
    induction items with
    | nil => rfl
    | cons v items ih =>
      rw [List.forall_mem_cons] at h
      rw [List.flatMap_cons, List.flatMap_cons, shifted_append, h.1.shift start path hpath, ih h.2]
  · intro path hpath e he
    rw [observeObjects_eq_flatMap] at he
    obtain ⟨v, hv, he⟩ := List.mem_flatMap.mp he
    exact (h v hv).named path hpath e he

theorem shifts_optional (items : List Json) : Shifts (observeOptional items) := by
  constructor
  · intro start path hpath
    rw [observeOptional, observeOptional, shifted, List.map_map]
    refine List.map_congr_left fun e _ => ?_
    rw [joinPath_eq (append_ne_empty hpath start), String.append_assoc, ← joinPath_eq hpath]
    rfl
  · intro path hpath e he
    obtain ⟨key, -, rfl⟩ := List.mem_map.mp he
    exact joinPath_ne_empty hpath key.1

theorem shifts_list (items : List Json) {objects each : String → Observations}
    (hobjects : Shifts objects) (heach : Shifts each) :
    Shifts fun path => observeList items path objects each := by
  constructor
  · intro start path hpath
    have hne := append_ne_empty hpath start
    have hitem := arrayPath_ne_empty path
    have harray : arrayPath (start ++ path) = start ++ arrayPath path := by
      rw [arrayPath_eq hne, arrayPath_eq hpath, String.append_assoc]
    simp only [observeList, if_neg hne, if_neg hpath, harray]
    show _ = (start ++ path, Observation.array) :: shifted start _
    refine congrArg _ ?_
    split
    · rfl
    · split
      · rw [hobjects.shift start _ hitem, (shifts_optional items).shift start _ hitem,
          ← shifted_append]
        rfl
      · rw [heach.shift start _ hitem, shifted_append]
        rfl
  · intro path hpath e he
    have hitem := arrayPath_ne_empty path
    simp only [observeList, if_neg hpath] at he
    obtain rfl | he := List.mem_cons.mp he
    · exact hpath
    · split at he
      · rw [List.mem_singleton.mp he]
        exact hpath
      · split at he
        · obtain rfl | he := List.mem_cons.mp he
          · exact hpath
          · obtain he | he := List.mem_append.mp he
            · exact hobjects.named _ hitem e he
            · exact (shifts_optional items).named _ hitem e he
        · obtain he | he := List.mem_append.mp he
          · exact heach.named _ hitem e he
          · rw [List.mem_singleton.mp he]
            exact hpath

/-- **Walking under a longer path.** -/
theorem shifts_value (v : Json) : Shifts (observeValue v) ∧ Shifts (observeMembers (membersOf v)) := by
  have hnone : Shifts (observeMembers []) := ⟨fun _ _ _ => rfl, fun _ _ _ he => nomatch he⟩
  induction v using Json.induction with
  | scalar v k hk =>
    have hvisit : observeValue v = fun path => [(path, .value v)] := by
      funext path
      cases v with
      | arr items => cases hk
      | obj members => cases hk
      | _ => rfl
    have hmembers : membersOf v = [] := by
      cases v with
      | obj members => cases hk
      | _ => rfl
    rw [hvisit, hmembers]
    refine ⟨⟨fun _ _ _ => rfl, fun path hpath e he => ?_⟩, hnone⟩
    rwa [List.mem_singleton.mp he]
  | arr items ih =>
    have hlist := shifts_list items (shifts_objects fun v hv => (ih v hv).2)
      (shifts_items fun v hv => (ih v hv).1)
    have hvisit : observeValue (.arr items) =
        fun path => observeList items path (observeObjects items) (observeItems items) := by
      funext path
      rw [observeValue]
    rw [hvisit]
    exact ⟨hlist, hnone⟩
  | obj members ih =>
    have hmembers := shifts_members fun e he => (ih e he).1
    refine ⟨⟨fun start path hpath => ?_, fun path hpath e he => ?_⟩, hmembers⟩
    · rw [observeValue, observeValue, observeEnter, observeEnter,
        if_neg (append_ne_empty hpath start), if_neg hpath, hmembers.shift start path hpath]
      rfl
    · rw [observeValue, observeEnter, if_neg hpath] at he
      obtain rfl | he := List.mem_cons.mp he
      · exact hpath
      · obtain he | he := List.mem_append.mp he
        · rw [List.mem_singleton.mp he]
          exact hpath
        · exact hmembers.named path hpath e he

/-! ### The root and a key -/

/-- The path below a key of a path of an array at the root: the array itself is at the key. -/
def renamed (key path : String) : String := if path = "[*]" then key else key ++ path

/-- An array has the same nodes under a key as at the root, where it stays an array. -/
structure InferredAlike (key : String) (items : List Json) : Prop where
  nodes : ((inferSchema (.obj [(key, .arr items)])).map SchemaNode.entry).Perm
    ((inferSchema (.arr items)).map fun node => (renamed key node.path, node.profile))
  array : ∀ node ∈ inferSchema (.arr items), node.path = "[*]" → node.type = .array

theorem append_ne_self {path : String} (h : path ≠ "") (start : String) : start ++ path ≠ start := by
  intro he
  refine h (String.append_right_inj start |>.mp ?_)
  rw [he, String.append_empty]

theorem observe_under_key (key : String) (items : List Json) :
    observe (.obj [(key, .arr items)]) = observeValue (.arr items) key := by
  show observeMembers [(key, .arr items)] "" = _
  rw [observeMembers, observeMembers, List.append_nil]
  rfl

/-- The paths below the items of an array of objects are not that of the array. -/
theorem ne_items_of_mem {items : List Json} {e : String × Observation}
    (h : e ∈ observeObjects items "[*]" ++ observeOptional items "[*]") :
    e.1 ≠ "[*]" ∧ e.1 ≠ "" := by
  have hstar : "[*]" ≠ "" := by decide
  have hjoin : ∀ key, joinPath "[*]" key = "[*]" ++ ("." ++ key) := joinPath_eq hstar
  have hdot : ∀ key : String, "." ++ key ≠ "" := by
    intro key he
    exact absurd (String.append_eq_empty_iff.mp he).1 (by decide)
  obtain h | h := List.mem_append.mp h
  · rw [observeObjects_eq_flatMap] at h
    obtain ⟨v, -, h⟩ := List.mem_flatMap.mp h
    rw [observeMembers_eq_flatMap] at h
    obtain ⟨member, -, h⟩ := List.mem_flatMap.mp h
    have hvalue := (shifts_value member.2).1
    refine ⟨?_, hvalue.named _ (joinPath_ne_empty hstar member.1) e h⟩
    rw [hjoin, hvalue.shift _ _ (hdot member.1)] at h
    obtain ⟨e', he', rfl⟩ := List.mem_map.mp h
    exact append_ne_self (hvalue.named _ (hdot member.1) e' he') "[*]"
  · obtain ⟨key, -, rfl⟩ := List.mem_map.mp h
    refine ⟨?_, joinPath_ne_empty hstar key.1⟩
    show joinPath "[*]" key.1 ≠ "[*]"
    rw [hjoin]
    exact append_ne_self (hdot key.1) "[*]"

section Objects

variable {items : List Json} (h : items.all isDict = true)

include h

/-- Arrays of objects: what is observed at the root. -/
theorem observe_root : observe (.arr items) = ("[*]", .array) ::
    ("[*]", .itemType (if items.isEmpty then .unknown else .object)) ::
      (observeObjects items "[*]" ++ observeOptional items "[*]") := by
  show observeValue (.arr items) "" = _
  rw [observeValue]
  cases items with
  | nil => rfl
  | cons v items =>
    show ("[*]", Observation.array) :: (if (v :: items).all isDict = true then _ else _) = _
    rw [if_pos h]
    rfl

theorem observe_key {key : String} (hkey : key ≠ "") : observe (.obj [(key, .arr items)]) =
    (observe (.arr items)).map fun e => (renamed key e.1, e.2) := by
  have hrest : shifted key (observeObjects items "[*]" ++ observeOptional items "[*]") =
      (observeObjects items "[*]" ++ observeOptional items "[*]").map
        fun e => (renamed key e.1, e.2) := by
    refine List.map_congr_left fun e he => ?_
    rw [renamed, if_neg (ne_items_of_mem he).1]
  have hobjects := (shifts_objects fun v (_ : v ∈ items) => (shifts_value v).2).shift key "[*]"
    (by decide)
  have hoptional := (shifts_optional items).shift key "[*]" (by decide)
  rw [observe_under_key, observe_root h, List.map_cons, List.map_cons, ← hrest, shifted_append,
    ← hobjects, ← hoptional, ← arrayPath_eq hkey, observeValue]
  show observeList items key _ _ = (key, Observation.array) :: (key, _) :: _
  cases items with
  | nil => simp [observeList, hkey, observeObjects, observeOptional, keysSeen]
  | cons v items =>
    simp only [observeList, if_neg hkey]
    rw [if_pos h]
    rfl

end Objects

/-- **When an array is inferred at the root as under a key.** -/
theorem inferredAlike_iff (key : String) (items : List Json) :
    InferredAlike key items ↔ key ≠ "" ∧ items.all isDict = true := by
  constructor
  · intro halike
    -- every path below the key is a renamed path
    have hpath : ∀ path ∈ (observe (.obj [(key, .arr items)])).map Prod.fst,
        ∃ path', path = renamed key path' := by
      intro path hpath
      obtain ⟨node, hnode, rfl⟩ := List.mem_map.mp (mem_paths_iff.mpr hpath)
      have hentry := halike.nodes.mem_iff.mp (List.mem_map_of_mem (f := SchemaNode.entry) hnode)
      obtain ⟨node', -, heq⟩ := List.mem_map.mp hentry
      exact ⟨node'.path, (Prod.mk.inj heq).1.symm⟩
    rw [observe_under_key] at hpath
    have hkey : key ≠ "" := by
      rintro rfl
      have hroot : "[*]" ∈ (observeValue (.arr items) "").map Prod.fst := by
        rw [observeValue]
        exact List.mem_cons_self
      obtain ⟨path, hrenamed⟩ := hpath _ hroot
      rw [renamed] at hrenamed
      split at hrenamed
      · exact absurd hrenamed (by decide)
      · rw [String.empty_append] at hrenamed
        exact absurd hrenamed.symm ‹_›
    refine ⟨hkey, ?_⟩
    by_contra hdict
    have hitems : arrayPath key ∈ (observeValue (.arr items) key).map Prod.fst := by
      obtain ⟨v, hv, hnot⟩ : ∃ v ∈ items, ¬isDict v = true := by
        simpa using hdict
      have hempty : ¬items.isEmpty = true := by
        rw [List.isEmpty_iff]
        exact List.ne_nil_of_mem hv
      rw [observeValue]
      simp only [observeList, if_neg hempty, if_neg hdict, observeItems_eq_flatMap]
      obtain ⟨e, he, hpath⟩ := List.mem_map.mp (mem_keys_observeValue (v := v) (arrayPath_ne_empty key))
      refine List.mem_map.mpr ⟨e, List.mem_cons_of_mem _ (List.mem_append_left _ ?_), hpath⟩
      exact List.mem_flatMap.mpr ⟨v, hv, he⟩
    obtain ⟨path, hrenamed⟩ := hpath _ hitems
    rw [arrayPath_eq hkey, renamed] at hrenamed
    split at hrenamed
    · exact append_ne_self (by decide) key hrenamed
    · rw [String.append_right_inj] at hrenamed
      exact absurd hrenamed.symm ‹_›
  · rintro ⟨hkey, hdict⟩
    have hroot := observe_root hdict
    refine ⟨entries_renamed (observe_key hdict hkey) ?_, fun node hnode hpath => ?_⟩
    · have hne : ∀ path ∈ (observe (.arr items)).map Prod.fst, path ≠ "" := by
        intro path hpath
        rw [hroot] at hpath
        obtain ⟨e, he, rfl⟩ := List.mem_map.mp hpath
        obtain rfl | he := List.mem_cons.mp he
        · decide
        · obtain rfl | he := List.mem_cons.mp he
          · exact (by decide : "[*]" ≠ "")
          · exact (ne_items_of_mem he).2
      intro path hpath path' hpath' heq
      simp only [renamed] at heq
      split at heq <;> split at heq
      · next h h' => exact h.trans h'.symm
      · exact absurd heq.symm (append_ne_self (hne path' hpath') key)
      · exact absurd heq (append_ne_self (hne path hpath) key)
      · exact (String.append_right_inj key).mp heq
    · have hprofile := profileAt_of_mem hnode
      have hrest : observationsOf "[*]" (observeObjects items "[*]" ++ observeOptional items "[*]") =
          [] := by
        rw [observationsOf, List.filterMap_eq_nil_iff]
        exact fun e he => if_neg (ne_items_of_mem he).1
      rw [profileAt, hpath, hroot, observationsOf_cons_self, observationsOf_cons_self, hrest] at hprofile
      exact (congrArg Profile.type (Option.some.inj hprofile)).symm

theorem number_at_root_is_mixed : ¬∀ (key : String) (items : List Json),
    (∀ c ∈ key.toList, c ≠ '.' ∧ c ≠ '[' ∧ c ≠ ']') → InferredAlike key items := by
  intro h
  have hkey : ∀ c ∈ "a".toList, c ≠ '.' ∧ c ≠ '[' ∧ c ≠ ']' := by simp
  have halike := h "a" [.int 1] hkey
  have hmixed : ∃ node ∈ inferSchema (.arr [.int 1]), node.path = "[*]" ∧ node.type = .mixed := by
    have hmem : ("[*]", JsonType.mixed) ∈
        (inferSchema (.arr [.int 1])).map fun node => (node.path, node.type) := by decide
    obtain ⟨node, hnode, heq⟩ := List.mem_map.mp hmem
    exact ⟨node, hnode, Prod.mk.inj heq⟩
  obtain ⟨node, hnode, hpath, htype⟩ := hmixed
  rw [halike.array node hnode hpath] at htype
  cases htype

end Driftgate.Monitor
