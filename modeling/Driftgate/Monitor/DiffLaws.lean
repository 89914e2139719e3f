import Driftgate.Monitor.SchemaDiff

/-!
# Laws of the schema diff

What `diff_schemas` reports for a path depends on the two nodes of that path alone
(`changeBetween`). So a path is reported at most once, every path that only one list has is
reported, and exchanging the two lists mirrors every change.
-/

namespace Driftgate.Monitor

/-! ### The change of a path -/

/-- The change of a path that is gone. -/
def removedChange (node : SchemaNode) : ChangeType :=
  if node.type = .object then .nestedObjectRemoved else .removedField

/-- What is reported for a path, from what the two lists have there. -/
def changeBetween : Option SchemaNode → Option SchemaNode → Option ChangeType
  | none, none => none
  | some old, none => some (removedChange old)
  | none, some _ => some .addedField
  | some old, some new => pickChangeType old new

/-- A path and its change. -/
def Diff.entry (d : Diff) : String × ChangeType := (d.path, d.changeType)

/-! ### One loop -/

section Loop

variable {paths : List String} {f : String → Option Diff}

theorem mem_entries_loop (hf : ∀ path, ∀ d ∈ f path, d.path = path) {path : String}
    {change : ChangeType} :
    (path, change) ∈ ((sortedPaths paths).filterMap f).map Diff.entry ↔
      path ∈ paths ∧ (f path).map Diff.changeType = some change := by
  rw [List.mem_map]
  constructor
  · rintro ⟨d, hd, hentry⟩
    obtain ⟨p, hp, hd⟩ := List.mem_filterMap.mp hd
    obtain ⟨hpath, hchange⟩ := Prod.mk.inj hentry
    have hsame : p = path := (hf p d hd).symm.trans hpath
    rw [← hsame]
    exact ⟨mem_sortedPaths.mp hp, by rw [hd, Option.map_some, hchange]⟩
  · rintro ⟨hp, hchange⟩
    obtain ⟨d, hd, hchange⟩ := Option.map_eq_some_iff.mp hchange
    refine ⟨d, List.mem_filterMap.mpr ⟨path, mem_sortedPaths.mpr hp, hd⟩, ?_⟩
    rw [Diff.entry, hf path d hd, hchange]

/-- The paths that a loop reports are among those it goes through, in their order. -/
theorem paths_loop_sublist (hf : ∀ path, ∀ d ∈ f path, d.path = path) (l : List String) :
    ((l.filterMap f).map Diff.path).Sublist l := by
  induction l with
  | nil => exact List.Sublist.refl []
  | cons path l ih =>
    cases hd : f path with
    | none =>
      rw [List.filterMap_cons_none hd]
      exact ih.cons path
    | some d =>
      rw [List.filterMap_cons_some hd, List.map_cons, hf path d hd]
      exact ih.cons_cons path

theorem nodup_sortedPaths (h : paths.Nodup) : (sortedPaths paths).Nodup :=
  (List.perm_insertionSort _ _).nodup_iff.mpr h

end Loop

/-! ### The three loops -/

section Entries

variable (printable : Char → Bool) (old new : List SchemaNode)

theorem path_of_removed (path : String) :
    ∀ d ∈ (nodeAt old path).map (removedDiff printable path), d.path = path := by
  intro d hd
  obtain ⟨node, -, rfl⟩ := Option.map_eq_some_iff.mp hd
  rfl

theorem path_of_added (path : String) :
    ∀ d ∈ (nodeAt new path).map (addedDiff printable path), d.path = path := by
  intro d hd
  obtain ⟨node, -, rfl⟩ := Option.map_eq_some_iff.mp hd
  rfl

/-- The body of the third loop. -/
def changedAt (path : String) : Option Diff := do
  let oldNode ← nodeAt old path
  let newNode ← nodeAt new path
  let changeType ← pickChangeType oldNode newNode
  return changedDiff printable path oldNode newNode changeType

theorem path_of_changed (path : String) : ∀ d ∈ changedAt printable old new path, d.path = path := by
  intro d hd
  obtain ⟨oldNode, -, hd⟩ := Option.bind_eq_some_iff.mp hd
  obtain ⟨newNode, -, hd⟩ := Option.bind_eq_some_iff.mp hd
  obtain ⟨changeType, -, hd⟩ := Option.bind_eq_some_iff.mp hd
  rw [← Option.some.inj hd]
  rfl

theorem diffSchemas_eq : diffSchemas printable old new =
    (sortedPaths ((pathsOf old).filter (· ∉ pathsOf new))).filterMap
        (fun path => (nodeAt old path).map (removedDiff printable path)) ++
      (sortedPaths ((pathsOf new).filter (· ∉ pathsOf old))).filterMap
        (fun path => (nodeAt new path).map (addedDiff printable path)) ++
      (sortedPaths ((pathsOf old).filter (· ∈ pathsOf new))).filterMap
        (changedAt printable old new) :=
  rfl

variable {printable old new}

/-- Each path is reported with the change between its two nodes. -/
theorem mem_entries {path : String} {change : ChangeType} :
    (path, change) ∈ (diffSchemas printable old new).map Diff.entry ↔
      changeBetween (nodeAt old path) (nodeAt new path) = some change := by
  rw [diffSchemas_eq, List.map_append, List.map_append, List.mem_append, List.mem_append,
    mem_entries_loop (path_of_removed printable old), mem_entries_loop (path_of_added printable new),
    mem_entries_loop (path_of_changed printable old new)]
  simp only [List.mem_filter, decide_eq_true_eq, mem_pathsOf, changedAt]
  cases ho : nodeAt old path with
  | none =>
    cases hn : nodeAt new path with
    | none => simp [changeBetween]
    | some newNode => simp [changeBetween, addedDiff]
  | some oldNode =>
    cases hn : nodeAt new path with
    | none => simp [changeBetween, removedDiff, removedChange]
    | some newNode =>
      cases hpick : pickChangeType oldNode newNode with
      | none => simp [changeBetween, hpick]
      | some changeType => simp [changeBetween, changedDiff, hpick]

/-- No path is reported twice. -/
theorem nodup_paths : ((diffSchemas printable old new).map Diff.path).Nodup := by
  have hnodup : ∀ (nodes : List SchemaNode) (p : String → Bool),
      (sortedPaths ((pathsOf nodes).filter p)).Nodup := by
    intro nodes p
    exact nodup_sortedPaths ((List.nodup_dedup _).filter p)
  have hremoved := paths_loop_sublist (path_of_removed printable old)
    (sortedPaths ((pathsOf old).filter (· ∉ pathsOf new)))
  have hadded := paths_loop_sublist (path_of_added printable new)
    (sortedPaths ((pathsOf new).filter (· ∉ pathsOf old)))
  have hchanged := paths_loop_sublist (path_of_changed printable old new)
    (sortedPaths ((pathsOf old).filter (· ∈ pathsOf new)))
  have hpath : ∀ {nodes : List SchemaNode} {p : String → Bool} {path : String},
      path ∈ sortedPaths ((pathsOf nodes).filter p) → path ∈ pathsOf nodes ∧ p path = true :=
    fun h => List.mem_filter.mp (mem_sortedPaths.mp h)
  rw [diffSchemas_eq, List.map_append, List.map_append]
  refine List.Nodup.append (List.Nodup.append (hremoved.nodup (hnodup _ _))
    (hadded.nodup (hnodup _ _)) ?_) (hchanged.nodup (hnodup _ _)) ?_
  · intro path hr ha
    exact of_decide_eq_true (hpath (hadded.subset ha)).2 (hpath (hremoved.subset hr)).1
  · intro path hra hc
    obtain ⟨hold, hnew⟩ := hpath (hchanged.subset hc)
    obtain hr | ha := List.mem_append.mp hra
    · exact of_decide_eq_true (hpath (hremoved.subset hr)).2 (of_decide_eq_true hnew)
    · exact of_decide_eq_true (hpath (hadded.subset ha)).2 hold

end Entries

/-! ### Exchanging the lists -/

/-- The changes that a change becomes when the two lists are exchanged. -/
def ChangeType.mirrors : ChangeType → List ChangeType
  | .removedField => [.addedField]
  | .nestedObjectRemoved => [.addedField]
  | .addedField => [.removedField, .nestedObjectRemoved]
  | .nullableAdded => [.nullableRemoved]
  | .nullableRemoved => [.nullableAdded]
  | .enumExpanded => [.enumNarrowed]
  | .enumNarrowed => [.enumExpanded]
  | .intToNumber => [.numberToInt]
  | .numberToInt => [.intToNumber]
  | .typeChanged => [.typeChanged]
  | .enumChanged => [.enumChanged]
  | .arrayItemTypeChanged => [.arrayItemTypeChanged]

/-- The change of types. -/
def typeChange (old new : JsonType) : ChangeType :=
  if old = .integer ∧ new = .number then .intToNumber
  else if old = .number ∧ new = .integer then .numberToInt
  else .typeChanged

theorem typeChange_mirrors (old new : JsonType) :
    typeChange new old ∈ (typeChange old new).mirrors := by
  cases old <;> cases new <;> decide

/-- The change of two enumerations. -/
def enumChange : Option (List String) → Option (List String) → Option ChangeType
  | some oldValues, some newValues =>
    if oldValues.toFinset ≠ newValues.toFinset then
      if oldValues.toFinset ⊂ newValues.toFinset then some .enumExpanded
      else if newValues.toFinset ⊂ oldValues.toFinset then some .enumNarrowed
      else some .enumChanged
    else none
  | _, _ => none

/-- The change of the item types of two arrays. -/
def itemChange (old new : SchemaNode) : Option ChangeType :=
  if old.type = .array ∧ new.type = .array ∧ old.arrayItemType ≠ new.arrayItemType then
    some .arrayItemTypeChanged else none

/-- The cascade of `_pick_change_type`. -/
theorem pickChangeType_eq (old new : SchemaNode) : pickChangeType old new =
    if old.type ≠ new.type then some (typeChange old.type new.type)
    else if old.nullable ≠ new.nullable then
      some (if new.nullable then .nullableAdded else .nullableRemoved)
    else (enumChange old.enumValues new.enumValues).or (itemChange old new) := by
  rw [pickChangeType, typeChange]
  by_cases htype : old.type = new.type
  · rw [if_neg (not_not.mpr htype), if_neg (not_not.mpr htype)]
    rfl
  · rw [if_pos htype, if_pos htype]
    split_ifs <;> rfl

/-- Related by mirroring, or both absent. -/
def MirrorsOrNone : Option ChangeType → Option ChangeType → Prop
  | none, none => True
  | some change, some change' => change' ∈ change.mirrors
  | _, _ => False

theorem enumChange_mirrors (old new : Option (List String)) :
    MirrorsOrNone (enumChange old new) (enumChange new old) := by
  cases old with
  | none => cases new <;> exact trivial
  | some l =>
    cases new with
    | none => exact trivial
    | some l' =>
      rw [enumChange, enumChange]
      by_cases heq : l.toFinset = l'.toFinset
      · rw [if_neg (not_not.mpr heq), if_neg (not_not.mpr heq.symm)]
        exact trivial
      · rw [if_pos heq, if_pos (Ne.symm heq)]
        by_cases hgrow : l.toFinset ⊂ l'.toFinset
        · rw [if_pos hgrow, if_neg hgrow.asymm, if_pos hgrow]
          exact List.mem_singleton_self _
        · by_cases hshrink : l'.toFinset ⊂ l.toFinset
          · rw [if_neg hgrow, if_pos hshrink, if_pos hshrink]
            exact List.mem_singleton_self _
          · rw [if_neg hgrow, if_neg hshrink, if_neg hshrink, if_neg hgrow]
            exact List.mem_singleton_self _

theorem itemChange_mirrors (old new : SchemaNode) :
    MirrorsOrNone (itemChange old new) (itemChange new old) := by
  rw [itemChange, itemChange]
  by_cases h : old.type = .array ∧ new.type = .array ∧ old.arrayItemType ≠ new.arrayItemType
  · rw [if_pos h, if_pos ⟨h.2.1, h.1, Ne.symm h.2.2⟩]
    exact List.mem_singleton_self _
  · rw [if_neg h, if_neg fun h' => h ⟨h'.2.1, h'.1, Ne.symm h'.2.2⟩]
    exact trivial

theorem MirrorsOrNone.or {a b a' b' : Option ChangeType} (h : MirrorsOrNone a a')
    (h' : MirrorsOrNone b b') : MirrorsOrNone (a.or b) (a'.or b') := by
  cases a with
  | none =>
    cases a' with
    | none => exact h'
    | some c => exact absurd h id
  | some c =>
    cases a' with
    | none => exact absurd h id
    | some c' => exact h

theorem pickChangeType_mirrors (old new : SchemaNode) :
    MirrorsOrNone (pickChangeType old new) (pickChangeType new old) := by
  rw [pickChangeType_eq, pickChangeType_eq]
  by_cases htype : old.type = new.type
  · rw [if_neg (not_not.mpr htype), if_neg (not_not.mpr htype.symm)]
    by_cases hnull : old.nullable = new.nullable
    · rw [if_neg (not_not.mpr hnull), if_neg (not_not.mpr hnull.symm)]
      exact (enumChange_mirrors _ _).or (itemChange_mirrors _ _)
    · rw [if_pos hnull, if_pos (Ne.symm hnull)]
      cases ho : old.nullable with
      | true =>
        cases hn : new.nullable with
        | true => exact absurd (ho.trans hn.symm) hnull
        | false => exact List.mem_singleton_self _
      | false =>
        cases hn : new.nullable with
        | true => exact List.mem_singleton_self _
        | false => exact absurd (ho.trans hn.symm) hnull
  · rw [if_pos htype, if_pos (Ne.symm htype)]
    exact typeChange_mirrors old.type new.type

theorem changeBetween_mirrors (old new : Option SchemaNode) :
    MirrorsOrNone (changeBetween old new) (changeBetween new old) := by
  have hremoved : ∀ node, ChangeType.addedField ∈ (removedChange node).mirrors ∧
      removedChange node ∈ ChangeType.addedField.mirrors := by
    intro node
    rw [removedChange]
    split_ifs <;> decide
  cases old with
  | none =>
    cases new with
    | none => exact trivial
    | some newNode => exact (hremoved newNode).2
  | some oldNode =>
    cases new with
    | none => exact (hremoved oldNode).1
    | some newNode => exact pickChangeType_mirrors oldNode newNode

/-- **The diff is complete and mirrors.** Each path is reported at most once, every path that one
list has and the other has not is reported, the exchanged lists report the same paths with the
mirrored changes, and a list does not differ from itself. -/
theorem diffSchemas_laws (printable : Char → Bool) (old new : List SchemaNode) :
    ((diffSchemas printable old new).map Diff.path).Nodup ∧
    (∀ path, (path ∈ old.map SchemaNode.path ↔ path ∉ new.map SchemaNode.path) →
      path ∈ (diffSchemas printable old new).map Diff.path) ∧
    (∀ path, path ∈ (diffSchemas printable old new).map Diff.path ↔
      path ∈ (diffSchemas printable new old).map Diff.path) ∧
    (∀ d ∈ diffSchemas printable old new, ∀ d' ∈ diffSchemas printable new old,
      d.path = d'.path → d'.changeType ∈ d.changeType.mirrors) ∧
    diffSchemas printable old old = [] := by
  have hreported : ∀ (l l' : List SchemaNode) (path : String),
      path ∈ (diffSchemas printable l l').map Diff.path ↔
        changeBetween (nodeAt l path) (nodeAt l' path) ≠ none := by
    intro l l' path
    rw [Option.ne_none_iff_exists']
    constructor
    · intro h
      obtain ⟨d, hd, rfl⟩ := List.mem_map.mp h
      exact ⟨d.changeType, mem_entries.mp (List.mem_map_of_mem (f := Diff.entry) hd)⟩
    · rintro ⟨change, hchange⟩
      obtain ⟨d, hd, hentry⟩ := List.mem_map.mp (mem_entries.mpr hchange)
      exact List.mem_map.mpr ⟨d, hd, (Prod.mk.inj hentry).1⟩
  have hpresent : ∀ (l : List SchemaNode) (path : String),
      path ∈ l.map SchemaNode.path ↔ nodeAt l path ≠ none := by
    intro l path
    rw [← mem_pathsOf, pathsOf, List.mem_dedup]
  refine ⟨nodup_paths, fun path hpath => ?_, fun path => ?_, fun d hd d' hd' hsame => ?_, ?_⟩
  · rw [hpresent, hpresent, not_not] at hpath
    rw [hreported]
    cases ho : nodeAt old path with
    | none =>
      cases hn : nodeAt new path with
      | none => simp [ho, hn] at hpath
      | some newNode => exact Option.some_ne_none _
    | some oldNode =>
      cases hn : nodeAt new path with
      | none => exact Option.some_ne_none _
      | some newNode => simp [ho, hn] at hpath
  · rw [hreported, hreported]
    have hmirrors := changeBetween_mirrors (nodeAt old path) (nodeAt new path)
    cases hc : changeBetween (nodeAt old path) (nodeAt new path) with
    | none =>
      cases hc' : changeBetween (nodeAt new path) (nodeAt old path) with
      | none => exact Iff.rfl
      | some change' =>
        rw [hc, hc'] at hmirrors
        exact absurd hmirrors id
    | some change =>
      cases hc' : changeBetween (nodeAt new path) (nodeAt old path) with
      | none =>
        rw [hc, hc'] at hmirrors
        exact absurd hmirrors id
      | some change' => exact iff_of_true (Option.some_ne_none _) (Option.some_ne_none _)
  · have hmirrors := changeBetween_mirrors (nodeAt old d.path) (nodeAt new d.path)
    have hd := mem_entries.mp (List.mem_map_of_mem (f := Diff.entry) hd)
    have hd' := mem_entries.mp (List.mem_map_of_mem (f := Diff.entry) hd')
    rw [← hsame] at hd'
    rw [hd, hd'] at hmirrors
    exact hmirrors
  · refine diffSchemas_eq_nil.mpr fun path => ?_
    cases nodeAt old path with
    | none => exact trivial
    | some node =>
      exact ⟨rfl, rfl, fun l hl l' hl' => by rw [Option.mem_unique hl hl'], fun _ => rfl⟩

end Driftgate.Monitor
