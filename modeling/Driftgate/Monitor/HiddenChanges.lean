import Driftgate.Monitor.DiffLaws

/-!
# Changes that a diff hides

For a path that both lists have, `diff_schemas` reports the first change that the cascade of
`_pick_change_type` comes upon, whatever its severity. A node can differ in its type, its
nullability, its enumeration and its item type at once. What is reported may then be milder than
what one of the other changes would have been alone.
-/

namespace Driftgate.Monitor

/-! ### Severities -/

/-- safe < risky < breaking -/
def severityRank (severity : String) : ℕ :=
  if severity = "breaking" then 2 else if severity = "risky" then 1 else 0

/-- No report is at most any report. -/
def AtMost : Option String → Option String → Prop
  | none, _ => True
  | some _, none => False
  | some severity, some severity' => severityRank severity ≤ severityRank severity'

instance : DecidableRel AtMost
  | none, _ => isTrue trivial
  | some _, none => isFalse id
  | some severity, some severity' =>
    inferInstanceAs (Decidable (severityRank severity ≤ severityRank severity'))

/-- The severity that is reported for two nodes of one path. -/
def reportedSeverity (printable : Char → Bool) (old new : SchemaNode) : Option String :=
  (diffSchemas printable [old] [new]).head?.map Diff.severity

/-! ### One change alone -/

inductive Attribute
  | type
  | nullable
  | enumValues
  | arrayItemType
  deriving DecidableEq, Repr

/-- The old node with one attribute of the new one. -/
def changeAlone (old new : SchemaNode) : Attribute → SchemaNode
  | .type => { old with type := new.type }
  | .nullable => { old with nullable := new.nullable }
  | .enumValues => { old with enumValues := new.enumValues }
  | .arrayItemType => { old with arrayItemType := new.arrayItemType }

/-- No change of an attribute would have been reported as more severe than what is reported. -/
def NothingMilder (printable : Char → Bool) (old new : SchemaNode) : Prop :=
  ∀ a, AtMost (reportedSeverity printable old (changeAlone old new a))
    (reportedSeverity printable old new)

/-- Both nodes are arrays, and their item types differ. -/
def ItemTypeChanged (old new : SchemaNode) : Prop :=
  old.type = .array ∧ new.type = .array ∧ old.arrayItemType ≠ new.arrayItemType

/-- Both nodes have an enumeration, of different values. -/
def EnumChanged (old new : SchemaNode) : Prop :=
  ∃ l ∈ old.enumValues, ∃ l' ∈ new.enumValues, l.toFinset ≠ l'.toFinset

/-- Both nodes have an enumeration, and there are new values. -/
def EnumGains (old new : SchemaNode) : Prop :=
  ∃ l ∈ old.enumValues, ∃ l' ∈ new.enumValues, ¬l'.toFinset ⊆ l.toFinset

/-- The condition on two nodes of the same type: a changed item type is the only change of an array,
and no enumeration gains values while the node loses its nulls. -/
structure NothingHidden (old new : SchemaNode) : Prop where
  items : ItemTypeChanged old new → old.nullable = new.nullable ∧ ¬EnumChanged old new
  enums : old.type = new.type → old.nullable = true → new.nullable = false → ¬EnumGains old new

/-! ### What is reported -/

section Reported

variable {printable : Char → Bool} {old new : SchemaNode}

theorem nodeAt_singleton (node : SchemaNode) : nodeAt [node] node.path = some node := by
  show (none : Option SchemaNode).or (if node.path = node.path then some node else none) = some node
  rw [if_pos rfl, Option.none_or]

/-- For two nodes of one path the cascade decides. -/
theorem reportedSeverity_eq (h : old.path = new.path) :
    reportedSeverity printable old new = (pickChangeType old new).map classify := by
  have hpaths : ∀ node : SchemaNode, pathsOf [node] = [node.path] := fun node =>
    List.Nodup.dedup (List.nodup_singleton node.path)
  have hnew : nodeAt [new] old.path = some new := h ▸ nodeAt_singleton new
  have hmem : old.path ∈ [old.path] := List.mem_singleton_self _
  rw [reportedSeverity, diffSchemas_eq, hpaths, hpaths, ← h, List.filter_singleton,
    List.filter_singleton]
  simp only [hmem, not_true_eq_false, decide_false, decide_true]
  show (([old.path].filterMap (changedAt printable [old] [new])).head?).map _ = _
  simp only [changedAt, nodeAt_singleton, hnew, Option.bind_eq_bind, Option.bind_some,
    List.filterMap_cons, List.filterMap_nil]
  cases pickChangeType old new <;> rfl

/-! The branches of the cascade. -/

theorem pickChangeType_of_type_ne (h : old.type ≠ new.type) :
    pickChangeType old new = some (typeChange old.type new.type) := by
  rw [pickChangeType_eq, if_pos h]

theorem pickChangeType_of_nullable_ne (h : old.type = new.type) (h' : old.nullable ≠ new.nullable) :
    pickChangeType old new = some (if new.nullable then .nullableAdded else .nullableRemoved) := by
  rw [pickChangeType_eq, if_neg (not_not.mpr h), if_pos h']

theorem pickChangeType_of_eq (h : old.type = new.type) (h' : old.nullable = new.nullable) :
    pickChangeType old new = (enumChange old.enumValues new.enumValues).or (itemChange old new) := by
  rw [pickChangeType_eq, if_neg (not_not.mpr h), if_neg (not_not.mpr h')]

theorem enumChange_self (values : Option (List String)) : enumChange values values = none := by
  cases values with
  | none => rfl
  | some l =>
    rw [enumChange]
    exact if_neg (not_not.mpr rfl)

theorem itemChange_self (node : SchemaNode) : itemChange node node = none :=
  if_neg fun h => h.2.2 rfl

theorem pickChangeType_self (node : SchemaNode) : pickChangeType node node = none := by
  rw [pickChangeType_of_eq rfl rfl, enumChange_self, itemChange_self]
  rfl

/-! What the cascade finds when one attribute has changed. -/

theorem pickChangeType_type_alone : pickChangeType old (changeAlone old new .type) =
    if old.type ≠ new.type then some (typeChange old.type new.type) else none := by
  by_cases h : old.type = new.type
  · have hsame : changeAlone old new .type = old := by
      rw [changeAlone, ← h]
    rw [if_neg (not_not.mpr h), hsame, pickChangeType_self]
  · rw [if_pos h]
    exact pickChangeType_of_type_ne h

theorem pickChangeType_nullable_alone : pickChangeType old (changeAlone old new .nullable) =
    if old.nullable ≠ new.nullable then
      some (if new.nullable then .nullableAdded else .nullableRemoved) else none := by
  by_cases h : old.nullable = new.nullable
  · have hsame : changeAlone old new .nullable = old := by
      rw [changeAlone, ← h]
    rw [if_neg (not_not.mpr h), hsame, pickChangeType_self]
  · rw [if_pos h]
    exact pickChangeType_of_nullable_ne rfl h

theorem pickChangeType_enumValues_alone : pickChangeType old (changeAlone old new .enumValues) =
    enumChange old.enumValues new.enumValues := by
  have hitem : itemChange old (changeAlone old new .enumValues) = none := if_neg fun h => h.2.2 rfl
  rw [@pickChangeType_of_eq old (changeAlone old new .enumValues) rfl rfl, hitem, Option.or_none]
  rfl

theorem pickChangeType_arrayItemType_alone :
    pickChangeType old (changeAlone old new .arrayItemType) =
      if old.type = .array ∧ old.arrayItemType ≠ new.arrayItemType then some .arrayItemTypeChanged
      else none := by
  have henum : enumChange old.enumValues (changeAlone old new .arrayItemType).enumValues = none :=
    enumChange_self old.enumValues
  rw [@pickChangeType_of_eq old (changeAlone old new .arrayItemType) rfl rfl, henum, Option.none_or,
    itemChange]
  by_cases h : old.type = .array ∧ old.arrayItemType ≠ new.arrayItemType
  · rw [if_pos h]
    exact if_pos ⟨h.1, h.1, h.2⟩
  · rw [if_neg h]
    exact if_neg fun h' => h ⟨h'.1, h'.2.2⟩

/-! How severe a change of enumerations is. -/

theorem enumChange_eq_none : enumChange old.enumValues new.enumValues = none ↔ ¬EnumChanged old new := by
  rw [EnumChanged]
  cases old.enumValues with
  | none => exact iff_of_true rfl fun ⟨l, hl, _⟩ => by cases hl
  | some l =>
    cases new.enumValues with
    | none => exact iff_of_true rfl fun ⟨_, _, l', hl', _⟩ => by cases hl'
    | some l' =>
      rw [enumChange]
      by_cases heq : l.toFinset = l'.toFinset
      · rw [if_neg (not_not.mpr heq)]
        refine iff_of_true rfl ?_
        rintro ⟨_, ⟨⟩, _, ⟨⟩, hne⟩
        exact hne heq
      · rw [if_pos heq]
        refine iff_of_false (fun h => ?_) (not_not.mpr ⟨l, rfl, l', rfl, heq⟩)
        split_ifs at h

/-- New values are risky, and nothing else about an enumeration is. -/
theorem enumChange_severity : (EnumGains old new →
      (enumChange old.enumValues new.enumValues).map classify = some "risky") ∧
    (¬EnumGains old new → (enumChange old.enumValues new.enumValues).map classify = none ∨
      (enumChange old.enumValues new.enumValues).map classify = some "safe") := by
  rw [EnumGains]
  cases old.enumValues with
  | none => exact ⟨fun ⟨l, hl, _⟩ => (by cases hl), fun _ => .inl rfl⟩
  | some l =>
    cases new.enumValues with
    | none => exact ⟨fun ⟨_, _, l', hl', _⟩ => (by cases hl'), fun _ => .inl rfl⟩
    | some l' =>
      rw [enumChange]
      constructor
      · rintro ⟨_, ⟨⟩, _, ⟨⟩, hgain⟩
        have hne : l.toFinset ≠ l'.toFinset := fun heq => hgain heq.ge
        rw [if_pos hne, if_neg fun hshrink : l'.toFinset ⊂ l.toFinset => hgain hshrink.subset]
        split_ifs <;> rfl
      · intro hgain
        have hsub : l'.toFinset ⊆ l.toFinset := by
          by_contra hnot
          exact hgain ⟨l, rfl, l', rfl, hnot⟩
        by_cases heq : l.toFinset = l'.toFinset
        · rw [if_neg (not_not.mpr heq)]
          exact .inl rfl
        · have hshrink : l'.toFinset ⊂ l.toFinset := hsub.ssubset_of_ne (Ne.symm heq)
          rw [if_pos heq, if_neg hshrink.asymm, if_pos hshrink]
          exact .inr rfl

/-! ### When nothing is hidden -/

theorem enumGains_changed (h : EnumGains old new) : EnumChanged old new := by
  obtain ⟨l, hl, l', hl', hgain⟩ := h
  exact ⟨l, hl, l', hl', fun heq => hgain heq.ge⟩

/-- The four changes, each against what is reported. -/
theorem nothingMilder_iff (h : old.path = new.path) : NothingMilder printable old new ↔
    AtMost ((if old.type ≠ new.type then some (typeChange old.type new.type) else none).map classify)
      ((pickChangeType old new).map classify) ∧
    AtMost ((if old.nullable ≠ new.nullable then
        some (if new.nullable then .nullableAdded else .nullableRemoved) else none).map classify)
      ((pickChangeType old new).map classify) ∧
    AtMost ((enumChange old.enumValues new.enumValues).map classify)
      ((pickChangeType old new).map classify) ∧
    AtMost ((if old.type = .array ∧ old.arrayItemType ≠ new.arrayItemType then
        some .arrayItemTypeChanged else none).map classify)
      ((pickChangeType old new).map classify) := by
  have hpath : ∀ a, old.path = (changeAlone old new a).path := by
    intro a
    cases a <;> rfl
  have halone : ∀ a, AtMost (reportedSeverity printable old (changeAlone old new a))
      (reportedSeverity printable old new) ↔
      AtMost ((pickChangeType old (changeAlone old new a)).map classify)
        ((pickChangeType old new).map classify) := by
    intro a
    rw [reportedSeverity_eq (hpath a), reportedSeverity_eq h]
  rw [← pickChangeType_type_alone, ← pickChangeType_nullable_alone,
    ← pickChangeType_enumValues_alone, ← pickChangeType_arrayItemType_alone,
    ← halone, ← halone, ← halone, ← halone]
  constructor
  · intro hall
    exact ⟨hall _, hall _, hall _, hall _⟩
  · rintro ⟨htype, hnull, henum, hitem⟩ a
    cases a
    exacts [htype, hnull, henum, hitem]

/-- A change of enumerations is risky or safe. -/
theorem enumChange_atMost {severity : String} (h : 1 ≤ severityRank severity) :
    AtMost ((enumChange old.enumValues new.enumValues).map classify) (some severity) := by
  by_cases hgain : EnumGains old new
  · rw [enumChange_severity.1 hgain]
    exact h
  · obtain hnone | hsafe := enumChange_severity.2 hgain
    · rw [hnone]
      exact trivial
    · rw [hsafe]
      exact Nat.zero_le _

theorem AtMost.refl (o : Option String) : AtMost o o := by
  cases o with
  | none => exact trivial
  | some severity => exact Nat.le_refl _

/-- Nodes of different types: the change of the type is risky at least, and only arrays have an item
type to hide. -/
theorem nothingMilder_of_type_ne (h : old.path = new.path) (htype : old.type ≠ new.type) :
    NothingMilder printable old new := by
  rw [nothingMilder_iff h, pickChangeType_of_type_ne htype, if_pos htype]
  have hrisky : 1 ≤ severityRank (classify (typeChange old.type new.type)) := by
    generalize old.type = a
    generalize new.type = b
    cases a <;> cases b <;> decide
  refine ⟨AtMost.refl _, ?_, enumChange_atMost hrisky, ?_⟩
  · split_ifs
    · exact hrisky
    · exact Nat.zero_le _
    · exact trivial
  · split_ifs with hitem
    · have hbreaking : ∀ b, severityRank (classify .arrayItemTypeChanged) ≤
          severityRank (classify (typeChange .array b)) := by
        intro b
        cases b <;> decide
      show severityRank _ ≤ severityRank (classify (typeChange old.type new.type))
      rw [hitem.1]
      exact hbreaking new.type
    · exact trivial

/-- **When a diff is no milder than what it hides.** -/
theorem nothingMilder_iff_nothingHidden (h : old.path = new.path) :
    NothingMilder printable old new ↔ NothingHidden old new := by
  by_cases htype : old.type = new.type
  swap
  · refine iff_of_true (nothingMilder_of_type_ne h htype) ⟨fun hitem => ?_, fun hsame => ?_⟩
    · exact absurd (hitem.1.trans hitem.2.1.symm) htype
    · exact absurd hsame htype
  rw [nothingMilder_iff h, if_neg (not_not.mpr htype)]
  have hitem : (old.type = .array ∧ old.arrayItemType ≠ new.arrayItemType) ↔
      ItemTypeChanged old new :=
    ⟨fun h => ⟨h.1, htype ▸ h.1, h.2⟩, fun h => ⟨h.1, h.2.2⟩⟩
  by_cases hnull : old.nullable = new.nullable
  · rw [pickChangeType_of_eq htype hnull, if_neg (not_not.mpr hnull)]
    by_cases henum : EnumChanged old new
    · obtain ⟨change, hchange⟩ := Option.ne_none_iff_exists'.mp (mt enumChange_eq_none.mp
        (not_not.mpr henum))
      rw [hchange, Option.some_or]
      constructor
      · rintro ⟨-, -, -, hatMost⟩
        refine ⟨fun hchanged => ?_, fun _ hold hnew => ?_⟩
        · -- An enumeration hides the item type, and is never breaking.
          rw [if_pos (hitem.mpr hchanged)] at hatMost
          have hmild : AtMost ((enumChange old.enumValues new.enumValues).map classify) (some "risky") :=
            enumChange_atMost (by decide)
          rw [hchange] at hmild
          have hle : 2 ≤ severityRank (classify change) := hatMost
          have hge : severityRank (classify change) ≤ 1 := hmild
          omega
        · rw [hnull, hnew] at hold
          cases hold
      · intro hhidden
        refine ⟨trivial, trivial, AtMost.refl _, ?_⟩
        rw [if_neg fun hi => (hhidden.items (hitem.mp hi)).2 henum]
        exact trivial
    · rw [enumChange_eq_none.mpr henum, Option.none_or]
      refine iff_of_true ⟨trivial, trivial, trivial, ?_⟩ ⟨fun _ => ⟨hnull, henum⟩, ?_⟩
      · rw [itemChange]
        by_cases hi : old.type = .array ∧ old.arrayItemType ≠ new.arrayItemType
        · rw [if_pos hi, if_pos ⟨hi.1, htype ▸ hi.1, hi.2⟩]
          exact AtMost.refl _
        · rw [if_neg hi]
          exact trivial
      · exact fun _ _ _ hgain => henum (enumGains_changed hgain)
  · rw [pickChangeType_of_nullable_ne htype hnull, if_pos hnull]
    cases hnew : new.nullable with
    | true =>
      rw [if_pos rfl]
      constructor
      · rintro ⟨-, -, -, hatMost⟩
        refine ⟨fun hchanged => ?_, fun _ _ hfalse => ?_⟩
        · rw [if_pos (hitem.mpr hchanged)] at hatMost
          exact absurd hatMost (by decide)
        · rw [hnew] at hfalse
          cases hfalse
      · intro hhidden
        refine ⟨trivial, AtMost.refl _, enumChange_atMost (by decide), ?_⟩
        rw [if_neg fun hi => hnull (hhidden.items (hitem.mp hi)).1]
        exact trivial
    | false =>
      have hold : old.nullable = true := by
        cases ho : old.nullable with
        | true => rfl
        | false => exact absurd (ho.trans hnew.symm) hnull
      rw [if_neg Bool.false_ne_true]
      constructor
      · rintro ⟨-, -, hatMostEnum, hatMost⟩
        refine ⟨fun hchanged => ?_, fun _ _ _ hgain => ?_⟩
        · rw [if_pos (hitem.mpr hchanged)] at hatMost
          exact absurd hatMost (by decide)
        · rw [enumChange_severity.1 hgain] at hatMostEnum
          exact absurd hatMostEnum (by decide)
      · intro hhidden
        refine ⟨trivial, AtMost.refl _, ?_, ?_⟩
        · obtain hnone | hsafe := enumChange_severity.2 (hhidden.enums htype hold hnew)
          · rw [hnone]
            exact trivial
          · rw [hsafe]
            exact Nat.zero_le _
        · rw [if_neg fun hi => hnull (hhidden.items (hitem.mp hi)).1]
          exact trivial

end Reported

/-- A text that gains a value and a null. -/
def textsBefore : SchemaNode := ⟨"state", .string, true, false, none, some ["open"], none⟩

def textsAfter : SchemaNode := ⟨"state", .string, true, true, none, some ["closed", "open"], none⟩

theorem nothingMilder_texts : NothingMilder (fun _ => true) textsBefore textsAfter := by
  have hpath : textsBefore.path = textsAfter.path := rfl
  refine (nothingMilder_iff_nothingHidden hpath).mpr ⟨fun hitem => ?_, fun _ hnull => ?_⟩
  · cases hitem.1
  · cases hnull

/-- Arrays of numbers that may be null. -/
def arraysBefore : SchemaNode := ⟨"[*].tags", .array, true, true, some .integer, none, none⟩

/-- Arrays of texts that are never null. -/
def arraysAfter : SchemaNode := ⟨"[*].tags", .array, true, false, some .string, none, none⟩

theorem item_type_hidden : ¬∀ old new : SchemaNode, old.path = new.path →
    NothingMilder (fun _ => true) old new := by
  intro h
  have hpath : arraysBefore.path = arraysAfter.path := rfl
  have hpath' : arraysBefore.path = (changeAlone arraysBefore arraysAfter .arrayItemType).path := rfl
  have hmilder := h arraysBefore arraysAfter hpath .arrayItemType
  have halone : reportedSeverity (fun _ => true) arraysBefore
      (changeAlone arraysBefore arraysAfter .arrayItemType) = some "breaking" := by
    rw [reportedSeverity_eq hpath']
    rfl
  have hreported : reportedSeverity (fun _ => true) arraysBefore arraysAfter = some "safe" := by
    rw [reportedSeverity_eq hpath]
    rfl
  rw [halone, hreported] at hmilder
  exact absurd hmilder (by decide)

end Driftgate.Monitor
