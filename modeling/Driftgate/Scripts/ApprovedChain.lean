import Driftgate.Scripts.DocumentForms

/-!
# A chain of approved documents

A contract changes in small steps, each of which a check has to approve. What the steps keep, the
whole chain keeps: no schema and no field is gone, and no field is newly required. The type of a
field is different. A field that has lost its type and gets another one in a later step breaks
nothing in either step, because two types are compared only where both are given. So a chain of
approved steps can end in a document that the check would refuse, and this is the only way.
-/

namespace Driftgate.Scripts

open Driftgate.Lib Driftgate.Schema Driftgate.Occurrence

/-! ### Members of sets -/

theorem has_iff {s : List Key} {k : Key} : has s k = true ↔ ∃ k' ∈ s, k'.value = k.value := by
  simp [has]

/-- Equal members are in the same sets. -/
theorem has_congr {s : List Key} {k k' : Key} (h : k.value = k'.value) : has s k = has s k' := by
  rw [has, has, h]

theorem exists_mem_intersection {a b : List Key} {k : Key} (ha : has a k = true)
    (hb : has b k = true) : ∃ k' ∈ intersection a b, k'.value = k.value := by
  rw [intersection]
  split
  · obtain ⟨k', hk', hval⟩ := has_iff.mp ha
    exact ⟨k', List.mem_filter.mpr ⟨hk', (has_congr hval).trans hb⟩, hval⟩
  · obtain ⟨k', hk', hval⟩ := has_iff.mp hb
    exact ⟨k', List.mem_filter.mpr ⟨hk', (has_congr hval).trans ha⟩, hval⟩

theorem has_of_mem_intersection {a b : List Key} {k : Key} (h : k ∈ intersection a b) :
    has a k = true ∧ has b k = true := by
  rw [intersection] at h
  split at h
  · obtain ⟨hk, hb⟩ := List.mem_filter.mp h
    exact ⟨has_iff.mpr ⟨k, hk, rfl⟩, hb⟩
  · obtain ⟨hk, ha⟩ := List.mem_filter.mp h
    exact ⟨ha, has_iff.mpr ⟨k, hk, rfl⟩⟩

theorem Key.index?_congr {k k' : Key} (h : k.value = k'.value) {n n' : ℤ} (hk : k.index? = some n)
    (hk' : k'.index? = some n') : n = n' := by
  have hnum : ∀ {k : Key} {n : ℤ}, k.index? = some n → k.value = .num n := by
    intro k n h
    cases k with
    | bool b => cases b <;> cases h <;> simp [Key.value]
    | int m => cases h; rfl
    | _ => cases h
  rw [hnum hk, hnum hk'] at h
  exact_mod_cast KeyValue.num.inj h

/-- Only a position is looked up in a list or a text, and it alone decides what is found. -/
theorem subscript_position {schema : Json} (hobj : ∀ members, schema ≠ .obj members) {k : Key}
    {v : Json} (hv : subscript schema k = .ok v) :
    ∃ n, k.index? = some n ∧ ∀ k' : Key, k'.index? = some n → subscript schema k' = .ok v := by
  cases hn : k.index? with
  | none =>
    cases schema with
    | obj members => exact absurd rfl (hobj members)
    | arr items =>
      rw [subscript, hn] at hv
      cases hv
    | str s =>
      rw [subscript, hn] at hv
      cases hv
    | _ => cases hv
  | some n =>
    refine ⟨n, rfl, fun k' hk' => ?_⟩
    rw [← hv]
    cases schema with
    | obj members => exact absurd rfl (hobj members)
    | arr items => rw [subscript, subscript, hn, hk']
    | str s => rw [subscript, subscript, hn, hk']
    | _ => rfl

/-- Equal members find the same value. -/
theorem subscript_congr {schema : Json} {k k' : Key} (h : k.value = k'.value) {v v' : Json}
    (hv : subscript schema k = .ok v) (hv' : subscript schema k' = .ok v') : v = v' := by
  by_cases hobj : ∃ members, schema = .obj members
  · obtain ⟨members, rfl⟩ := hobj
    cases k with
    | str key =>
      cases k' with
      | str key' =>
        obtain rfl : key = key' := KeyValue.text.inj h
        exact Except.ok.inj (hv.symm.trans hv')
      | _ => cases hv'
    | _ => cases hv
  · have hobj := not_exists.mp hobj
    obtain ⟨n, hn, hsame⟩ := subscript_position hobj hv
    obtain ⟨n', hn', -⟩ := subscript_position hobj hv'
    obtain rfl := Key.index?_congr h hn hn'
    exact Except.ok.inj ((hsame k' hn').symm.trans hv')

/-! ### One schema -/

/-- The field of a schema is given with this type; the text is empty when it has none. -/
def HasType (schema : Json) (field : KeyValue) (type : String) : Prop :=
  ∃ k v, k.value = field ∧ subscript (propertiesOf schema) k = .ok v ∧ fieldType v = type

theorem HasType.unique {schema : Json} {field : KeyValue} {t t' : String}
    (h : HasType schema field t) (h' : HasType schema field t') : t = t' := by
  obtain ⟨k, v, hk, hv, rfl⟩ := h
  obtain ⟨k', v', hk', hv', rfl⟩ := h'
  rw [subscript_congr (hk.trans hk'.symm) hv hv']

/-- Both schemas have the field. -/
theorem typeChange_eq_ok {old new : Json} {k : Key} {r : Option (Key × String × String)}
    (h : typeChange (propertiesOf old) (propertiesOf new) k = .ok r) :
    ∃ t t', HasType old k.value t ∧ HasType new k.value t' ∧
      r = if t ≠ "" ∧ t' ≠ "" ∧ t ≠ t' then some (k, t, t') else none := by
  obtain ⟨v, hv, h⟩ := bind_eq_ok.mp h
  obtain ⟨v', hv', h⟩ := bind_eq_ok.mp h
  refine ⟨fieldType v, fieldType v', ⟨k, v, rfl, hv, rfl⟩, ⟨k, v', rfl, hv', rfl⟩, ?_⟩
  dsimp only at h
  split at h
  next hne => exact (Except.ok.inj h).symm.trans (if_pos hne).symm
  next heq => exact (Except.ok.inj h).symm.trans (if_neg heq).symm

/-- No field is gone, and no field is newly required, apart from those that the check ignores. -/
structure SchemaKept (ignored : Key → Prop) (old new : Json) : Prop where
  fields : ¬FieldRemoved old new
  required : ∀ k, NewlyRequired old new k → ignored k

section Kept

variable {ignored : Key → Prop} {a b c : Json}

theorem SchemaKept.has_field (h : SchemaKept ignored a b) {k : Key}
    (hk : has (fieldsOf a) k = true) : has (fieldsOf b) k = true := by
  obtain ⟨k', hk', hval⟩ := has_iff.mp hk
  rw [← has_congr hval]
  by_contra hno
  exact h.fields ⟨k', hk', Bool.eq_false_of_not_eq_true hno⟩

/-- What two steps keep, both together keep. -/
theorem SchemaKept.trans (hignored : ∀ k k' : Key, k.value = k'.value → ignored k → ignored k')
    (hab : SchemaKept ignored a b) (hbc : SchemaKept ignored b c) : SchemaKept ignored a c where
  fields := by
    rintro ⟨k, hk, hno⟩
    have hfield := hbc.has_field (hab.has_field (has_iff.mpr ⟨k, hk, rfl⟩))
    rw [hno] at hfield
    cases hfield
  required := by
    -- where the field is new or newly required, it is so in one of the steps
    have hmember : ∀ k, k ∈ requiredOf c → has (requiredOf a) k = false → ignored k := by
      intro k hk hno
      by_cases hmid : has (requiredOf b) k = true
      · obtain ⟨k', hk', hval⟩ := has_iff.mp hmid
        exact hignored k' k hval (hab.required k' (.inr ⟨hk', (has_congr hval).trans hno⟩))
      · exact hbc.required k (.inr ⟨hk, Bool.eq_false_of_not_eq_true hmid⟩)
    rintro k (⟨hk, hno, hreq⟩ | ⟨hk, hno⟩)
    · by_cases hfield : has (fieldsOf b) k = true
      · obtain ⟨k', hk', hval⟩ := has_iff.mp hfield
        by_cases hmid : has (requiredOf b) k' = true
        · exact hignored k' k hval
            (hab.required k' (.inl ⟨hk', (has_congr hval).trans hno, hmid⟩))
        · obtain ⟨k'', hk'', hval'⟩ := has_iff.mp hreq
          refine hignored k'' k hval' (hbc.required k'' (.inr ⟨hk'', ?_⟩))
          rw [has_congr (hval'.trans hval.symm)]
          exact Bool.eq_false_of_not_eq_true hmid
      · exact hbc.required k (.inl ⟨hk, Bool.eq_false_of_not_eq_true hfield, hreq⟩)
    · exact hmember k hk hno

end Kept

/-- All fields that both schemas have can be compared, and none has another type. -/
def SameTypes (old new : Json) : Prop :=
  ∀ k ∈ intersection (fieldsOf old) (fieldsOf new),
    typeChange (propertiesOf old) (propertiesOf new) k = .ok none

/-- The type of a field in an approved step: it stays, or it is gone. -/
theorem SameTypes.next {ignored : Key → Prop} {a b : Json} (hkept : SchemaKept ignored a b)
    (hsame : SameTypes a b) {k : Key} (hk : has (fieldsOf a) k = true) {t : String}
    (ht : HasType a k.value t) (hne : t ≠ "") : HasType b k.value t ∨ HasType b k.value "" := by
  obtain ⟨k', hk', hval⟩ := exists_mem_intersection hk (hkept.has_field hk)
  obtain ⟨u, u', hu, hu', hnone⟩ := typeChange_eq_ok (hsame k' hk')
  rw [hval] at hu hu'
  obtain rfl := ht.unique hu
  by_cases hempty : u' = ""
  · exact .inr (hempty ▸ hu')
  · by_cases heq : t = u'
    · exact .inl (heq ▸ hu')
    · rw [if_pos ⟨hne, hempty, heq⟩] at hnone
      cases hnone

/-! ### Two documents -/

/-- The names of the schemas of a document. -/
def schemaNames (document : Json) : List String := (extractSchema document).map Prod.fst

theorem mem_namesBeyond {schemas others : List (String × Json)} {name : String} :
    name ∈ namesBeyond schemas others ↔
      name ∈ schemas.map Prod.fst ∧ name ∉ others.map Prod.fst := by
  rw [namesBeyond, List.mem_insertionSort, List.mem_filter, List.mem_dedup, decide_eq_true_iff]

/-- What the check asks of two documents apart from the types. -/
structure Kept (ignored : Key → Prop) (old new : Json) : Prop where
  schemas : ∀ name ∈ schemaNames old, name ∈ schemaNames new
  kept : AllCommon old new (SchemaKept ignored)

theorem Kept.trans {ignored : Key → Prop}
    (hignored : ∀ k k' : Key, k.value = k'.value → ignored k → ignored k') {a b c : Json}
    (hab : Kept ignored a b) (hbc : Kept ignored b c) : Kept ignored a c where
  schemas name hname := hbc.schemas name (hab.schemas name hname)
  kept := by
    intro name hname
    obtain ⟨ha, hc⟩ := mem_commonNames.mp hname
    have hb := hab.schemas name ha
    exact (hab.kept name (mem_commonNames.mpr ⟨ha, hb⟩)).trans hignored
      (hbc.kept name (mem_commonNames.mpr ⟨hb, hc⟩))

/-- The check goes through and finds nothing that breaks. -/
structure Approved (ignored : Key → Prop) (old new : Json) : Prop extends Kept ignored old new where
  types : AllCommon old new SameTypes

section Chain

variable {ignored : Key → Prop}

/-- A chain of approved steps keeps what each of them keeps. -/
theorem Kept.of_chain (hignored : ∀ k k' : Key, k.value = k'.value → ignored k → ignored k')
    {first last : Json} {between : List Json}
    (h : List.IsChain (Approved ignored) (first :: (between ++ [last]))) :
    Kept ignored first last := by
  induction between generalizing first with
  | nil => exact (List.isChain_cons_cons.mp h).1.toKept
  | cons b between ih =>
    obtain ⟨hstep, hrest⟩ := List.isChain_cons_cons.mp h
    exact hstep.toKept.trans hignored (ih hrest)

/-- A field whose type changes over a chain of approved steps has lost it in between. -/
theorem exists_untyped_of_chain {first last : Json} {between : List Json}
    (h : List.IsChain (Approved ignored) (first :: (between ++ [last]))) {name : String}
    (hname : name ∈ schemaNames first) {k : Key}
    (hk : has (fieldsOf (schemaAt (extractSchema first) name)) k = true) {t t' : String}
    (ht : HasType (schemaAt (extractSchema first) name) k.value t)
    (ht' : HasType (schemaAt (extractSchema last) name) k.value t') (hne : t ≠ "") (hne' : t' ≠ "")
    (hdiff : t ≠ t') :
    ∃ document ∈ between, HasType (schemaAt (extractSchema document) name) k.value "" := by
  induction between generalizing first with
  | nil =>
    obtain ⟨hstep, -⟩ := List.isChain_cons_cons.mp h
    have hcommon := mem_commonNames.mpr ⟨hname, hstep.schemas name hname⟩
    rcases (hstep.types name hcommon).next (hstep.kept name hcommon) hk ht hne with hlast | hlast
    · exact absurd (hlast.unique ht') hdiff
    · exact absurd (ht'.unique hlast) hne'
  | cons b between ih =>
    obtain ⟨hstep, hrest⟩ := List.isChain_cons_cons.mp h
    have hb := hstep.schemas name hname
    have hcommon := mem_commonNames.mpr ⟨hname, hb⟩
    have hkept := hstep.kept name hcommon
    rcases (hstep.types name hcommon).next hkept hk ht hne with hmid | hmid
    · obtain ⟨document, hmem, huntyped⟩ := ih hrest hb (hkept.has_field hk) hmid
      exact ⟨document, List.mem_cons_of_mem b hmem, huntyped⟩
    · exact ⟨b, List.mem_cons_self, hmid⟩

end Chain

/-! ### The check -/

section Check

variable {floatRepr : ℚ → String}

theorem not_contains_toString (n : ℤ) : contains "no longer" (toString n) = false := by
  have hdigits : ∀ m : ℕ, 'n' ∉ (Nat.repr m).toList := by
    intro m hm
    rw [Nat.repr, String.toList_ofList] at hm
    exact absurd (Nat.isDigit_of_mem_toDigits (by decide) (Nat.le_refl 10) hm) (by decide)
  rw [contains, decide_eq_false_iff_not]
  intro h
  have hmem : 'n' ∈ (toString n).toList := h.subset (by decide)
  cases n with
  | ofNat m => exact hdigits m hmem
  | negSucc m =>
    have htext : (toString (Int.negSucc m)).toList = "-".toList ++ (Nat.repr (m + 1)).toList :=
      String.toList_append
    rw [htext, List.mem_append] at hmem
    exact hmem.elim (by decide) (hdigits (m + 1))

/-- Only texts have the words by which the check tells its messages apart. -/
theorem eq_str_of_contains (hfloat : ∀ q, contains "no longer" (floatRepr q) = false) {k : Key}
    (h : contains "no longer" (k.text floatRepr) = true) : ∃ s, k = .str s := by
  cases k with
  | null => exact absurd (show contains "no longer" "None" = true from h) (by decide)
  | bool b =>
    cases b with
    | false => exact absurd (show contains "no longer" "False" = true from h) (by decide)
    | true => exact absurd (show contains "no longer" "True" = true from h) (by decide)
  | int n => exact absurd ((not_contains_toString n).symm.trans h) (by decide)
  | float q => exact absurd ((hfloat q).symm.trans h) (by decide)
  | str s => exact ⟨s, rfl⟩

/-- The required fields that the check takes for fields no longer required. -/
def Misread (floatRepr : ℚ → String) (k : Key) : Prop :=
  contains "no longer" (k.text floatRepr) = true

theorem Misread.congr (hfloat : ∀ q, contains "no longer" (floatRepr q) = false) (k k' : Key)
    (hval : k.value = k'.value) (h : Misread floatRepr k) : Misread floatRepr k' := by
  obtain ⟨s, rfl⟩ := eq_str_of_contains hfloat h
  cases k' with
  | str s' =>
    obtain rfl : s = s' := KeyValue.text.inj hval
    exact h
  | _ => cases hval

theorem typeChange_ok_of_compareFields {old new : Json} {oldRequired newRequired : List Key}
    {c : FieldChanges}
    (h : compareFields (propertiesOf old) (propertiesOf new) oldRequired newRequired = .ok c) :
    ∀ k ∈ intersection (fieldsOf old) (fieldsOf new),
      ∃ r, typeChange (propertiesOf old) (propertiesOf new) k = .ok r := by
  obtain ⟨oldFields, hold, h⟩ := bind_eq_ok.mp h
  obtain ⟨newFields, hnew, h⟩ := bind_eq_ok.mp h
  obtain ⟨removed, -, h⟩ := bind_eq_ok.mp h
  obtain ⟨added, -, h⟩ := bind_eq_ok.mp h
  obtain ⟨common, hcommon, h⟩ := bind_eq_ok.mp h
  obtain ⟨changes, hchanges, -⟩ := bind_eq_ok.mp h
  have holdFields : fieldsOf old = oldFields := by rw [fieldsOf, hold]; rfl
  have hnewFields : fieldsOf new = newFields := by rw [fieldsOf, hnew]; rfl
  intro k hk
  rw [holdFields, hnewFields] at hk
  exact exists_mapM_eq_ok.mp ⟨changes, hchanges⟩ k ((mem_of_pySorted hcommon k).mpr hk)

/-- The check compares the fields of every schema that both documents have. -/
theorem comparable_of_ok {old new : Json} {r : Classified}
    (h : OpenapiDiff.diffOpenapiDocuments floatRepr old new = .ok r) :
    AllCommon old new fun a b => ∀ k ∈ intersection (fieldsOf a) (fieldsOf b),
      ∃ r, typeChange (propertiesOf a) (propertiesOf b) k = .ok r := by
  obtain ⟨diffs, hdiffs, -⟩ := bind_eq_ok.mp h
  intro name hname
  obtain ⟨d, hd⟩ := exists_mapM_eq_ok.mp ⟨diffs, hdiffs⟩ name hname
  obtain ⟨oldRequired, -, hd⟩ := bind_eq_ok.mp hd
  obtain ⟨newRequired, -, hd⟩ := bind_eq_ok.mp hd
  obtain ⟨c, hc, -⟩ := bind_eq_ok.mp hd
  exact typeChange_ok_of_compareFields hc

/-- A step that the check approves. -/
def Passes (floatRepr : ℚ → String) (old new : Json) : Prop :=
  ∃ r, OpenapiDiff.diffOpenapiDocuments floatRepr old new = .ok r ∧ r.breaking = false

theorem Passes.approved {old new : Json} (h : Passes floatRepr old new) :
    Approved (Misread floatRepr) old new := by
  obtain ⟨r, hr, hbreaking⟩ := h
  have hnone := (openapiDiff_breaking hr).not.mp (by simp [hbreaking])
  obtain ⟨hschemas, hcommon⟩ := not_or.mp hnone
  have hsafe : AllCommon old new fun a b => ¬FieldRemoved a b ∧ ¬TypeChanged a b ∧
      ∀ k, NewlyRequired a b k → Misread floatRepr k := by
    intro name hname
    refine ⟨fun hremoved => hcommon ⟨name, hname, .inl hremoved⟩,
      fun hchanged => hcommon ⟨name, hname, .inr (.inl hchanged)⟩, fun k hk => ?_⟩
    by_contra hread
    exact hcommon ⟨name, hname, .inr (.inr ⟨k, hk, Bool.eq_false_of_not_eq_true hread⟩)⟩
  refine ⟨⟨fun name hname => ?_, fun name hname => ?_⟩, fun name hname k hk => ?_⟩
  · by_contra hmissing
    exact hschemas ⟨name, mem_namesBeyond.mpr ⟨hname, hmissing⟩⟩
  · exact ⟨(hsafe name hname).1, (hsafe name hname).2.2⟩
  · obtain ⟨e, he⟩ := comparable_of_ok hr name hname k hk
    cases e with
    | none => exact he
    | some e => exact absurd ⟨k, hk, e, he⟩ (hsafe name hname).2.1

/-- **A chain of approved documents.** When the check approves every step of a chain, it refuses
the change from the first document to the last only because the type of some field differs, and
then some document in between has that field without a type. -/
theorem approved_chain (hfloat : ∀ q, contains "no longer" (floatRepr q) = false)
    {first last : Json} {between : List Json}
    (hchain : List.IsChain (Passes floatRepr) (first :: (between ++ [last]))) {r : Classified}
    (h : OpenapiDiff.diffOpenapiDocuments floatRepr first last = .ok r) :
    (r.breaking = true ↔ SomeCommon first last TypeChanged) ∧
    (r.breaking = true → ∃ document ∈ between, ∃ name ∈ schemaNames first, ∃ field t t',
      HasType (schemaAt (extractSchema first) name) field t ∧
      HasType (schemaAt (extractSchema last) name) field t' ∧
      t ≠ "" ∧ t' ≠ "" ∧ t ≠ t' ∧
      HasType (schemaAt (extractSchema document) name) field "") := by
  have happroved := hchain.imp fun old new hpass => Passes.approved hpass
  have hkept := Kept.of_chain (Misread.congr hfloat) happroved
  have hiff : r.breaking = true ↔ SomeCommon first last TypeChanged := by
    rw [openapiDiff_breaking h]
    constructor
    · rintro (⟨name, hname⟩ | ⟨name, hname, hremoved | hchanged | ⟨k, hk, hread⟩⟩)
      · obtain ⟨hfirst, hlast⟩ := mem_namesBeyond.mp hname
        exact absurd (hkept.schemas name hfirst) hlast
      · exact absurd hremoved (hkept.kept name hname).fields
      · exact ⟨name, hname, hchanged⟩
      · have hmisread := (hkept.kept name hname).required k hk
        rw [Misread, hread] at hmisread
        cases hmisread
    · rintro ⟨name, hname, hchanged⟩
      exact .inr ⟨name, hname, .inr (.inl hchanged)⟩
  refine ⟨hiff, fun hbreaking => ?_⟩
  obtain ⟨name, hname, k, hk, e, he⟩ := hiff.mp hbreaking
  have hfirst := (mem_commonNames.mp hname).1
  obtain ⟨t, t', ht, ht', hsome⟩ := typeChange_eq_ok he
  split at hsome
  next hne =>
    obtain ⟨document, hmem, huntyped⟩ := exists_untyped_of_chain happroved hfirst
      (has_of_mem_intersection hk).1 ht ht' hne.1 hne.2.1 hne.2.2
    exact ⟨document, hmem, name, hfirst, k.value, t, t', ht, ht', hne.1, hne.2.1, hne.2.2, huntyped⟩
  next => cases hsome

end Check

/-- A schema whose field has no type. -/
def sampleUntyped : Json := .obj [("properties", .obj [("id", .obj [])])]

/-- A field loses its type in one step and gets another one in the next. -/
theorem approved_chain_untyped : ∃ r, OpenapiDiff.diffOpenapiDocuments sampleFloatRepr
    (sampleDocument (sampleSchema "integer")) (sampleDocument (sampleSchema "string")) = .ok r ∧
    r.breaking = true ∧
    SomeCommon (sampleDocument (sampleSchema "integer")) (sampleDocument (sampleSchema "string"))
      TypeChanged := by
  have hpass : List.IsChain (Passes sampleFloatRepr) (sampleDocument (sampleSchema "integer") ::
      ([sampleDocument sampleUntyped] ++ [sampleDocument (sampleSchema "string")])) :=
    .cons_cons ⟨_, rfl, by decide⟩
      (.cons_cons ⟨_, rfl, by decide⟩ (.singleton _))
  have hdirect : ∃ r, OpenapiDiff.diffOpenapiDocuments sampleFloatRepr
      (sampleDocument (sampleSchema "integer")) (sampleDocument (sampleSchema "string")) = .ok r ∧
        r.breaking = true := ⟨_, rfl, by decide⟩
  have hfloat : ∀ q, contains "no longer" (sampleFloatRepr q) = false := by
    have hzero : contains "no longer" "0.0" = false := by decide
    exact fun _ => hzero
  obtain ⟨r, hr, hbreaking⟩ := hdirect
  exact ⟨r, hr, hbreaking, (approved_chain hfloat hpass hr).1.mp hbreaking⟩

end Driftgate.Scripts
