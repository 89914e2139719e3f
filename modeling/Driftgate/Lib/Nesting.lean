import Mathlib.Data.List.Infix

/-!
# Nested texts

A text with brackets and quoted parts, in which brackets do not count and an escape takes the symbol
after it. Scanning the text keeps the depth of the brackets. A text that starts and ends at one depth
and never goes below it can be put beside another one, and between brackets; what stands between two
brackets is deeper than they are, so no proper part from the opening bracket on ends where it began.
-/

namespace Driftgate.Lib

/-- What a symbol does to a scan. -/
inductive Role
  | plain
  | opening
  | closing
  | quote
  | escape
  deriving DecidableEq

/-- Where a scan stands: outside of quoted text, inside of it, or after an escape. -/
inductive Place
  | outside (depth : ℕ)
  | inside (depth : ℕ)
  | escaped (depth : ℕ)
  deriving DecidableEq

def Place.depth : Place → ℕ
  | outside d => d
  | inside d => d
  | escaped d => d

def Place.step : Place → Role → Place
  | outside d, .opening => outside (d + 1)
  | outside d, .closing => outside (d - 1)
  | outside d, .quote => inside d
  | outside d, _ => outside d
  | inside d, .quote => outside d
  | inside d, .escape => escaped d
  | inside d, _ => inside d
  | escaped d, _ => inside d

section

variable {γ : Type*} (role : γ → Role)

/-- Where a scan ends. -/
def scan (place : Place) (text : List γ) : Place :=
  text.foldl (fun place c => place.step (role c)) place

/-- Every place that the scan comes to has a property. -/
def Stays (p : Place → Prop) : Place → List γ → Prop
  | place, [] => p place
  | place, c :: text => p place ∧ Stays p (place.step (role c)) text

/-- A text after which the scan is where it was, and on which it keeps to some places. -/
structure Keeps (start : ℕ → Place) (within : ℕ → Place → Prop) (text : List γ) : Prop where
  back : ∀ d, scan role (start d) text = start d
  stays : ∀ d, Stays role (within d) (start d) text

/-- A text that closes each of its brackets and quotes: the scan never goes below its depth. -/
abbrev Balanced (text : List γ) : Prop := Keeps role .outside (fun d place => d ≤ place.depth) text

/-- A text that stays in quotes. -/
abbrev Quoted (text : List γ) : Prop :=
  Keeps role .inside (fun d place => place = .inside d ∨ place = .escaped d) text

variable {role} {c o q : γ} {u v : List γ} {d : ℕ} {place : Place} {start : ℕ → Place}
  {p p' : Place → Prop} {within : ℕ → Place → Prop}

@[simp] theorem scan_nil (place : Place) : scan role place [] = place := rfl

@[simp] theorem scan_cons (place : Place) (c : γ) (text : List γ) :
    scan role place (c :: text) = scan role (place.step (role c)) text := rfl

@[simp] theorem scan_append (place : Place) (u v : List γ) :
    scan role place (u ++ v) = scan role (scan role place u) v := List.foldl_append

theorem Stays.mono (h : Stays role p place u) (hp : ∀ place, p place → p' place) :
    Stays role p' place u := by
  induction u generalizing place with
  | nil => exact hp place h
  | cons c u ih => exact ⟨hp place h.1, ih h.2⟩

theorem Stays.append (hu : Stays role p place u) (hv : Stays role p (scan role place u) v) :
    Stays role p place (u ++ v) := by
  induction u generalizing place with
  | nil => exact hv
  | cons c u ih => exact ⟨hu.1, ih hu.2 hv⟩

/-- Every part of the text from its start on ends at such a place. -/
theorem Stays.of_initial (h : Stays role p place u) (hv : v <+: u) : p (scan role place v) := by
  induction v generalizing place u with
  | nil =>
    cases u with
    | nil => exact h
    | cons c u => exact h.1
  | cons c v ih =>
    obtain ⟨w, rfl⟩ := hv
    exact ih h.2 (List.prefix_append v w)

/-! ### Putting texts together -/

theorem Keeps.nil (hstart : ∀ d, within d (start d)) : Keeps role start within [] :=
  ⟨fun _ => rfl, hstart⟩

theorem Keeps.append (hu : Keeps role start within u) (hv : Keeps role start within v) :
    Keeps role start within (u ++ v) := by
  refine ⟨fun d => ?_, fun d => (hu.stays d).append ?_⟩
  · rw [scan_append, hu.back, hv.back]
  · rw [hu.back]
    exact hv.stays d

theorem Keeps.flatten (hstart : ∀ d, within d (start d)) {texts : List (List γ)}
    (h : ∀ u ∈ texts, Keeps role start within u) : Keeps role start within texts.flatten := by
  induction texts with
  | nil => exact .nil hstart
  | cons u texts ih =>
    rw [List.forall_mem_cons] at h
    exact h.1.append (ih h.2)

theorem Keeps.intercalate (hstart : ∀ d, within d (start d)) {texts : List (List γ)}
    (hu : Keeps role start within u) (h : ∀ v ∈ texts, Keeps role start within v) :
    Keeps role start within (u.intercalate texts) := by
  refine .flatten hstart fun v hv => ?_
  obtain hv | rfl : v ∈ texts ∨ v = u := by
    induction texts with
    | nil => exact absurd hv List.not_mem_nil
    | cons w texts ih =>
      cases texts with
      | nil => exact .inl hv
      | cons w' texts =>
        rw [List.intersperse_cons_cons] at hv
        obtain rfl | hv := List.mem_cons.mp hv
        · exact .inl List.mem_cons_self
        · obtain rfl | hv := List.mem_cons.mp hv
          · exact .inr rfl
          · exact (ih (fun x hx => h x (List.mem_cons_of_mem _ hx)) hv).imp_left
              (List.mem_cons_of_mem _)
  · exact h v hv
  · exact hu

theorem Balanced.nil : Balanced role [] := Keeps.nil Nat.le_refl

theorem Quoted.nil : Quoted role [] := Keeps.nil fun _ => .inl rfl

/-- What every symbol of a given text has can be checked. -/
theorem forall_mem_of_all {p : γ → Prop} [DecidablePred p]
    (h : (u.all fun c => decide (p c)) = true) : ∀ c ∈ u, p c :=
  fun c hc => of_decide_eq_true (List.all_eq_true.mp h c hc)

/-- Symbols without a meaning. -/
theorem Balanced.plain (h : ∀ c ∈ u, role c = .plain) : Balanced role u := by
  induction u with
  | nil => exact .nil
  | cons c u ih =>
    rw [List.forall_mem_cons] at h
    obtain ⟨hback, hstays⟩ := ih h.2
    refine ⟨fun d => ?_, fun d => ⟨Nat.le_refl d, ?_⟩⟩
    · rw [scan_cons, h.1]
      exact hback d
    · rw [h.1]
      exact hstays d

/-- **A text between brackets.** -/
theorem Balanced.bracketed (ho : role o = .opening) (hc : role c = .closing)
    (h : Balanced role u) : Balanced role (o :: (u ++ [c])) := by
  have hdeep : ∀ d, scan role (Place.outside d) (o :: u) = .outside (d + 1) := by
    intro d
    rw [scan_cons, ho]
    exact h.back (d + 1)
  have hsplit : o :: (u ++ [c]) = (o :: u) ++ [c] := rfl
  rw [hsplit]
  refine ⟨fun d => ?_, fun d => Stays.append ⟨Nat.le_refl d, ?_⟩ ?_⟩
  · rw [scan_append, hdeep, scan_cons, hc]
    rfl
  · rw [ho]
    exact (h.stays (d + 1)).mono fun _ => Nat.le_of_succ_le
  · rw [hdeep]
    refine ⟨Nat.le_succ d, ?_⟩
    rw [hc]
    exact Nat.le_refl d

/-- **A text between quotes.** -/
theorem Balanced.quoted (hq : role q = .quote) (h : Quoted role u) :
    Balanced role (q :: (u ++ [q])) := by
  have hin : ∀ d, scan role (Place.outside d) (q :: u) = .inside d := by
    intro d
    rw [scan_cons, hq]
    exact h.back d
  have hsplit : q :: (u ++ [q]) = (q :: u) ++ [q] := rfl
  rw [hsplit]
  refine ⟨fun d => ?_, fun d => Stays.append ⟨Nat.le_refl d, ?_⟩ ?_⟩
  · rw [scan_append, hin, scan_cons, hq]
    rfl
  · rw [hq]
    refine (h.stays d).mono fun place hplace => ?_
    obtain rfl | rfl := hplace
    · exact Nat.le_refl d
    · exact Nat.le_refl d
  · rw [hin]
    refine ⟨Nat.le_refl d, ?_⟩
    rw [hq]
    exact Nat.le_refl d

/-- A symbol within quotes that neither ends them nor is an escape. -/
theorem Quoted.symbol (hquote : role c ≠ .quote) (hescape : role c ≠ .escape) :
    Quoted role [c] := by
  have hstep : ∀ d, (Place.inside d).step (role c) = .inside d := by
    intro d
    cases hr : role c with
    | quote => exact absurd hr hquote
    | escape => exact absurd hr hescape
    | _ => rfl
  exact ⟨fun d => hstep d, fun d => ⟨.inl rfl, .inl (hstep d)⟩⟩

theorem Quoted.plain (h : ∀ c ∈ u, role c = .plain) : Quoted role u := by
  induction u with
  | nil => exact .nil
  | cons c u ih =>
    rw [List.forall_mem_cons] at h
    have hc : Quoted role [c] := .symbol (by rw [h.1]; decide) (by rw [h.1]; decide)
    exact hc.append (ih h.2)

/-- An escape and the symbol it takes. -/
theorem Quoted.escaped (hescape : role q = .escape) (c : γ) : Quoted role [q, c] := by
  refine ⟨fun d => ?_, fun d => ⟨.inl rfl, ?_⟩⟩
  · rw [scan_cons, hescape]
    rfl
  · rw [hescape]
    exact ⟨.inr rfl, .inl rfl⟩

/-! ### Cut texts -/

/-- A proper part, from its start on, of a text with a last symbol. -/
theorem prefix_of_proper (hv : v <+: o :: (u ++ [c])) (hne : v ≠ [])
    (hproper : v ≠ o :: (u ++ [c])) : ∃ w, v = o :: w ∧ w <+: u := by
  cases v with
  | nil => exact absurd rfl hne
  | cons o' v =>
    obtain ⟨rfl, hrest⟩ := List.cons_prefix_cons.mp hv
    obtain heq | hinner := List.prefix_concat_iff.mp hrest
    · exact absurd (congrArg (List.cons o') heq) hproper
    · exact ⟨v, rfl, hinner⟩

/-- **Cut between brackets.** -/
theorem Balanced.not_of_initial (ho : role o = .opening) (h : Balanced role u)
    (hv : v <+: o :: (u ++ [c])) (hne : v ≠ []) (hproper : v ≠ o :: (u ++ [c])) :
    ¬Balanced role v := by
  intro hbalanced
  obtain ⟨w, rfl, hw⟩ := prefix_of_proper hv hne hproper
  have hdepth := (h.stays 1).of_initial hw
  have hback := hbalanced.back 0
  rw [scan_cons, ho] at hback
  have hzero : (scan role (Place.outside 1) w).depth = 0 := congrArg Place.depth hback
  omega

/-- **Cut between quotes.** -/
theorem Quoted.not_of_initial (hq : role q = .quote) (h : Quoted role u)
    (hv : v <+: q :: (u ++ [q])) (hne : v ≠ []) (hproper : v ≠ q :: (u ++ [q])) :
    ¬Balanced role v := by
  intro hbalanced
  obtain ⟨w, rfl, hw⟩ := prefix_of_proper hv hne hproper
  have hback := hbalanced.back 0
  rw [scan_cons, hq] at hback
  obtain hplace | hplace := (h.stays 0).of_initial hw
  · cases hplace.symm.trans hback
  · cases hplace.symm.trans hback

end

end Driftgate.Lib
