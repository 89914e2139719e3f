import Mathlib.Data.List.Basic
import Mathlib.Data.List.Forall2
import Mathlib.Data.Set.Prod

/-!
# Codes that can be read back

A code writes values as texts, one after the other. `ReadsBack f code a` says that a text starting
with the code of `a` starts with the code of no value that differs from `a` under `f`, and that it
has the same rest whichever way it is read. `f` is what the code keeps of a value; for a code that
keeps everything it is the identity.

The codes of a data format are built from a few pieces: a pair with a separator, a list up to a
closing symbol, a list with separators and a closing symbol. Each piece reads back what its parts
do.
-/

namespace Driftgate.Lib

variable {α α' β β' γ : Type*} {f : α → β} {g : α' → β'} {code : α → List γ}
  {code' : α' → List γ} {close sep : γ}

/-- Of a text that starts with the code of `a` one can tell `f a` and what follows. -/
def ReadsBack (f : α → β) (code : α → List γ) (a : α) : Prop :=
  ∀ b x y, code a ++ x = code b ++ y → f a = f b ∧ x = y

/-- Equal codes are codes of the same value. -/
theorem ReadsBack.eq {a b : α} (h : ReadsBack f code a) (he : code a = code b) : f a = f b :=
  (h b [] [] (by simp [he])).1

/-- A fixed symbol in front changes nothing. -/
theorem ReadsBack.cons {a : α} (h : ReadsBack f code a) (c : γ) :
    ReadsBack f (fun a => c :: code a) a :=
  fun b x y he => h b x y (List.cons.inj he).2

/-- So does a fixed text in front. -/
theorem ReadsBack.lead {a : α} (h : ReadsBack f code a) (w : List γ) :
    ReadsBack f (fun a => w ++ code a) a := by
  intro b x y he
  simp only [List.append_assoc] at he
  exact h b x y (List.append_cancel_left he)

/-- And a fixed text behind. -/
theorem ReadsBack.trail {a : α} (h : ReadsBack f code a) (w : List γ) :
    ReadsBack f (fun a => code a ++ w) a := by
  intro b x y he
  simp only [List.append_assoc] at he
  obtain ⟨hf, hrest⟩ := h b _ _ he
  exact ⟨hf, List.append_cancel_left hrest⟩

/-- What is known of a value can be translated. -/
theorem ReadsBack.mono {f' : α → β'} {a : α} (h : ReadsBack f code a)
    (hf : ∀ b, f a = f b → f' a = f' b) : ReadsBack f' code a := by
  intro b x y he
  obtain ⟨heq, hxy⟩ := h b x y he
  exact ⟨hf b heq, hxy⟩

/-- The values of a function are read back where its arguments are. -/
theorem ReadsBack.comp {g : α' → α} {a : α'} (h : ReadsBack f code (g a)) :
    ReadsBack (f ∘ g) (code ∘ g) a :=
  fun b x y he => h (g b) x y he

/-- A value, a separator, another value. -/
theorem ReadsBack.pair {a : α} {a' : α'} (h : ReadsBack f code a) (h' : ReadsBack g code' a')
    (sep : γ) : ReadsBack (Prod.map f g) (fun e : α × α' => code e.1 ++ sep :: code' e.2)
      (a, a') := by
  intro b x y he
  simp only [List.append_assoc, List.cons_append] at he
  obtain ⟨hf, hrest⟩ := h b.1 _ _ he
  obtain ⟨hg, hxy⟩ := h' b.2 x y (List.cons.inj hrest).2
  exact ⟨Prod.ext hf hg, hxy⟩

/-- Every code word starts with a symbol other than the closing one. -/
def AvoidsHead (close : γ) (code : α → List γ) : Prop :=
  ∀ a, ∃ c w, code a = c :: w ∧ c ≠ close

/-- The code of an optional value, with a word of its own for none. -/
def optionCode (none : List γ) (code : α → List γ) : Option α → List γ
  | .none => none
  | .some a => code a

/-- **Optional values.** The word for none starts with a symbol that no other word starts with. -/
theorem ReadsBack.option {c : γ} (w : List γ) (hhead : AvoidsHead c code) {o : Option α}
    (h : ∀ a ∈ o, ReadsBack f code a) :
    ReadsBack (Option.map f) (optionCode (c :: w) code) o := by
  intro o' x y he
  cases o with
  | none =>
    cases o' with
    | none => exact ⟨rfl, List.append_cancel_left he⟩
    | some b =>
      obtain ⟨d, w', hd, hne⟩ := hhead b
      simp only [optionCode, hd, List.cons_append, List.cons.injEq] at he
      exact absurd he.1.symm hne
  | some a =>
    cases o' with
    | none =>
      obtain ⟨d, w', hd, hne⟩ := hhead a
      simp only [optionCode, hd, List.cons_append, List.cons.injEq] at he
      exact absurd he.1 hne
    | some b =>
      obtain ⟨hf, hxy⟩ := h a rfl b x y he
      exact ⟨congrArg some hf, hxy⟩

/-- **Lists up to a closing symbol.** -/
theorem ReadsBack.closed (hhead : AvoidsHead close code) {l : List α}
    (h : ∀ a ∈ l, ReadsBack f code a) :
    ReadsBack (List.map f) (fun l => l.flatMap code ++ [close]) l := by
  induction l with
  | nil =>
    intro l' x y he
    cases l' with
    | nil => exact ⟨rfl, (List.cons.inj he).2⟩
    | cons b l' =>
      obtain ⟨c, w, hc, hne⟩ := hhead b
      simp only [List.flatMap_cons, List.flatMap_nil, hc, List.nil_append, List.cons_append,
        List.cons.injEq] at he
      exact absurd he.1.symm hne
  | cons a l ih =>
    intro l' x y he
    rw [List.forall_mem_cons] at h
    cases l' with
    | nil =>
      obtain ⟨c, w, hc, hne⟩ := hhead a
      simp only [List.flatMap_cons, List.flatMap_nil, hc, List.nil_append, List.cons_append,
        List.cons.injEq] at he
      exact absurd he.1 hne
    | cons b l' =>
      simp only [List.flatMap_cons, List.append_assoc] at he
      obtain ⟨hf, hrest⟩ := h.1 b _ _ he
      obtain ⟨hl, hxy⟩ := ih h.2 l' x y (by simpa using hrest)
      exact ⟨by simp only [List.map_cons, hf, hl], hxy⟩

/-- The items of a list with separators between them and a closing symbol. -/
def sepBy (sep close : γ) (code : α → List γ) (l : List α) : List γ :=
  [sep].intercalate (l.map code) ++ [close]

theorem intercalate_map_cons (s : List γ) (code : α → List γ) (a : α) (l : List α) :
    s.intercalate ((a :: l).map code) = code a ++ l.flatMap fun b => s ++ code b := by
  induction l generalizing a with
  | nil => simp [List.intercalate]
  | cons b l ih =>
    have hb := ih b
    simp only [List.map_cons, List.intercalate, List.intersperse_cons_cons, List.flatten_cons,
      List.flatMap_cons] at hb ⊢
    rw [hb]
    simp

theorem sepBy_cons (sep close : γ) (code : α → List γ) (a : α) (l : List α) :
    sepBy sep close code (a :: l) = code a ++ (l.flatMap (fun b => sep :: code b) ++ [close]) := by
  rw [sepBy, intercalate_map_cons, List.append_assoc]
  rfl

/-- **Lists with separators and a closing symbol.** A separator may go on with a fixed text. -/
theorem ReadsBack.intercalate (w : List γ) (hne : sep ≠ close) (hhead : AvoidsHead close code)
    {l : List α} (h : ∀ a ∈ l, ReadsBack f code a) :
    ReadsBack (List.map f) (fun l => (sep :: w).intercalate (l.map code) ++ [close]) l := by
  intro l' x y he
  have hnil : (sep :: w).intercalate (([] : List α).map code) = [] := rfl
  cases l with
  | nil =>
    cases l' with
    | nil => exact ⟨rfl, List.append_cancel_left he⟩
    | cons b l' =>
      obtain ⟨c, u, hc, hcne⟩ := hhead b
      simp only [hnil, intercalate_map_cons, hc, List.nil_append, List.cons_append,
        List.cons.injEq] at he
      exact absurd he.1.symm hcne
  | cons a l =>
    rw [List.forall_mem_cons] at h
    cases l' with
    | nil =>
      obtain ⟨c, u, hc, hcne⟩ := hhead a
      simp only [hnil, intercalate_map_cons, hc, List.nil_append, List.cons_append,
        List.cons.injEq] at he
      exact absurd he.1 hcne
    | cons b l' =>
      simp only [intercalate_map_cons, List.append_assoc] at he
      obtain ⟨hf, hrest⟩ := h.1 b _ _ he
      -- the separators belong to the items that they precede
      have hsep : AvoidsHead close fun b => sep :: w ++ code b :=
        fun b => ⟨sep, w ++ code b, rfl, hne⟩
      have htail := ReadsBack.closed hsep fun b hb => (h.2 b hb).lead (sep :: w)
      obtain ⟨hl, hxy⟩ := htail l' x y (by simpa only [List.append_assoc] using hrest)
      exact ⟨by simp only [List.map_cons, hf, hl], hxy⟩

theorem ReadsBack.sepBy (hne : sep ≠ close) (hhead : AvoidsHead close code) {l : List α}
    (h : ∀ a ∈ l, ReadsBack f code a) :
    ReadsBack (List.map f) (Lib.sepBy sep close code) l :=
  ReadsBack.intercalate [] hne hhead h

/-! ### Codes that can be read back where they stand

A code word may need to be followed by something that no longer code word goes on with.
`ReadsBackAmong D R code a` is `ReadsBack` for the values of `D` and the rests of `R` only. The
closing symbols and separators of a list put a rest of `R` behind each of its items.
-/

section Among

variable {D : Set α} {R : Set (List γ)}

/-- Among the values of `D`, of a text that starts with the code of `a` and goes on with a rest of
`R` one can tell `a` and the rest. -/
def ReadsBackAmong (D : Set α) (R : Set (List γ)) (code : α → List γ) (a : α) : Prop :=
  ∀ b ∈ D, ∀ x ∈ R, ∀ y ∈ R, code a ++ x = code b ++ y → a = b ∧ x = y

/-- A fixed text behind makes other rests possible. -/
theorem ReadsBackAmong.trail {R' : Set (List γ)} {a : α} (h : ReadsBackAmong D R code a)
    (w : List γ) (hw : ∀ x ∈ R', w ++ x ∈ R) :
    ReadsBackAmong D R' (fun a => code a ++ w) a := by
  intro b hb x hx y hy he
  simp only [List.append_assoc] at he
  obtain ⟨hab, hrest⟩ := h b hb _ (hw x hx) _ (hw y hy) he
  exact ⟨hab, List.append_cancel_left hrest⟩

/-- **Lists up to the end of the text.** -/
theorem ReadsBackAmong.flatMap_eq (hne : ∀ a, code a ≠ []) {l l' : List α}
    (h : ∀ a ∈ l, ReadsBackAmong D Set.univ code a) (hl' : ∀ b ∈ l', b ∈ D)
    (he : l.flatMap code = l'.flatMap code) : l = l' := by
  induction l generalizing l' with
  | nil =>
    cases l' with
    | nil => rfl
    | cons b l' => exact absurd (List.append_eq_nil_iff.mp he.symm).1 (hne b)
  | cons a l ih =>
    cases l' with
    | nil => exact absurd (List.append_eq_nil_iff.mp he).1 (hne a)
    | cons b l' =>
      rw [List.forall_mem_cons] at h hl'
      obtain ⟨hab, hrest⟩ := h.1 b hl'.1 _ trivial _ trivial he
      rw [hab, ih h.2 hl'.2 hrest]

/-- One value after another, where the second one is a rest that the first one can have. -/
theorem ReadsBackAmong.pair {D' : Set α'} {a : α} {a' : α'} (h : ReadsBackAmong D R code a)
    (h' : ReadsBackAmong D' R code' a') (ha' : a' ∈ D')
    (hrest : ∀ b ∈ D', ∀ x ∈ R, code' b ++ x ∈ R) :
    ReadsBackAmong (D ×ˢ D') R (fun e : α × α' => code e.1 ++ code' e.2) (a, a') := by
  rintro ⟨b, b'⟩ ⟨hb, hb'⟩ x hx y hy he
  simp only [List.append_assoc] at he
  obtain ⟨hab, htail⟩ := h b hb _ (hrest a' ha' x hx) _ (hrest b' hb' y hy) he
  obtain ⟨hab', hxy⟩ := h' b' hb' x hx y hy htail
  exact ⟨Prod.ext hab hab', hxy⟩

/-- The items of a list after the first one, each with the separator in front of it. -/
def separated (sep close : γ) (code : α → List γ) (l : List α) : List γ :=
  l.flatMap (fun a => sep :: code a) ++ [close]

theorem separated_cons (sep close : γ) (code : α → List γ) (a : α) (l : List α) :
    separated sep close code (a :: l) = sep :: (code a ++ separated sep close code l) := by
  simp only [separated, List.flatMap_cons, List.cons_append, List.append_assoc]

theorem separated_mem (hclose : ∀ x ∈ R, close :: x ∈ R) {l : List α}
    (hsep : ∀ a ∈ l, ∀ x ∈ R, sep :: (code a ++ x) ∈ R) {x : List γ} (hx : x ∈ R) :
    separated sep close code l ++ x ∈ R := by
  induction l with
  | nil => exact hclose x hx
  | cons a l ih =>
    rw [List.forall_mem_cons] at hsep
    rw [separated_cons, List.cons_append, List.append_assoc]
    exact hsep.1 _ (ih hsep.2)

theorem ReadsBackAmong.separated (hne : sep ≠ close) (hclose : ∀ x ∈ R, close :: x ∈ R)
    (hsep : ∀ b ∈ D, ∀ x ∈ R, sep :: (code b ++ x) ∈ R) {l : List α} (hl : ∀ a ∈ l, a ∈ D)
    (h : ∀ a ∈ l, ReadsBackAmong D R code a) :
    ReadsBackAmong {l | ∀ a ∈ l, a ∈ D} R (Lib.separated sep close code) l := by
  induction l with
  | nil =>
    intro l' _ x _ y _ he
    cases l' with
    | nil => exact ⟨rfl, (List.cons.inj he).2⟩
    | cons b l' => exact absurd (List.cons.inj he).1.symm hne
  | cons a l ih =>
    intro l' hl' x hx y hy he
    rw [List.forall_mem_cons] at h hl
    cases l' with
    | nil => exact absurd (List.cons.inj he).1 hne
    | cons b l' =>
      rw [separated_cons, separated_cons] at he
      have hpair := h.1.pair (ih hl.2 h.2) hl.2 fun l hl x hx =>
        separated_mem hclose (fun c hc => hsep c (hl c hc)) hx
      obtain ⟨hab, hxy⟩ := hpair (b, l') (List.forall_mem_cons.mp hl') x hx y hy
        (List.cons.inj he).2
      obtain ⟨hab, hll⟩ := Prod.mk.inj hab
      exact ⟨by rw [hab, hll], hxy⟩

/-- **Lists with separators and a closing symbol.** No item starts with what a closing symbol and a
rest are. -/
theorem ReadsBackAmong.sepBy (hne : sep ≠ close) (hclose : ∀ x ∈ R, close :: x ∈ R)
    (hsep : ∀ b ∈ D, ∀ x ∈ R, sep :: (code b ++ x) ∈ R)
    (hend : ∀ b ∈ D, ∀ x ∈ R, ∀ y, close :: x ≠ code b ++ y) {l : List α} (hl : ∀ a ∈ l, a ∈ D)
    (h : ∀ a ∈ l, ReadsBackAmong D R code a) :
    ReadsBackAmong {l | ∀ a ∈ l, a ∈ D} R (Lib.sepBy sep close code) l := by
  intro l' hl' x hx y hy he
  have hnil : Lib.sepBy sep close code [] = [close] := rfl
  cases l with
  | nil =>
    cases l' with
    | nil => exact ⟨rfl, List.append_cancel_left he⟩
    | cons b l' =>
      rw [hnil, sepBy_cons, List.append_assoc] at he
      exact absurd he (hend b (hl' b List.mem_cons_self) x hx _)
  | cons a l =>
    rw [List.forall_mem_cons] at h hl
    cases l' with
    | nil =>
      rw [hnil, sepBy_cons, List.append_assoc] at he
      exact absurd he.symm (hend a hl.1 y hy _)
    | cons b l' =>
      rw [sepBy_cons, sepBy_cons] at he
      have htail := ReadsBackAmong.separated hne hclose hsep hl.2 h.2
      have hpair := h.1.pair htail hl.2 fun l hl x hx =>
        separated_mem hclose (fun c hc => hsep c (hl c hc)) hx
      obtain ⟨hab, hxy⟩ := hpair (b, l') (List.forall_mem_cons.mp hl') x hx y hy he
      obtain ⟨hab, hll⟩ := Prod.mk.inj hab
      exact ⟨by rw [hab, hll], hxy⟩

end Among

end Driftgate.Lib
