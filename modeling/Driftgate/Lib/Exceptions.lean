import Mathlib.Data.List.Forall2

/-!
# Computations that may raise

When a sequence of steps, or a loop over a list, goes through: exactly when each of its steps does.
-/

namespace Driftgate.Lib

universe u

variable {ε : Type*} {α β : Type u}

/-- Two steps go through when the first does and the second does on its result. -/
theorem bind_eq_ok {x : Except ε α} {f : α → Except ε β} {b : β} :
    (x >>= f) = .ok b ↔ ∃ a, x = .ok a ∧ f a = .ok b := by
  cases x with
  | error e => exact iff_of_false (fun h => by cases h) (by rintro ⟨a, h, -⟩; cases h)
  | ok a =>
    constructor
    · intro h
      exact ⟨a, rfl, h⟩
    · rintro ⟨_, ⟨⟩, h⟩
      exact h

/-- A function of the result goes through when the computation does. -/
theorem map_eq_ok {x : Except ε α} {f : α → β} {b : β} :
    x.map f = .ok b ↔ ∃ a, x = .ok a ∧ f a = b := by
  cases x with
  | error e => exact iff_of_false (fun h => by cases h) (by rintro ⟨a, h, -⟩; cases h)
  | ok a =>
    constructor
    · intro h
      exact ⟨a, rfl, Except.ok.inj h⟩
    · rintro ⟨_, ⟨⟩, h⟩
      exact congrArg Except.ok h

/-- Of two computations whose results agree in some part, both go through or neither does. -/
theorem exists_ok_congr {x y : Except ε α} {f : α → β} (h : x.map f = y.map f) :
    (∃ a, x = .ok a) ↔ ∃ a, y = .ok a := by
  have hmap : ∀ {x : Except ε α}, (∃ a, x = .ok a) ↔ ∃ b, x.map f = .ok b := by
    intro x
    simp only [map_eq_ok]
    exact ⟨fun ⟨a, ha⟩ => ⟨f a, a, ha, rfl⟩, fun ⟨_, a, ha, _⟩ => ⟨a, ha⟩⟩
  rw [hmap, hmap, h]

/-- A loop with an accumulator goes through when its first step does and the others do from there. -/
theorem foldlM_cons_eq_ok {f : β → α → Except ε β} {a : α} {l : List α} {b c : β} :
    (a :: l).foldlM f b = .ok c ↔ ∃ d, f b a = .ok d ∧ l.foldlM f d = .ok c := by
  rw [List.foldlM_cons, bind_eq_ok]

theorem foldlM_append_eq_ok {f : β → α → Except ε β} {l l' : List α} {b c : β} :
    (l ++ l').foldlM f b = .ok c ↔ ∃ d, l.foldlM f b = .ok d ∧ l'.foldlM f d = .ok c := by
  rw [List.foldlM_append, bind_eq_ok]

/-- A loop goes through when each of its steps does. -/
theorem mapM_eq_ok {f : α → Except ε β} {l : List α} {bs : List β} :
    l.mapM f = .ok bs ↔ List.Forall₂ (fun a b => f a = .ok b) l bs := by
  induction l generalizing bs with
  | nil =>
    rw [List.mapM_nil, List.forall₂_nil_left_iff]
    exact ⟨fun h => (Except.ok.inj h).symm, fun h => by rw [h]; rfl⟩
  | cons a l ih =>
    rw [List.mapM_cons, bind_eq_ok, List.forall₂_cons_left_iff]
    constructor
    · rintro ⟨b, hb, h⟩
      obtain ⟨bs', hbs', h⟩ := bind_eq_ok.mp h
      exact ⟨b, bs', hb, ih.mp hbs', (Except.ok.inj h).symm⟩
    · rintro ⟨b, bs', hb, hbs', rfl⟩
      exact ⟨b, hb, bind_eq_ok.mpr ⟨bs', ih.mpr hbs', rfl⟩⟩

/-- The results of a loop that goes through. -/
theorem mem_of_mapM_eq_ok {f : α → Except ε β} {l : List α} {bs : List β} (h : l.mapM f = .ok bs)
    (b : β) : b ∈ bs ↔ ∃ a ∈ l, f a = .ok b := by
  rw [mapM_eq_ok] at h
  induction h with
  | nil => simp
  | cons hb _ ih =>
    rw [List.mem_cons, List.exists_mem_cons_iff, ih, hb, Except.ok.injEq, eq_comm]

theorem exists_mapM_eq_ok {f : α → Except ε β} {l : List α} :
    (∃ bs, l.mapM f = .ok bs) ↔ ∀ a ∈ l, ∃ b, f a = .ok b := by
  induction l with
  | nil => simp [pure, Except.pure]
  | cons a l ih =>
    rw [List.forall_mem_cons, ← ih]
    simp only [mapM_eq_ok, List.forall₂_cons_left_iff]
    constructor
    · rintro ⟨_, b, bs, hb, hbs, rfl⟩
      exact ⟨⟨b, hb⟩, bs, hbs⟩
    · rintro ⟨⟨b, hb⟩, bs, hbs⟩
      exact ⟨b :: bs, b, bs, hb, hbs, rfl⟩

/-- What some result of a loop has, some step of it gives. -/
theorem exists_result_iff {f : α → Except ε β} {l : List α} {bs : List β} {P : β → Prop}
    {Q : α → Prop} (h : l.mapM f = .ok bs) (hPQ : ∀ a ∈ l, ∀ b, f a = .ok b → (P b ↔ Q a)) :
    (∃ b ∈ bs, P b) ↔ ∃ a ∈ l, Q a := by
  constructor
  · rintro ⟨b, hb, hP⟩
    obtain ⟨a, ha, hab⟩ := (mem_of_mapM_eq_ok h b).mp hb
    exact ⟨a, ha, (hPQ a ha b hab).mp hP⟩
  · rintro ⟨a, ha, hQ⟩
    obtain ⟨b, hb⟩ := exists_mapM_eq_ok.mp ⟨bs, h⟩ a ha
    exact ⟨b, (mem_of_mapM_eq_ok h b).mpr ⟨a, ha, hb⟩, (hPQ a ha b hb).mpr hQ⟩

end Driftgate.Lib
