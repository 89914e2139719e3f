import Driftgate.Lib.Transition
import Mathlib.Data.Nat.Notation

/-!
# Work that runs out

Some steps of a system work something off while the others go on. When a rank falls at each such
step until the work is done, and never rises, then the work is done once there have been more such
steps than the rank counts (`exec_done`). Nothing is said of how the steps are interleaved, nor of
how many other steps there are. In the same way what some steps lose is bounded by how many they
are (`exec_lost`, `length_gather`).
-/

namespace Driftgate.Transition

variable {S L : Type*} {step : S → L → Option S} {good : S → L → Prop} {I : S → Prop}

/-- How many steps of an execution are of a kind. -/
def countSteps (step : S → L → Option S) (mine : S → L → Bool) : S → List L → ℕ
  | _, [] => 0
  | s, a :: as => (mine s a).toNat + ((step s a).map fun t => countSteps step mine t as).getD 0

theorem countSteps_cons {mine : S → L → Bool} {s t : S} {a : L} (h : step s a = some t)
    (as : List L) :
    countSteps step mine s (a :: as) = (mine s a).toNat + countSteps step mine t as := by
  rw [countSteps, h]
  rfl

/-- **Work runs out.** What is done stays done; until then no step raises the rank, and those of the
kind lower it. -/
theorem exec_done (mine : S → L → Bool) (rank : S → ℕ) (done : S → Prop)
    (hkeep : ∀ s a t, I s → good s a → step s a = some t → I t)
    (hdone : ∀ s a t, I s → good s a → step s a = some t → done s → done t)
    (hrank : ∀ s a t, I s → good s a → step s a = some t → ¬done s →
      rank t + (mine s a).toNat ≤ rank s) {as : List L} {s t : S} (hs : I s)
    (hgood : Along step good s as) (hexec : exec step s as = some t)
    (hmany : done s ∨ rank s < countSteps step mine s as) : done t := by
  induction as generalizing s with
  | nil =>
    obtain rfl := Option.some.inj hexec
    exact hmany.resolve_right (Nat.not_lt_zero _)
  | cons a as ih =>
    obtain ⟨u, hu, hexec⟩ := Option.bind_eq_some_iff.mp hexec
    refine ih (hkeep s a u hs hgood.1 hu) (hgood.2 u hu) hexec ?_
    by_cases hd : done s
    · exact .inl (hdone s a u hs hgood.1 hu hd)
    · have hlower := hrank s a u hs hgood.1 hu hd
      have hcount := hmany.resolve_left hd
      rw [countSteps_cons hu] at hcount
      exact .inr (by omega)

/-- A quantity that never falls and has not grown in the end has never changed. -/
theorem Along.unchanged {f : S → ℕ} (hkeep : ∀ s a t, I s → good s a → step s a = some t → I t)
    (hmono : ∀ s a t, I s → good s a → step s a = some t → f s ≤ f t) {as : List L} {s t : S}
    (hs : I s) (hgood : Along step good s as) (hexec : exec step s as = some t) :
    f s ≤ f t ∧ (f t ≤ f s → Along step
      (fun s a => good s a ∧ ∀ u, step s a = some u → f u = f s) s as) := by
  induction as generalizing s with
  | nil =>
    obtain rfl := Option.some.inj hexec
    exact ⟨Nat.le_refl _, fun _ => trivial⟩
  | cons a as ih =>
    obtain ⟨u, hu, hexec⟩ := Option.bind_eq_some_iff.mp hexec
    have hfirst := hmono s a u hs hgood.1 hu
    obtain ⟨hrest, hsame⟩ := ih (hkeep s a u hs hgood.1 hu) (hgood.2 u hu) hexec
    refine ⟨Nat.le_trans hfirst hrest, fun hle => ⟨⟨hgood.1, fun u' hu' => ?_⟩, fun u' hu' => ?_⟩⟩
    · obtain rfl := Option.some.inj (hu.symm.trans hu')
      omega
    · obtain rfl := Option.some.inj (hu.symm.trans hu')
      exact hsame (by omega)

/-! ### Losses -/

section Losses

variable {α : Type*}

/-- What the steps of an execution yield. -/
def gather (step : S → L → Option S) (yields : S → L → Option α) : S → List L → List α
  | _, [] => []
  | s, a :: as => (yields s a).toList ++ ((step s a).map fun t => gather step yields t as).getD []

theorem gather_cons {yields : S → L → Option α} {s t : S} {a : L} (h : step s a = some t)
    (as : List L) : gather step yields s (a :: as) = (yields s a).toList ++ gather step yields t as := by
  rw [gather, h]
  rfl

theorem length_gather (yields : S → L → Option α) (s : S) (as : List L) :
    (gather step yields s as).length = countSteps step (fun s a => (yields s a).isSome) s as := by
  induction as generalizing s with
  | nil => rfl
  | cons a as ih =>
    have hfirst : (yields s a).toList.length = (yields s a).isSome.toNat := by
      cases yields s a <;> rfl
    rw [gather, countSteps, List.length_append, hfirst]
    cases step s a with
    | none => rfl
    | some t => exact congrArg _ (ih t)

/-- **Losses are accounted for.** When a thing is lost in no step other than the one that yields it,
whatever is lost in the end was so before, or some step has yielded it. -/
theorem exec_lost {lost : S → α → Prop} {yields : S → L → Option α}
    (hkeep : ∀ s a t, I s → good s a → step s a = some t → I t)
    (hstep : ∀ s a t, I s → good s a → step s a = some t → ∀ x, lost t x →
      lost s x ∨ yields s a = some x) {as : List L} {s t : S} (hs : I s)
    (hgood : Along step good s as) (hexec : exec step s as = some t) {x : α} (hx : lost t x) :
    lost s x ∨ x ∈ gather step yields s as := by
  induction as generalizing s with
  | nil => exact .inl (Option.some.inj hexec ▸ hx)
  | cons a as ih =>
    obtain ⟨u, hu, hexec⟩ := Option.bind_eq_some_iff.mp hexec
    rw [gather_cons hu, List.mem_append, Option.mem_toList]
    rcases ih (hkeep s a u hs hgood.1 hu) (hgood.2 u hu) hexec with h | h
    · rcases hstep s a u hs hgood.1 hu x h with h | h
      · exact .inl h
      · exact .inr (.inl h)
    · exact .inr (.inr h)

end Losses

end Driftgate.Transition
