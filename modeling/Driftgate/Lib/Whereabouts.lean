import Driftgate.Lib.ReadCommitted

/-!
# Where identifiers can be found

Processes get identifiers from a counter that gives none twice. An identifier of some kind can be
found in the store, in a write of an open transaction, or with a process. A step brings it to a new
place only from one of these or from the counter; so two kinds that get different identifiers from
the counter never share one.
-/

namespace Driftgate.ReadCommitted

open Driftgate.Transition

variable {σ ω κ ε ℓ ι χ : Type*}

/-- The places where an identifier of one kind can be found. -/
structure Whereabouts (P : Program σ ω κ ε ℓ χ) where
  stored : σ → ℕ → Prop
  written : ω → ℕ → Prop
  known : ℓ → ℕ → Prop
  apply_iff : ∀ w d n, stored (P.apply w d) n ↔ stored d n ∨ written w n

namespace Whereabouts

variable {P : Program σ ω κ ε ℓ χ} (W : Whereabouts P)

/-- The identifier can be found somewhere. -/
def Present (s : State σ ω κ ε ℓ ι) (n : ℕ) : Prop :=
  W.stored s.db n ∨ ∃ i, (∃ w ∈ s.pending i, W.written w n) ∨ W.known (s.loc i) n

/-- The operation has it in a write or leaves it with the process. -/
def Brought (op : Op ω κ ε ℓ) (n : ℕ) : Prop :=
  (∃ w ∈ op.writes, W.written w n) ∨ W.known op.next n

variable {W}

theorem stored_applyAll {ws : List ω} {d : σ} {n : ℕ} :
    W.stored (P.applyAll ws d) n ↔ W.stored d n ∨ ∃ w ∈ ws, W.written w n :=
  P.applyAll_gain (fun d => W.stored d n) (fun w d => W.apply_iff w d n) ws d

section Step

variable [DecidableEq ι] {s t : State σ ω κ ε ℓ ι} {i : ι} {op : Op ω κ ε ℓ} {n : ℕ}

/-- What a statement sees can be found. -/
theorem present_of_view (h : W.stored (s.view P i).db n) : W.Present s n := by
  obtain h | h := stored_applyAll.mp h
  · exact .inl h
  · exact .inr ⟨i, .inl h⟩

omit [DecidableEq ι] in
/-- **Step.** What can be found afterwards was there before or is brought by the operation. -/
theorem present_step (h : Stepped P s i op t) (hn : W.Present t n) :
    W.Present s n ∨ W.Brought op n := by
  obtain hstored | ⟨j, hj⟩ := hn
  · rw [h.db] at hstored
    cases op with
    | commit l =>
      obtain hstored | hwritten := stored_applyAll.mp hstored
      · exact .inl (.inl hstored)
      · exact .inl (.inr ⟨i, .inl hwritten⟩)
    | _ => exact .inl (.inl hstored)
  · by_cases hji : j = i
    · subst hji
      obtain ⟨w, hw, hwritten⟩ | hknown := hj
      · rw [h.pending] at hw
        cases op with
        | exec ks ws l =>
          obtain hw | hw := List.mem_append.mp hw
          · exact .inl (.inr ⟨j, .inl ⟨w, hw, hwritten⟩⟩)
          · exact .inr (.inl ⟨w, hw, hwritten⟩)
        | emit e l => exact .inl (.inr ⟨j, .inl ⟨w, hw, hwritten⟩⟩)
        | commit l => cases hw
        | rollback l => cases hw
      · exact .inr (.inr (h.loc ▸ hknown))
    · rw [h.pending_other hji, h.loc_other hji] at hj
      exact .inl (.inr ⟨j, hj⟩)

end Step

/-- **Used names.** When every step brings identifiers only from the counter or from where they can
be found, all that can be found have been given out. -/
theorem below [DecidableEq ι] [DecidableEq κ] {good : State σ ω κ ε ℓ ι → ι × χ → Prop}
    {init : State σ ω κ ε ℓ ι → Prop}
    (hinit : ∀ s, init s → ∀ n, W.Present s n → n < s.fresh)
    (hstep : ∀ (s : State σ ω κ ε ℓ ι) i x op, P.next (s.loc i) (s.view P i) x = some op →
      ∀ n, W.Brought op n → W.Present s n ∨ n = s.fresh)
    {s : State σ ω κ ε ℓ ι} (h : Run P.step good init s) : ∀ n, W.Present s n → n < s.fresh := by
  refine Run.invariant (I := fun s => ∀ n, W.Present s n → n < s.fresh) hinit ?_ h
  rintro s ⟨i, x⟩ t _ hI _ hs n hn
  obtain ⟨op, hop, hst⟩ := step_cases hs
  have hfresh : t.fresh = s.fresh + 1 := by
    rw [show t.fresh = t.toShared.fresh from rfl, hst.shared]
    cases op <;> rfl
  rw [hfresh]
  obtain hold | hbrought := present_step hst hn
  · exact Nat.lt_succ_of_lt (hI n hold)
  · obtain hold | rfl := hstep s i x op hop n hbrought
    · exact Nat.lt_succ_of_lt (hI n hold)
    · exact Nat.lt_succ_self _

/-- **Two kinds of identifiers.** When every step brings identifiers of at most one kind from the
counter, and others only from where they can be found, no identifier is of both kinds. -/
theorem separated [DecidableEq ι] [DecidableEq κ] {V : Whereabouts P}
    {good : State σ ω κ ε ℓ ι → ι × χ → Prop} {init : State σ ω κ ε ℓ ι → Prop}
    (hinit : ∀ s, init s → ∀ n, (W.Present s n → n < s.fresh) ∧ (V.Present s n → n < s.fresh) ∧
      ¬(W.Present s n ∧ V.Present s n))
    (hstep : ∀ (s : State σ ω κ ε ℓ ι) i x op, P.next (s.loc i) (s.view P i) x = some op →
      ((∀ n, W.Brought op n → W.Present s n ∨ n = s.fresh) ∧ ∀ n, V.Brought op n → V.Present s n) ∨
      ((∀ n, W.Brought op n → W.Present s n) ∧ ∀ n, V.Brought op n → V.Present s n ∨ n = s.fresh))
    {s : State σ ω κ ε ℓ ι} (h : Run P.step good init s) (n : ℕ) :
    ¬(W.Present s n ∧ V.Present s n) := by
  refine ((Run.invariant (I := fun s => ∀ n, (W.Present s n → n < s.fresh) ∧
    (V.Present s n → n < s.fresh) ∧ ¬(W.Present s n ∧ V.Present s n)) hinit ?_ h) n).2.2
  rintro s ⟨i, x⟩ t _ hI _ hs n
  obtain ⟨op, hop, hst⟩ := step_cases hs
  obtain ⟨hWlt, hVlt, hboth⟩ := hI n
  have hfresh : t.fresh = s.fresh + 1 := by
    rw [show t.fresh = t.toShared.fresh from rfl, hst.shared]
    cases op <;> rfl
  have hW : W.Present t n → W.Present s n ∨ W.Brought op n := present_step hst
  have hV : V.Present t n → V.Present s n ∨ V.Brought op n := present_step hst
  rw [hfresh]
  have hnot : ¬(n < n) := Nat.lt_irrefl n
  obtain ⟨hWb, hVb⟩ | ⟨hWb, hVb⟩ := hstep s i x op hop
  · have hW' : W.Present t n → W.Present s n ∨ n = s.fresh :=
      fun h => (hW h).elim .inl (hWb n)
    have hV' : V.Present t n → V.Present s n := fun h => (hV h).elim id (hVb n)
    refine ⟨fun h => ?_, fun h => Nat.lt_succ_of_lt (hVlt (hV' h)), fun ⟨hw, hv⟩ => ?_⟩
    · obtain h | rfl := hW' h
      · exact Nat.lt_succ_of_lt (hWlt h)
      · exact Nat.lt_succ_self _
    · obtain hw | rfl := hW' hw
      · exact hboth ⟨hw, hV' hv⟩
      · exact hnot (hVlt (hV' hv))
  · have hW' : W.Present t n → W.Present s n := fun h => (hW h).elim id (hWb n)
    have hV' : V.Present t n → V.Present s n ∨ n = s.fresh :=
      fun h => (hV h).elim .inl (hVb n)
    refine ⟨fun h => Nat.lt_succ_of_lt (hWlt (hW' h)), fun h => ?_, fun ⟨hw, hv⟩ => ?_⟩
    · obtain h | rfl := hV' h
      · exact Nat.lt_succ_of_lt (hVlt h)
      · exact Nat.lt_succ_self _
    · obtain hv | rfl := hV' hv
      · exact hboth ⟨hW' hw, hv⟩
      · exact hnot (hWlt (hW' hw))

end Whereabouts

end Driftgate.ReadCommitted
