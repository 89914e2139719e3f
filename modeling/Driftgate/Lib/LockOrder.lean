import Driftgate.Lib.ReadCommitted

/-!
# Locks taken in order

A process waits for another one when its next statement needs a lock that the other holds. If there
is a rank for locks such that every process only ever waits for a lock of a higher rank than all it
holds, then nobody waits in a circle. With finitely many ranks every chain of waiting processes
ends, at a process that can take its step: there is no deadlock.

`ordered_of_free` is how the condition is met in practice: a statement takes locks above those its
process holds, and others that nobody else holds, such as the lock of a row it is about to insert.
-/

namespace Driftgate.ReadCommitted

open Driftgate.Transition

variable {σ ω κ ε ℓ ι χ : Type*}

/-- With the inputs `x`, process `i` has to wait for a lock that process `j` holds. -/
def Waits (P : Program σ ω κ ε ℓ χ) [DecidableEq ι] (s : State σ ω κ ε ℓ ι) (x : ι → χ) (i j : ι) :
    Prop :=
  j ≠ i ∧ ∃ op, P.next (s.loc i) (s.view P i) (x i) = some op ∧ ∃ k ∈ op.locks, s.lock k = some j

/-- Whatever a process waits for ranks above all it holds. -/
def Ordered (P : Program σ ω κ ε ℓ χ) [DecidableEq ι] (rank : κ → ℕ) (s : State σ ω κ ε ℓ ι) :
    Prop :=
  ∀ i x op k j, P.next (s.loc i) (s.view P i) x = some op → k ∈ op.locks → s.lock k = some j →
    j ≠ i → ∀ k', s.lock k' = some i → rank k' < rank k

section Order

variable [DecidableEq ι] {P : Program σ ω κ ε ℓ χ} {rank : κ → ℕ} {s : State σ ω κ ε ℓ ι}

/-- The condition from the locks of the next statement: each ranks above those held, or is held by
nobody else. -/
theorem ordered_of_free
    (h : ∀ i x op, P.next (s.loc i) (s.view P i) x = some op → ∀ k ∈ op.locks,
      (∀ k' ∈ (s.own i).held, rank k' < rank k) ∨ ∀ j, j ≠ i → k ∉ (s.own j).held) :
    Ordered P rank s := by
  intro i x op k j hop hk hj hne k' hk'
  rcases h i x op hop k hk with h | h
  · exact h k' hk'
  · exact absurd hj (h j hne)

/-- Along a chain of waiting processes the ranks grow. -/
theorem Ordered.rank_lt (h : Ordered P rank s) {x : ι → χ} {i j : ι}
    (hw : Relation.TransGen (Waits P s x) i j) :
    ∃ k, s.lock k = some j ∧ ∀ k', s.lock k' = some i → rank k' < rank k := by
  induction hw with
  | single hw =>
    obtain ⟨hne, op, hop, k, hk, hj⟩ := hw
    exact ⟨k, hj, h i _ op k _ hop hk hj hne⟩
  | tail _ hw ih =>
    obtain ⟨k, hk, hlt⟩ := ih
    obtain ⟨hne, op, hop, k', hk', hj⟩ := hw
    exact ⟨k', hj, fun k'' hk'' => (hlt k'' hk'').trans (h _ _ op k' _ hop hk' hj hne k hk)⟩

/-- **No circle.** -/
theorem Ordered.acyclic (h : Ordered P rank s) (x : ι → χ) (i : ι) :
    ¬Relation.TransGen (Waits P s x) i i := by
  intro hw
  obtain ⟨k, hk, hlt⟩ := h.rank_lt hw
  exact lt_irrefl _ (hlt k hk)

/-- **Somebody can go on.** With finitely many ranks every chain of waiting processes leads to one
that does not wait. -/
theorem Ordered.exists_not_waiting (h : Ordered P rank s) {n : ℕ} (hn : ∀ k, rank k < n)
    (x : ι → χ) (i : ι) : ∃ j, Relation.ReflTransGen (Waits P s x) i j ∧ ∀ l, ¬Waits P s x j l := by
  -- a process that is waited for under a lock of rank `r` has at most `n - r` ranks above it
  have hgen : ∀ m (j : ι), (∃ k, s.lock k = some j ∧ n ≤ rank k + m) →
      ∃ l, Relation.ReflTransGen (Waits P s x) j l ∧ ∀ l', ¬Waits P s x l l' := by
    intro m
    induction m with
    | zero =>
      rintro j ⟨k, -, hle⟩
      exact absurd (hn k) (Nat.not_lt.mpr hle)
    | succ m ih =>
      rintro j ⟨k, hk, hle⟩
      by_cases hw : ∃ l, Waits P s x j l
      · obtain ⟨l, hl⟩ := hw
        obtain ⟨hne, op, hop, k', hk', hlock⟩ := hl
        have hlt := h j _ op k' l hop hk' hlock hne k hk
        obtain ⟨l', hl', hend⟩ := ih l ⟨k', hlock, by omega⟩
        exact ⟨l', .head ⟨hne, op, hop, k', hk', hlock⟩ hl', hend⟩
      · exact ⟨j, .refl, fun l hl => hw ⟨l, hl⟩⟩
  by_cases hw : ∃ j, Waits P s x i j
  · obtain ⟨j, hj⟩ := hw
    obtain ⟨hne, op, hop, k, hk, hlock⟩ := hj
    obtain ⟨l, hl, hend⟩ := hgen n j ⟨k, hlock, Nat.le_add_left n (rank k)⟩
    exact ⟨l, .head ⟨hne, op, hop, k, hk, hlock⟩ hl, hend⟩
  · exact ⟨i, .refl, fun j hj => hw ⟨j, hj⟩⟩

variable [DecidableEq κ]

/-- A process that has something to do and does not wait takes its step. -/
theorem step_of_not_waiting {x : ι → χ} {i : ι} {op : Op ω κ ε ℓ}
    (hop : P.next (s.loc i) (s.view P i) (x i) = some op) (hw : ∀ j, ¬Waits P s x i j) :
    ∃ t, P.step s (i, x i) = some t := by
  refine step_enabled hop fun k hk j hj => ?_
  by_contra hne
  exact hw j ⟨hne, op, hop, k, hk, hj⟩

/-- **No deadlock.** When every process that holds a lock has something to do, whoever waits waits,
perhaps through others, for a process that takes its step. -/
theorem Ordered.exists_step (h : Ordered P rank s) {n : ℕ} (hn : ∀ k, rank k < n) {x : ι → χ}
    (hgo : ∀ i k, s.lock k = some i → ∃ op, P.next (s.loc i) (s.view P i) (x i) = some op)
    {i j : ι} (hw : Waits P s x i j) :
    ∃ l, Relation.TransGen (Waits P s x) i l ∧ ∃ t, P.step s (l, x l) = some t := by
  obtain ⟨l, hl, hend⟩ := h.exists_not_waiting hn x i
  have htrans : Relation.TransGen (Waits P s x) i l := by
    obtain rfl | htrans := Relation.reflTransGen_iff_eq_or_transGen.mp hl
    · exact absurd hw (hend j)
    · exact htrans
  obtain ⟨k, hk, -⟩ := h.rank_lt htrans
  obtain ⟨op, hop⟩ := hgo l k hk
  exact ⟨l, htrans, step_of_not_waiting hop hend⟩

end Order

end Driftgate.ReadCommitted
