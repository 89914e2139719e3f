import Mathlib.Data.Nat.Notation
import Mathlib.Tactic.Common

/-!
# A lock that belongs to a connection

An advisory lock of a database session is held by one connection at a time. The connection that
holds it may take it again, and has to release it as often; a release on any other connection does
nothing. What the lock has to do with the callers is then a count: how often it has been taken and
not released.
-/

namespace Driftgate.AdvisoryLock

/-- The connection that holds the lock, and how often it has taken it beyond the first time. -/
abbrev Lock (κ : Type*) := Option (κ × ℕ)

variable {κ : Type*}

namespace Lock

/-- How often the lock has been taken and not released. -/
def count : Lock κ → ℕ
  | none => 0
  | some (_, n) => n + 1

def Holds (l : Lock κ) (c : κ) : Prop := ∃ n, l = some (c, n)

theorem count_eq_zero {l : Lock κ} : l.count = 0 ↔ l = none := by
  cases l <;> simp [count]

theorem not_holds_none (c : κ) : ¬Holds none c := by
  rintro ⟨n, hn⟩
  cases hn

variable [DecidableEq κ]

instance Holds.decidable : (l : Lock κ) → (c : κ) → Decidable (l.Holds c)
  | none, c => isFalse (not_holds_none c)
  | some (d, n), c => decidable_of_iff (d = c) <| by
      constructor
      · rintro rfl
        exact ⟨n, rfl⟩
      · rintro ⟨m, hm⟩
        exact congrArg Prod.fst (Option.some.inj hm)

/-- `pg_try_advisory_lock` on a connection, with its answer. -/
def tryLock (c : κ) : Lock κ → Bool × Lock κ
  | none => (true, some (c, 0))
  | some (d, n) => if d = c then (true, some (d, n + 1)) else (false, some (d, n))

/-- `pg_advisory_unlock` on a connection. -/
def unlock (c : κ) : Lock κ → Lock κ
  | none => none
  | some (d, 0) => if d = c then none else some (d, 0)
  | some (d, n + 1) => if d = c then some (d, n) else some (d, n + 1)

/-- A free lock is obtained by every connection. -/
@[simp] theorem tryLock_none (c : κ) : tryLock c none = (true, some (c, 0)) := rfl

theorem count_tryLock (c : κ) (l : Lock κ) :
    (l.tryLock c).2.count = l.count + if (l.tryLock c).1 then 1 else 0 := by
  rcases l with - | ⟨d, n⟩
  · rfl
  · by_cases h : d = c <;> simp [tryLock, h, count]

/-- A release on the connection that holds the lock counts. -/
theorem count_unlock_of_holds {c : κ} {l : Lock κ} (h : l.Holds c) :
    (l.unlock c).count + 1 = l.count := by
  obtain ⟨n, rfl⟩ := h
  cases n <;> simp [unlock, count]

/-- A release anywhere else does nothing. -/
theorem unlock_of_not_holds {c : κ} {l : Lock κ} (h : ¬l.Holds c) : l.unlock c = l := by
  rcases l with - | ⟨d, n⟩
  · rfl
  · have hne : d ≠ c := by
      rintro rfl
      exact h ⟨n, rfl⟩
    cases n <;> simp [unlock, hne]

end Lock

end Driftgate.AdvisoryLock
