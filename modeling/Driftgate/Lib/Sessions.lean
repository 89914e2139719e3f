import Driftgate.Lib.Transition
import Mathlib.Data.Nat.Notation

/-!
# Requests that have a session each

A server answers requests one after the other. A handler works in a session of its own: a read sees
the committed store with the writes of the session on top, `flush` adds a write to the open
transaction, and `commit` stores the transaction. Closing the session rolls back what was not
committed. The answers of other services are asked for outside of the transaction, and a name that
was given out is never given out again; neither is undone.

A handler that does not commit leaves the store as it was (`Unsaved.serve_db`), whatever it answers.
`Unsaved` is proved along the handler, statement by statement.
-/

namespace Driftgate.Sessions

/-- What there is between two requests. The trace records what was asked of other services. -/
structure Server (σ χ : Type) where
  db : σ
  trace : List χ := []
  fresh : ℕ := 0

structure Session (σ ω χ : Type) extends Server σ χ where
  pending : List ω := []

/-- A handler returns or raises, and leaves the session in some state. -/
def Handler (σ ω χ ε α : Type) : Type := Session σ ω χ → Except ε α × Session σ ω χ

variable {σ ω χ ε α β : Type}

namespace Handler

instance : Monad (Handler σ ω χ ε) where
  pure a := fun s => (.ok a, s)
  bind m f := fun s =>
    match m s with
    | (.ok a, t) => f a t
    | (.error e, t) => (.error e, t)

/-- `raise` -/
def throw (e : ε) : Handler σ ω χ ε α := fun s => (.error e, s)

/-- A query. -/
def read (apply : ω → σ → σ) (f : σ → α) : Handler σ ω χ ε α := fun s =>
  (.ok (f (s.pending.foldl (fun db w => apply w db) s.db)), s)

/-- A write in the open transaction. -/
def flush (w : ω) : Handler σ ω χ ε Unit := fun s => (.ok (), { s with pending := s.pending ++ [w] })

/-- A request to another service. -/
def ask (x : χ) : Handler σ ω χ ε Unit := fun s => (.ok (), { s with trace := s.trace ++ [x] })

/-- A new name. -/
def newName : Handler σ ω χ ε ℕ := fun s => (.ok s.fresh, { s with fresh := s.fresh + 1 })

def commit (apply : ω → σ → σ) : Handler σ ω χ ε Unit := fun s =>
  (.ok (), { s with db := s.pending.foldl (fun db w => apply w db) s.db, pending := [] })

theorem bind_apply (m : Handler σ ω χ ε α) (f : α → Handler σ ω χ ε β) (s : Session σ ω χ) :
    (m >>= f) s = match m s with
      | (.ok a, t) => f a t
      | (.error e, t) => (.error e, t) := rfl

/-- A query in a session that has written nothing. -/
theorem read_apply (apply : ω → σ → σ) (f : σ → α) {s : Session σ ω χ} (h : s.pending = []) :
    (read apply f : Handler σ ω χ ε α) s = (.ok (f s.db), s) := by
  rw [read, h]
  rfl

end Handler

/-- The handler does not commit: the store is as it was, and no name is given out twice. -/
def Unsaved (m : Handler σ ω χ ε α) : Prop :=
  ∀ s, (m s).2.db = s.db ∧ s.fresh ≤ (m s).2.fresh

namespace Unsaved

theorem pure (a : α) : Unsaved (Pure.pure a : Handler σ ω χ ε α) :=
  fun _ => ⟨rfl, Nat.le_refl _⟩

theorem throw (e : ε) : Unsaved (Handler.throw e : Handler σ ω χ ε α) :=
  fun _ => ⟨rfl, Nat.le_refl _⟩

theorem read (apply : ω → σ → σ) (f : σ → α) :
    Unsaved (Handler.read apply f : Handler σ ω χ ε α) := fun _ => ⟨rfl, Nat.le_refl _⟩

theorem flush (w : ω) : Unsaved (Handler.flush w : Handler σ ω χ ε Unit) :=
  fun _ => ⟨rfl, Nat.le_refl _⟩

theorem ask (x : χ) : Unsaved (Handler.ask x : Handler σ ω χ ε Unit) :=
  fun _ => ⟨rfl, Nat.le_refl _⟩

theorem newName : Unsaved (Handler.newName : Handler σ ω χ ε ℕ) :=
  fun s => ⟨rfl, Nat.le_succ s.fresh⟩

/-- One statement after the other. -/
theorem bind {m : Handler σ ω χ ε α} {f : α → Handler σ ω χ ε β} (hm : Unsaved m)
    (hf : ∀ a, Unsaved (f a)) : Unsaved (m >>= f) := by
  intro s
  obtain ⟨hdb, hfresh⟩ := hm s
  rw [Handler.bind_apply]
  cases hr : m s with
  | mk result t =>
    rw [hr] at hdb hfresh
    cases result with
    | error e => exact ⟨hdb, hfresh⟩
    | ok a =>
      obtain ⟨hdb', hfresh'⟩ := hf a t
      exact ⟨hdb'.trans hdb, Nat.le_trans hfresh hfresh'⟩

end Unsaved

/-- A request: its session is closed when the handler is done. -/
def serve (m : Handler σ ω χ ε α) (v : Server σ χ) : Except ε α × Server σ χ :=
  let r := m { toServer := v }
  (r.1, r.2.toServer)

theorem Unsaved.serve_db {m : Handler σ ω χ ε α} (h : Unsaved m) (v : Server σ χ) :
    (serve m v).2.db = v.db := (h { toServer := v }).1

theorem Unsaved.serve_fresh {m : Handler σ ω χ ε α} (h : Unsaved m) (v : Server σ χ) :
    v.fresh ≤ (serve m v).2.fresh := (h { toServer := v }).2

end Driftgate.Sessions
