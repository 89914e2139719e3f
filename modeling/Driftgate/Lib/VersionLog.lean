import Mathlib.Data.List.Nodup
import Mathlib.Data.List.Range

/-!
# Version logs and their chains

A version log is the plain list of what was registered, in order: an identifier and the mark it was
registered under. A table does not store the log but a chain of links: each link carries its
number, the identifier of its predecessor and a flag that the newest one alone has. `links` is that
representation, and `Chain` says what it means for a table to be one, with no mention of the log.

Appending to the log is retiring the newest link and adding one after it (`links_concat`), which is
how an implementation does it, in two writes.
-/

namespace Driftgate.VersionLog

/-- One version as a table stores it. -/
@[ext] structure Link (α β : Type*) where
  id : α
  version : ℕ
  mark : β
  previous : Option α
  current : Bool
  deriving DecidableEq

variable {α β : Type*}

/-- The link without the flag of the newest version. -/
def Link.retire (l : Link α β) : Link α β := { l with current := false }

/-- The links of a log, numbered after `k`, the first one following `prev`. -/
def linksFrom : Option α → ℕ → List (α × β) → List (Link α β)
  | _, _, [] => []
  | prev, k, (i, m) :: log => ⟨i, k + 1, m, prev, log.isEmpty⟩ :: linksFrom (some i) (k + 1) log

/-- The chain that represents a log. -/
def links (log : List (α × β)) : List (Link α β) := linksFrom none 0 log

/-- The identifier registered last. -/
def lastId (log : List (α × β)) : Option α := log.getLast?.map Prod.fst

/-! ### Reading a chain back -/

theorem linksFrom_getElem? (prev : Option α) (k : ℕ) (log : List (α × β)) (j : ℕ) :
    (linksFrom prev k log)[j]? = log[j]?.map fun e =>
      ⟨e.1, k + j + 1, e.2, if j = 0 then prev else log[j - 1]?.map Prod.fst,
        decide (j + 1 = log.length)⟩ := by
  induction log generalizing prev k j with
  | nil => simp [linksFrom]
  | cons e log ih =>
    obtain ⟨i, m⟩ := e
    cases j with
    | zero =>
      have hlast : log.isEmpty = decide (0 + 1 = (log.length + 1)) := by
        cases log <;> simp
      simp [linksFrom, hlast]
    | succ j =>
      simp only [linksFrom, List.getElem?_cons_succ, ih, List.length_cons]
      cases j with
      | zero => simp [Nat.add_assoc, eq_comm]
      | succ j =>
        have hk : k + 1 + (j + 1) = k + (j + 1 + 1) := by omega
        simp [hk]

theorem links_getElem? (log : List (α × β)) (j : ℕ) :
    (links log)[j]? = log[j]?.map fun e =>
      ⟨e.1, j + 1, e.2, if j = 0 then none else log[j - 1]?.map Prod.fst,
        decide (j + 1 = log.length)⟩ := by
  simp [links, linksFrom_getElem?]

/-- What a link of the chain is made of. -/
theorem mem_links {log : List (α × β)} {l : Link α β} (h : l ∈ links log) :
    ∃ j e, log[j]? = some e ∧ l = ⟨e.1, j + 1, e.2,
      if j = 0 then none else log[j - 1]?.map Prod.fst, decide (j + 1 = log.length)⟩ := by
  obtain ⟨j, hj⟩ := List.mem_iff_getElem?.mp h
  rw [links_getElem?] at hj
  obtain ⟨e, he, rfl⟩ := Option.map_eq_some_iff.mp hj
  exact ⟨j, e, he, rfl⟩

@[simp] theorem linksFrom_length (prev : Option α) (k : ℕ) (log : List (α × β)) :
    (linksFrom prev k log).length = log.length := by
  induction log generalizing prev k with
  | nil => rfl
  | cons e log ih => simp [linksFrom, ih]

@[simp] theorem links_length (log : List (α × β)) : (links log).length = log.length :=
  linksFrom_length _ _ _

theorem linksFrom_versions (prev : Option α) (k : ℕ) (log : List (α × β)) :
    (linksFrom prev k log).map Link.version = List.range' (k + 1) log.length := by
  induction log generalizing prev k with
  | nil => rfl
  | cons e log ih => simp [linksFrom, ih, List.range'_succ]

theorem linksFrom_marks (prev : Option α) (k : ℕ) (log : List (α × β)) :
    (linksFrom prev k log).map Link.mark = log.map Prod.snd := by
  induction log generalizing prev k with
  | nil => rfl
  | cons e log ih => simp [linksFrom, ih]

theorem linksFrom_ids (prev : Option α) (k : ℕ) (log : List (α × β)) :
    (linksFrom prev k log).map Link.id = log.map Prod.fst := by
  induction log generalizing prev k with
  | nil => rfl
  | cons e log ih => simp [linksFrom, ih]

/-! ### What a chain is -/

/-- The versions are exactly `1..n` in order, the newest one alone is current, every link but the
first points to the one before it, and no mark occurs twice. -/
structure Chain (ls : List (Link α β)) : Prop where
  versions : ls.map Link.version = List.range' 1 ls.length
  current : ∀ l ∈ ls, l.current = true ↔ l.version = ls.length
  first : ∀ l ∈ ls, l.version = 1 → l.previous = none
  previous : ∀ l ∈ ls, ∀ l' ∈ ls, l'.version = l.version + 1 → l'.previous = some l.id
  marks : (ls.map Link.mark).Nodup

/-- **Every log without a repeated mark is represented by a chain.** -/
theorem chain_links {log : List (α × β)} (h : (log.map Prod.snd).Nodup) : Chain (links log) where
  versions := by simpa [links] using linksFrom_versions none 0 log
  current := by
    intro l hl
    obtain ⟨j, e, -, rfl⟩ := mem_links hl
    simp
  first := by
    intro l hl hv
    obtain ⟨j, e, -, rfl⟩ := mem_links hl
    have hj : j = 0 := by simpa using hv
    simp [hj]
  previous := by
    intro l hl l' hl' hv
    obtain ⟨j, e, he, rfl⟩ := mem_links hl
    obtain ⟨j', e', -, rfl⟩ := mem_links hl'
    have hj : j' = j + 1 := by simpa using hv
    subst hj
    simp [he]
  marks := by
    rw [links, linksFrom_marks]
    exact h

/-! ### Registering one more version -/

theorem linksFrom_concat (prev : Option α) (k : ℕ) (log : List (α × β)) (i : α) (m : β) :
    linksFrom prev k (log ++ [(i, m)]) = (linksFrom prev k log).map Link.retire ++
      [⟨i, k + log.length + 1, m, (lastId log).or prev, true⟩] := by
  induction log generalizing prev k with
  | nil => simp [linksFrom, lastId]
  | cons e log ih =>
    obtain ⟨i', m'⟩ := e
    have hlast : (lastId ((i', m') :: log)).or prev = (lastId log).or (some i') := by
      cases log with
      | nil => rfl
      | cons e log => simp [lastId, List.getLast?_cons]
    have hlen : k + 1 + log.length + 1 = k + (log.length + 1) + 1 := by omega
    simp [linksFrom, ih, Link.retire, hlast, hlen]

/-- **Registration.** The chain of a longer log is the old one with its newest link retired, and a
link after it. -/
theorem links_concat (log : List (α × β)) (i : α) (m : β) :
    links (log ++ [(i, m)]) = (links log).map Link.retire ++
      [⟨i, log.length + 1, m, lastId log, true⟩] := by
  simp [links, linksFrom_concat]

/-- Retiring the newest link by its identifier retires the whole chain: the others are retired
already. -/
theorem links_retire [DecidableEq α] {log : List (α × β)} {i : α} (hi : lastId log = some i) :
    ((links log).map fun l => if l.id = i then l.retire else l) = (links log).map Link.retire := by
  apply List.map_congr_left
  intro l hl
  obtain ⟨j, e, he, rfl⟩ := mem_links hl
  by_cases hj : e.1 = i
  · simp [hj]
  · -- a link other than the newest has no flag to lose
    have hne : j + 1 ≠ log.length := by
      rintro hlen
      have hlast : log.getLast? = some e := by
        rw [List.getLast?_eq_getElem?, ← he]
        congr 1
        omega
      rw [lastId, hlast] at hi
      exact hj (Option.some.inj hi)
    simp [hj, hne, Link.retire]

/-- The current link of a chain is the last one. -/
theorem links_current {log : List (α × β)} {l : Link α β} (hl : l ∈ links log)
    (hc : l.current = true) : lastId log = some l.id ∧ l.version = log.length := by
  obtain ⟨j, e, he, rfl⟩ := mem_links hl
  have hlen : j + 1 = log.length := by simpa using hc
  have hlast : log.getLast? = some e := by
    rw [List.getLast?_eq_getElem?, ← he]
    congr 1
    omega
  exact ⟨by simp [lastId, hlast], hlen⟩

/-- A chain with no current link is empty. -/
theorem links_no_current {log : List (α × β)} (h : ∀ l ∈ links log, l.current = false) :
    log = [] := by
  cases log using List.reverseRecOn with
  | nil => rfl
  | append_singleton log e =>
    rw [links_concat] at h
    have hlast := h ⟨e.1, log.length + 1, e.2, lastId log, true⟩ (by simp)
    simp at hlast

end Driftgate.VersionLog
