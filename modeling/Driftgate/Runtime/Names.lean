import Driftgate.Runtime.RowLifecycle

/-!
# What identifiers stand for

An event, a webhook, a subscription and a dead letter get their identifiers from the database, which
gives none twice. `Names` records, for the proof, what each was given to. It only grows, and dead
letters are never taken back, so a fact that rests on these two needs no exclusion between parties.

`DbFacts` is what then holds of the committed tables: every FAILED row of the outbox has a dead
letter, and a dead letter holds its event. `Transaction` is what a commit has to bring for that.
-/

namespace Driftgate.Runtime

open Driftgate.ReadCommitted Driftgate.Transition

/-! ### Identifiers -/

/-- What an identifier was given to. -/
inductive Named
  | event (payload : WebhookPayload)
  | webhook (subscriptionId : Uuid) (payload : WebhookPayload)
  | subscription (consumerId : String) (endpointId : Uuid)
  | letter (eventId : Uuid) (consumerId : String)

abbrev Names := Uuid → Option Named

namespace Names

/-- A name stays. -/
def Grows (names names' : Names) : Prop := ∀ id n, names id = some n → names' id = some n

/-- Only used identifiers have names, and an event knows its own. -/
structure Sound (names : Names) (fresh : Uuid) : Prop where
  used : ∀ id n, names id = some n → id < fresh
  event : ∀ id p, names id = some (.event p) → p.eventId = some id

theorem Grows.refl (names : Names) : names.Grows names := fun _ _ h => h

theorem Sound.succ {names : Names} {fresh : Uuid} (h : names.Sound fresh) :
    names.Sound (fresh + 1) :=
  ⟨fun id n hn => Nat.lt_succ_of_lt (h.used id n hn), h.event⟩

/-- The next identifier gets a name. -/
def give (names : Names) (fresh : Uuid) (n : Named) : Names := Function.update names fresh (some n)

theorem give_self (names : Names) (fresh : Uuid) (n : Named) : names.give fresh n fresh = some n :=
  Function.update_self ..

theorem Sound.grows_give {names : Names} {fresh : Uuid} (h : names.Sound fresh) (n : Named) :
    names.Grows (names.give fresh n) := by
  intro id n' hn
  have hne : id ≠ fresh := Nat.ne_of_lt (h.used id n' hn)
  rw [give, Function.update_of_ne hne]
  exact hn

theorem Sound.give {names : Names} {fresh : Uuid} (h : names.Sound fresh) {n : Named}
    (hn : ∀ p, n = .event p → p.eventId = some fresh) : (names.give fresh n).Sound (fresh + 1) := by
  constructor
  · intro id n' hid
    by_cases heq : id = fresh
    · exact heq ▸ Nat.lt_succ_self _
    · rw [Names.give, Function.update_of_ne heq] at hid
      exact Nat.lt_succ_of_lt (h.used id n' hid)
  · intro id p hid
    by_cases heq : id = fresh
    · subst heq
      rw [give_self] at hid
      exact hn p (Option.some.inj hid)
    · rw [Names.give, Function.update_of_ne heq] at hid
      exact h.event id p hid

/-- An outbox row's event and consumer. -/
structure Webhook (names : Names) (id subscriptionId : Uuid) (payload : WebhookPayload)
    (eventId : Uuid) (consumerId : String) : Prop where
  row : names id = some (.webhook subscriptionId payload)
  known : payload.eventId = some eventId
  event : names eventId = some (.event payload)
  subscription : names subscriptionId = some (.subscription consumerId payload.endpointId)

theorem Webhook.mono {names names' : Names} (hn : names.Grows names') {id sub : Uuid}
    {payload : WebhookPayload} {e : Uuid} {c : String} (h : names.Webhook id sub payload e c) :
    names'.Webhook id sub payload e c :=
  ⟨hn _ _ h.row, h.known, hn _ _ h.event, hn _ _ h.subscription⟩

end Names

/-! ### Facts about rows -/

/-- What never changes about a row of the outbox. -/
structure OutboxRow.Facts (names : Names) (db : Db) (row : OutboxRow) : Prop where
  endpoint : row.endpointId = row.payload.endpointId
  named : ∃ e c, names.Webhook row.id row.subscriptionId row.payload e c
  known : ∃ k, db.subscriber row.subscriptionId = some k

def SubscriptionRow.Facts (names : Names) (sub : SubscriptionRow) : Prop :=
  names sub.id = some (.subscription sub.consumerId sub.endpointId)

/-- A dead letter holds its event. -/
structure DlqRow.Facts (names : Names) (entry : DlqRow) : Prop where
  row : names entry.id = some (.letter entry.eventId entry.consumerId)
  event : names entry.eventId = some (.event entry.event)
  endpoint : entry.endpointId = entry.event.endpointId

/-- A delivery of an outbox row. -/
def Delivery.Facts (names : Names) (id : Uuid) (d : Delivery) : Prop :=
  (∃ sub, names.Webhook id sub d.payload d.eventId d.subscription.consumerId) ∧
    d.endpointId = d.payload.endpointId

/-- There is a dead letter for an outbox row, or one in the open transaction `ws`, or the delivery
`owed` is about to write it. -/
def LetterFor (names : Names) (db : Db) (ws : List Write) (owed : Option Delivery) (id : Uuid) :
    Prop :=
  ∃ sub payload e c, names.Webhook id sub payload e c ∧
    (db.DeadLetter e c 0 ∨
      (∃ letter, .upsertDlq letter ∈ ws ∧ letter.eventId = e ∧ letter.consumerId = c) ∨
      ∃ d ∈ owed, d.eventId = e ∧ d.subscription.consumerId = c)

/-- What holds of all rows in some tables; that a subscription is known refers to `db`. -/
structure TableFacts (names : Names) (db tables : Db) : Prop where
  rows : ∀ row ∈ tables.outbox, row.Facts names db
  entries : ∀ entry ∈ tables.dlq, entry.Facts names
  subs : ∀ sub ∈ tables.subscriptions, sub.Facts names

/-- What holds of the committed tables: FAILED rows have their dead letter. -/
structure DbFacts (names : Names) (db : Db) : Prop extends TableFacts names db db where
  failed : ∀ row ∈ db.outbox, row.status = .failed → LetterFor names db [] none row.id

/-- What holds of an open transaction. -/
structure Transaction (names : Names) (db : Db) (owed : Option Delivery) (ws : List Write) :
    Prop where
  rows : ∀ row, .insertOutbox row ∈ ws → row.Facts names db ∧ row.status ≠ .failed
  entries : ∀ entry, .upsertDlq entry ∈ ws → entry.Facts names
  subs : ∀ sub, .insertSubscription sub ∈ ws → sub.Facts names
  failed : ∀ id change, .updateOutbox id change ∈ ws → change.status = .failed →
    LetterFor names db ws owed id

theorem DlqRow.Facts.mono {names names' : Names} (hn : names.Grows names') {entry : DlqRow}
    (h : entry.Facts names) : entry.Facts names' :=
  ⟨hn _ _ h.row, hn _ _ h.event, h.endpoint⟩

section Monotone

variable {names names' : Names} {db db' tables : Db} (hn : names.Grows names') (hk : db.Keeps db')

include hn hk

theorem OutboxRow.Facts.mono {row : OutboxRow} (h : row.Facts names db) : row.Facts names' db' := by
  obtain ⟨e, c, hw⟩ := h.named
  obtain ⟨k, hk'⟩ := h.known
  exact ⟨h.endpoint, ⟨e, c, hw.mono hn⟩, k, hk.subscriber _ k hk'⟩

theorem LetterFor.mono {ws ws' : List Write} {owed : Option Delivery} {id : Uuid}
    (h : LetterFor names db ws owed id) (hws : ∀ w ∈ ws, w ∈ ws') :
    LetterFor names' db' ws' owed id := by
  obtain ⟨sub, payload, e, c, hw, hletter⟩ := h
  refine ⟨sub, payload, e, c, hw.mono hn, ?_⟩
  obtain hdead | ⟨letter, hmem, hkey⟩ | howed := hletter
  · exact .inl (hk.deadLetter _ _ _ hdead)
  · exact .inr (.inl ⟨letter, hws _ hmem, hkey⟩)
  · exact .inr (.inr howed)

theorem TableFacts.mono (h : TableFacts names db tables) : TableFacts names' db' tables where
  rows row hrow := (h.rows row hrow).mono hn hk
  entries entry hentry := (h.entries entry hentry).mono hn
  subs sub hsub := hn _ _ (h.subs sub hsub)

theorem Transaction.mono {owed : Option Delivery} {ws : List Write}
    (h : Transaction names db owed ws) : Transaction names' db' owed ws where
  rows row hrow := ⟨(h.rows row hrow).1.mono hn hk, (h.rows row hrow).2⟩
  entries entry hentry := (h.entries entry hentry).mono hn
  subs sub hsub := hn _ _ (h.subs sub hsub)
  failed id change hmem hstatus := (h.failed id change hmem hstatus).mono hn hk fun _ hw => hw

end Monotone

theorem Delivery.Facts.mono {names names' : Names} (hn : names.Grows names') {id : Uuid}
    {d : Delivery} (h : d.Facts names id) : d.Facts names' id := by
  obtain ⟨⟨sub, hw⟩, hendpoint⟩ := h
  exact ⟨⟨sub, hw.mono hn⟩, hendpoint⟩

theorem DbFacts.mono {names names' : Names} {db : Db} (hn : names.Grows names')
    (h : DbFacts names db) : DbFacts names' db where
  toTableFacts := h.toTableFacts.mono hn (.refl db)
  failed row hrow hstatus := (h.failed row hrow hstatus).mono hn (.refl db) fun _ hw => hw

/-! ### Transactions -/

section Transactions

variable {names : Names} {db : Db} {owed : Option Delivery} {ws : List Write}

theorem Transaction.nil (names : Names) (db : Db) (owed : Option Delivery) :
    Transaction names db owed [] := by
  constructor <;> simp

/-- Writes that need no facts. -/
def Write.plain : Write → Bool
  | .insertOutbox _ => false
  | .upsertDlq _ => false
  | .insertSubscription _ => false
  | .updateOutbox _ change => change.status ≠ .failed
  | _ => true

/-- One more write. It is the dead letter that was owed, if one was. -/
theorem Transaction.append {owed' : Option Delivery} (h : Transaction names db owed ws) {w : Write}
    (hw : Transaction names db owed' [w])
    (howed : ∀ d ∈ owed, ∃ letter, w = .upsertDlq letter ∧ letter.eventId = d.eventId ∧
      letter.consumerId = d.subscription.consumerId) : Transaction names db owed' (ws ++ [w]) where
  rows row hrow := by
    obtain hrow | hrow := List.mem_append.mp hrow
    · exact h.rows row hrow
    · exact hw.rows row hrow
  entries entry hentry := by
    obtain hentry | hentry := List.mem_append.mp hentry
    · exact h.entries entry hentry
    · exact hw.entries entry hentry
  subs sub hsub := by
    obtain hsub | hsub := List.mem_append.mp hsub
    · exact h.subs sub hsub
    · exact hw.subs sub hsub
  failed id change hmem hstatus := by
    obtain hmem | hmem := List.mem_append.mp hmem
    · obtain ⟨sub, payload, e, c, hwebhook, hletter⟩ := h.failed id change hmem hstatus
      refine ⟨sub, payload, e, c, hwebhook, ?_⟩
      obtain hdead | ⟨letter, hl, hkey⟩ | ⟨d, hd, rfl, rfl⟩ := hletter
      · exact .inl hdead
      · exact .inr (.inl ⟨letter, List.mem_append_left _ hl, hkey⟩)
      · obtain ⟨letter, rfl, hkey⟩ := howed d hd
        exact .inr (.inl ⟨letter, List.mem_append_right _ (List.mem_singleton_self _), hkey⟩)
    · exact (hw.failed id change hmem hstatus).mono (.refl names) (.refl db)
        fun _ => List.mem_append_right _

theorem Transaction.row {row : OutboxRow} (h : row.Facts names db) (hs : row.status ≠ .failed) :
    Transaction names db owed [.insertOutbox row] := by
  constructor <;> simp [h, hs]

theorem Transaction.letter {entry : DlqRow} (h : entry.Facts names) :
    Transaction names db owed [.upsertDlq entry] := by
  constructor <;> simp [h]

theorem Transaction.subscription {sub : SubscriptionRow} (h : sub.Facts names) :
    Transaction names db owed [.insertSubscription sub] := by
  constructor <;> simp [h]

theorem Transaction.change {id : Uuid} {change : OutboxChange}
    (h : change.status = .failed → LetterFor names db [] owed id) :
    Transaction names db owed [.updateOutbox id change] := by
  refine ⟨by simp, by simp, by simp, fun id' change' hmem hstatus => ?_⟩
  cases List.mem_singleton.mp hmem
  exact (h hstatus).mono (.refl names) (.refl db) (by simp)

theorem Transaction.plain (h : Transaction names db none ws) {ws' : List Write}
    (hws : ∀ w ∈ ws', w.plain = true) : Transaction names db none (ws ++ ws') := by
  induction ws' generalizing ws with
  | nil => rwa [List.append_nil]
  | cons w ws' ih =>
    rw [List.forall_mem_cons] at hws
    have hone : Transaction names db none (ws ++ [w]) := by
      refine h.append ⟨?_, ?_, ?_, ?_⟩ (by simp)
      · intro row hrow
        rw [← List.mem_singleton.mp hrow] at hws
        cases hws.1
      · intro entry hentry
        rw [← List.mem_singleton.mp hentry] at hws
        cases hws.1
      · intro sub hsub
        rw [← List.mem_singleton.mp hsub] at hws
        cases hws.1
      · intro id change hmem hstatus
        rw [← List.mem_singleton.mp hmem] at hws
        simp [Write.plain, hstatus] at hws
    rw [List.append_cons]
    exact ih hone hws.2

/-- What a transaction sees are rows with the same facts. -/
theorem TableFacts.applyAll (cfg : Config) (h : TableFacts names db db)
    (ht : Transaction names db owed ws) : TableFacts names db ((program cfg).applyAll ws db) := by
  refine (program cfg).applyAll_induction h fun w hw d hd => ?_
  show TableFacts names db (w.apply d)
  cases w with
  | insertOutbox row =>
    refine ⟨fun r hr => ?_, hd.entries, hd.subs⟩
    obtain hr | hr := List.mem_append.mp hr
    · exact hd.rows r hr
    · exact List.mem_singleton.mp hr ▸ (ht.rows row hw).1
  | updateOutbox id change =>
    refine ⟨fun r hr => ?_, hd.entries, hd.subs⟩
    obtain ⟨r', hr', rfl⟩ := List.mem_map.mp hr
    have hfacts := hd.rows r' hr'
    split
    · exact ⟨hfacts.endpoint, hfacts.named, hfacts.known⟩
    · exact hfacts
  | upsertDlq entry =>
    refine ⟨hd.rows, fun r hr => ?_, hd.subs⟩
    have hr : r ∈ upsertDlqRow entry d.dlq := hr
    rw [upsertDlqRow] at hr
    split at hr
    · obtain ⟨r', hr', rfl⟩ := List.mem_map.mp hr
      have hfacts := hd.entries r' hr'
      split
      · exact ⟨hfacts.row, hfacts.event, hfacts.endpoint⟩
      · exact hfacts
    · obtain hr | hr := List.mem_append.mp hr
      · exact hd.entries r hr
      · exact List.mem_singleton.mp hr ▸ ht.entries entry hw
  | insertSubscription sub =>
    refine ⟨hd.rows, hd.entries, fun r hr => ?_⟩
    obtain hr | hr := List.mem_append.mp hr
    · exact hd.subs r hr
    · exact List.mem_singleton.mp hr ▸ ht.subs sub hw
  | updateSubscription id patch =>
    refine ⟨hd.rows, hd.entries, fun r hr => ?_⟩
    obtain ⟨r', hr', rfl⟩ := List.mem_map.mp hr
    have hfacts := hd.subs r' hr'
    split <;> exact hfacts
  | _ => exact ⟨hd.rows, hd.entries, hd.subs⟩

/-- Where a FAILED row comes from. -/
theorem failed_applyAll (cfg : Config) {row : OutboxRow}
    (hrow : row ∈ ((program cfg).applyAll ws db).outbox) (hstatus : row.status = .failed) :
    (∃ r ∈ db.outbox, r.id = row.id ∧ r.status = .failed) ∨
      (∃ change, .updateOutbox row.id change ∈ ws ∧ change.status = .failed) ∨
      ∃ r, .insertOutbox r ∈ ws ∧ r.status = .failed := by
  have hall : ∀ row ∈ ((program cfg).applyAll ws db).outbox, row.status = .failed →
      (∃ r ∈ db.outbox, r.id = row.id ∧ r.status = .failed) ∨
        (∃ change, .updateOutbox row.id change ∈ ws ∧ change.status = .failed) ∨
        ∃ r, .insertOutbox r ∈ ws ∧ r.status = .failed := by
    refine (program cfg).applyAll_induction (I := fun d : Db => ∀ row ∈ d.outbox,
      row.status = .failed → (∃ r ∈ db.outbox, r.id = row.id ∧ r.status = .failed) ∨
        (∃ change, .updateOutbox row.id change ∈ ws ∧ change.status = .failed) ∨
        ∃ r, .insertOutbox r ∈ ws ∧ r.status = .failed) ?_ ?_
    · exact fun r hr hs => .inl ⟨r, hr, rfl, hs⟩
    · intro w hw d hd r hr hs
      cases w with
      | insertOutbox new =>
        obtain hr | hr := List.mem_append.mp hr
        · exact hd r hr hs
        · rw [List.mem_singleton.mp hr] at hs
          exact .inr (.inr ⟨new, hw, hs⟩)
      | updateOutbox id change =>
        obtain ⟨r', hr', rfl⟩ := List.mem_map.mp hr
        by_cases hid : decide (r'.id = id) = true
        · rw [if_pos hid] at hs ⊢
          refine .inr (.inl ⟨change, ?_, hs⟩)
          rw [show (change.apply r').id = id from of_decide_eq_true hid]
          exact hw
        · rw [if_neg hid] at hs ⊢
          exact hd r' hr' hs
      | _ => exact hd r hr hs
  exact hall row hrow hstatus

theorem deadLetter_applyAll (cfg : Config) {letter : DlqRow} (h : .upsertDlq letter ∈ ws) (db : Db) :
    ((program cfg).applyAll ws db).DeadLetter letter.eventId letter.consumerId 0 := by
  obtain ⟨before, after, rfl⟩ := List.append_of_mem h
  rw [Program.applyAll_append, Program.applyAll_cons]
  refine (Db.Keeps.applyAll cfg after _).deadLetter _ _ _ ?_
  obtain ⟨entry, hentry, he, hc, -⟩ := deadLetter_upsert ((program cfg).applyAll before db) letter
  exact ⟨entry, hentry, he, hc, Nat.zero_le _⟩

/-- **A commit.** Nothing is owed, so every row that it leaves FAILED has its dead letter. -/
theorem DbFacts.commit (cfg : Config) (h : DbFacts names db) (ht : Transaction names db none ws) :
    DbFacts names ((program cfg).applyAll ws db) where
  toTableFacts := (h.toTableFacts.applyAll cfg ht).mono (.refl names) (.applyAll cfg ws db)
  failed row hrow hstatus := by
    have hk := Db.Keeps.applyAll cfg ws db
    have hletter : LetterFor names db ws none row.id := by
      obtain ⟨r, hr, hid, hs⟩ | ⟨change, hmem, hs⟩ | ⟨r, hmem, hs⟩ := failed_applyAll cfg hrow hstatus
      · exact hid ▸ (h.failed r hr hs).mono (.refl names) (.refl db) (by simp)
      · exact ht.failed row.id change hmem hs
      · exact absurd hs (ht.rows r hmem).2
    obtain ⟨sub, payload, e, c, hw, hletter⟩ := hletter
    refine ⟨sub, payload, e, c, hw, .inl ?_⟩
    obtain hdead | ⟨letter, hmem, rfl, rfl⟩ | ⟨d, hd, -⟩ := hletter
    · exact hk.deadLetter _ _ _ hdead
    · exact deadLetter_applyAll cfg hmem db
    · cases hd

end Transactions

end Driftgate.Runtime
