import Driftgate.Runtime.Outbox
import Driftgate.Lib.Ownership

/-!
# Dead letters and the subscriptions they name

`upsert_dlq` never takes a row away: on a conflict it keeps the key and the larger of the two
counters. No statement changes whose subscription a row of `consumer_subscriptions` is. So both
facts survive every write, whoever makes it.
-/

namespace Driftgate.Runtime

open Driftgate.ReadCommitted

/-- The consumer and the endpoint of a subscription. -/
def Db.subscriber (db : Db) (id : Uuid) : Option (String × Uuid) :=
  (db.subscriptions.find? (·.id = id)).map fun r => (r.consumerId, r.endpointId)

/-- `webhook_delivery_dlq` has a row for an event and a consumer that counts at least `n`
attempts. -/
def Db.DeadLetter (db : Db) (eventId : Uuid) (consumerId : String) (n : ℕ) : Prop :=
  ∃ entry ∈ db.dlq, entry.eventId = eventId ∧ entry.consumerId = consumerId ∧
    n ≤ entry.attemptCount

/-- What no write takes back. -/
structure Db.Keeps (db db' : Db) : Prop where
  subscriber : ∀ id k, db.subscriber id = some k → db'.subscriber id = some k
  deadLetter : ∀ e c n, db.DeadLetter e c n → db'.DeadLetter e c n

theorem Db.Keeps.refl (db : Db) : db.Keeps db := ⟨fun _ _ h => h, fun _ _ _ h => h⟩

theorem Db.Keeps.trans {db db' db'' : Db} (h : db.Keeps db') (h' : db'.Keeps db'') :
    db.Keeps db'' where
  subscriber id k hk := h'.subscriber id k (h.subscriber id k hk)
  deadLetter e c n hn := h'.deadLetter e c n (h.deadLetter e c n hn)

theorem deadLetter_upsertDlqRow {db : Db} {row : DlqRow} {e : Uuid} {c : String} {n : ℕ}
    (h : db.DeadLetter e c n) : ({ db with dlq := upsertDlqRow row db.dlq } : Db).DeadLetter e c n := by
  obtain ⟨entry, hentry, rfl, rfl, hn⟩ := h
  show ∃ entry' ∈ upsertDlqRow row db.dlq, _
  rw [upsertDlqRow]
  split
  · by_cases hc : (entry.eventId = row.eventId && entry.consumerId = row.consumerId) = true
    · refine ⟨_, List.mem_map.mpr ⟨entry, hentry, if_pos hc⟩, rfl, rfl, ?_⟩
      exact hn.trans (le_max_left _ _)
    · exact ⟨entry, List.mem_map.mpr ⟨entry, hentry, if_neg hc⟩, rfl, rfl, hn⟩
  · exact ⟨entry, List.mem_append_left _ hentry, rfl, rfl, hn⟩

/-- `upsert_dlq` leaves a row that counts at least its attempts. -/
theorem deadLetter_upsert (db : Db) (row : DlqRow) :
    ((Write.upsertDlq row).apply db).DeadLetter row.eventId row.consumerId row.attemptCount := by
  show ∃ entry ∈ upsertDlqRow row db.dlq, _
  rw [upsertDlqRow]
  split
  · rename_i hconflict
    obtain ⟨entry, hentry, hc⟩ := List.any_eq_true.mp hconflict
    have hkey : entry.eventId = row.eventId ∧ entry.consumerId = row.consumerId := by
      simpa using hc
    refine ⟨_, List.mem_map.mpr ⟨entry, hentry, if_pos hc⟩, hkey.1, hkey.2, ?_⟩
    exact le_max_right _ _
  · exact ⟨row, List.mem_append_right _ (List.mem_singleton_self _), rfl, rfl, le_rfl⟩

theorem Db.Keeps.write (w : Write) (db : Db) : db.Keeps (w.apply db) := by
  cases w with
  | insertSubscription row =>
    refine ⟨fun id k h => ?_, fun _ _ _ h => h⟩
    obtain ⟨r, hr, rfl⟩ := Option.map_eq_some_iff.mp h
    show ((db.subscriptions ++ [row]).find? _).map _ = _
    rw [List.find?_append, hr]
    rfl
  | updateSubscription id' patch =>
    refine ⟨fun id k h => ?_, fun _ _ _ h => h⟩
    obtain ⟨r, hr, rfl⟩ := Option.map_eq_some_iff.mp h
    show ((updateWhere (·.id = id') patch.apply db.subscriptions).find? _).map _ = _
    rw [find_updateWhere _ _ patch.apply _ fun r => rfl, hr, Option.map_some, Option.map_some]
    split <;> rfl
  | upsertDlq row => exact ⟨fun _ _ h => h, fun _ _ _ h => deadLetter_upsertDlqRow h⟩
  | _ => exact ⟨fun _ _ h => h, fun _ _ _ h => h⟩

theorem Db.Keeps.applyAll (cfg : Config) (ws : List Write) (db : Db) :
    db.Keeps ((program cfg).applyAll ws db) :=
  (program cfg).applyAll_induction (I := db.Keeps) (.refl db) fun w _ _ h => h.trans (.write w _)

/-- A step takes none of it back. -/
theorem Db.Keeps.shared (cfg : Config) {ι : Type*} (i : ι) (ws : List Write)
    (w : Shared Db Effect ι) (op : Op Write LockKey Effect Party) :
    w.db.Keeps (op.shared (program cfg) i ws w).db := by
  cases op with
  | commit next => exact .applyAll cfg ws w.db
  | _ => exact .refl w.db

/-- Subscriptions are not written by writes of other tables. -/
theorem subscriptions_applyAll (cfg : Config) {ws : List Write}
    (h : ∀ w ∈ ws, w.table ≠ .subscriptions) (db : Db) :
    ((program cfg).applyAll ws db).subscriptions = db.subscriptions := by
  refine (program cfg).applyAll_keep Db.subscriptions (fun w hw db => ?_) db
  have ht := h w hw
  cases w with
  | insertSubscription row => exact absurd rfl ht
  | updateSubscription id patch => exact absurd rfl ht
  | _ => rfl

/-- A row of the table belongs to somebody. -/
theorem Db.exists_subscriber {db : Db} {sub : SubscriptionRow} (h : sub ∈ db.subscriptions) :
    ∃ k, db.subscriber sub.id = some k := by
  have hfind : (db.subscriptions.find? (·.id = sub.id)).isSome = true :=
    List.find?_isSome.mpr ⟨sub, h, by simp⟩
  obtain ⟨r, hr⟩ := Option.isSome_iff_exists.mp hfind
  exact ⟨_, Option.map_eq_some_iff.mpr ⟨r, hr, rfl⟩⟩

end Driftgate.Runtime
