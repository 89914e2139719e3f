import Driftgate.Runtime.System

/-!
# Rows that stay

Nothing deletes a version or a webhook, and some columns of a row are never written again. So what a
row says in these columns is seen by a transaction exactly if it was committed before or the
transaction has inserted it.
-/

namespace Driftgate.Runtime

open Driftgate.ReadCommitted

theorem exists_mem_updateWhere {α : Type*} (has : α → Prop) (q : α → Bool) {f : α → α}
    (rows : List α) (h : ∀ r, has (f r) ↔ has r) :
    (∃ r ∈ updateWhere q f rows, has r) ↔ ∃ r ∈ rows, has r := by
  have hr : ∀ r, has (if q r then f r else r) ↔ has r := by
    intro r
    split
    · exact h r
    · exact Iff.rfl
  simp only [updateWhere, List.mem_map, exists_exists_and_eq_and, hr]

/-! ### Rows of the registry -/

section Versions

variable (has : VersionRow → Prop) (current : ∀ r, has { r with isCurrent := false } ↔ has r)
  (label : ∀ r c, has { r with compatibilityClassification := c } ↔ has r)

include current label

theorem Db.versions_apply (w : Write) (db : Db) :
    (∃ row ∈ (w.apply db).versions, has row) ↔
      (∃ row ∈ db.versions, has row) ∨ ∃ row, w = .insertVersion row ∧ has row := by
  cases w with
  | insertVersion row => simp [Write.apply, or_and_right, exists_or]
  | unsetCurrent id =>
    simp only [Write.apply, reduceCtorEq, false_and, exists_false, or_false]
    exact exists_mem_updateWhere has _ _ current
  | setClassification id c =>
    simp only [Write.apply, reduceCtorEq, false_and, exists_false, or_false]
    exact exists_mem_updateWhere has _ _ fun r => label r c
  | _ => simp [Write.apply]

/-- A transaction sees the versions that are committed and those it has inserted. -/
theorem versions_applyAll (cfg : Config) (ws : List Write) (db : Db) :
    (∃ row ∈ ((program cfg).applyAll ws db).versions, has row) ↔
      (∃ row ∈ db.versions, has row) ∨ ∃ row, .insertVersion row ∈ ws ∧ has row := by
  rw [(program cfg).applyAll_gain (fun db => ∃ row ∈ db.versions, has row)
    (Db.versions_apply has current label)]
  constructor
  · intro h
    refine h.imp_right fun ⟨w, hw, row, hrow, hk⟩ => ?_
    exact ⟨row, hrow ▸ hw, hk⟩
  · exact fun h => h.imp_right fun ⟨row, hw, hk⟩ => ⟨_, hw, row, rfl, hk⟩

end Versions

/-! ### Rows of the outbox -/

theorem Db.outbox_apply (has : Uuid → WebhookPayload → Prop) (w : Write) (db : Db) :
    (∃ row ∈ (w.apply db).outbox, has row.subscriptionId row.payload) ↔
      (∃ row ∈ db.outbox, has row.subscriptionId row.payload) ∨
        ∃ row, w = .insertOutbox row ∧ has row.subscriptionId row.payload := by
  cases w with
  | insertOutbox row => simp [Write.apply, or_and_right, exists_or]
  | updateOutbox id change =>
    simp only [Write.apply, reduceCtorEq, false_and, exists_false, or_false]
    exact exists_mem_updateWhere (fun r : OutboxRow => has r.subscriptionId r.payload) _ _
      fun r => Iff.rfl
  | _ => simp [Write.apply]

/-- Subscription and payload of a row never change, and rows stay. -/
theorem outbox_applyAll (cfg : Config) (has : Uuid → WebhookPayload → Prop) (ws : List Write)
    (db : Db) :
    (∃ row ∈ ((program cfg).applyAll ws db).outbox, has row.subscriptionId row.payload) ↔
      (∃ row ∈ db.outbox, has row.subscriptionId row.payload) ∨
        ∃ row, .insertOutbox row ∈ ws ∧ has row.subscriptionId row.payload := by
  rw [(program cfg).applyAll_gain
    (fun db => ∃ row ∈ db.outbox, has row.subscriptionId row.payload)
    (fun w db => Db.outbox_apply has w db)]
  constructor
  · intro h
    refine h.imp_right fun ⟨w, hw, row, hrow, hk⟩ => ?_
    exact ⟨row, hrow ▸ hw, hk⟩
  · exact fun h => h.imp_right fun ⟨row, hw, hk⟩ => ⟨_, hw, row, rfl, hk⟩

end Driftgate.Runtime
