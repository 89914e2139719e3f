import Driftgate.Runtime.Tables

/-!
# Subscriptions

`select_affected_subscriptions` and the two calls of the subscription API that write. Each call is
one statement and its commit.
-/

namespace Driftgate.Runtime

open Driftgate.ReadCommitted Driftgate.Schema

/-- The `CASE` over `severity_threshold`, and `severity_rank`: an unknown name counts as `SAFE`. -/
def severityRank (name : String) : ℕ :=
  if name = "SAFE" then 0
  else if name = "BACKWARD_COMPATIBLE" then 1
  else if name = "FORWARD_COMPATIBLE" then 2
  else if name = "RISKY" then 3
  else if name = "BREAKING" then 4
  else 0

/-- `select_affected_subscriptions`. -/
def Db.affectedSubscriptions (db : Db) (endpointId : Uuid) (newVersion : ℕ) (severity : String) :
    List SubscriptionRow :=
  db.subscriptions.filter fun r => r.endpointId = endpointId && r.active &&
    r.schemaVersion.all (fun k => k ≤ (newVersion : ℤ)) && severityRank r.severityThreshold ≤ severityRank severity

theorem Db.affectedSubscriptions_active {db : Db} {endpointId : Uuid} {newVersion : ℕ}
    {severity : String} {sub : SubscriptionRow}
    (h : sub ∈ db.affectedSubscriptions endpointId newVersion severity) : sub.active = true := by
  simp only [Db.affectedSubscriptions, List.mem_filter, Bool.and_eq_true] at h
  exact h.2.1.1.2

/-- A call of the subscription API that writes. -/
inductive SubscriptionCall
  /-- `create_subscription`; the row gets its identifier and its time from the database. -/
  | create (row : SubscriptionRow)
  /-- `update_subscription` with a patch that is not empty. -/
  | update (id : Uuid) (patch : SubscriptionPatch)

/-- Where the call is. -/
inductive SubscriptionPc
  | write
  | commit

/-- `create_subscription` and `update_subscription`, from one `await` to the next. -/
def SubscriptionCall.step (call : SubscriptionCall) (pc : SubscriptionPc) (v : DbView) (x : Input) :
    Option (Op Write LockKey Empty (Flow SubscriptionPc Unit)) :=
  match pc, x with
  | .write, .proceed now =>
    match call with
    | .create row => some (.exec [.subscriptionRow v.fresh]
        [.insertSubscription { row with id := v.fresh, createdAt := now }] (.go .commit))
    | .update id patch =>
      some (.exec [.subscriptionRow id] [.updateSubscription id patch] (.go .commit))
  | .commit, .proceed _ => some (.commit (.done ()))
  | _, .raise reason => some (.exec [] [] (.raised (.failed reason)))
  | _, _ => none

theorem SubscriptionCall.step_table {call : SubscriptionCall} {pc : SubscriptionPc} {v : DbView}
    {x : Input} {op : Op Write LockKey Empty (Flow SubscriptionPc Unit)}
    (h : call.step pc v x = some op) : ∀ w ∈ op.writes, w.table = .subscriptions := by
  cases pc <;> cases x <;> cases call <;>
    simp only [step, reduceCtorEq, Option.some.injEq] at h <;> subst h <;>
    simp [Op.writes, Write.table]

end Driftgate.Runtime
