import Driftgate.Runtime.Webhook
import Mathlib.Data.List.Infix

/-!
# After a POST was answered 2xx

The record of a delivered webhook and its commit stand in the same `try` as the POST. A database
error there sends the call to the branch of a failed POST, and if the next statement goes through,
the attempt is recorded as failed: with attempts left the webhook is posted again, with the last one
it gets a dead letter. If the next statement raises as well, the exception leaves the call before
anything of this is done. `acknowledged_iff` says that these are the only ways.
-/

namespace Driftgate.Runtime

open Driftgate.ReadCommitted

/-- An operation of `deliver_with_retry`. -/
abbrev DeliverOp := Op Write LockKey Post (Flow DeliverPc Bool)

/-- A call of `deliver_with_retry`, with what happens wherever it waits and with its operations. -/
inductive Delivery.Calls (d : Delivery) :
    Flow DeliverPc Bool → List Input → List DeliverOp → Flow DeliverPc Bool → Prop
  | nil (f : Flow DeliverPc Bool) : Calls d f [] [] f
  | step {pc : DeliverPc} {v : DbView} {x : Input} {op : DeliverOp} {inputs : List Input}
      {ops : List DeliverOp} {f : Flow DeliverPc Bool} : d.step pc v x = some op →
      Calls d op.next inputs ops f → Calls d (.go pc) (x :: inputs) (op :: ops) f

/-! ### Treated as failed -/

/-- A POST that was answered 2xx. -/
def Acknowledges : DeliverOp → Prop
  | .emit post _ => post.answer.ok = true
  | _ => False

/-- Neither a POST, nor the record of a failed attempt, nor a dead letter. -/
def Quiet : DeliverOp → Prop
  | .emit _ _ => False
  | .exec _ writes _ => ∀ w ∈ writes, match w with
    | .insertAttempt row => row.success = true
    | .upsertDlq _ => False
    | _ => True
  | .commit _ => True
  | .rollback _ => True

/-- The errors that make an acknowledged webhook a failed one: the record of the success fails, or
its commit does, and the statement after that goes through. -/
inductive Disowned : List Input → Prop
  | record {code : ℕ} {reason : String} {now : Time} {rest : List Input} :
    (Answer.status code).ok = true →
      Disowned (.answer code :: .raise reason :: .proceed now :: rest)
  | commit {code : ℕ} {reason : String} {now now' : Time} {rest : List Input} :
    (Answer.status code).ok = true →
      Disowned (.answer code :: .proceed now :: .raise reason :: .proceed now' :: rest)

namespace Delivery

variable {d : Delivery} {inputs : List Input} {ops : List DeliverOp} {f f' : Flow DeliverPc Bool}

/-- A call that has returned or raised does nothing more. -/
theorem Calls.ended (h : d.Calls f inputs ops f') (hf : ∀ pc, f ≠ .go pc) :
    inputs = [] ∧ ops = [] := by
  cases h with
  | nil => exact ⟨rfl, rfl⟩
  | step _ _ => exact absurd rfl (hf _)

/-- A failed attempt is recorded by the next statement, if that goes through. -/
theorem Calls.quiet_insertFailure {n : ℕ} {reason : String}
    (h : d.Calls (.go (.insertFailure n reason)) inputs ops f) :
    (∀ op ∈ ops, Quiet op) ↔ ∀ now rest, inputs ≠ .proceed now :: rest := by
  cases h with
  | nil => simp
  | step hop hrest =>
    cases step_move hop with
    | failure n reason =>
      refine iff_of_false (fun h => ?_) fun h => h _ _ rfl
      have hquiet := h _ List.mem_cons_self
      have hsuccess := hquiet _ (List.mem_singleton.mpr rfl)
      cases hsuccess
    | failureRaises n reason why =>
      obtain ⟨rfl, rfl⟩ := hrest.ended fun pc he => nomatch he
      simp [Quiet]

theorem Calls.quiet_commitSuccess {n : ℕ} (h : d.Calls (.go (.commitSuccess n)) inputs ops f) :
    (∀ op ∈ ops, Quiet op) ↔
      ∀ reason now rest, inputs ≠ .raise reason :: .proceed now :: rest := by
  cases h with
  | nil => simp
  | step hop hrest =>
    cases step_move hop with
    | delivered n =>
      obtain ⟨rfl, rfl⟩ := hrest.ended fun pc he => nomatch he
      simp [Quiet]
    | deliveredRaises n reason =>
      rw [List.forall_mem_cons, hrest.quiet_insertFailure]
      constructor
      · rintro ⟨-, h⟩ _ now rest he
        exact h now rest (List.cons.inj he).2
      · exact fun h => ⟨trivial, fun now rest he => h reason now rest (by rw [he])⟩

/-- The record of a success is none of a failure. -/
theorem quiet_success (d : Delivery) (n : ℕ) (id : Uuid) :
    Quiet (.exec [] [d.insertAttempt id true none n] (.go (.commitSuccess n))) := by
  simp [Quiet, insertAttempt]

/-- **What follows an acknowledged POST.** -/
theorem Calls.quiet_insertSuccess {n code : ℕ} (hok : (Answer.status code).ok = true)
    (h : d.Calls (.go (.insertSuccess n)) inputs ops f) :
    (∀ op ∈ ops, Quiet op) ↔ ¬Disowned (.answer code :: inputs) := by
  cases h with
  | nil =>
    refine iff_of_true (by simp) fun h => ?_
    cases h
  | step hop hrest =>
    cases step_move hop with
    | success n =>
      rw [List.forall_mem_cons, hrest.quiet_commitSuccess, and_iff_right (quiet_success d n _)]
      constructor
      · intro h hd
        cases hd with
        | commit _ => exact h _ _ _ rfl
      · rintro h reason now rest rfl
        exact h (.commit hok)
    | successRaises n reason =>
      have hquiet : Quiet (.exec [] [] (.go (.insertFailure n reason))) := by simp [Quiet]
      rw [List.forall_mem_cons, hrest.quiet_insertFailure, and_iff_right hquiet]
      constructor
      · intro h hd
        cases hd with
        | record _ => exact h _ _ rfl
      · rintro h now rest rfl
        exact h (.record hok)

/-- Only an answer can be disowned. -/
theorem not_disowned_of_not_answer {x : Input} (hx : ∀ code, x ≠ .answer code)
    (inputs : List Input) : ¬Disowned (x :: inputs) := by
  intro h
  cases h with
  | record _ => exact hx _ rfl
  | commit _ => exact hx _ rfl

/-- Only a POST can be acknowledged, by an answer with a status 2xx. -/
theorem acknowledges_cases {pc : DeliverPc} {v : DbView} {x : Input} {op : DeliverOp}
    (h : d.step pc v x = some op) :
    (∃ n code, (Answer.status code).ok = true ∧ x = .answer code ∧ Acknowledges op ∧
      op.next = .go (.insertSuccess n)) ∨
    ¬Acknowledges op ∧ ∀ inputs, ¬Disowned (x :: inputs) := by
  cases step_move h with
  | answered n code =>
    by_cases hok : (Answer.status code).ok = true
    · refine .inl ⟨n, code, hok, rfl, hok, ?_⟩
      rw [if_pos hok]
      rfl
    · refine .inr ⟨hok, fun inputs hd => ?_⟩
      cases hd with
      | record hok' => exact hok hok'
      | commit hok' => exact hok hok'
  | unanswered n reason =>
    exact .inr ⟨nofun, not_disowned_of_not_answer fun _ he => nomatch he⟩
  | _ => exact .inr ⟨id, not_disowned_of_not_answer fun _ he => nomatch he⟩

/-- **An acknowledged webhook.** Once a POST has been answered 2xx the call makes no further POST,
records no failed attempt and writes no dead letter, exactly when no database error after such an
answer is followed by a statement that goes through. -/
theorem acknowledged_iff (h : d.Calls d.start inputs ops f) :
    ops.Pairwise (fun op later => Acknowledges op → Quiet later) ↔
      ∀ rest ∈ inputs.tails, ¬Disowned rest := by
  generalize d.start = g at h
  induction h with
  | nil g =>
    refine iff_of_true List.Pairwise.nil fun rest hrest hd => ?_
    obtain rfl : rest = [] := by simpa using hrest
    cases hd
  | @step pc v x op inputs ops f hop hrest ih =>
    rw [List.pairwise_cons, ih, List.tails_cons, List.forall_mem_cons]
    refine and_congr_left fun _ => ?_
    obtain ⟨n, code, hok, rfl, hack, hnext⟩ | ⟨hack, hd⟩ := acknowledges_cases hop
    · rw [hnext] at hrest
      rw [← hrest.quiet_insertSuccess hok]
      exact ⟨fun hquiet later hlater => hquiet later hlater hack,
        fun hquiet later hlater _ => hquiet later hlater⟩
    · exact iff_of_true (fun later _ ha => absurd ha hack) (hd inputs)

end Delivery

/-! ### A commit that fails -/

/-- The webhook of an event for one subscriber, with a single attempt. -/
def sampleWebhook : Delivery where
  eventId := 1
  endpointId := 2
  subscription := {
    id := 3
    consumerId := "consumer"
    endpointId := 2
    targetUrl := "http://consumer/hook"
    severityThreshold := "SAFE"
    schemaVersion := none
    active := true
    createdAt := 0 }
  payload := ⟨some 1, 2, .breaking, 2, []⟩
  maxAttempts := 1
  persistDlq := true

/-- What a statement sees of an empty database. -/
def emptyView : DbView := ⟨{}, fun _ => false, 0⟩

/-- The subscriber answers 200, the commit fails, and everything after it goes through. -/
def failedCommit : List Input :=
  [.answer 200, .proceed 0, .raise "connection lost", .proceed 0, .proceed 0, .proceed 0]

/-- What the call does then. -/
def failedCommitOps : List DeliverOp :=
  [.emit ⟨"http://consumer/hook", sampleWebhook.payload, .status 200⟩ (.go (.insertSuccess 1)),
    .exec [] [sampleWebhook.insertAttempt 0 true none 1] (.go (.commitSuccess 1)),
    .rollback (.go (.insertFailure 1 "connection lost")),
    .exec [] [sampleWebhook.insertAttempt 0 false (some "connection lost") 1]
      (.go (.upsertDlq "connection lost")),
    .exec [sampleWebhook.dlqKey] [sampleWebhook.upsertDlq 0 "connection lost" 1]
      (.go .commitFailure),
    .commit (.done false)]

theorem failedCommit_calls :
    sampleWebhook.Calls sampleWebhook.start failedCommit failedCommitOps (.done false) := by
  exact .step (v := emptyView) rfl (.step (v := emptyView) rfl (.step (v := emptyView) rfl
    (.step (v := emptyView) rfl (.step (v := emptyView) rfl (.step (v := emptyView) rfl
      (.nil _))))))

/-- The webhook was delivered, and its dead letter is written. -/
theorem acknowledged_iff_failedCommit :
    failedCommitOps.Pairwise (fun op later => Acknowledges op → Quiet later) ↔
      ∀ rest ∈ failedCommit.tails, ¬Disowned rest :=
  Delivery.acknowledged_iff failedCommit_calls

theorem delivered_webhook_dead : ¬∀ (d : Delivery) (inputs : List Input) (ops : List DeliverOp)
    (f : Flow DeliverPc Bool), d.Calls d.start inputs ops f →
      ops.Pairwise fun op later => Acknowledges op → Quiet later := by
  intro h
  have hquiet := h _ _ _ _ failedCommit_calls
  have hmem : Op.exec [] [sampleWebhook.insertAttempt 0 false (some "connection lost") 1]
      (.go (.upsertDlq "connection lost")) ∈ failedCommitOps.tail := by
    simp [failedCommitOps]
  have hfailed := (List.pairwise_cons.mp hquiet).1 _ hmem rfl
  have hsuccess := hfailed _ (List.mem_singleton.mpr rfl)
  cases hsuccess

end Driftgate.Runtime
