import Driftgate.Lib.Progress
import Driftgate.Runtime.OrphanedRows

/-!
# What crashes cost

A worker that is cancelled, stopped or hit by an exception while it processes a row leaves the row
DELIVERING with nobody to finish it. That is the only way a row gets orphaned, and an interruption
orphans no other row than the one in the worker's hands: not the rest of its batch, whose marks are
not committed yet, and not the rows of other workers. So in every run the orphaned rows are among
the rows in hand at the interruptions, and they are at most as many.
-/

namespace Driftgate.Runtime

open Driftgate.ReadCommitted Driftgate.Transition

section Crashes

variable {ι : Type*}

/-- The row is DELIVERING, and no worker is processing it. -/
def Orphaned (s : World ι) (id : Uuid) : Prop :=
  s.db.outboxStatus id = some .delivering ∧ ∀ i, (s.loc i).processing ≠ some id

/-- The row that a worker drops when it is interrupted. -/
def dropped (s : World ι) (a : ι × Input) : Option Uuid :=
  if (s.loc a.1).interrupted a.2 then (s.loc a.1).processing else none

/-- The steps that interrupt a worker with a row in its hands. -/
def isCrash (s : World ι) (a : ι × Input) : Bool := (dropped s a).isSome

variable [DecidableEq ι] {cfg : Config} {db : Db} {fresh : Uuid}

/-- **One step.** A row that is orphaned after a step was so before, unless the step interrupts the
worker that was processing it. -/
theorem Run.orphaned_step {s t : World ι} {a : ι × Input}
    (hr : Reachable (program cfg).step (Initial db fresh) s)
    (hstep : (program cfg).step s a = some t) {id : Uuid} (h : Orphaned t id) :
    Orphaned s id ∨ dropped s a = some id := by
  obtain ⟨i, x⟩ := a
  obtain ⟨op, hop, hst⟩ := step_cases hstep
  obtain ⟨hid, hnobody⟩ := h
  -- a worker that was processing the row has been interrupted, or has committed the final status
  have hbefore : s.db.outboxStatus id = some .delivering →
      ((s.loc i).concluded ≠ some id ∨ ∀ l, op ≠ .commit l) →
      Orphaned s id ∨ dropped s (i, x) = some id := by
    intro hdelivering hnot
    by_cases hsome : ∃ j, (s.loc j).processing = some id
    · obtain ⟨j, hj⟩ := hsome
      by_cases hji : j = i
      · subst hji
        by_cases hx : (s.loc j).interrupted x = true
        · exact .inr ((if_pos hx).trans hj)
        · obtain hgo | ⟨hc, l, hl⟩ :=
            Party.processing_step hop hj (Bool.eq_false_of_not_eq_true hx)
          · exact absurd (hst.loc ▸ hgo) (hnobody j)
          · exact absurd hl (hnot.resolve_left (not_not_intro hc) l)
      · exact absurd ((hst.loc_other hji).symm ▸ hj) (hnobody j)
    · exact .inl ⟨hdelivering, fun j hj => hsome ⟨j, hj⟩⟩
  by_cases hcommit : ∃ l, op = .commit l
  · obtain ⟨l, rfl⟩ := hcommit
    rw [hst.db, show (Op.commit l).dbAfter (program cfg).apply (s.pending i) s.db =
      (program cfg).applyAll (s.pending i) s.db from rfl, outboxStatus_applyAll] at hid
    rcases Run.settling hr i with hfailed | hset
    · rw [hfailed] at hop
      exact (Party.closeFailed_not_commit cfg hop).elim
    · rcases hset id _ hid with hmarked | ⟨hdelivering, hc⟩
      · exact absurd (hst.loc ▸ Party.commit_marked hop hmarked) (hnobody i)
      · exact hbefore hdelivering (.inl hc)
  · have hno : ∀ l, op ≠ .commit l := fun l hl => hcommit ⟨l, hl⟩
    have hsame : t.db = s.db := by
      rw [hst.db]
      cases op with
      | commit l => exact absurd rfl (hno l)
      | _ => rfl
    rw [hsame] at hid
    exact hbefore hid (.inr hno)

/-- **What crashes cost.** From a database without DELIVERING rows, in every run of any parties, the
rows that are DELIVERING with no worker to finish them are rows that a worker had in its hands when
it was interrupted, and they are at most as many as these interruptions. -/
theorem crashes_bound_orphans (hdb : ∀ id, db.outboxStatus id ≠ some .delivering)
    {s t : World ι} (hs : Initial db fresh s) {as : List (ι × Input)}
    (hexec : exec (program cfg).step s as = some t) :
    (∀ id, Orphaned t id → id ∈ gather (program cfg).step dropped s as) ∧
    ∀ ids : List Uuid, ids.Nodup → (∀ id ∈ ids, Orphaned t id) →
      ids.length ≤ countSteps (program cfg).step isCrash s as := by
  have hamong : ∀ id, Orphaned t id → id ∈ gather (program cfg).step dropped s as := by
    intro id hid
    have hlost := exec_lost (I := Reachable (program cfg).step (Initial db fresh))
      (fun s a u hr _ hstep => hr.next trivial hstep)
      (fun s a u hr _ hstep id hid => Run.orphaned_step hr hstep hid) (.start hs)
      (Along.of_labels (fun _ _ => trivial) s) hexec hid
    refine hlost.resolve_left fun h => hdb id ?_
    rw [← hs.db]
    exact h.1
  refine ⟨hamong, fun ids hnodup hall => ?_⟩
  show _ ≤ countSteps (program cfg).step (fun s a => (dropped s a).isSome) s as
  rw [← length_gather]
  exact (List.subperm_of_subset hnodup fun id hid => hamong id (hall id hid)).length_le

end Crashes

/-- A worker that is cancelled with the first row of its batch in its hands: that row is orphaned,
and no other. -/
theorem crashes_bound_orphans_one : ∃ s : World Unit,
    exec (program (sampleConfig false)).step sampleWorker
      (List.replicate 3 ((), .proceed 0) ++ [((), .cancel)]) = some s ∧
    Orphaned s 1 ∧ ∀ id, Orphaned s id → id = 1 := by
  have hrun : (exec (program (sampleConfig false)).step sampleWorker
      (List.replicate 3 ((), .proceed 0) ++ [((), .cancel)])).map
      (fun s => (s.db.outboxStatus 1, (s.loc ()).processing)) =
        some (some .delivering, none) := by
    decide
  have hcount : countSteps (program (sampleConfig false)).step isCrash sampleWorker
      (List.replicate 3 ((), .proceed 0) ++ [((), .cancel)]) = 1 := by
    decide
  obtain ⟨s, hs, hend⟩ := Option.map_eq_some_iff.mp hrun
  obtain ⟨hstatus, hidle⟩ := Prod.mk.inj hend
  have hinitial : ∀ id, sampleBatch.outboxStatus id ≠ some .delivering := by
    intro id
    simp only [Db.outboxStatus, sampleBatch, List.find?_cons, List.find?_nil]
    split
    · simp [samplePending]
    · split <;> simp [samplePending]
  have horphaned : Orphaned s 1 := by
    refine ⟨hstatus, fun i hi => ?_⟩
    rw [hidle] at hi
    cases hi
  refine ⟨s, hs, horphaned, fun id hid => ?_⟩
  by_contra hne
  have hbound := (crashes_bound_orphans hinitial (worldOf_initial fun _ => .worker) hs).2 [id, 1]
    (by simpa using hne) (by simp [hid, horphaned])
  rw [show worldOf sampleBatch 10 (fun _ => Party.worker .poll) = sampleWorker from rfl, hcount]
    at hbound
  simp at hbound

end Driftgate.Runtime
