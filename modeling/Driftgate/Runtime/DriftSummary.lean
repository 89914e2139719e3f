import Driftgate.Runtime.VersionRows
import Driftgate.Schema.EmptyDiff

/-!
# The summary of a drift

A request compares its schema with the version before only when the two have different
fingerprints, and so are of different shape. It announces the comparison whether or not that shows
anything. The summary is empty exactly when the change of shape is concealed.
-/

namespace Driftgate.Runtime

open Driftgate.ReadCommitted Driftgate.Transition Driftgate.Schema

section Runs

variable {ι : Type*} [DecidableEq ι] {cfg : Config} {db : Db} {fresh : Uuid}

/-- The version that a notice compares with is stored, and has another schema. -/
theorem Run.notice_prior {good : World ι → ι × Input → Prop} (hdb : db.registry.Valid fresh)
    (hfp : db.Fingerprinted cfg) {s : World ι}
    (hs : Run (program cfg).step good (Initial db fresh) s) {i : ι} {p : TrackProc} {n : Notice}
    {r : TrackResult} (hi : s.loc i = .track p) (hpc : p.pc = .commit (some n) r) :
    ∃ c ∈ s.db.versions, c.endpointId = n.enqueue.drift.upserted.record.endpointId ∧
      n.enqueue.drift.upserted.record.version = c.version + 1 ∧
      ∃ old : Payload, c.Describes cfg old ∧
        canonicalize old.json ≠ canonicalize p.call.payload.json ∧
        diffAndClassify cfg.printable (jsonb (canonicalize old.json))
          (canonicalize p.call.payload.json) = .ok n.enqueue.drift.diffs := by
  have hwrites := Run.version_writes hdb hs i
  rw [hi] at hwrites
  obtain ⟨-, vw, hpcw⟩ := hwrites
  rw [hpc] at hpcw
  obtain ⟨c, hc, -⟩ := hpcw
  obtain ⟨⟨x, hx, hfixed⟩, he, hne⟩ := hc.new.stored c rfl
  obtain ⟨-, hxe, hxv, hxf, hxs, -⟩ := VersionRow.mk.inj hfixed
  have hversion : n.enqueue.drift.upserted.record.version = c.version + 1 := hc.new.version
  obtain ⟨old, hold⟩ := (Run.versions_described hdb hs).2 hfp x hx
  refine ⟨x, hx, hxe.trans he, by omega, old, hold, fun heq => hne ?_, ?_⟩
  · rw [hc.new.fingerprint, ← hxf, hold.fingerprint, heq]
    rfl
  · rw [← hold.schema, hxs]
    exact hc.diffs

/-- **A new version carries a diff unless its change is concealed.** The diff of two payloads is
empty exactly when their canonical schemas agree, and the summary that a request announces with a
new version is not empty, unless the change of shape is concealed; it never is when the keys are
plain and no object is empty. -/
theorem new_version_diff_iff :
    (∀ (printable : Char → Bool) (p q : Payload),
      (canonicalize p.json = canonicalize q.json ↔
        diffAndClassify printable (canonicalize p.json) (canonicalize q.json) = .ok []) ↔
      ¬Conceals p q) ∧
    (∀ (cfg : Config) (db : Db) (fresh : Uuid) (s : World ι) (i : ι) (p : TrackProc) (n : Notice)
      (r : TrackResult), db.registry.Valid fresh → db.Fingerprinted cfg →
      Reachable (program cfg).step (Initial db fresh) s → s.loc i = .track p →
      p.pc = .commit (some n) r →
      ∃ c ∈ s.db.versions, c.endpointId = n.enqueue.drift.upserted.record.endpointId ∧
        n.enqueue.drift.upserted.record.version = c.version + 1 ∧
        ∃ old : Payload, c.Describes cfg old ∧
          ((p.call.driftEvent cfg n).schemaDiffSummary ≠ [] ↔ ¬Conceals old p.call.payload)) ∧
    ∀ p q : Payload, p.json.PlainKeys → q.json.PlainKeys → p.json.FullBelow → q.json.FullBelow →
      ¬Conceals p q := by
  refine ⟨fun printable p q => canonicalize_eq_iff_diff, ?_,
    fun p q hp hq hfp hfq => not_conceals_of_plainKeys hp hq hfp hfq⟩
  intro cfg db fresh s i p n r hdb hfp hs hi hpc
  obtain ⟨c, hc, he, hv, old, hold, hne, hdiffs⟩ := Run.notice_prior hdb hfp hs hi hpc
  refine ⟨c, hc, he, hv, old, hold, ?_⟩
  rw [← @canonicalize_eq_iff_diff cfg.printable, ← reread_eq_nil, hdiffs, Except.ok.injEq]
  show n.enqueue.drift.diffs ≠ [] ↔ _
  tauto

end Runs

/-- The number of diff items that a request is about to announce. -/
def announcedDiffs : Party → Option ℕ
  | .track p =>
    match p.pc with
    | .commit (some n) _ => some n.enqueue.drift.diffs.length
    | _ => none
  | _ => none

/-- A request that drops a member announces it, since the change is not concealed. -/
theorem new_version_diff_drop :
    (∃ (s : World ℕ) (p : TrackProc) (n : Notice) (old : Payload),
      Reachable (program (sampleConfig false)).step (Initial {} 1) s ∧ s.loc 1 = .track p ∧
      (p.call.driftEvent (sampleConfig false) n).schemaDiffSummary ≠ [] ∧
      ¬Conceals old p.call.payload) ∧ ¬Conceals sampleOld sampleNew := by
  have hrun : (exec (program (sampleConfig false)).step
      (sampleWorld {} 1 [sampleRequest sampleOld, sampleRequest sampleNew])
      (List.replicate 8 (0, .proceed 0) ++ List.replicate 13 (1, .proceed 0))).map
        (fun s => announcedDiffs (s.loc 1)) = some (some 1) := by decide +kernel
  obtain ⟨s, hs, hdiffs⟩ := Option.map_eq_some_iff.mp hrun
  have hreach : Reachable (program (sampleConfig false)).step (Initial {} 1) s :=
    reachable_of_exec (sampleWorld_initial (by simp [sampleRequest, Party.Starting.track])) hs
  refine ⟨?_, new_version_diff_iff (ι := ℕ) |>.2.2 sampleOld sampleNew ?_ ?_ ?_ ?_⟩
  · obtain ⟨p, n, r, hp, hpc, hlen⟩ : ∃ p n r, s.loc 1 = .track p ∧ p.pc = .commit (some n) r ∧
        n.enqueue.drift.diffs.length = 1 := by
      cases hloc : s.loc 1 with
      | track p =>
        rw [hloc, announcedDiffs] at hdiffs
        split at hdiffs
        · exact ⟨p, _, _, rfl, ‹_›, Option.some.inj hdiffs⟩
        · cases hdiffs
      | _ =>
        rw [hloc] at hdiffs
        cases hdiffs
    obtain ⟨c, hc, he, hv, old, hold, hiff⟩ := new_version_diff_iff.2.1 _ _ _ s 1 p n r
      (Registry.valid_empty 1) (fun _ h => absurd h List.not_mem_nil) hreach hp hpc
    have hne : (p.call.driftEvent (sampleConfig false) n).schemaDiffSummary ≠ [] := by
      intro hnil
      have hnil : n.enqueue.drift.diffs = [] := hnil
      simp [hnil] at hlen
    exact ⟨s, p, n, old, hreach, hp, hne, hiff.mp hne⟩
  · simp [sampleOld, Payload.json, Json.PlainKeys, PlainKeysMembers, PlainKey]
  · simp [sampleNew, Payload.json, Json.PlainKeys, PlainKeysMembers, PlainKey]
  · exact fullBelow_of_scalars (by simp [sampleOld, Json.kind])
  · exact fullBelow_of_scalars (by simp [sampleNew, Json.kind])

/-- An empty object comes in as a new member, and the diff is empty. -/
theorem empty_object_has_no_diff :
    ¬∀ (printable : Char → Bool) (p q : Payload),
      canonicalize p.json = canonicalize q.json ↔
        diffAndClassify printable (canonicalize p.json) (canonicalize q.json) = .ok [] := by
  intro h
  let p : Payload := ⟨[], by simp [Json.UniqueKeys, UniqueKeysMembers]⟩
  let q : Payload := ⟨[("a", .obj [])], by simp [Json.UniqueKeys, UniqueKeysMembers]⟩
  have heq : canonicalize p.json = canonicalize q.json :=
    (h (fun _ => false) p q).mpr rfl
  simp [p, q, Payload.json, canonicalize, canonicalizeMembers, sortByKey] at heq

end Driftgate.Runtime
