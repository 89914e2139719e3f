import Driftgate.Runtime.VersionRows
import Driftgate.Schema.Composition

/-!
# Skipped versions

A subscriber is told of every version, with the verdict on the change from the version before. One
that has missed some of them compares the version it knows with a later one. Where no payload has a
member named `type`, that change is no worse than the worst verdict among the versions it has
missed, so nothing is hidden by the steps in between.
-/

namespace Driftgate.Runtime

open Driftgate.Lib Driftgate.ReadCommitted Driftgate.Transition Driftgate.Schema

section Runs

variable {ι : Type*} [DecidableEq ι] {cfg : Config} {db : Db} {fresh : Uuid}

/-- The stored schema is that of a payload without members named `type`. -/
def VersionRow.Plain (r : VersionRow) : Prop :=
  ∃ p : Payload, r.canonicalSchema = jsonb (canonicalize p.json) ∧ p.json.NoTypeKey

/-- The label of the row is a verdict of at most this rank. -/
def VersionRow.AtMost (r : VersionRow) (c : Compatibility) : Prop :=
  ∃ c' : Compatibility, r.compatibilityClassification = c'.name ∧ c'.rank ≤ c.rank

/-- Without members named `type` no path is misread. -/
theorem not_misreadAt_of_noTypeKey {p q : Payload} (hp : p.json.NoTypeKey) (path : String) :
    ¬MisreadAt (shown p.json path) (shown q.json path) := by
  intro h
  obtain ⟨v, w, hv, -, h⟩ := misreadAt_iff.mp h
  obtain ⟨t, -, ht, -⟩ := h.type
  have hsolid := (shown_solid hp path v hv).2
  cases v with
  | obj members => exact hsolid members rfl
  | _ => cases ht

omit [DecidableEq ι] in
/-- The change between the payloads of two versions is no worse than the worst label in between. -/
theorem skipped_verdict (hv : db.registry.Valid fresh) (hlabels : db.Labelled cfg)
    {a : VersionRow} (ha : a ∈ db.versions) {c : Compatibility}
    (hplain : ∀ r ∈ db.versions, r.endpointId = a.endpointId → r.Plain) {p : Payload}
    (hp : a.canonicalSchema = jsonb (canonicalize p.json)) (hptype : p.json.NoTypeKey) (n : ℕ)
    {b : VersionRow} (hb : b ∈ db.versions) (he : b.endpointId = a.endpointId)
    (hn : b.version = a.version + n)
    (hbound : ∀ r ∈ db.versions, r.endpointId = a.endpointId → a.version < r.version →
      r.version ≤ b.version → r.AtMost c) {q : Payload}
    (hq : b.canonicalSchema = jsonb (canonicalize q.json)) (hqtype : q.json.NoTypeKey) :
    ∃ ds, diffAndClassify cfg.printable (canonicalize p.json) (canonicalize q.json) = .ok ds ∧
      (summarizeClassification ds).rank ≤ c.rank := by
  have hcanonical := fun p : Payload => canonicalize_canonical p.uniqueKeys
  -- by induction on the number of versions in between; the last one has the label of its own step
  induction n generalizing b q with
  | zero =>
    obtain rfl : b = a := hv.number_unique ha hb he hn
    refine ⟨[], ?_, Nat.zero_le _⟩
    rw [jsonb_injective (hcanonical q) (hcanonical p) (hq.symm.trans hp)]
    exact diffAndClassify_self p.uniqueKeys
  | succ n ih =>
    have hpos : 1 ≤ a.version + n := Nat.le_trans (hv.one_le_version ha) (Nat.le_add_right ..)
    obtain ⟨m, hm, hme, hmversion, q', hq', ds', hds', hlabel⟩ := (hlabels b hb).next _ hpos hn
    have hme : m.endpointId = a.endpointId := hme.trans he
    obtain ⟨o, ho, hotype⟩ := hplain m hm hme
    obtain ⟨ds, hds, hrank⟩ := ih hm hme hmversion
      (fun r hr hre hlt hle' => hbound r hr hre hlt (by omega)) ho hotype
    rw [jsonb_injective (hcanonical q') (hcanonical q) (hq'.symm.trans hq), ho] at hds'
    -- the label is the verdict on the last two payloads
    have hstep : verdict cfg.printable o q = .ok (summarizeClassification ds') := by
      rw [← verdict_reread (not_misreadAt_of_noTypeKey hotype), hds']
      rfl
    obtain ⟨ds₂, hds₂, hsame⟩ := map_eq_ok.mp hstep
    obtain ⟨ds'', hds'', hmax⟩ := verdict_compose hptype hotype hqtype hds hds₂
    obtain ⟨c', hc', hle'⟩ := hbound b hb he (by omega) (Nat.le_refl _)
    rw [hlabel] at hc'
    refine ⟨ds'', hds'', Nat.le_trans hmax (max_le hrank ?_)⟩
    rw [hsame, Compatibility.name_injective hc']
    exact hle'

/-- **Skipped versions.** In every run, the change from a stored version of an endpoint to a later
one is no worse than the worst label of the versions after the first up to the second. -/
theorem skipped_versions (hdb : db.registry.Valid fresh) (hlabels : db.Labelled cfg)
    {good : World ι → ι × Input → Prop} {s : World ι}
    (hs : Run (program cfg).step good (Initial db fresh) s) {a b : VersionRow}
    (ha : a ∈ s.db.versions) (hb : b ∈ s.db.versions) (he : b.endpointId = a.endpointId)
    (hle : a.version ≤ b.version) {c : Compatibility}
    (hplain : ∀ r ∈ s.db.versions, r.endpointId = a.endpointId → r.Plain)
    (hbound : ∀ r ∈ s.db.versions, r.endpointId = a.endpointId → a.version < r.version →
      r.version ≤ b.version → r.AtMost c) :
    ∃ ds, diffAndClassify cfg.printable a.canonicalSchema b.canonicalSchema = .ok ds ∧
      (summarizeClassification ds).rank ≤ c.rank := by
  obtain ⟨hv, -⟩ := Run.registry_holds hdb hs
  obtain ⟨p, hp, hptype⟩ := hplain a ha rfl
  obtain ⟨q, hq, hqtype⟩ := hplain b hb he
  obtain ⟨n, hn⟩ := Nat.exists_eq_add_of_le hle
  have hlabelled := (Run.versions_described hdb hs).1 hlabels
  obtain ⟨ds, hds, hrank⟩ :=
    skipped_verdict hv hlabelled ha hplain hp hptype n hb he hn hbound hq hqtype
  have hverdict : verdict cfg.printable p q = .ok (summarizeClassification ds) :=
    congrArg (Except.map summarizeClassification) hds
  obtain ⟨ds', hds', hsame⟩ := map_eq_ok.mp (verdict_stored.trans hverdict)
  exact ⟨ds', hp ▸ hq ▸ hds', hsame ▸ hrank⟩

end Runs

/-- The sample payload with one more member. -/
def sampleWider : Payload where
  members := [("id", .int 1), ("name", .str "x"), ("note", .null)]
  unique := by simp [Json.UniqueKeys, UniqueKeysMembers]

/-- What the example shows of a row. -/
def VersionRow.shown (r : VersionRow) : Uuid × ℕ × String :=
  (r.endpointId, r.version, r.compatibilityClassification)

/-- A row with the schema of a flat payload without a member `type`. -/
theorem VersionRow.Plain.of_pyEq {r : VersionRow} {p q : Payload}
    (hr : r.canonicalSchema = jsonb (canonicalize q.json))
    (hp : pyEq r.canonicalSchema (canonicalize p.json) = true)
    (ht : p.members.lookup "type" = none) (hscalars : ∀ e ∈ p.members, e.2.kind.isSome = true) :
    r.Plain := by
  refine ⟨p, ?_, .of_scalars ht fun e he => Option.isSome_iff_exists.mp (hscalars e he)⟩
  rw [hr, pyEq_jsonb_left] at hp
  rw [hr, (pyEq_iff_eq (canonicalize_canonical q.uniqueKeys)
    (canonicalize_canonical p.uniqueKeys)).mp hp]

/-- Three requests, one after the other, each with one member more than the one before. -/
def skippedRun : Option (World ℕ) :=
  exec (program (sampleConfig false)).step
    (sampleWorld {} 1 [sampleRequest sampleNew, sampleRequest sampleOld, sampleRequest sampleWider])
    (List.replicate 8 (0, .proceed 0) ++ List.replicate 14 (1, .proceed 0) ++
      List.replicate 14 (2, .proceed 0))

/-- From the first version to the third nothing is worse than SAFE. -/
theorem skipped_versions_three :
    ∃ s : World ℕ, Reachable (program (sampleConfig false)).step (Initial {} 1) s ∧
      ∃ a ∈ s.db.versions, ∃ b ∈ s.db.versions, a.version = 1 ∧ b.version = 3 ∧
        ∃ ds, diffAndClassify (sampleConfig false).printable a.canonicalSchema b.canonicalSchema =
          .ok ds ∧ (summarizeClassification ds).rank ≤ Compatibility.safe.rank := by
  have hrows : skippedRun.map (fun s => s.db.versions.map VersionRow.shown) =
      some [(1, 1, "SAFE"), (1, 2, "SAFE"), (1, 3, "SAFE")] := by decide +kernel
  have hschemas : skippedRun.map (fun s => s.db.versions.all fun r =>
      [sampleNew, sampleOld, sampleWider].any fun p =>
        pyEq r.canonicalSchema (canonicalize p.json)) = some true := by decide +kernel
  obtain ⟨s, hs, hrows⟩ := Option.map_eq_some_iff.mp hrows
  rw [hs, Option.map_some, Option.some.injEq] at hschemas
  have hreach : Reachable (program (sampleConfig false)).step (Initial {} 1) s :=
    reachable_of_exec (sampleWorld_initial (by simp [sampleRequest, Party.Starting.track])) hs
  have hflat : ∀ p ∈ [sampleNew, sampleOld, sampleWider],
      p.members.lookup "type" = none ∧ ∀ e ∈ p.members, e.2.kind.isSome = true := by
    intro p hp
    have hp : p = sampleNew ∨ p = sampleOld ∨ p = sampleWider := by simpa using hp
    rcases hp with rfl | rfl | rfl <;> exact ⟨rfl, by decide⟩
  have hplain : ∀ r ∈ s.db.versions, r.Plain := by
    intro r hr
    obtain ⟨q, hq⟩ := (Run.versions_described (Registry.valid_empty 1) hreach).2
      (fun _ h => absurd h List.not_mem_nil) r hr
    obtain ⟨p, hp, heq⟩ := List.any_eq_true.mp (List.all_eq_true.mp hschemas r hr)
    exact .of_pyEq hq.schema heq (hflat p hp).1 (hflat p hp).2
  have hrow : ∀ r ∈ s.db.versions, r.endpointId = 1 ∧ r.compatibilityClassification = "SAFE" := by
    intro r hr
    have hmem : r.shown ∈ s.db.versions.map VersionRow.shown := List.mem_map_of_mem hr
    rw [hrows] at hmem
    simp only [VersionRow.shown, List.mem_cons, List.not_mem_nil, or_false, Prod.mk.injEq] at hmem
    rcases hmem with ⟨he, -, hc⟩ | ⟨he, -, hc⟩ | ⟨he, -, hc⟩ <;> exact ⟨he, hc⟩
  have hfind : ∀ n, (1, n, "SAFE") ∈ s.db.versions.map VersionRow.shown →
      ∃ r ∈ s.db.versions, r.version = n := by
    intro n hn
    obtain ⟨r, hr, heq⟩ := List.mem_map.mp hn
    exact ⟨r, hr, (Prod.mk.inj (Prod.mk.inj heq).2).1⟩
  rw [hrows] at hfind
  obtain ⟨a, ha, haversion⟩ := hfind 1 (by simp)
  obtain ⟨b, hb, hbversion⟩ := hfind 3 (by simp)
  refine ⟨s, hreach, a, ha, b, hb, haversion, hbversion,
    skipped_versions (Registry.valid_empty 1) (fun _ h => absurd h List.not_mem_nil) hreach ha hb
      ((hrow b hb).1.trans (hrow a ha).1.symm) (by omega) (fun r hr _ => hplain r hr)
      fun r hr _ _ _ => ⟨.safe, (hrow r hr).2, Nat.le_refl _⟩⟩

end Driftgate.Runtime
