import Driftgate.Review.Evidence
import Driftgate.Runtime.CallRecords

/-!
# The records of one submission

One submission leaves its verdict in six places: the answer, the version row, the document of the
payload, the document of the comparison, the webhooks and the event. The document of the payload is
stored before the comparison, with the verdict SAFE, and is not touched again. The version row is
inserted with SAFE as well, and then updated. So the records of a submission that drifts disagree
whenever the document of its payload was stored.
-/

namespace Driftgate.Review

open Driftgate.ReadCommitted Driftgate.Transition Driftgate.Schema Driftgate.Runtime

/-- The document of `store_payload_snapshot` in `track_contract`. -/
def payloadSnapshotDocument (cfg : Config) (documentId createdAt : String) (call : TrackCall)
    (endpointId : Uuid) : Document :=
  document "payload_snapshot" documentId createdAt
    [("namespace", .str call.key.nameSpace),
      ("endpoint_id", .str (uuidText endpointId)),
      ("service_name", .str call.key.serviceName),
      ("http_method", .str call.key.httpMethod),
      ("route_path", .str call.key.routePath),
      ("payload", call.payload.json),
      ("fingerprint", .str (cfg.fingerprint call.canonicalSchema)),
      ("classification", .str Compatibility.safe.name),
      ("source", .str "runtime-track"),
      ("schema_version", .null),
      ("metadata", .obj [("route_path", .str call.key.routePath),
        ("service_name", .str call.key.serviceName)])]

section Records

variable {ι : Type*} (cfg : Config) (s : World ι) (i : ι) (p : TrackProc) (r : TrackResult)

/-- The stored version before the one that an answer says it has inserted. -/
def Predecessor (prior : VersionRow) : Prop :=
  r.inserted = true ∧ prior ∈ s.db.versions ∧ prior.endpointId = r.endpointId ∧
    prior.version + 1 = r.schemaVersion

/-- The verdict on the computed diffs: SAFE where nothing is compared. -/
structure Verdict (c : Compatibility) : Prop where
  compared : ∀ prior, Predecessor s r prior → ∃ diffs,
    diffAndClassify cfg.printable prior.canonicalSchema p.call.canonicalSchema = .ok diffs ∧
      c = summarizeClassification diffs
  alone : (∀ prior, ¬Predecessor s r prior) → c = .safe

/-- All records of the request `i` that has been answered by `r` have the verdict `c`. -/
structure RecordsAgree (c : Compatibility) : Prop where
  verdict : Verdict cfg s p r c
  response : r.compatibilityClassification = c
  /-- The committed row with the endpoint, the number and the schema of the inserted version. -/
  version : r.inserted = true → ∀ row ∈ s.db.versions, row.endpointId = r.endpointId →
    row.version = r.schemaVersion → row.canonicalSchema = jsonb p.call.canonicalSchema →
      row.compatibilityClassification = c.name
  snapshot : ∀ endpointId fingerprint documentId createdAt,
    (i, .snapshotStored endpointId fingerprint) ∈ s.trace →
      get (payloadSnapshotDocument cfg documentId createdAt p.call endpointId) "classification"
        .null = .str c.name
  diff : ∀ d documentId createdAt, (i, .diffStored d) ∈ s.trace →
    get (schemaDiffDocument cfg documentId createdAt p.call d) "classification" .null = .str c.name
  outbox : ∀ q ∈ p.pc.enqueue?, ∀ row ∈ s.db.outbox, row.payload.eventId = some q.eventId →
    row.payload.classification = c
  event : ∀ e ok, (i, .published e ok) ∈ s.trace → e.severity = c

/-- The document of the payload was stored. -/
def SnapshotStored : Prop :=
  ∃ endpointId fingerprint, (i, .snapshotStored endpointId fingerprint) ∈ s.trace

end Records

section Runs

variable {ι : Type*} [DecidableEq ι] {cfg : Config} {db : Db} {fresh : Uuid} {s : World ι} {i : ι}
  {p : TrackProc} {r : TrackResult}

/-- What a request with a notice has compared with is the stored version before its own. -/
theorem predecessor_of_notice {good : World ι → ι × Input → Prop} (hdb : db.registry.Valid fresh)
    (hs : Run (program cfg).step good (Initial db fresh) s) (hi : s.loc i = .track p) {n : Notice}
    (hpc : p.pc = .commit (some n) r) :
    ∃ prior, Predecessor s r prior ∧ diffAndClassify cfg.printable prior.canonicalSchema
      p.call.canonicalSchema = .ok n.enqueue.drift.diffs := by
  have hwrites := Run.version_writes hdb hs i
  have hreports := (hi ▸ Run.recorded hs i : Party.Recorded cfg i s.toShared (.track p)).reports
  rw [hi] at hwrites
  obtain ⟨-, vw, hvw⟩ := hwrites
  rw [hpc] at hvw hreports
  obtain ⟨c, hc, -⟩ := hvw
  obtain ⟨hinserted, hr⟩ := hreports
  obtain ⟨⟨x, hx, hfixed⟩, he, -⟩ := hc.new.stored c rfl
  obtain ⟨-, hxe, hxv, -, hxs, -⟩ := VersionRow.mk.inj hfixed
  have hversion : n.enqueue.drift.upserted.record.version = c.version + 1 := hc.new.version
  rw [hr]
  refine ⟨x, ⟨hinserted.inserted, hx, (hxe.trans he).trans hinserted.endpoint, ?_⟩, ?_⟩
  · show x.version + 1 = n.enqueue.drift.upserted.record.version
    rw [hversion]
    exact congrArg (· + 1) hxv
  · rw [hxs]
    exact hc.diffs

/-- Where a request that has returned stands. -/
theorem returned_cases (hs : Reachable (program cfg).step (Initial db fresh) s)
    (hi : s.loc i = .track p) (hstatus : p.status = .returned r) :
    (p.pc = .commit none r ∧ r.compatibilityClassification = .safe ∧
      (r.inserted = true → r.schemaVersion = 1)) ∨
    ∃ n, p.pc = .commit (some n) r ∧
      r.compatibilityClassification = n.enqueue.drift.classification := by
  have hrecorded : Party.Recorded cfg i s.toShared (.track p) := hi ▸ Run.recorded hs i
  obtain ⟨n, hpc⟩ := hrecorded.returned r hstatus
  have hreports := hrecorded.reports
  rw [hpc] at hreports
  cases n with
  | none => exact .inl ⟨hpc, hreports⟩
  | some n => exact .inr ⟨n, hpc, by rw [hreports.2]; rfl⟩

omit [DecidableEq ι] in
/-- A stored version has one predecessor. -/
theorem Predecessor.unique {fresh : Uuid} (hv : s.db.registry.Valid fresh) {prior prior' : VersionRow}
    (h : Predecessor s r prior) (h' : Predecessor s r prior') : prior' = prior :=
  hv.number_unique h.2.1 h'.2.1 (h'.2.2.1.trans h.2.2.1.symm)
    (Nat.succ_injective (h'.2.2.2.trans h.2.2.2.symm))

/-- The answer has the verdict on the computed diffs. -/
theorem verdict_of_returned (hdb : db.registry.Valid fresh)
    (hs : Reachable (program cfg).step (Initial db fresh) s) (hi : s.loc i = .track p)
    (hstatus : p.status = .returned r) : Verdict cfg s p r r.compatibilityClassification := by
  have hv := (Run.registry_holds hdb hs).1
  obtain ⟨-, hsafe, hfirst⟩ | ⟨n, hpc, hclass⟩ := returned_cases hs hi hstatus
  · refine ⟨fun prior hprior => ?_, fun _ => hsafe⟩
    have hone := hv.one_le_version hprior.2.1
    have hnumber := hprior.2.2.2
    rw [hfirst hprior.1] at hnumber
    omega
  · obtain ⟨prior, hprior, hdiffs⟩ := predecessor_of_notice hdb hs hi hpc
    refine ⟨fun prior' hprior' => ?_, fun hnone => absurd hprior (hnone prior)⟩
    rw [Predecessor.unique hv hprior hprior']
    exact ⟨_, hdiffs, hclass⟩

/-- The row of the inserted version has the verdict as its label. -/
theorem version_label (hdb : db.registry.Valid fresh) (hlabels : db.Labelled cfg)
    (hs : Reachable (program cfg).step (Initial db fresh) s) (hi : s.loc i = .track p)
    (hstatus : p.status = .returned r) (hinserted : r.inserted = true) {row : VersionRow}
    (hrow : row ∈ s.db.versions) (hendpoint : row.endpointId = r.endpointId)
    (hversion : row.version = r.schemaVersion)
    (hschema : row.canonicalSchema = jsonb p.call.canonicalSchema) :
    row.compatibilityClassification = r.compatibilityClassification.name := by
  have hv := (Run.registry_holds hdb hs).1
  have hlabel := (Run.versions_described hdb hs).1 hlabels row hrow
  obtain ⟨-, hsafe, hfirst⟩ | ⟨n, hpc, hclass⟩ := returned_cases hs hi hstatus
  · rw [hsafe]
    exact hlabel.first (hversion.trans (hfirst hinserted))
  · obtain ⟨prior, hprior, hdiffs⟩ := predecessor_of_notice hdb hs hi hpc
    obtain ⟨c, hc, hce, hcv, q, hq, diffs, hcdiffs, hname⟩ := hlabel.next prior.version
      (hv.one_le_version hprior.2.1) (hversion.trans hprior.2.2.2.symm)
    have hpayload : canonicalize q.json = p.call.canonicalSchema :=
      jsonb_injective (canonicalize_canonical q.uniqueKeys)
        (canonicalize_canonical p.call.payload.uniqueKeys) (hq.symm.trans hschema)
    have hsame : c = prior := hv.number_unique hprior.2.1 hc
      ((hce.trans hendpoint).trans hprior.2.2.1.symm) hcv
    rw [hsame, hpayload, hdiffs] at hcdiffs
    rw [hname, hclass, ← Except.ok.inj hcdiffs]
    rfl

/-- **When all records of a submission agree.** They do if and only if the document of its payload
was not stored, or the schema of the payload, compared with the version before the inserted one, is
classified SAFE. -/
theorem records_agree_iff (hdb : db.registry.Valid fresh) (hlabels : db.Labelled cfg)
    (hevents : ∀ row ∈ db.outbox, ∀ e ∈ row.payload.eventId, e < fresh)
    (hs : Reachable (program cfg).step (Initial db fresh) s) (hi : s.loc i = .track p)
    (hstatus : p.status = .returned r) :
    (∃ c, RecordsAgree cfg s i p r c) ↔
      (SnapshotStored s i → ∀ prior diffs, Predecessor s r prior →
        diffAndClassify cfg.printable prior.canonicalSchema p.call.canonicalSchema = .ok diffs →
        summarizeClassification diffs = .safe) := by
  have hverdict := verdict_of_returned hdb hs hi hstatus
  constructor
  · rintro ⟨c, h⟩ ⟨e, fp, hstored⟩ prior diffs hprior hdiffs
    have hsafe : Compatibility.safe = c :=
      Compatibility.name_injective (Json.str.inj (h.snapshot e fp "" "" hstored))
    obtain ⟨diffs', hdiffs', hc⟩ := h.verdict.compared prior hprior
    rw [hdiffs] at hdiffs'
    rw [Except.ok.inj hdiffs', ← hc, ← hsafe]
  · intro h
    have hrecorded : Party.Recorded cfg i s.toShared (.track p) := hi ▸ Run.recorded hs i
    -- a drift in the program counter has the verdict of the answer
    have hdrift : ∀ d ∈ p.pc.drift?, d.classification = r.compatibilityClassification := by
      intro d hd
      obtain ⟨hpc, -⟩ | ⟨n, hpc, hclass⟩ := returned_cases hs hi hstatus
      · rw [hpc] at hd
        cases hd
      · rw [hpc] at hd
        cases hd
        exact hclass.symm
    have hsafe : SnapshotStored s i → r.compatibilityClassification = .safe := by
      intro hstored
      obtain ⟨-, hsafe, -⟩ | ⟨n, hpc, hclass⟩ := returned_cases hs hi hstatus
      · exact hsafe
      · obtain ⟨prior, hprior, hdiffs⟩ := predecessor_of_notice hdb hs hi hpc
        exact hclass.trans (h hstored prior _ hprior hdiffs)
    refine ⟨r.compatibilityClassification, hverdict, rfl, fun hinserted row hrow he hv hschema =>
      version_label hdb hlabels hs hi hstatus hinserted hrow he hv hschema, ?_, ?_, ?_, ?_⟩
    · intro e fp documentId createdAt hstored
      rw [hsafe ⟨e, fp, hstored⟩]
      rfl
    · intro d documentId createdAt hstored
      rw [← hdrift d (hrecorded.diff d hstored)]
      rfl
    · intro q hq row hrow he
      have hown : q ∈ (s.own i).loc.enqueue? := by
        show q ∈ (s.loc i).enqueue?
        rw [hi]
        exact hq
      have hpayload :=
        ((Run.events hevents hs).busy i q.eventId ⟨q, hown, rfl⟩).2 q hown row hrow he
      rw [hpayload]
      exact hdrift q.drift (TrackPc.drift_of_enqueue hq)
    · intro e ok he
      obtain ⟨n, r', hpc, rfl⟩ := hrecorded.event e ok he
      exact hdrift _ (by rw [hpc]; rfl)

end Runs

/-! ### Samples -/

theorem exists_returned {party : Party} {r : TrackResult} (h : party.answer? = some r) :
    ∃ p, party = .track p ∧ p.status = .returned r := by
  cases party with
  | track p =>
    refine ⟨p, rfl, ?_⟩
    cases hstatus : p.status <;> simp only [Party.answer?, hstatus, reduceCtorEq,
      Option.some.injEq] at h
    rw [h]
  | _ => cases h

/-- What a request has answered, and whether the document of its payload is stored. -/
structure Outcome where
  answer : Option (Bool × ℕ × Compatibility)
  snapshot : Bool
  versions : List ℕ
  deriving DecidableEq

def outcome (s : World ℕ) (i : ℕ) : Outcome where
  answer := (s.loc i).answer?.map fun r =>
    (r.inserted, r.schemaVersion, r.compatibilityClassification)
  snapshot := s.trace.any fun e => match e with
    | (j, .snapshotStored _ _) => i = j
    | _ => false
  versions := s.db.versions.map (·.version)

theorem snapshotStored_of_outcome {s : World ℕ} {i : ℕ} (h : (outcome s i).snapshot = true) :
    SnapshotStored s i := by
  obtain ⟨⟨j, e⟩, he, hmatch⟩ := List.any_eq_true.mp h
  cases e with
  | snapshotStored endpointId fingerprint =>
    have hij : i = j := of_decide_eq_true hmatch
    exact ⟨endpointId, fingerprint, hij ▸ he⟩
  | _ => cases hmatch

/-- The sample requests, one after the other. -/
def twoRequests : World ℕ := sampleWorld {} 1 [sampleRequest sampleOld, sampleRequest sampleNew]

theorem twoRequests_initial : Initial {} 1 twoRequests :=
  sampleWorld_initial (by simp [sampleRequest, Party.Starting.track])

/-- The records of the first submission agree. -/
theorem records_agree_first : ∃ (s : World ℕ) (p : TrackProc) (r : TrackResult),
    Reachable (program (sampleConfig false)).step (Initial {} 1) s ∧ s.loc 0 = .track p ∧
      p.status = .returned r ∧ r.inserted = true ∧
      ∃ c, RecordsAgree (sampleConfig false) s 0 p r c := by
  have hrun : (exec (program (sampleConfig false)).step twoRequests
      (List.replicate 8 (0, .proceed 0))).map (outcome · 0) =
        some ⟨some (true, 1, .safe), true, [1]⟩ := by decide
  obtain ⟨s, hs, houtcome⟩ := Option.map_eq_some_iff.mp hrun
  have hreach : Reachable (program (sampleConfig false)).step (Initial {} 1) s :=
    reachable_of_exec twoRequests_initial hs
  obtain ⟨hanswer, -, hversions⟩ := Outcome.mk.inj houtcome
  obtain ⟨r, hr, hvalues⟩ := Option.map_eq_some_iff.mp hanswer
  obtain ⟨hinserted, hrest⟩ := Prod.mk.inj hvalues
  obtain ⟨hversion, -⟩ := Prod.mk.inj hrest
  obtain ⟨p, hp, hstatus⟩ := exists_returned hr
  refine ⟨s, p, r, hreach, hp, hstatus, hinserted, ?_⟩
  refine (records_agree_iff (Registry.valid_empty 1) (fun _ h => absurd h List.not_mem_nil)
    (fun _ h => absurd h List.not_mem_nil) hreach hp hstatus).mpr ?_
  intro _ prior diffs hprior
  have hmem : prior.version ∈ s.db.versions.map (·.version) := List.mem_map_of_mem hprior.2.1
  have hnumber := hprior.2.2.2
  rw [hversions, List.mem_singleton] at hmem
  rw [hmem, hversion] at hnumber
  cases hnumber

/-- Whether the request of process `i` also stores the documents of its payload. -/
def storesDocuments (s : World ℕ) (i : ℕ) : Bool :=
  match s.loc i with
  | .track p => p.call.documents
  | _ => false

/-- The second submission loses a member: its answer says BREAKING, the document of its payload
SAFE. -/
theorem records_disagree_second : ¬∀ (s : World ℕ) (i : ℕ) (p : TrackProc) (r : TrackResult),
    Reachable (program (sampleConfig false)).step (Initial {} 1) s → s.loc i = .track p →
      p.call.documents = true → p.status = .returned r →
      ∃ c, RecordsAgree (sampleConfig false) s i p r c := by
  intro h
  have hrun : (exec (program (sampleConfig false)).step twoRequests
      (List.replicate 8 (0, .proceed 0) ++ List.replicate 14 (1, .proceed 0))).map
        (fun s => (outcome s 1, storesDocuments s 1)) =
        some (⟨some (true, 2, .breaking), true, [1, 2]⟩, true) := by decide +kernel
  obtain ⟨s, hs, houtcome⟩ := Option.map_eq_some_iff.mp hrun
  obtain ⟨houtcome, hdocuments⟩ := Prod.mk.inj houtcome
  obtain ⟨hanswer, hsnapshot, -⟩ := Outcome.mk.inj houtcome
  obtain ⟨r, hr, hvalues⟩ := Option.map_eq_some_iff.mp hanswer
  have hclass : r.compatibilityClassification = .breaking :=
    (Prod.mk.inj (Prod.mk.inj hvalues).2).2
  obtain ⟨p, hp, hstatus⟩ := exists_returned hr
  rw [storesDocuments, hp] at hdocuments
  obtain ⟨c, hagree⟩ := h s 1 p r (reachable_of_exec twoRequests_initial hs) hp hdocuments hstatus
  obtain ⟨e, fp, hstored⟩ := snapshotStored_of_outcome (s := s) (i := 1) hsnapshot
  have hsafe : Compatibility.safe = c :=
    Compatibility.name_injective (Json.str.inj (hagree.snapshot e fp "" "" hstored))
  have hbreaking : r.compatibilityClassification = c := hagree.response
  rw [hclass, ← hsafe] at hbreaking
  cases hbreaking

end Driftgate.Review
