import Driftgate.Runtime.RegistryRuns
import Driftgate.Runtime.StoredSchemas
import Driftgate.Schema.LostLeaf

/-!
# What a request reports

A request that finds its fingerprint among the stored versions of its endpoint reports SAFE and no
differences, whichever version that is. A request whose fingerprint is new reports the comparison
with the current version.

The result is about a request that runs alone from any reachable state: nobody else takes a step
between its first statement and its answer. What it sees of the registry is then the registry
before it, and its own writes.
-/

namespace Driftgate.Runtime

open Driftgate.Schema Driftgate.ReadCommitted Driftgate.Transition

/-! ### The endpoint of a key -/

/-- The stored version of the endpoint of a key that has a fingerprint. -/
def Db.endpointVersionOf (db : Db) (key : EndpointKey) (fingerprint : String) :
    Option VersionRow :=
  (db.endpoint? key).bind fun row => db.versionOf row.id fingerprint

/-- The current version of the endpoint of a key. -/
def Db.endpointCurrent (db : Db) (key : EndpointKey) : Option VersionRow :=
  (db.endpoint? key).bind fun row => db.currentSchema row.id

/-- What the answer to a request has to be when `db` is the database before it. -/
def TrackCall.Reports (cfg : Config) (db : Db) (call : TrackCall) (r : TrackResult) : Prop :=
  match db.endpointVersionOf call.key (cfg.fingerprint call.canonicalSchema),
    db.endpointCurrent call.key with
  | none, some current => ∃ diffs,
      diffAndClassify cfg.printable current.canonicalSchema call.canonicalSchema = .ok diffs ∧
      r.compatibilityClassification = summarizeClassification diffs ∧ r.diffCount = diffs.length
  | _, _ => r.compatibilityClassification = .safe ∧ r.diffCount = 0

/-! ### What the request sees on its way -/

section Sees

variable (cfg : Config) (db : Db) (call : TrackCall) (ws : List Write)

/-- `e` is the endpoint of the key, stored before or inserted by the open transaction. -/
structure Known (key : EndpointKey) (e : Uuid) : Prop where
  versionOf : ∀ fp, db.versionOf e fp = db.endpointVersionOf key fp
  current : db.currentSchema e = db.endpointCurrent key
  writes : ∀ w ∈ ws, w.table = .endpoints

/-- What `upsert_schema_version` has seen of the registry `db`. -/
def UpsertPc.Sees (u : Upsert) : UpsertPc → Prop
  | .insertEndpoint => ws = []
  | .selectEndpoint => ws = []
  | .fastLookup e => Known db ws u.key e
  | .advisoryLock e => Known db ws u.key e ∧ db.endpointVersionOf u.key u.fingerprint = none
  | .getCurrentSchema e => Known db ws u.key e ∧ db.endpointVersionOf u.key u.fingerprint = none
  | .lookup e current => Known db ws u.key e ∧
      db.endpointVersionOf u.key u.fingerprint = none ∧ current = db.endpointCurrent u.key
  | .unsetCurrent e c => Known db ws u.key e ∧
      db.endpointVersionOf u.key u.fingerprint = none ∧ some c = db.endpointCurrent u.key
  | .insertVersion _ current => ∃ ep, ws = ep ++ Registry.retirement current ∧
      (∀ w ∈ ep, w.table = .endpoints) ∧ db.endpointVersionOf u.key u.fingerprint = none ∧
      current = db.endpointCurrent u.key

/-- What the result of `upsert_schema_version` says of the registry `db`. -/
def Upsert.Sees (u : Upsert) (r : Upserted) : Prop :=
  (r.inserted = false ∧ (db.endpointVersionOf u.key u.fingerprint).isSome) ∨
  (r.inserted = true ∧ db.endpointVersionOf u.key u.fingerprint = none ∧
    r.record.previousVersionId = (db.endpointCurrent u.key).map (·.id) ∧
    ∃ ep row, ws = ep ++ Registry.registration (db.endpointCurrent u.key) row ∧
      ∀ w ∈ ep, w.table = .endpoints)

/-- The differences of a drift are those from the current version. -/
def Drift.Sees (d : Drift) : Prop :=
  db.endpointVersionOf call.key (cfg.fingerprint call.canonicalSchema) = none ∧
    ∃ current, db.endpointCurrent call.key = some current ∧
      diffAndClassify cfg.printable current.canonicalSchema call.canonicalSchema = .ok d.diffs

/-- What a request has seen. -/
def TrackPc.Sees : TrackPc → Prop
  | .upsert pc => pc.Sees db ws (call.upsert cfg)
  | .storeSnapshot u => (call.upsert cfg).Sees db ws u
  | .selectPrior u id => (call.upsert cfg).Sees db ws u ∧ u.inserted = true ∧
      u.record.previousVersionId = some id
  | .storeDiff d => d.Sees cfg db call
  | .setClassification d => d.Sees cfg db call
  | .enqueue q _ => q.drift.Sees cfg db call
  | .commit _ r => call.Reports cfg db r

end Sees

/-- Up to the comparison a request neither commits nor rolls back. -/
def TrackPc.early : TrackPc → Bool
  | .upsert _ => true
  | .storeSnapshot _ => true
  | .selectPrior _ _ => true
  | _ => false

variable {cfg : Config} {db : Db} {call : TrackCall} {ws : List Write}

/-! ### Reading through the open transaction -/

/-- Writes to the endpoints leave the versions as they are. -/
theorem versions_applyAll_endpoints (h : ∀ w ∈ ws, w.table = .endpoints) (db : Db) :
    ((program cfg).applyAll ws db).versions = db.versions := by
  refine Program.applyAll_keep (program cfg) Db.versions (fun w hw db => ?_) db
  have ht := h w hw
  cases w <;> simp [Write.table] at ht
  rfl

/-- The row with the identifier of the current one has its schema, also after a registration. -/
theorem prior_canonicalSchema {fresh : Uuid} (hv : db.registry.Valid fresh)
    {c prior row : VersionRow} (hc : c ∈ db.versions) {ep : List Write}
    (hep : ∀ w ∈ ep, w.table = .endpoints)
    (hfind : ((program cfg).applyAll (ep ++ Registry.registration (some c) row) db).versions.find?
      (·.id = c.id) = some prior) : prior.canonicalSchema = c.canonicalSchema := by
  have hversions : ((program cfg).applyAll (ep ++ Registry.registration (some c) row) db).versions =
      updateWhere (·.id = c.id) (fun r => { r with isCurrent := false }) db.versions ++ [row] := by
    have h : ((program cfg).applyAll ep db).versions = db.versions :=
      versions_applyAll_endpoints hep db
    rw [Program.applyAll_append]
    show updateWhere _ _ ((program cfg).applyAll ep db).versions ++ [row] = _
    rw [h]
  have hold : (updateWhere (·.id = c.id) (fun r => { r with isCurrent := false })
      db.versions).find? (·.id = c.id) = some prior := by
    rw [hversions, List.find?_append] at hfind
    cases hf : (updateWhere (·.id = c.id) (fun r => { r with isCurrent := false })
        db.versions).find? (·.id = c.id) with
    | some r => simpa [hf] using hfind
    | none =>
      have hno := List.find?_eq_none.mp hf { c with isCurrent := false }
        (List.mem_map.mpr ⟨c, hc, by simp⟩)
      simp at hno
  have hid : prior.id = c.id := by simpa using List.find?_some hold
  obtain ⟨r, hr, heq⟩ := List.mem_map.mp (List.mem_of_find?_eq_some hold)
  have hrid : r.id = c.id := by
    rw [← hid, ← heq]
    split <;> rfl
  rw [← heq, hv.version_unique hr hc hrid]
  split <;> rfl

/-! ### Steps -/

/-- An operation that leaves the transaction open. -/
def Silent {ω κ ε ℓ : Type*} : Op ω κ ε ℓ → Prop
  | .exec _ _ _ => True
  | .emit _ _ => True
  | _ => False

/-- A step of `upsert_schema_version` when the registry is that of `db`. -/
theorem Upsert.step_sees {u : Upsert} {pc : UpsertPc} {v : DbView} {x : Input}
    {op : Op Write LockKey Empty (Flow UpsertPc Upserted)} (hv : db.registry.Valid v.fresh)
    (hview : v.db = (program cfg).applyAll ws db) (h : pc.Sees db ws u)
    (hop : u.step cfg pc v x = some op) :
    ∃ ks new next, op = .exec ks new next ∧
      match next with
      | .go pc' => pc'.Sees db (ws ++ new) u
      | .done r => u.Sees db (ws ++ new) r
      | .raised _ => True := by
  have hversionOf : ∀ {e : Uuid}, Known db ws u.key e →
      v.db.versionOf e u.fingerprint = db.endpointVersionOf u.key u.fingerprint := by
    intro e hk
    have hversions : v.db.versions = db.versions := by
      rw [hview]
      exact versions_applyAll_endpoints hk.writes db
    rw [Db.versionOf_congr hversions, hk.versionOf]
  obtain ⟨ks, new, next, rfl, hmove⟩ := step_move hop
  refine ⟨ks, new, next, rfl, ?_⟩
  cases hmove with
  | raises | endpointMissing | versionTaken => trivial
  | endpointTaken =>
    obtain rfl : ws = [] := h
    rfl
  | endpointInserted hno =>
    obtain rfl : ws = [] := h
    obtain rfl : v.db = db := hview
    -- no version has an endpoint that does not exist yet
    have hfresh : ∀ r ∈ v.db.versions, r.endpointId ≠ v.fresh := by
      intro r hr
      obtain ⟨row, hrow, hid⟩ := hv.owner _ (List.mem_map.mpr ⟨r, hr, rfl⟩)
      have hid : row.id = r.endpointId := hid
      rw [← hid]
      exact ne_of_lt (hv.endpointFresh row hrow)
    refine ⟨fun fp => ?_, ?_, by simp [Write.table]⟩
    · rw [Db.endpointVersionOf, hno]
      refine List.find?_eq_none.mpr fun r hr => ?_
      simp [hfresh r hr]
    · rw [Db.endpointCurrent, hno]
      have hnil : (v.db.versions.filter fun r => r.endpointId = v.fresh && r.isCurrent) = [] :=
        List.filter_eq_nil_iff.mpr fun r hr => by simp [hfresh r hr]
      rw [Db.currentSchema, hnil]
      rfl
  | endpointFound hrow =>
    obtain rfl : ws = [] := h
    obtain rfl : v.db = db := hview
    exact ⟨fun fp => by rw [Db.endpointVersionOf, hrow]; rfl,
      by rw [Db.endpointCurrent, hrow]; rfl, by simp⟩
  | @fastFound now e row hrow =>
    have hk : Known db ws u.key e := h
    refine .inl ⟨rfl, ?_⟩
    rw [← hversionOf hk, hrow]
    rfl
  | @fastMissing now e hnone =>
    have hk : Known db ws u.key e := h
    rw [List.append_nil]
    exact ⟨hk, (hversionOf hk).symm.trans hnone⟩
  | advisoryLock e =>
    rw [List.append_nil]
    exact h
  | getCurrentSchema e =>
    obtain ⟨hk, hnone⟩ := h
    rw [List.append_nil, hview,
      Db.currentSchema_congr (versions_applyAll_endpoints hk.writes db), hk.current]
    exact ⟨hk, hnone, rfl⟩
  | found current hrow =>
    obtain ⟨hk, hnone, -⟩ := h
    rw [hversionOf hk, hnone] at hrow
    cases hrow
  | missing c =>
    rw [List.append_nil]
    exact h
  | missingFirst =>
    obtain ⟨hk, hnone, hcurrent⟩ := h
    rw [List.append_nil]
    exact ⟨ws, (List.append_nil ws).symm, hk.writes, hnone, hcurrent⟩
  | unsetCurrent e c =>
    obtain ⟨hk, hnone, hcurrent⟩ := h
    exact ⟨ws, rfl, hk.writes, hnone, hcurrent⟩
  | @versionInserted now e current hfree =>
    obtain ⟨ep, rfl, hep, hnone, rfl⟩ := h
    refine .inr ⟨rfl, hnone, rfl, ep, (u.newRow v.fresh e (db.endpointCurrent u.key)).stored, ?_,
      hep⟩
    rw [Registry.registration, List.append_assoc]

/-- After `upsert_schema_version` the request goes on to the comparison, or its answer is known. -/
theorem TrackCall.afterSnapshot_sees {u : Upserted} (h : (call.upsert cfg).Sees db ws u) :
    (call.afterSnapshot cfg u).Sees cfg db call ws := by
  unfold afterSnapshot
  split
  · rename_i id hinserted hprevious
    exact ⟨h, hinserted, hprevious⟩
  · rename_i hno
    show call.Reports cfg db _
    rw [Reports]
    rcases h with ⟨-, hfound⟩ | ⟨hinserted, hnone, hprevious, -⟩
    · obtain ⟨row, hrow⟩ := Option.isSome_iff_exists.mp hfound
      have hrow : db.endpointVersionOf call.key (cfg.fingerprint call.canonicalSchema) =
        some row := hrow
      rw [hrow]
      exact ⟨rfl, rfl⟩
    · have hnone : db.endpointVersionOf call.key (cfg.fingerprint call.canonicalSchema) =
        none := hnone
      have hcurrent : db.endpointCurrent call.key = none := by
        cases hc : db.endpointCurrent call.key with
        | none => rfl
        | some c =>
          have hc' : db.endpointCurrent (call.upsert cfg).key = some c := hc
          rw [hc'] at hprevious
          exact absurd hprevious (hno c.id hinserted)
      rw [hnone, hcurrent]
      exact ⟨rfl, rfl⟩

theorem TrackCall.afterUpsert_sees {u : Upserted} (h : (call.upsert cfg).Sees db ws u) :
    (call.afterUpsert cfg u).Sees cfg db call ws := by
  unfold afterUpsert
  split
  · exact h
  · exact afterSnapshot_sees h

/-- The comparison is with the current version. -/
theorem TrackCall.afterPrior_sees {fresh : Uuid} {u : Upserted} {id : Uuid} {prior : VersionRow}
    (hv : db.registry.Valid fresh) (h : (TrackPc.selectPrior u id).Sees cfg db call ws)
    (hprior : ((program cfg).applyAll ws db).versions.find? (·.id = id) = some prior)
    {pc : TrackPc} (hgo : call.afterPrior cfg u prior = .go pc) :
    pc.early = false ∧ ∀ ws, pc.Sees cfg db call ws := by
  obtain ⟨hu, hinserted, hid⟩ := h
  rcases hu with ⟨hnot, -⟩ | ⟨-, hnone, hprevious, ep, row, rfl, hep⟩
  · simp [hinserted] at hnot
  · rw [hid] at hprevious
    obtain ⟨c, hc, rfl⟩ := Option.map_eq_some_iff.mp hprevious.symm
    have hmem : c ∈ db.versions := by
      obtain ⟨e, he, hcur⟩ := Option.bind_eq_some_iff.mp hc
      exact (Db.currentSchema_some hcur).1
    rw [hc] at hprior
    have hschema := prior_canonicalSchema hv hmem hep hprior
    unfold afterPrior at hgo
    rw [hschema] at hgo
    split at hgo
    · cases hgo
    · rename_i diffs hdiffs
      have hsees : Drift.Sees cfg db call ⟨u, prior.version, prior.fingerprint, diffs⟩ :=
        ⟨hnone, c, hc, hdiffs⟩
      split at hgo <;> cases hgo <;> exact ⟨rfl, fun _ => hsees⟩

/-- The answer about a drift. -/
theorem Drift.Sees.reports {d : Drift} (h : d.Sees cfg db call) (fp : String)
    (affected : List SubscriptionRow) : call.Reports cfg db (call.driftResult d fp affected) := by
  obtain ⟨hnone, c, hc, hdiffs⟩ := h
  rw [TrackCall.Reports, hnone, hc]
  exact ⟨d.diffs, hdiffs, rfl, rfl⟩

/-- **A step before the comparison is over** leaves the transaction open, and the request sees what
it should. -/
theorem TrackCall.step_early {pc : TrackPc} {v : DbView} {x : Input}
    {op : Op Write LockKey Effect (Flow TrackPc TrackResult)} (hv : db.registry.Valid v.fresh)
    (hview : v.db = (program cfg).applyAll ws db) (hearly : pc.early = true)
    (h : pc.Sees cfg db call ws) (hop : call.step cfg pc v x = some op) :
    Silent op ∧ (∀ pc', op.next = .go pc' → pc'.Sees cfg db call (op.pendingAfter ws)) ∧
      ∀ r, op.next ≠ .done r := by
  cases pc with
  | upsert pc =>
    obtain ⟨op', hop', rfl⟩ := Option.map_eq_some_iff.mp hop
    obtain ⟨ks, new, next, rfl, hnext⟩ := Upsert.step_sees hv hview h hop'
    refine ⟨trivial, fun pc' hgo => ?_, fun r hr => ?_⟩
    · cases next with
      | go pc => cases hgo; exact hnext
      | done r => cases hgo; exact afterUpsert_sees hnext
      | raised e => cases hgo
    · cases next <;> cases hr
  | storeSnapshot u =>
    cases x <;> simp only [step, reduceCtorEq, Option.some.injEq] at hop <;> subst hop
    · refine ⟨trivial, fun pc' hgo => ?_, fun r hr => by cases hr⟩
      cases hgo
      exact afterSnapshot_sees h
    · refine ⟨trivial, fun pc' hgo => ?_, fun r hr => by cases hr⟩
      cases hgo
      rw [Op.pendingAfter, List.append_nil]
      exact afterSnapshot_sees h
  | selectPrior u id =>
    cases x with
    | proceed now =>
      simp only [step] at hop
      split at hop
      · rename_i prior hprior
        obtain rfl := Option.some.inj hop
        rw [hview] at hprior
        refine ⟨trivial, fun pc' hgo => (afterPrior_sees hv h hprior hgo).2 _, fun r hr => ?_⟩
        simp only [Op.next, afterPrior] at hr
        split at hr <;> cases hr
      · obtain rfl := Option.some.inj hop
        exact ⟨trivial, by simp [Op.next], by simp [Op.next]⟩
    | raise reason =>
      obtain rfl := Option.some.inj hop
      exact ⟨trivial, by simp [Op.next], by simp [Op.next]⟩
    | _ => simp [step] at hop
  | _ => cases hearly

/-- **A step after that** depends on the database no more. -/
theorem TrackCall.step_late {pc : TrackPc} {v : DbView} {x : Input}
    {op : Op Write LockKey Effect (Flow TrackPc TrackResult)} (hlate : pc.early = false)
    (h : pc.Sees cfg db call ws) (hop : call.step cfg pc v x = some op) :
    (∀ pc', op.next = .go pc' → pc'.early = false ∧ ∀ ws, pc'.Sees cfg db call ws) ∧
      ∀ r, op.next = .done r → call.Reports cfg db r := by
  cases pc with
  | enqueue q pc =>
    obtain ⟨op', hop', rfl⟩ := Option.map_eq_some_iff.mp hop
    have hd : q.drift.Sees cfg db call := h
    refine ⟨fun pc' hgo => ?_, fun r hr => ?_⟩
    · rw [Op.next_map] at hgo
      cases hn : op'.next with
      | go pc => rw [hn] at hgo; cases hgo; exact ⟨rfl, fun _ => hd⟩
      | done r => rw [hn] at hgo; cases hgo; exact ⟨rfl, fun _ => hd.reports _ _⟩
      | raised e => rw [hn] at hgo; cases hgo
    · rw [Op.next_map] at hr
      cases hn : op'.next with
      | go pc => rw [hn] at hr; cases hr
      | done r => rw [hn] at hr; cases hr
      | raised e => rw [hn] at hr; cases hr
  | storeDiff d =>
    have hd : d.Sees cfg db call := h
    cases x <;> simp only [step, reduceCtorEq, Option.some.injEq] at hop <;> subst hop <;>
      simp [Op.next, TrackPc.early, TrackPc.Sees, hd]
  | setClassification d =>
    have hd : d.Sees cfg db call := h
    cases x <;> simp only [step, reduceCtorEq, Option.some.injEq] at hop <;> subst hop <;>
      simp [Op.next, TrackPc.early, TrackPc.Sees, hd]
  | commit n r =>
    have hr : call.Reports cfg db r := h
    cases x <;> simp only [step, reduceCtorEq, Option.some.injEq] at hop <;> subst hop <;>
      simp [Op.next, hr]
  | _ => cases hlate

/-! ### A request that runs alone -/

/-- What holds of a request that runs alone after `db`. -/
structure TrackProc.Alone (cfg : Config) (db : Db) (p : TrackProc) (stored : Db)
    (ws : List Write) : Prop where
  running : p.status = .running →
    p.pc.Sees cfg db p.call ws ∧ (p.pc.early = true → stored = db)
  returned : ∀ r, p.status = .returned r → p.call.Reports cfg db r

variable {ι : Type*}

/-- **One step of a request that runs alone.** -/
theorem TrackProc.next_alone {p : TrackProc} {v : DbView} {x : Input}
    {op : Op Write LockKey Effect TrackProc} {w : Shared Db Effect ι} {i : ι}
    (hv : db.registry.Valid v.fresh) (hview : v.db = (program cfg).applyAll ws w.db)
    (h : p.Alone cfg db w.db ws) (hop : p.next cfg v x = some op) :
    op.next.call = p.call ∧ op.next.Alone cfg db
      ((op.map Party.track id).shared (program cfg) i ws w).db (op.pendingAfter ws) := by
  rcases TrackProc.next_cases hop with ⟨-, rfl⟩ | ⟨ok, t, -, -, rfl⟩ | ⟨op, hst, hcode, rfl⟩ |
    ⟨e, hst, rfl⟩
  · refine ⟨rfl, ⟨fun hrun => ?_, fun r hr => ?_⟩⟩
    · simp only [Op.next, halt] at hrun
      split at hrun <;> simp_all
    · simp only [Op.next, halt] at hr
      split at hr
      · cases hr
      · cases hr
      · exact h.returned r hr
  · exact ⟨rfl, ⟨h.running, h.returned⟩⟩
  · obtain ⟨hsees, hstored⟩ := h.running hst
    rw [Op.next_map]
    by_cases hearly : p.pc.early = true
    · have hdb : w.db = db := hstored hearly
      rw [hdb] at hview
      obtain ⟨hsilent, hgo, hdone⟩ := TrackCall.step_early hv hview hearly hsees hcode
      have hshared : (((op.map (p.after cfg) id).map Party.track id).shared (program cfg) i ws
          w).db = db := by
        cases op with
        | exec ks new next => exact hdb
        | emit e next => exact hdb
        | commit next => exact hsilent.elim
        | rollback next => exact hsilent.elim
      have hpending : (op.map (p.after cfg) id).pendingAfter ws = op.pendingAfter ws := by
        cases op <;> rfl
      rw [hshared, hpending]
      cases hn : op.next with
      | go pc' =>
        refine ⟨rfl, ⟨fun _ => ⟨hgo pc' hn, fun _ => rfl⟩, fun r hr => ?_⟩⟩
        simp [after, hst] at hr
      | done r => exact absurd hn (hdone r)
      | raised e => exact ⟨rfl, ⟨by simp [after], by simp [after]⟩⟩
    · obtain ⟨hgo, hdone⟩ := TrackCall.step_late (Bool.eq_false_iff.mpr hearly) hsees hcode
      cases hn : op.next with
      | go pc' =>
        obtain ⟨hlate, hsees'⟩ := hgo pc' hn
        refine ⟨rfl, ⟨fun _ => ⟨hsees' _, fun he => ?_⟩, fun r hr => ?_⟩⟩
        · have he : pc'.early = true := he
          rw [hlate] at he
          cases he
        · simp [after, hst] at hr
      | done r =>
        refine ⟨rfl, ⟨by simp [after], fun r' hr => ?_⟩⟩
        cases hr
        exact hdone r hn
      | raised e => exact ⟨rfl, ⟨by simp [after], by simp [after]⟩⟩
  · exact ⟨rfl, ⟨by simp [Op.next], by simp [Op.next]⟩⟩

variable [DecidableEq ι]

/-- **What a request reports.** Let a request start in any reachable state and run alone until it
returns. If no stored version of its endpoint has its fingerprint and the endpoint has a current
version, it reports the comparison of the current schema with its own. Otherwise it reports SAFE
and no differences. -/
theorem alone_reports (cfg : Config) {db₀ : Db} {fresh : Uuid} (hdb : db₀.registry.Valid fresh)
    {s t : World ι} (hs : Reachable (program cfg).step (Initial db₀ fresh) s) {i : ι}
    {call : TrackCall} (hstart : s.loc i = .track (.start call))
    (ht : Run (program cfg).step (fun _ a => a.1 = i) (· = s) t) {r : TrackResult}
    (hanswer : (t.loc i).answer? = some r) : call.Reports cfg s.db r := by
  obtain ⟨hvalid, hparty⟩ := Run.registry_holds hdb hs
  have hopen : s.pending i = [] := by
    have h := hparty i
    rw [hstart] at h
    exact h
  have hinv : s.fresh ≤ t.fresh ∧ ∃ p, t.loc i = .track p ∧ p.call = call ∧
      p.Alone cfg s.db t.db (t.pending i) := by
    refine Run.invariant (I := fun t => s.fresh ≤ t.fresh ∧ ∃ p, t.loc i = .track p ∧
      p.call = call ∧ p.Alone cfg s.db t.db (t.pending i)) ?_ ?_ ht
    · intro u hu
      subst hu
      refine ⟨le_rfl, _, hstart, rfl, ⟨fun _ => ⟨hopen, fun _ => rfl⟩, fun r hr => by cases hr⟩⟩
    · intro u a t' _ hI hgood hstep
      obtain ⟨hfresh, p, hp, hcall, halone⟩ := hI
      obtain ⟨j, x⟩ := a
      obtain rfl : j = i := hgood
      obtain ⟨op, hop, hst⟩ := step_cases hstep
      rw [hp] at hop
      obtain ⟨op', hop', rfl⟩ := Option.map_eq_some_iff.mp hop
      obtain ⟨hcall', halone'⟩ := TrackProc.next_alone (i := j) (w := u.toShared)
        (hvalid.mono hfresh) rfl halone hop'
      have hshared : t'.db = _ := congrArg Shared.db hst.shared
      have hloc : t'.loc j = _ := hst.loc
      have hpending : t'.pending j = _ := hst.pending
      have hnext : t'.fresh = u.fresh + 1 := by
        rw [show t'.fresh = _ from congrArg Shared.fresh hst.shared]
        cases op' <;> rfl
      refine ⟨by omega, op'.next, ?_, hcall'.trans hcall, ?_⟩
      · rw [hloc]
        exact Op.next_map _ _ op'
      · rw [hshared, hpending]
        cases op' <;> exact halone'
  obtain ⟨-, p, hp, rfl, halone⟩ := hinv
  refine halone.returned r ?_
  rw [hp] at hanswer
  cases hst : p.status <;> simp_all [Party.answer?]

/-- The request for the reduced payload reports one BREAKING difference. -/
theorem alone_reports_drift :
    ∃ (s t : World ℕ) (call : TrackCall) (r : TrackResult),
      s.loc 1 = .track (.start call) ∧
      Run (program (sampleConfig false)).step (fun _ a => a.1 = 1) (· = s) t ∧
      (t.loc 1).answer? = some r ∧ r.compatibilityClassification = .breaking ∧
      call.Reports (sampleConfig false) s.db r := by
  have hrun : ((exec (program (sampleConfig false)).step
      (sampleWorld {} 1 [sampleRequest sampleOld, sampleRequest sampleNew])
      (List.replicate 8 (0, .proceed 0))).bind fun s =>
        (exec (program (sampleConfig false)).step s (List.replicate 14 (1, .proceed 0))).bind
          fun t => (t.loc 1).answer?.map fun r => r.compatibilityClassification) =
      some .breaking := by decide +kernel
  obtain ⟨s, hs, hrun⟩ := Option.bind_eq_some_iff.mp hrun
  obtain ⟨t, ht, hrun⟩ := Option.bind_eq_some_iff.mp hrun
  obtain ⟨r, hr, hbreaking⟩ := Option.map_eq_some_iff.mp hrun
  have hloc : s.loc 1 = sampleRequest sampleNew := congrArg Own.loc (exec_own (by decide) hs)
  have hreach : Reachable (program (sampleConfig false)).step (Initial {} 1) s :=
    reachable_of_exec (sampleWorld_initial (by simp [sampleRequest, Party.Starting.track])) hs
  have halone : Run (program (sampleConfig false)).step (fun _ a => a.1 = 1) (· = s) t :=
    Run.of_exec (.start rfl) (Along.of_labels (by decide) s) ht
  exact ⟨s, t, ⟨sampleKey, sampleNew, true⟩, r, hloc, halone, hr, hbreaking,
    alone_reports _ (Registry.valid_empty 1) hreach hloc halone hr⟩

/-! ### Going back to an old schema -/

/-- A request that submits the schema of a version that is no longer current is told SAFE and no
differences, although its schema is not that of the current version and differs from it. -/
theorem old_schema_reports_safe :
    ∃ (s t : World ℕ) (call : TrackCall) (current : VersionRow) (r : TrackResult),
      Reachable (program (sampleConfig false)).step (Initial {} 1) s ∧
      s.loc 2 = .track (.start call) ∧
      Run (program (sampleConfig false)).step (fun _ a => a.1 = 2) (· = s) t ∧
      (t.loc 2).answer? = some r ∧ s.db.endpointCurrent call.key = some current ∧
      current.canonicalSchema ≠ call.canonicalSchema ∧
      ¬∃ diffs, diffAndClassify (sampleConfig false).printable current.canonicalSchema
          call.canonicalSchema = .ok diffs ∧
        r.compatibilityClassification = summarizeClassification diffs ∧
        r.diffCount = diffs.length := by
  let cfg := sampleConfig false
  let call : TrackCall := ⟨sampleKey, sampleOld, true⟩
  have hrun : ((exec (program cfg).step (sampleWorld {} 1
      [sampleRequest sampleOld, sampleRequest sampleNew, sampleRequest sampleOld])
      (List.replicate 8 (0, .proceed 0) ++ List.replicate 14 (1, .proceed 0))).bind fun s =>
        (exec (program cfg).step s (List.replicate 5 (2, .proceed 0))).bind fun t =>
        (s.db.endpointCurrent call.key).bind fun current => (t.loc 2).answer?.map fun r =>
          (decide (dumps current.canonicalSchema = dumps call.canonicalSchema), r.diffCount,
            (diffAndClassify cfg.printable current.canonicalSchema
              call.canonicalSchema).toOption.map List.length)) = some (false, 0, some 1) := by
    decide +kernel
  obtain ⟨s, hs, hrun⟩ := Option.bind_eq_some_iff.mp hrun
  obtain ⟨t, ht, hrun⟩ := Option.bind_eq_some_iff.mp hrun
  obtain ⟨current, hcurrent, hrun⟩ := Option.bind_eq_some_iff.mp hrun
  obtain ⟨r, hr, hvalues⟩ := Option.map_eq_some_iff.mp hrun
  simp only [Prod.mk.injEq, decide_eq_false_iff_not] at hvalues
  obtain ⟨hschema, hcount, hlength⟩ := hvalues
  have hloc : s.loc 2 = sampleRequest sampleOld := congrArg Own.loc (exec_own (by decide) hs)
  refine ⟨s, t, call, current, r, reachable_of_exec (sampleWorld_initial ?_) hs, hloc,
    Run.of_exec (.start rfl) (Along.of_labels (by decide) s) ht, hr, hcurrent, ?_, ?_⟩
  · simp [sampleRequest, Party.Starting.track]
  · intro he
    exact hschema (congrArg dumps he)
  · intro hreports
    obtain ⟨diffs, hdiffs, -, hdiffCount⟩ := hreports
    have hnone : diffs.length = 0 := hdiffCount.symm.trans hcount
    have hone : diffs.length = 1 := by
      rw [hdiffs] at hlength
      simpa [Except.toOption] using hlength
    omega

/-! ### When the comparison raises -/

/-- A request is aborted by its comparison exactly when that does not return. -/
theorem TrackCall.afterPrior_raised {call : TrackCall} {u : Upserted} {prior : VersionRow} :
    (∃ e, call.afterPrior cfg u prior = .raised e) ↔
      ¬∃ ds, diffAndClassify cfg.printable prior.canonicalSchema
        (canonicalize call.payload.json) = .ok ds := by
  rw [afterPrior, canonicalSchema]
  cases diffAndClassify cfg.printable prior.canonicalSchema (canonicalize call.payload.json) with
  | error e => simp
  | ok ds => simp

/-- **The comparison of two payloads.** It returns exactly when no path shows two `enum` members
that clash, and a request whose prior version has the schema of a payload is aborted by its
comparison exactly when some path does. One that reads the schema back from the column is aborted
when some path does that is not misread. Nothing clashes when neither payload has an object with a
member `type` and an array under `enum` that is not empty. -/
theorem comparison_returns_iff (printable : Char → Bool) (p q : Payload) :
    ((∃ ds, diffAndClassify printable (canonicalize p.json) (canonicalize q.json) = .ok ds) ↔
      ∀ path, ¬ClashAt printable (shown p.json path) (shown q.json path)) ∧
    (∀ (cfg : Config) (call : TrackCall) (u : Upserted) (prior : VersionRow),
      prior.canonicalSchema = canonicalize p.json →
      ((∃ e, call.afterPrior cfg u prior = .raised e) ↔
        ∃ path, ClashAt cfg.printable (shown p.json path) (shown call.payload.json path))) ∧
    (∀ (cfg : Config) (call : TrackCall) (u : Upserted) (prior : VersionRow),
      prior.canonicalSchema = jsonb (canonicalize p.json) →
      ((∃ e, call.afterPrior cfg u prior = .raised e) ↔
        ∃ path, ClashAt cfg.printable (shown p.json path) (shown call.payload.json path) ∧
          ¬MisreadAt (shown p.json path) (shown call.payload.json path))) ∧
    (¬HasEnum p.json → ¬HasEnum q.json →
      ∃ ds, diffAndClassify printable (canonicalize p.json) (canonicalize q.json) = .ok ds) := by
  refine ⟨diffAndClassify_ok, fun cfg call u prior hprior => ?_, fun cfg call u prior hprior => ?_,
    fun hp hq => diffAndClassify_ok.mpr (not_clashAt_of_not_hasEnum hp hq)⟩
  · rw [TrackCall.afterPrior_raised, hprior, diffAndClassify_ok, not_forall_not]
  · rw [TrackCall.afterPrior_raised, hprior, reread_ok]
    simp only [not_forall, exists_prop]

/-- Losing a member of a flat payload is compared without an exception. -/
theorem comparison_returns_flat : ∃ ds, diffAndClassify (fun _ => false)
    (canonicalize sampleOld.json) (canonicalize sampleNew.json) = .ok ds := by
  have hflat : ∀ members : List (String × Json), (∀ e ∈ members, ∃ k, e.2.kind = some k) →
      members.lookup "type" = none → ¬HasEnum (.obj members) := by
    intro members hscalar htype henum
    obtain ⟨ℓ, members', es, ha, ht, -⟩ := henum
    cases ℓ with
    | nil =>
      simp only [Json.at_nil, Option.some.injEq, Json.obj.injEq] at ha
      simp [← ha, htype] at ht
    | cons s ℓ =>
      rw [Json.at_cons] at ha
      obtain ⟨w, hw, hrest⟩ := Option.bind_eq_some_iff.mp ha
      cases s with
      | index i => simp [Json.child] at hw
      | key k =>
        obtain ⟨kind, hk⟩ := hscalar _ (Lib.mem_of_lookup hw)
        cases ℓ with
        | nil =>
          simp only [Json.at_nil, Option.some.injEq] at hrest
          simp [hrest, Json.kind] at hk
        | cons s ℓ => simp [Json.at_cons, Json.child_scalar hk] at hrest
  refine (comparison_returns_iff _ _ _).2.2.2 (hflat _ ?_ (by decide)) (hflat _ ?_ (by decide))
  · simp [sampleOld, Json.kind]
  · simp [sampleNew, Json.kind]

/-- Two payloads with members `type` and `enum` and another difference: the comparison raises. -/
theorem comparison_raises : ¬∀ (printable : Char → Bool) (p q : Payload),
    ∃ ds, diffAndClassify printable (canonicalize p.json) (canonicalize q.json) = .ok ds := by
  intro h
  obtain ⟨ds, hds⟩ := h (fun _ => false)
    ⟨[("type", .str "x"), ("enum", .arr [.str "a"]), ("b", .int 1)],
      by simp [Json.UniqueKeys, UniqueKeysMembers, UniqueKeysItems]⟩
    ⟨[("type", .str "x"), ("enum", .arr [.str "a"])],
      by simp [Json.UniqueKeys, UniqueKeysMembers, UniqueKeysItems]⟩
  have hraised : (diffAndClassify (fun _ => false)
      (canonicalize (.obj [("type", .str "x"), ("enum", .arr [.str "a"]), ("b", .int 1)]))
      (canonicalize (.obj [("type", .str "x"), ("enum", .arr [.str "a"])]))).isOk = false := by
    decide
  cases hraised.symm.trans (congrArg Except.isOk hds)

end Driftgate.Runtime
