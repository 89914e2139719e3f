import Driftgate.Runtime.VersionChain

/-!
# Version chains under concurrency

Any number of requests, workers and subscription calls run at once; requests register schemas
statement by statement, wait for the advisory lock, commit in the middle of their code and abort
anywhere. The invariant says of each request what its open transaction has done to the registry and
what it knows: from the advisory lock on, the log of its endpoint. Two requests that know a log
know those of different endpoints, because equal endpoints have equal keys and so one lock.

A commit changes the registry by what the transaction has done (`Delta`), and no request can tell
the difference except at the endpoint it has locked.
-/

namespace Driftgate.Runtime

open Driftgate.VersionLog Driftgate.ReadCommitted Driftgate.Transition

/-! ### What a transaction has done to the registry -/

section Own

variable (cfg : Config) (reg : Registry) (fresh : Uuid) (held : Set LockKey) (key : EndpointKey)

/-- The endpoint of the key is `e`: it is stored, or the open transaction has inserted it. -/
inductive EndpointOf (e : Uuid) : List Write → Prop
  | stored (hmem : ⟨e, key⟩ ∈ reg.endpoints) : EndpointOf e []
  | inserted (hlt : e < fresh) (hnew : ∀ row ∈ reg.endpoints, row.id ≠ e)
      (hlock : .endpointRow e ∈ held) : EndpointOf e [.insertEndpoint ⟨e, key⟩]

/-- A request that holds the advisory lock of its key knows the log of its endpoint. -/
structure Lead (e : Uuid) (current : Option VersionRow) (log : List (Uuid × String)) : Prop where
  lock : .advisory (cfg.lockId key) ∈ held
  nodup : (log.map Prod.snd).Nodup
  ahead : reg.Ahead e current log

/-- The open transaction has registered a version. -/
inductive Registers : List Write → Prop
  | intro {e : Uuid} {ep : List Write} {current : Option VersionRow} {log : List (Uuid × String)}
      {row : VersionRow} (endpoint : EndpointOf reg fresh held key e ep)
      (lead : Lead cfg reg held key e current log) (hfp : row.fingerprint ∉ log.map Prod.snd)
      (hrow : row.link = ⟨row.id, log.length + 1, row.fingerprint, lastId log, true⟩)
      (he : row.endpointId = e) (hlt : row.id < fresh)
      (hnew : ∀ x ∈ reg.entries, x.2.id ≠ row.id) (hlock : .versionRow row.id ∈ held) :
      Registers (ep ++ Registry.registration current row)

/-- All that a request can have done to the registry when it commits. -/
def Settled (ws : List Write) : Prop :=
  ws = [] ∨ (∃ e, EndpointOf reg fresh held key e ws) ∨ Registers cfg reg fresh held key ws

/-- What holds of a request inside `upsert_schema_version`, with open transaction `ws`. -/
def UpsertPc.Holds (u : Upsert) (ws : List Write) : UpsertPc → Prop
  | .insertEndpoint => ws = []
  | .selectEndpoint => ws = []
  | .fastLookup e => EndpointOf reg fresh held u.key e ws
  | .advisoryLock e => EndpointOf reg fresh held u.key e ws
  | .getCurrentSchema e =>
    EndpointOf reg fresh held u.key e ws ∧ .advisory (cfg.lockId u.key) ∈ held
  | .lookup e current =>
    EndpointOf reg fresh held u.key e ws ∧ ∃ log, Lead cfg reg held u.key e current log
  | .unsetCurrent e c =>
    EndpointOf reg fresh held u.key e ws ∧ ∃ log, Lead cfg reg held u.key e (some c) log ∧
      u.fingerprint ∉ log.map Prod.snd
  | .insertVersion e current =>
    ∃ ep, ws = ep ++ Registry.retirement current ∧
      EndpointOf reg fresh held u.key e ep ∧ ∃ log, Lead cfg reg held u.key e current log ∧
      u.fingerprint ∉ log.map Prod.snd

/-- What holds of a request whose code is running. -/
def TrackPc.Holds (call : TrackCall) (ws : List Write) : TrackPc → Prop
  | .upsert pc => pc.Holds cfg reg fresh held (call.upsert cfg) ws
  | _ => Settled cfg reg fresh held call.key (ws.filter Registry.notices)

/-- What holds of a request. -/
def TrackProc.Holds (p : TrackProc) (ws : List Write) : Prop :=
  match p.status with
  | .running => p.pc.Holds cfg reg fresh held p.call ws
  | .closing e => e ≠ .uniqueViolation
  | .failed e => e ≠ .uniqueViolation
  | _ => True

/-- What holds of a party. Only requests write to the registry. -/
def Party.Holds (p : Party) (ws : List Write) : Prop :=
  match p with
  | .track p => p.Holds cfg reg fresh held ws
  | _ => ws.filter Registry.notices = []

end Own

variable {cfg : Config} {reg reg' : Registry} {fresh fresh' : Uuid} {held held' : Set LockKey}
  {key key' : EndpointKey} {ws : List Write} {e : Uuid}

/-! ### More locks and fewer fresh identifiers -/

theorem EndpointOf.mono (h : EndpointOf reg fresh held key e ws) (hf : fresh ≤ fresh')
    (hh : held ⊆ held') : EndpointOf reg fresh' held' key e ws := by
  cases h with
  | stored hmem => exact .stored hmem
  | inserted hlt hnew hlock => exact .inserted (lt_of_lt_of_le hlt hf) hnew (hh hlock)

theorem Lead.mono {current : Option VersionRow} {log : List (Uuid × String)}
    (h : Lead cfg reg held key e current log) (hh : held ⊆ held') :
    Lead cfg reg held' key e current log :=
  { h with lock := hh h.lock }

theorem Registers.mono (h : Registers cfg reg fresh held key ws) (hf : fresh ≤ fresh')
    (hh : held ⊆ held') : Registers cfg reg fresh' held' key ws := by
  obtain ⟨endpoint, lead, hfp, hrow, he, hlt, hnew, hlock⟩ := h
  exact .intro (endpoint.mono hf hh) (lead.mono hh) hfp hrow he (lt_of_lt_of_le hlt hf) hnew
    (hh hlock)

theorem Settled.mono (h : Settled cfg reg fresh held key ws) (hf : fresh ≤ fresh')
    (hh : held ⊆ held') : Settled cfg reg fresh' held' key ws := by
  rcases h with h | ⟨e, h⟩ | h
  · exact .inl h
  · exact .inr (.inl ⟨e, h.mono hf hh⟩)
  · exact .inr (.inr (h.mono hf hh))

theorem UpsertPc.Holds.mono {u : Upsert} {pc : UpsertPc}
    (h : pc.Holds cfg reg fresh held u ws) (hf : fresh ≤ fresh') :
    pc.Holds cfg reg fresh' held u ws := by
  have hh : held ⊆ held := Set.Subset.refl held
  cases pc with
  | insertEndpoint => exact h
  | selectEndpoint => exact h
  | fastLookup e => exact EndpointOf.mono h hf hh
  | advisoryLock e => exact EndpointOf.mono h hf hh
  | getCurrentSchema e => exact ⟨h.1.mono hf hh, h.2⟩
  | lookup e current => exact ⟨h.1.mono hf hh, h.2⟩
  | unsetCurrent e c => exact ⟨h.1.mono hf hh, h.2⟩
  | insertVersion e current =>
    obtain ⟨ep, hws, hep, hlog⟩ := h
    exact ⟨ep, hws, hep.mono hf hh, hlog⟩

theorem Party.Holds.mono {p : Party} (h : p.Holds cfg reg fresh held ws) (hf : fresh ≤ fresh') :
    p.Holds cfg reg fresh' held ws := by
  cases p with
  | track p =>
    obtain ⟨call, pc, status, task⟩ := p
    cases status with
    | running =>
      cases pc with
      | upsert pc => exact UpsertPc.Holds.mono h hf
      | _ => exact Settled.mono h hf (Set.Subset.refl held)
    | _ => exact h
  | _ => exact h

/-! ### What a commit changes -/

/-- How the registry can differ after a commit: new rows are those the transaction has locked, and
a chain is the old one unless its endpoint is that of the locked key. -/
structure Delta (cfg : Config) (reg reg' : Registry) (fresh : Uuid) (held : Set LockKey)
    (key : EndpointKey) : Prop where
  keep : ∀ row ∈ reg.endpoints, row ∈ reg'.endpoints
  endpoints : ∀ row ∈ reg'.endpoints, row ∈ reg.endpoints ∨ .endpointRow row.id ∈ held
  versions : ∀ x ∈ reg'.entries, (∃ y ∈ reg.entries, y.2.id = x.2.id) ∨ .versionRow x.2.id ∈ held
  chains : ∀ e, reg'.chain e = reg.chain e ∨
    .advisory (cfg.lockId key) ∈ held ∧ ∃ ep, EndpointOf reg fresh held key e ep

/-- The registry after the writes of a transaction. -/
abbrev Registry.writeAll (reg : Registry) (ws : List Write) : Registry :=
  ws.foldl (fun reg w => reg.write w) reg

theorem Registry.writeAll_append (reg : Registry) (ws ws' : List Write) :
    reg.writeAll (ws ++ ws') = (reg.writeAll ws).writeAll ws' :=
  List.foldl_append

theorem EndpointOf.commit (cfg : Config) (h : EndpointOf reg fresh held key e ws) (hv : reg.Valid fresh) :
    (reg.writeAll ws).Valid fresh ∧ Delta cfg reg (reg.writeAll ws) fresh held key ∧
      (reg.writeAll ws).entries = reg.entries ∧ ⟨e, key⟩ ∈ (reg.writeAll ws).endpoints := by
  cases h with
  | stored hmem =>
    exact ⟨hv, ⟨fun _ h => h, fun _ h => .inl h, fun x h => .inl ⟨x, h, rfl⟩,
      fun _ => .inl rfl⟩, rfl, hmem⟩
  | inserted hlt hnew hlock =>
    refine ⟨hv.insertEndpoint hlt hnew, ?_, rfl, List.mem_append_right _ (List.mem_singleton_self _)⟩
    exact {
      keep := fun row h => List.mem_append_left _ h
      endpoints := by
        intro row h
        rcases List.mem_append.mp h with h | h
        · exact .inl h
        · rw [List.mem_singleton.mp h]
          exact .inr hlock
      versions := fun x h => .inl ⟨x, h, rfl⟩
      chains := fun _ => .inl rfl }

/-- A chain is made of the entries. -/
theorem Registry.chain_congr {e : Uuid} (h : reg'.entries = reg.entries) :
    reg'.chain e = reg.chain e := by
  rw [Registry.chain, h]
  rfl

theorem Registers.commit (h : Registers cfg reg fresh held key ws) (hv : reg.Valid fresh) :
    (reg.writeAll ws).Valid fresh ∧ Delta cfg reg (reg.writeAll ws) fresh held key := by
  obtain ⟨endpoint, lead, hfp, hrow, he, hlt, hnew, hlock⟩ := h
  rename_i e ep current log row
  obtain ⟨hv', hd, hentries, hmem⟩ := endpoint.commit cfg hv
  have ha : (reg.writeAll ep).Ahead e current log :=
    { lead.ahead with chain := (Registry.chain_congr hentries).trans lead.ahead.chain }
  rw [← hentries] at hnew
  obtain ⟨hvalid, -, hothers⟩ := hv'.register ha hrow he ⟨_, hmem, rfl⟩ lead.nodup hfp hlt hnew
  rw [Registry.writeAll_append]
  refine ⟨hvalid, ?_⟩
  have hreg : ∀ reg : Registry, reg.writeAll (Registry.registration current row) = _ :=
    fun reg => Registry.foldl_registration current row
  exact {
    keep := by
      rw [hreg]
      exact hd.keep
    endpoints := by
      rw [hreg]
      exact hd.endpoints
    versions := by
      intro x hx
      rw [hreg] at hx
      rcases List.mem_append.mp hx with hx | hx
      · obtain ⟨y, hy, rfl⟩ := List.mem_map.mp hx
        refine .inl ⟨y, hentries ▸ hy, ?_⟩
        split <;> rfl
      · rw [List.mem_singleton.mp hx]
        exact .inr hlock
    chains := by
      intro e'
      by_cases hee : e' = e
      · subst hee
        exact .inr ⟨lead.lock, ep, endpoint⟩
      · exact .inl ((hothers e' hee).trans (Registry.chain_congr hentries)) }

/-- **Commit.** Whatever a request has done to the registry, committing it keeps the registry
valid. -/
theorem Settled.commit (h : Settled cfg reg fresh held key ws) (hv : reg.Valid fresh) :
    (reg.writeAll ws).Valid fresh ∧ Delta cfg reg (reg.writeAll ws) fresh held key := by
  rcases h with rfl | ⟨e, h⟩ | h
  · exact ⟨hv, ⟨fun _ h => h, fun _ h => .inl h, fun x h => .inl ⟨x, h, rfl⟩,
      fun _ => .inl rfl⟩⟩
  · exact ⟨(h.commit cfg hv).1, (h.commit cfg hv).2.1⟩
  · exact h.commit hv

/-! ### What another request still knows after a commit -/

/-- Transactions with disjoint locks that know one endpoint have one key. -/
theorem EndpointOf.key_unique {ws' : List Write} (h : EndpointOf reg fresh held key e ws)
    (h' : EndpointOf reg fresh held' key' e ws') (hv : reg.Valid fresh)
    (hdisj : ∀ k, k ∈ held → k ∉ held') : key = key' := by
  cases h with
  | stored hmem =>
    cases h' with
    | stored hmem' => exact congrArg EndpointRow.key (hv.endpoint_unique hmem hmem' rfl)
    | inserted hlt hnew hlock => exact absurd rfl (hnew _ hmem)
  | inserted hlt hnew hlock =>
    cases h' with
    | stored hmem' => exact absurd rfl (hnew _ hmem')
    | inserted hlt' hnew' hlock' => exact absurd hlock' (hdisj _ hlock)

section Stable

variable (hd : Delta cfg reg reg' fresh held key) (hv : reg.Valid fresh)
  (hdisj : ∀ k, k ∈ held → k ∉ held')

include hd hdisj in
theorem EndpointOf.stable (h : EndpointOf reg fresh held' key' e ws) :
    EndpointOf reg' fresh held' key' e ws := by
  cases h with
  | stored hmem => exact .stored (hd.keep _ hmem)
  | inserted hlt hnew hlock =>
    refine .inserted hlt (fun row hrow => ?_) hlock
    rcases hd.endpoints row hrow with hrow | hrow
    · exact hnew row hrow
    · intro heq
      rw [heq] at hrow
      exact hdisj _ hrow hlock

include hd hv hdisj in
/-- The log a request knows is not touched by the commit of another one. -/
theorem Lead.stable {current : Option VersionRow} {log : List (Uuid × String)}
    (h : Lead cfg reg held' key' e current log) (he : EndpointOf reg fresh held' key' e ws) :
    Lead cfg reg' held' key' e current log := by
  have hchain : reg'.chain e = reg.chain e := by
    rcases hd.chains e with hc | ⟨hlock, ep, hep⟩
    · exact hc
    · have hkey : key = key' := hep.key_unique he hv hdisj
      rw [hkey] at hlock
      exact absurd h.lock (hdisj _ hlock)
  exact { h with ahead := { h.ahead with chain := hchain.trans h.ahead.chain } }

include hd hv hdisj in
theorem Registers.stable (h : Registers cfg reg fresh held' key' ws) :
    Registers cfg reg' fresh held' key' ws := by
  obtain ⟨endpoint, lead, hfp, hrow, he, hlt, hnew, hlock⟩ := h
  refine .intro (endpoint.stable hd hdisj) (lead.stable hd hv hdisj endpoint) hfp hrow he hlt
    (fun x hx => ?_) hlock
  rcases hd.versions x hx with ⟨y, hy, hid⟩ | hx
  · rw [← hid]
    exact hnew y hy
  · intro heq
    rw [heq] at hx
    exact hdisj _ hx hlock

include hd hv hdisj in
theorem Settled.stable (h : Settled cfg reg fresh held' key' ws) :
    Settled cfg reg' fresh held' key' ws := by
  rcases h with h | ⟨e, h⟩ | h
  · exact .inl h
  · exact .inr (.inl ⟨e, h.stable hd hdisj⟩)
  · exact .inr (.inr (h.stable hd hv hdisj))

include hd hv hdisj in
theorem UpsertPc.Holds.stable {u : Upsert} {pc : UpsertPc}
    (h : pc.Holds cfg reg fresh held' u ws) : pc.Holds cfg reg' fresh held' u ws := by
  cases pc with
  | insertEndpoint => exact h
  | selectEndpoint => exact h
  | fastLookup e => exact EndpointOf.stable hd hdisj h
  | advisoryLock e => exact EndpointOf.stable hd hdisj h
  | getCurrentSchema e => exact ⟨h.1.stable hd hdisj, h.2⟩
  | lookup e current =>
    obtain ⟨he, log, hlead⟩ := h
    exact ⟨he.stable hd hdisj, log, hlead.stable hd hv hdisj he⟩
  | unsetCurrent e c =>
    obtain ⟨he, log, hlead, hfp⟩ := h
    exact ⟨he.stable hd hdisj, log, hlead.stable hd hv hdisj he, hfp⟩
  | insertVersion e current =>
    obtain ⟨ep, hws, he, log, hlead, hfp⟩ := h
    exact ⟨ep, hws, he.stable hd hdisj, log, hlead.stable hd hv hdisj he, hfp⟩

include hd hv hdisj in
/-- **Stability.** The commit of one party does not disturb what holds of another. -/
theorem Party.Holds.stable {p : Party} (h : p.Holds cfg reg fresh held' ws) :
    p.Holds cfg reg' fresh held' ws := by
  cases p with
  | track p =>
    obtain ⟨call, pc, status, task⟩ := p
    cases status with
    | running =>
      cases pc with
      | upsert pc => exact UpsertPc.Holds.stable hd hv hdisj h
      | _ => exact Settled.stable hd hv hdisj h
    | _ => exact h
  | _ => exact h

end Stable

/-! ### Steps of `upsert_schema_version` -/

theorem EndpointOf.filter_notices (h : EndpointOf reg fresh held key e ws) :
    ws.filter Registry.notices = ws := by
  cases h <;> rfl

theorem EndpointOf.settled (h : EndpointOf reg fresh held key e ws) :
    Settled cfg reg fresh held key (ws.filter Registry.notices) := by
  rw [h.filter_notices]
  exact .inr (.inl ⟨e, h⟩)

/-- The transaction that has only inserted the endpoint sees the stored versions. -/
theorem EndpointOf.versions_applyAll (h : EndpointOf reg fresh held key e ws) (db : Db) :
    ((program cfg).applyAll ws db).versions = db.versions := by
  cases h <;> rfl

theorem Db.currentSchema_congr {db db' : Db} (h : db'.versions = db.versions) (e : Uuid) :
    db'.currentSchema e = db.currentSchema e := by
  rw [Db.currentSchema, h]
  rfl

theorem Db.versionOf_congr {db db' : Db} (h : db'.versions = db.versions) (e : Uuid)
    (fp : String) : db'.versionOf e fp = db.versionOf e fp := by
  rw [Db.versionOf, h]
  rfl

/-- The row that is inserted is the next link of the log. -/
theorem newRow_link (u : Upsert) (id : Uuid) {current : Option VersionRow}
    {log : List (Uuid × String)} (ha : reg.Ahead e current log) :
    (u.newRow id e current).link = ⟨id, log.length + 1, u.fingerprint, lastId log, true⟩ := by
  have hlen := ha.length
  rw [ha.last]
  cases current with
  | none => simp_all [Upsert.newRow, VersionRow.link]
  | some c => simp_all [Upsert.newRow, VersionRow.link]

/-- Retiring the current row changes neither the numbers nor the fingerprints of an endpoint. -/
theorem mem_of_unsetCurrent {x : Uuid × Link Uuid String} {current : Option VersionRow}
    (hx : x ∈ (reg.writeAll (Registry.retirement current)).entries) :
    ∃ l, (x.1, l) ∈ reg.entries ∧ x.2.version = l.version ∧ x.2.mark = l.mark := by
  cases current with
  | none => exact ⟨x.2, hx, rfl, rfl⟩
  | some c =>
    obtain ⟨y, hy, rfl⟩ := List.mem_map.mp hx
    refine ⟨y.2, ?_, ?_, ?_⟩ <;> split <;> first | exact hy | rfl

/-- **No unique violation.** The next row of a log that does not have its fingerprint agrees with
no row of the endpoint in version or fingerprint. -/
theorem not_violatesUnique {db : Db} {row : VersionRow} {current : Option VersionRow}
    {log : List (Uuid × String)}
    (hreg : db.registry.entries =
      (reg.writeAll (Registry.retirement current)).entries)
    (hchain : reg.chain row.endpointId = links log) (hversion : row.version = log.length + 1)
    (hfp : row.fingerprint ∉ log.map Prod.snd) : db.violatesUnique row = false := by
  rw [Bool.eq_false_iff]
  intro h
  obtain ⟨r, hr, hclash⟩ := List.any_eq_true.mp h
  simp only [Bool.and_eq_true, Bool.or_eq_true, decide_eq_true_eq] at hclash
  obtain ⟨he, hclash⟩ := hclash
  have hentry : (r.endpointId, r.link) ∈ db.registry.entries := List.mem_map.mpr ⟨r, hr, rfl⟩
  rw [hreg] at hentry
  obtain ⟨l, hl, hlv, hlm⟩ := mem_of_unsetCurrent hentry
  have hmem : l ∈ links log := by
    rw [← hchain, Registry.mem_chain, ← he]
    exact hl
  obtain ⟨j, x, hx, rfl⟩ := mem_links hmem
  have hj : j < log.length := (List.getElem?_eq_some_iff.mp hx).1
  rcases hclash with hclash | hclash
  · have hv : r.version = j + 1 := hlv
    omega
  · have hm : r.fingerprint = x.2 := hlm
    rw [← hclash, hm] at hfp
    exact hfp (List.mem_map_of_mem (List.mem_of_getElem? hx))

/-- What a step of `upsert_schema_version` has to establish. -/
def Upsert.Leads (cfg : Config) (reg : Registry) (fresh : Uuid) (held : Set LockKey) (u : Upsert)
    (ws : List Write) : Flow UpsertPc Upserted → Prop
  | .go pc => pc.Holds cfg reg fresh held u ws
  | .done _ => Settled cfg reg fresh held u.key (ws.filter Registry.notices)
  | .raised e => e ≠ .uniqueViolation

/-- Under the lock the next version is not taken. -/
theorem Upsert.not_versionTaken {db : Db} {u : Upsert} {current : Option VersionRow}
    {v : DbView} (hv : db.registry.Valid v.fresh) (hview : v.db = (program cfg).applyAll ws db)
    (h : (UpsertPc.insertVersion e current).Holds cfg db.registry v.fresh held u ws) :
    v.db.violatesUnique (u.newRow v.fresh e current) = false := by
  obtain ⟨ep, rfl, hep, log, hlead, hfp⟩ := h
  obtain ⟨-, -, hentries, -⟩ := hep.commit cfg hv
  have hversion : (u.newRow v.fresh e current).version = log.length + 1 :=
    congrArg Link.version (newRow_link u v.fresh hlead.ahead)
  have hset : (Registry.retirement current).filter Registry.notices =
      Registry.retirement current := by
    cases current <;> rfl
  have hreg : v.db.registry.entries =
      ((db.registry.writeAll ep).writeAll (Registry.retirement current)).entries := by
    rw [hview, registry_applyAll, List.filter_append, hep.filter_notices, hset, List.foldl_append]
  exact not_violatesUnique hreg ((Registry.chain_congr hentries).trans hlead.ahead.chain)
    hversion hfp

/-- **The last statement.** The transaction that holds the lock inserts the next version. -/
theorem Upsert.versionInserted_leads {db : Db} {u : Upsert} {current : Option VersionRow}
    {fresh : ℕ} (hv : db.registry.Valid fresh)
    (h : (UpsertPc.insertVersion e current).Holds cfg db.registry fresh held u ws)
    {ks : List LockKey} (hks : .versionRow fresh ∈ ks) :
    u.Leads cfg db.registry (fresh + 1) (held ∪ {k | k ∈ ks})
      (ws ++ [.insertVersion (u.newRow fresh e current).stored])
      (.done ⟨e, u.newRow fresh e current, true⟩) := by
  obtain ⟨ep, rfl, hep, log, hlead, hfp⟩ := h
  have hlink := newRow_link u fresh hlead.ahead
  have hall : (ep ++ Registry.retirement current ++
      [Write.insertVersion (u.newRow fresh e current).stored]).filter Registry.notices =
      ep ++ Registry.registration current (u.newRow fresh e current).stored := by
    rw [Registry.registration, List.append_assoc, List.filter_append, hep.filter_notices]
    cases current <;> rfl
  rw [Upsert.Leads, hall]
  exact .inr (.inr (.intro (hep.mono (Nat.le_succ _) Set.subset_union_left)
    (hlead.mono Set.subset_union_left) hfp hlink rfl (Nat.lt_succ_self fresh)
    (fun x hx => ne_of_lt (hv.versionFresh x hx)) (Or.inr hks)))

/-- **Registry steps.** Every step of `upsert_schema_version` is a statement that establishes what
holds at the next one. -/
theorem Upsert.step_leads {db : Db} {u : Upsert} {pc : UpsertPc} {v : DbView} {x : Input}
    {op : Op Write LockKey Empty (Flow UpsertPc Upserted)}
    (hv : db.registry.Valid v.fresh) (hview : v.db = (program cfg).applyAll ws db)
    (h : pc.Holds cfg db.registry v.fresh held u ws) (hop : u.step cfg pc v x = some op) :
    ∃ ks new next, op = .exec ks new next ∧
      u.Leads cfg db.registry (v.fresh + 1) (held ∪ {k | k ∈ ks}) (ws ++ new) next := by
  have hf : v.fresh ≤ v.fresh + 1 := Nat.le_succ _
  obtain ⟨ks, new, next, rfl, hmove⟩ := step_move hop
  refine ⟨ks, new, next, rfl, ?_⟩
  cases hmove with
  | raises => simp [Upsert.Leads]
  | endpointTaken =>
    obtain rfl : ws = [] := h
    rfl
  | endpointInserted =>
    obtain rfl : ws = [] := h
    exact EndpointOf.inserted (Nat.lt_succ_self _)
      (fun row hrow => ne_of_lt (hv.endpointFresh row hrow)) (Or.inr (by simp))
  | @endpointFound now row hrow =>
    obtain rfl : ws = [] := h
    have hkey : row.key = u.key := by simpa using List.find?_some hrow
    have hmem : row ∈ v.db.endpoints := List.mem_of_find?_eq_some hrow
    rw [hview] at hmem
    exact EndpointOf.stored (hkey ▸ hmem)
  | endpointMissing => simp [Upsert.Leads]
  | @fastFound now e row =>
    have he : EndpointOf db.registry v.fresh held u.key e ws := h
    rw [List.append_nil]
    exact (he.mono hf Set.subset_union_left).settled
  | @fastMissing now e =>
    have he : EndpointOf db.registry v.fresh held u.key e ws := h
    rw [List.append_nil]
    exact he.mono hf Set.subset_union_left
  | advisoryLock e =>
    have he : EndpointOf db.registry v.fresh held u.key e ws := h
    rw [List.append_nil]
    exact ⟨he.mono hf Set.subset_union_left, Or.inr (by simp)⟩
  | getCurrentSchema e =>
    obtain ⟨he, hlock⟩ := h
    obtain ⟨log, hnodup, ha⟩ := hv.ahead e
    rw [List.append_nil, hview, Db.currentSchema_congr (he.versions_applyAll db)]
    exact ⟨he.mono hf Set.subset_union_left, log, Or.inl hlock, hnodup, ha⟩
  | found =>
    obtain ⟨he, log, hlead⟩ := h
    rw [List.append_nil]
    exact (he.mono hf Set.subset_union_left).settled
  | missing c hnone =>
    obtain ⟨he, log, hlead⟩ := h
    rw [hview, Db.versionOf_congr (he.versions_applyAll db)] at hnone
    rw [List.append_nil]
    exact ⟨he.mono hf Set.subset_union_left, log, hlead.mono Set.subset_union_left,
      hlead.ahead.fingerprint_new hnone⟩
  | missingFirst hnone =>
    obtain ⟨he, log, hlead⟩ := h
    rw [hview, Db.versionOf_congr (he.versions_applyAll db)] at hnone
    rw [List.append_nil]
    exact ⟨ws, (List.append_nil ws).symm, he.mono hf Set.subset_union_left, log,
      hlead.mono Set.subset_union_left, hlead.ahead.fingerprint_new hnone⟩
  | unsetCurrent e c =>
    obtain ⟨he, log, hlead, hfp⟩ := h
    exact ⟨ws, rfl, he.mono hf Set.subset_union_left, log,
      hlead.mono Set.subset_union_left, hfp⟩
  | versionTaken htaken =>
    rw [Upsert.not_versionTaken hv hview h] at htaken
    exact absurd htaken (by decide)
  | versionInserted => exact Upsert.versionInserted_leads hv h (by simp)

/-! ### Steps of a request after that -/

/-- Nothing but `upsert_schema_version` writes what the registry notices. -/
theorem not_notices_of_table {w : Write}
    (h : w.table = .outbox ∨ w.table = .attempts ∨ w.table = .dlq ∨ w.table = .subscriptions) :
    Registry.notices w = false := by
  cases w <;> simp [Write.table] at h <;> rfl

/-- A request that is past `upsert_schema_version`. -/
def TrackPc.Registered (pc : TrackPc) : Prop := ∀ pc', pc ≠ .upsert pc'

theorem TrackCall.afterSnapshot_registered (call : TrackCall) (u : Upserted) :
    (call.afterSnapshot cfg u).Registered := by
  intro pc'
  unfold afterSnapshot
  split <;> simp

theorem TrackCall.afterUpsert_registered (call : TrackCall) (u : Upserted) :
    (call.afterUpsert cfg u).Registered := by
  unfold afterUpsert
  split
  · simp [TrackPc.Registered]
  · exact call.afterSnapshot_registered u

/-- Past `upsert_schema_version` a request writes nothing the registry notices, stays past it, and
raises no unique violation. -/
theorem TrackCall.step_registered {call : TrackCall} {pc : TrackPc} {v : DbView} {x : Input}
    {op : Op Write LockKey Effect (Flow TrackPc TrackResult)} (hpc : pc.Registered)
    (hop : call.step cfg pc v x = some op) :
    (∀ w ∈ op.writes, Registry.notices w = false) ∧ (∀ pc', op.next = .go pc' → pc'.Registered) ∧
      op.next ≠ .raised .uniqueViolation := by
  cases pc with
  | upsert pc => exact absurd rfl (hpc pc)
  | enqueue q pc =>
    obtain ⟨op', hop', rfl⟩ := Option.map_eq_some_iff.mp hop
    rw [Op.writes_map, Op.next_map]
    refine ⟨fun w hw => not_notices_of_table ?_, fun pc' hgo => ?_, fun hraised => ?_⟩
    · rcases Enqueue.step_table hop' w hw with h | h | h
      · exact .inl h
      · exact .inr (.inl h)
      · exact .inr (.inr (.inl h))
    · cases hn : op'.next with
      | go pc => rw [hn] at hgo; cases hgo; simp [TrackPc.Registered]
      | done r => rw [hn] at hgo; cases hgo; simp [TrackPc.Registered, afterEnqueue]
      | raised e => rw [hn] at hgo; cases hgo
    · rcases Flow.bind_raised hraised with h | ⟨r, -, h⟩
      · obtain ⟨reason, hr⟩ := Enqueue.step_raised hop' h
        cases hr
      · cases h
  | selectPrior u id =>
    cases x with
    | proceed now =>
      simp only [step] at hop
      split at hop
      · obtain rfl := Option.some.inj hop
        refine ⟨by simp [Op.writes], fun pc' hgo => ?_, fun hraised => ?_⟩
        · simp only [Op.next, afterPrior] at hgo
          split at hgo
          · cases hgo
          · split at hgo <;> cases hgo <;> simp [TrackPc.Registered]
        · simp only [Op.next, afterPrior] at hraised
          split at hraised <;> cases hraised
      · obtain rfl := Option.some.inj hop
        simp [Op.writes, Op.next]
    | raise reason =>
      obtain rfl := Option.some.inj hop
      simp [Op.writes, Op.next]
    | _ => simp [step] at hop
  | storeSnapshot u =>
    cases x <;> simp only [step, reduceCtorEq, Option.some.injEq] at hop <;> subst hop <;>
      simp [Op.writes, Op.next, call.afterSnapshot_registered u]
  | _ =>
    cases x <;> simp only [step, reduceCtorEq, Option.some.injEq] at hop <;> subst hop <;>
      simp [Op.writes, Op.next, TrackPc.Registered, Registry.notices]

/-! ### Steps of the parties -/

theorem Delta.refl (cfg : Config) (reg : Registry) (fresh : Uuid) (held : Set LockKey)
    (key : EndpointKey) : Delta cfg reg reg fresh held key where
  keep := fun _ h => h
  endpoints := fun _ h => .inl h
  versions := fun x h => .inl ⟨x, h, rfl⟩
  chains := fun _ => .inl rfl

section Steps

variable {ι : Type*} {w : Shared Db Effect ι} {i : ι}

/-- The shared state after an operation that has the registry as in the state before, up to what
the open transaction has done to it. -/
theorem Op.registry_shared (key : EndpointKey) (op : Op Write LockKey Effect Party)
    (hs : Settled cfg w.db.registry w.fresh held key (ws.filter Registry.notices))
    (hw : ∀ wr ∈ op.writes, Registry.notices wr = false) (hv : w.db.registry.Valid w.fresh) :
    (op.shared (program cfg) i ws w).db.registry.Valid (w.fresh + 1) ∧
      Delta cfg w.db.registry (op.shared (program cfg) i ws w).db.registry w.fresh held key ∧
      Settled cfg (op.shared (program cfg) i ws w).db.registry (w.fresh + 1) (op.heldAfter held) key
        ((op.pendingAfter ws).filter Registry.notices) := by
  have hf : w.fresh ≤ w.fresh + 1 := Nat.le_succ _
  cases op with
  | exec ks new next =>
    refine ⟨hv.mono hf, Delta.refl _ _ _ _ _, ?_⟩
    have hnew : new.filter Registry.notices = [] :=
      List.filter_eq_nil_iff.mpr fun wr hwr => by simp [hw wr hwr]
    rw [Op.pendingAfter, List.filter_append, hnew, List.append_nil]
    exact hs.mono hf Set.subset_union_left
  | emit e next => exact ⟨hv.mono hf, Delta.refl _ _ _ _ _, hs.mono hf (Set.Subset.refl held)⟩
  | commit next =>
    obtain ⟨hvalid, hdelta⟩ := hs.commit hv
    rw [Op.shared, registry_applyAll]
    exact ⟨hvalid.mono hf, hdelta, .inl rfl⟩
  | rollback next => exact ⟨hv.mono hf, Delta.refl _ _ _ _ _, .inl rfl⟩

/-- What a step has to establish: the registry stays valid, other parties cannot tell, and the
party is where its code says. -/
def Party.Steps (cfg : Config) (i : ι) (w : Shared Db Effect ι) (held : Set LockKey)
    (ws : List Write) (op : Op Write LockKey Effect Party) : Prop :=
  (op.shared (program cfg) i ws w).db.registry.Valid (w.fresh + 1) ∧
    (∃ key, Delta cfg w.db.registry (op.shared (program cfg) i ws w).db.registry w.fresh held key) ∧
    op.next.Holds cfg (op.shared (program cfg) i ws w).db.registry (w.fresh + 1)
      (op.heldAfter held) (op.pendingAfter ws)

/-- A party that is not a request. -/
theorem Party.steps_of_quiet {op : Op Write LockKey Effect Party}
    (hv : w.db.registry.Valid w.fresh) (hws : ws.filter Registry.notices = [])
    (hw : ∀ wr ∈ op.writes, Registry.notices wr = false)
    (hnext : ∀ p, op.next ≠ .track p) : Party.Steps cfg i w held ws op := by
  obtain ⟨hvalid, hdelta, -⟩ := @Op.registry_shared cfg held ws _ w i ⟨"", "", "", ""⟩ op
    (.inl hws) hw hv
  refine ⟨hvalid, ⟨_, hdelta⟩, ?_⟩
  have hpending : (op.pendingAfter ws).filter Registry.notices = [] := by
    cases op with
    | exec ks new next =>
      rw [Op.pendingAfter, List.filter_append, hws, List.nil_append]
      exact List.filter_eq_nil_iff.mpr fun wr hwr => by simp [hw wr hwr]
    | emit e next => exact hws
    | _ => rfl
  cases hp : op.next with
  | track p => exact absurd hp (hnext p)
  | _ => exact hpending

/-- A request past `upsert_schema_version`, or one that has ended. -/
theorem Party.steps_of_settled {op : Op Write LockKey Effect Party}
    (hv : w.db.registry.Valid w.fresh)
    (hs : Settled cfg w.db.registry w.fresh held key (ws.filter Registry.notices))
    (hw : ∀ wr ∈ op.writes, Registry.notices wr = false)
    (hnext : ∀ reg, Settled cfg reg (w.fresh + 1) (op.heldAfter held) key
      ((op.pendingAfter ws).filter Registry.notices) →
      op.next.Holds cfg reg (w.fresh + 1) (op.heldAfter held) (op.pendingAfter ws)) :
    Party.Steps cfg i w held ws op := by
  obtain ⟨hvalid, hdelta, hsettled⟩ := Op.registry_shared key op hs hw hv
  exact ⟨hvalid, ⟨key, hdelta⟩, hnext _ hsettled⟩

/-- An operation that ends in a rollback, or leaves the database and the transaction alone. -/
theorem Party.steps_of_same {op : Op Write LockKey Effect Party} (hv : w.db.registry.Valid w.fresh)
    (hdb : (op.shared (program cfg) i ws w).db = w.db)
    (hnext : op.next.Holds cfg w.db.registry (w.fresh + 1) (op.heldAfter held)
      (op.pendingAfter ws)) : Party.Steps cfg i w held ws op := by
  rw [Party.Steps, hdb]
  exact ⟨hv.mono (Nat.le_succ _), ⟨⟨"", "", "", ""⟩, Delta.refl _ _ _ _ _⟩, hnext⟩

/-- Past `upsert_schema_version` only what is committed matters. -/
theorem TrackPc.holds_of_registered {call : TrackCall} {pc : TrackPc} (hpc : pc.Registered) :
    pc.Holds cfg reg fresh held call ws ↔
      Settled cfg reg fresh held call.key (ws.filter Registry.notices) := by
  cases pc with
  | upsert pc => exact absurd rfl (hpc pc)
  | _ => exact Iff.rfl

/-- **A running request.** -/
theorem TrackProc.code_steps {p : TrackProc} {v : DbView} {x : Input}
    {op : Op Write LockKey Effect (Flow TrackPc TrackResult)}
    (hv : w.db.registry.Valid w.fresh) (hview : v.db = (program cfg).applyAll ws w.db)
    (hfresh : v.fresh = w.fresh) (hst : p.status = .running)
    (h : p.pc.Holds cfg w.db.registry w.fresh held p.call ws)
    (hop : p.call.step cfg p.pc v x = some op) :
    Party.Steps cfg i w held ws ((op.map (p.after cfg) id).map .track id) := by
  obtain ⟨call, pc, status, task⟩ := p
  obtain rfl : status = .running := hst
  by_cases hpc : pc.Registered
  · obtain ⟨hwrites, hgo, hraised⟩ := TrackCall.step_registered hpc hop
    refine Party.steps_of_settled hv ((TrackPc.holds_of_registered hpc).mp h)
      (by simpa using hwrites) fun reg hs => ?_
    rw [Op.next_map, Op.next_map]
    cases hn : op.next with
    | go pc' => exact (TrackPc.holds_of_registered (hgo _ hn)).mpr hs
    | done r => trivial
    | raised e =>
      intro he
      rw [hn, he] at hraised
      exact hraised rfl
  · obtain ⟨pc, rfl⟩ : ∃ pc', pc = .upsert pc' := by
      by_contra hno
      exact hpc fun pc' hpc' => hno ⟨pc', hpc'⟩
    obtain ⟨op', hop', rfl⟩ := Option.map_eq_some_iff.mp hop
    rw [← hfresh] at hv h
    obtain ⟨ks, new, next, rfl, hleads⟩ := Upsert.step_leads hv hview h hop'
    rw [hfresh] at hv hleads
    refine Party.steps_of_same hv rfl ?_
    cases next with
    | go pc' => exact hleads
    | done r => exact (TrackPc.holds_of_registered (call.afterUpsert_registered r)).mpr hleads
    | raised e => exact hleads

/-- **A party.** Every step keeps the registry valid, changes it only where the party has locked
it, and leads to where the invariant of the party holds. -/
theorem Party.steps {p : Party} {v : DbView} {x : Input} {op : Op Write LockKey Effect Party}
    (hv : w.db.registry.Valid w.fresh) (hview : v.db = (program cfg).applyAll ws w.db)
    (hfresh : v.fresh = w.fresh) (h : p.Holds cfg w.db.registry w.fresh held ws)
    (hop : p.next cfg v x = some op) : Party.Steps cfg i w held ws op := by
  cases p with
  | track p =>
    obtain ⟨op', hop', rfl⟩ := Option.map_eq_some_iff.mp hop
    rcases TrackProc.next_cases hop' with ⟨-, rfl⟩ | ⟨ok, t, -, -, rfl⟩ | ⟨op, hst, hcode, rfl⟩ |
      ⟨e, hst, rfl⟩
    · refine Party.steps_of_same hv rfl ?_
      obtain ⟨call, pc, status, task⟩ := p
      cases status with
      | failed e => exact h
      | _ => trivial
    · refine Party.steps_of_same hv rfl ?_
      have hheld := Party.Holds.mono (p := .track p) h (Nat.le_succ w.fresh)
      obtain ⟨call, pc, status, task⟩ := p
      cases status <;> exact hheld
    · refine TrackProc.code_steps hv hview hfresh hst ?_ hcode
      obtain ⟨call, pc, status, task⟩ := p
      obtain rfl : status = .running := hst
      exact h
    · refine Party.steps_of_same hv rfl ?_
      obtain ⟨call, pc, status, task⟩ := p
      obtain rfl : status = .closing e := hst
      exact h
  | worker pc =>
    obtain ⟨op', hop', rfl⟩ := Option.map_eq_some_iff.mp hop
    refine Party.steps_of_quiet hv h (fun wr hwr => not_notices_of_table ?_) (by simp)
    rw [Op.writes_map] at hwr
    rcases WorkerPc.step_table hop' wr hwr with hw | hw | hw
    · exact .inl hw
    · exact .inr (.inl hw)
    · exact .inr (.inr (.inl hw))
  | subscription call pc =>
    obtain ⟨op', hop', rfl⟩ := Option.map_eq_some_iff.mp hop
    refine Party.steps_of_quiet hv h (fun wr hwr => not_notices_of_table ?_) ?_
    · rw [Op.writes_map] at hwr
      exact .inr (.inr (.inr (SubscriptionCall.step_table hop' wr hwr)))
    · intro p
      rw [Op.next_map]
      cases op'.next <;> simp [subscribing]
  | finished =>
    cases x <;> simp only [next, reduceCtorEq, Option.some.injEq] at hop
    subst hop
    exact Party.steps_of_quiet hv h (by simp [Op.writes]) (by simp [Op.next])

end Steps

/-! ### Every run -/

variable {ι : Type*} [DecidableEq ι]

/-- **The registry along every run.** It stays valid, and every party is where its code says. -/
theorem Run.registry_holds {good : World ι → ι × Input → Prop} {db : Db} {fresh : Uuid}
    (hdb : db.registry.Valid fresh) {s : World ι}
    (hs : Run (program cfg).step good (Initial db fresh) s) :
    s.db.registry.Valid s.fresh ∧
      ∀ i, (s.loc i).Holds cfg s.db.registry s.fresh (s.own i).held (s.pending i) := by
  refine Run.noninterference (P := program cfg) (G := fun w => w.db.registry.Valid w.fresh)
    (A := fun _ w o => o.loc.Holds cfg w.db.registry w.fresh o.held o.pending) ?_ ?_ ?_ hs
  · intro s hs
    refine ⟨?_, fun i => ?_⟩
    · rw [hs.db, hs.fresh]
      exact hdb
    · have hstart := hs.starting i
      simp only [State.own, hs.pending i]
      cases hloc : s.loc i with
      | track p =>
        rw [hloc] at hstart
        cases hstart
        rfl
      | _ => rfl
  · intro s i x op _ hv hA hop _
    obtain ⟨hvalid, -, hnext⟩ := Party.steps (i := i) hv rfl rfl (hA i) hop
    cases op <;> exact ⟨hvalid, hnext⟩
  · intro s i j x op hne _ hv hA hop
    obtain ⟨-, ⟨key, hdelta⟩, -⟩ := Party.steps (i := i) hv rfl rfl (hA i) hop
    have hdisj : ∀ k, k ∈ (s.own i).held → k ∉ (s.own j).held := by
      intro k hi hj
      exact hne (State.held_unique hj hi)
    have hstable := (hA j).stable hdelta hv hdisj
    cases op <;> exact hstable.mono (Nat.le_succ _)

/-- The links of the versions of an endpoint, in the order of the table. -/
def Db.chain (db : Db) (e : Uuid) : List (Link Uuid String) :=
  (db.versions.filter fun r => r.endpointId = e).map VersionRow.link

theorem Db.registry_chain (db : Db) (e : Uuid) : db.registry.chain e = db.chain e := by
  simp [Registry.chain, Db.registry, Db.chain, List.filter_map, Function.comp_def]

/-- **The version chain.** In every reachable state the versions of every endpoint are `1..n`, the
`n`-th alone is current, each refers to the one before it, and no fingerprint occurs twice. No
request ever raises a unique violation. -/
theorem reachable_version_chain (cfg : Config) {db : Db} {fresh : Uuid}
    (hdb : db.registry.Valid fresh) {s : World ι}
    (hs : Reachable (program cfg).step (Initial db fresh) s) :
    (∀ e, Chain (s.db.chain e)) ∧ ∀ i p, s.loc i = .track p →
      p.status ≠ .closing .uniqueViolation ∧ p.status ≠ .failed .uniqueViolation := by
  obtain ⟨hvalid, hparty⟩ := Run.registry_holds hdb hs
  constructor
  · intro e
    obtain ⟨log, hnodup, hlog⟩ := hvalid.chain e
    rw [← Db.registry_chain, hlog]
    exact chain_links hnodup
  · intro i p hp
    have h := hparty i
    rw [hp] at h
    obtain ⟨call, pc, status, task⟩ := p
    constructor
    · intro hst
      obtain rfl : status = .closing .uniqueViolation := hst
      exact h rfl
    · intro hst
      obtain rfl : status = .failed .uniqueViolation := hst
      exact h rfl

/-- The empty database is a valid registry. -/
theorem Registry.valid_empty (fresh : Uuid) : ({} : Db).registry.Valid fresh where
  endpointIds := List.nodup_nil
  endpointFresh := fun _ h => absurd h List.not_mem_nil
  versionIds := List.nodup_nil
  versionFresh := fun _ h => absurd h List.not_mem_nil
  owner := fun _ h => absurd h List.not_mem_nil
  chain := fun _ => ⟨[], List.nodup_nil, rfl⟩

/-- Two requests, one after the other, make a chain of two versions. -/
theorem reachable_version_chain_two :
    ∃ s : World ℕ, Reachable (program (sampleConfig false)).step (Initial {} 1) s ∧
      (s.db.chain 1).length = 2 ∧ Chain (s.db.chain 1) := by
  have hrun : (exec (program (sampleConfig false)).step
      (sampleWorld {} 1 [sampleRequest sampleOld, sampleRequest sampleNew])
      (List.replicate 8 (0, .proceed 0) ++ List.replicate 14 (1, .proceed 0))).map
        (fun s => (s.db.chain 1).length) = some 2 := by decide +kernel
  obtain ⟨s, hs, hlen⟩ := Option.map_eq_some_iff.mp hrun
  have hreach : Reachable (program (sampleConfig false)).step (Initial {} 1) s :=
    reachable_of_exec (sampleWorld_initial (by simp [sampleRequest, Party.Starting.track])) hs
  exact ⟨s, hreach, hlen, (reachable_version_chain _ (Registry.valid_empty 1) hreach).1 1⟩

end Driftgate.Runtime
