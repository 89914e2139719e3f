import Driftgate.Lib.Linearize
import Driftgate.Runtime.VersionRows
import Driftgate.Runtime.DeliveryRuns
import Driftgate.Runtime.Fingerprint

/-!
# Registrations take effect at one moment

A registration is spread over many statements, and what it has written is seen by nobody before a
commit that may come long after. All the same the answers of `track_contract` are those of a
registry in which every registration happens at once: `VersionLog` numbers in a log for each
endpoint, kept by the object `Linearize.register`. A call that finds its fingerprint takes effect at
the look-up that finds it, with the lock or without; a call that inserts takes effect at the commit
of its row.

The one thing that can go wrong is a failed commit in the middle of an inline delivery: it undoes
the registration, but the call goes on and answers as if it were there.
-/

namespace Driftgate.Runtime

open Driftgate.VersionLog Driftgate.ReadCommitted Driftgate.Transition Driftgate.Linearize
  Driftgate.Schema

/-! ### Endpoint keys -/

/-- The endpoint that a write inserts. -/
def Write.endpointRow : Write → Option EndpointRow
  | .insertEndpoint row => some row
  | _ => none

theorem endpoints_applyAll (cfg : Config) (ws : List Write) (db : Db) :
    ((program cfg).applyAll ws db).endpoints = db.endpoints ++ ws.filterMap Write.endpointRow := by
  induction ws generalizing db with
  | nil => simp
  | cons w ws ih =>
    have hw : ((program cfg).apply w db).endpoints = db.endpoints ++ w.endpointRow.toList := by
      cases w <;> simp [program, Write.apply, Write.endpointRow]
    rw [Program.applyAll_cons, ih, hw, List.append_assoc, List.filterMap_cons]
    cases w.endpointRow <;> rfl

/-- The rows that a party has inserted have keys of their own, and it holds their entries. -/
structure EndpointsLocked {ι : Type*} (cfg : Config) (w : Shared Db Effect ι)
    (o : Own Write LockKey Party) : Prop where
  nodup : ((((program cfg).applyAll o.pending w.db).endpoints).map (·.key)).Nodup
  locked : ∀ row ∈ o.pending.filterMap Write.endpointRow, .endpointKey row.key ∈ o.held

/-- What a step of a party writes to `contract_registry_endpoints`: nothing, or a row with a key
that it locks and does not see. -/
theorem Party.step_endpoints {cfg : Config} {p : Party} {v : DbView} {x : Input}
    {op : Op Write LockKey Effect Party} (h : p.next cfg v x = some op) :
    op.writes.filterMap Write.endpointRow = [] ∨
      ∃ row, op.writes.filterMap Write.endpointRow = [row] ∧ .endpointKey row.key ∈ op.locks ∧
        ∀ r ∈ v.db.endpoints, r.key ≠ row.key := by
  have hquiet : (∀ w ∈ op.writes, w.table ≠ .endpoints) →
      op.writes.filterMap Write.endpointRow = [] := by
    intro hw
    refine List.filterMap_eq_nil_iff.mpr fun w hmem => ?_
    cases w with
    | insertEndpoint row => exact absurd rfl (hw _ hmem)
    | _ => rfl
  cases p with
  | track p =>
    obtain ⟨op', hop', rfl⟩ := Option.map_eq_some_iff.mp h
    rw [Op.writes_map, Op.locks_map] at *
    rcases TrackProc.next_cases hop' with ⟨-, rfl⟩ | ⟨ok, t, -, -, rfl⟩ | ⟨cop, -, hcode, rfl⟩ |
      ⟨e, -, rfl⟩
    · exact .inl rfl
    · exact .inl rfl
    · rw [Op.writes_map, Op.locks_map] at *
      cases hpc : p.pc with
      | upsert pc =>
        rw [hpc] at hcode
        obtain ⟨uop, huop, rfl⟩ := Option.map_eq_some_iff.mp hcode
        rw [Op.writes_map, Op.locks_map] at *
        obtain ⟨ks, new, next, rfl, hmove⟩ := Upsert.step_move huop
        cases hmove with
        | endpointInserted hnone =>
          refine .inr ⟨_, rfl, List.mem_cons_self, fun r hr hkey => ?_⟩
          have hno := List.find?_eq_none.mp hnone r hr
          exact hno (by simpa using hkey)
        | _ => exact .inl rfl
      | _ =>
        refine .inl (hquiet fun w hw => ?_)
        have hnot := (TrackCall.step_registered (by simp [TrackPc.Registered, hpc]) hcode).1 w hw
        intro htable
        cases w <;> simp [Write.table, Registry.notices] at htable hnot
    · exact .inl rfl
  | worker pc =>
    obtain ⟨op', hop', rfl⟩ := Option.map_eq_some_iff.mp h
    rw [Op.writes_map] at hquiet ⊢
    refine .inl (hquiet fun w hw => ?_)
    rcases WorkerPc.step_table hop' w hw with ht | ht | ht <;> simp [ht]
  | subscription call pc =>
    obtain ⟨op', hop', rfl⟩ := Option.map_eq_some_iff.mp h
    rw [Op.writes_map] at hquiet ⊢
    refine .inl (hquiet fun w hw => ?_)
    simp [SubscriptionCall.step_table hop' w hw]
  | finished =>
    cases x <;> simp only [next, reduceCtorEq, Option.some.injEq] at h
    subst h
    exact .inl rfl

section Keys

variable {ι : Type*} [DecidableEq ι] {cfg : Config} {db : Db} {fresh : Uuid}

/-- **One endpoint for each key**, in the table and in what every party sees. -/
theorem Run.endpoint_keys {good : World ι → ι × Input → Prop}
    (hdb : (db.endpoints.map (·.key)).Nodup) {s : World ι}
    (hs : Run (program cfg).step good (Initial db fresh) s) :
    (s.db.endpoints.map (·.key)).Nodup ∧ ∀ i, EndpointsLocked cfg s.toShared (s.own i) := by
  refine Run.noninterference (P := program cfg) (G := fun w => (w.db.endpoints.map (·.key)).Nodup)
    (A := fun _ w o => EndpointsLocked cfg w o) ?_ ?_ ?_ hs
  · intro s hs
    refine ⟨by rw [hs.db]; exact hdb, fun i => ⟨?_, ?_⟩⟩
    · simp only [State.own, hs.pending i, Program.applyAll_nil]
      rw [hs.db]
      exact hdb
    · simp [State.own, hs.pending i]
  · intro s i x op _ hG hA hop _
    have hstep := Party.step_endpoints hop
    have hview := (hA i).nodup
    cases op with
    | exec ks ws next =>
      refine ⟨hG, ?_, ?_⟩
      · show ((((program cfg).applyAll (s.pending i ++ ws) s.db).endpoints).map (·.key)).Nodup
        rw [Program.applyAll_append, endpoints_applyAll, List.map_append]
        obtain hnone | ⟨row, hrow, -, hnew⟩ := hstep
        · rw [show ws.filterMap Write.endpointRow = [] from hnone, List.map_nil, List.append_nil]
          exact hview
        · rw [show ws.filterMap Write.endpointRow = [row] from hrow, List.map_singleton]
          refine List.nodup_append.mpr ⟨hview, List.nodup_singleton _, ?_⟩
          rintro k hk k' hk' rfl
          obtain ⟨r, hr, hrk⟩ := List.mem_map.mp hk
          exact hnew r hr (hrk.trans (List.mem_singleton.mp hk'))
      · intro row hrow
        rw [show (Op.own (s.own i) (.exec ks ws next)).pending = s.pending i ++ ws from rfl,
          List.filterMap_append, List.mem_append] at hrow
        rcases hrow with hrow | hrow
        · exact .inl ((hA i).locked row hrow)
        · obtain hnone | ⟨row', hrow', hlock, -⟩ := hstep
          · rw [show ws.filterMap Write.endpointRow = [] from hnone] at hrow
            cases hrow
          · rw [show ws.filterMap Write.endpointRow = [row'] from hrow'] at hrow
            rw [List.mem_singleton.mp hrow]
            exact .inr hlock
    | emit e next => exact ⟨hG, hview, (hA i).locked⟩
    | commit next => exact ⟨hview, hview, by simp [Op.own, Op.pendingAfter]⟩
    | rollback next => exact ⟨hG, hG, by simp [Op.own, Op.pendingAfter]⟩
  · intro s i j x op hne _ _ hA _
    refine ⟨?_, (hA j).locked⟩
    cases op with
    | commit next =>
      show ((((program cfg).applyAll (s.pending j)
        ((program cfg).applyAll (s.pending i) s.db)).endpoints).map (·.key)).Nodup
      have hi := (hA i).nodup
      have hj := (hA j).nodup
      rw [endpoints_applyAll, List.map_append] at hi hj ⊢
      rw [endpoints_applyAll, List.map_append, List.append_assoc]
      refine List.nodup_append.mpr ⟨(List.nodup_append.mp hi).1, ?_, ?_⟩
      · refine List.nodup_append.mpr
          ⟨(List.nodup_append.mp hi).2.1, (List.nodup_append.mp hj).2.1, ?_⟩
        rintro k hk k' hk' rfl
        -- both would hold the entry of the key
        obtain ⟨r, hr, rfl⟩ := List.mem_map.mp hk
        obtain ⟨r', hr', hkey⟩ := List.mem_map.mp hk'
        have hlock := (hA j).locked r' hr'
        rw [hkey] at hlock
        exact hne (State.held_unique hlock ((hA i).locked r hr))
      · intro k hk k' hk'
        rcases List.mem_append.mp hk' with hk' | hk'
        · exact (List.nodup_append.mp hi).2.2 k hk k' hk'
        · exact (List.nodup_append.mp hj).2.2 k hk k' hk'
    | _ => exact (hA j).nodup

end Keys

/-! ### The log of an endpoint -/

/-- The fingerprints registered for an endpoint, in order. -/
def Db.log (db : Db) (key : EndpointKey) : List String :=
  (db.endpoint? key).elim [] fun row => (db.chain row.id).map Link.mark

section Log

variable {cfg : Config} {db db' : Db} {fresh : Uuid} {held : Set LockKey} {key : EndpointKey}
  {ws : List Write} {e : Uuid}

theorem Db.endpoint?_eq_some (hkeys : (db.endpoints.map (·.key)).Nodup)
    (h : ⟨e, key⟩ ∈ db.endpoints) : db.endpoint? key = some ⟨e, key⟩ := by
  cases hfind : db.endpoint? key with
  | none =>
    have hno := List.find?_eq_none.mp hfind _ h
    simp at hno
  | some row =>
    have hkey : row.key = key := by simpa using List.find?_some hfind
    rw [List.inj_on_of_nodup_map hkeys (List.mem_of_find?_eq_some hfind) h hkey]

/-- The log of a stored endpoint is the one its chain represents. -/
theorem Db.log_eq (hkeys : (db.endpoints.map (·.key)).Nodup) (h : ⟨e, key⟩ ∈ db.endpoints)
    {log : List (Uuid × String)} (hchain : db.registry.chain e = links log) :
    db.log key = log.map Prod.snd := by
  rw [Db.registry_chain] at hchain
  rw [Db.log, Db.endpoint?_eq_some hkeys h, Option.elim_some, hchain]
  exact linksFrom_marks _ _ _

theorem Db.log_of_missing (h : ∀ row ∈ db.endpoints, row.key ≠ key) : db.log key = [] := by
  rw [Db.log, Db.endpoint?, List.find?_eq_none.mpr (by simpa using h), Option.elim_none]

/-- A log depends on the endpoints and the chains. -/
theorem Db.log_congr (hrows : db'.endpoint? key = db.endpoint? key)
    (hchain : ∀ row ∈ db.endpoints, row.key = key →
      db'.registry.chain row.id = db.registry.chain row.id) : db'.log key = db.log key := by
  rw [Db.log, Db.log, hrows]
  cases hfind : db.endpoint? key with
  | none => rfl
  | some row =>
    have hkey : row.key = key := by simpa using List.find?_some hfind
    have hrow := hchain row (List.mem_of_find?_eq_some hfind) hkey
    rw [Db.registry_chain, Db.registry_chain] at hrow
    rw [Option.elim_some, Option.elim_some, hrow]

/-- An endpoint that nobody has stored has no chain. -/
theorem Registry.Valid.chain_eq_nil (hv : db.registry.Valid fresh)
    (h : ∀ row ∈ db.endpoints, row.id ≠ e) : db.registry.chain e = [] := by
  rw [Registry.chain, List.map_eq_nil_iff, List.filter_eq_nil_iff]
  intro x hx hxe
  obtain ⟨row, hrow, hid⟩ := hv.owner x hx
  exact h row hrow (hid.trans (by simpa using hxe))

/-- The endpoint rows of a transaction that knows its endpoint. -/
theorem EndpointOf.endpointRows (h : EndpointOf db.registry fresh held key e ws) :
    ws.filterMap Write.endpointRow = [] ∧ ⟨e, key⟩ ∈ db.endpoints ∨
      ws.filterMap Write.endpointRow = [⟨e, key⟩] ∧ ∀ row ∈ db.endpoints, row.id ≠ e := by
  cases h with
  | stored hmem => exact .inl ⟨rfl, hmem⟩
  | inserted _ hnew _ => exact .inr ⟨rfl, hnew⟩

theorem endpointRows_filter (ws : List Write) :
    (ws.filter Registry.notices).filterMap Write.endpointRow = ws.filterMap Write.endpointRow := by
  induction ws with
  | nil => rfl
  | cons w ws ih =>
    rw [List.filterMap_cons, ← ih, List.filter_cons]
    cases w <;> rfl

/-- What a transaction sees of the endpoints once it knows its own. -/
theorem EndpointOf.view (hkeys : (((program cfg).applyAll ws db).endpoints.map (·.key)).Nodup)
    {ep : List Write} (h : EndpointOf db.registry fresh held key e ep)
    (hep : ws.filterMap Write.endpointRow = ep.filterMap Write.endpointRow) :
    ⟨e, key⟩ ∈ ((program cfg).applyAll ws db).endpoints ∧
      (⟨e, key⟩ ∈ db.endpoints ∨
        (∀ row ∈ db.endpoints, row.key ≠ key) ∧ ∀ row ∈ db.endpoints, row.id ≠ e) ∧
      ∀ key', key' ≠ key → ((program cfg).applyAll ws db).endpoint? key' = db.endpoint? key' := by
  have hall := endpoints_applyAll cfg ws db
  rw [hep] at hall
  obtain ⟨hrows, hmem⟩ | ⟨hrows, hnew⟩ := h.endpointRows
  · rw [hrows, List.append_nil] at hall
    refine ⟨hall ▸ hmem, .inl hmem, fun key' _ => ?_⟩
    rw [Db.endpoint?, hall, Db.endpoint?]
  · rw [hrows] at hall
    rw [hall, List.map_append, List.nodup_append] at hkeys
    refine ⟨hall ▸ List.mem_append_right _ (List.mem_singleton_self _),
      .inr ⟨fun row hrow hkey => hkeys.2.2 _ (List.mem_map_of_mem hrow) _ (by simp) hkey, hnew⟩,
      fun key' hne => ?_⟩
    rw [Db.endpoint?, hall, List.find?_append, Db.endpoint?]
    simp [Ne.symm hne]

/-- The log of an endpoint before a commit that may store the endpoint. -/
theorem Registry.Valid.log_before (hv : db.registry.Valid fresh)
    (hkeys : (db.endpoints.map (·.key)).Nodup)
    (h : ⟨e, key⟩ ∈ db.endpoints ∨
      (∀ row ∈ db.endpoints, row.key ≠ key) ∧ ∀ row ∈ db.endpoints, row.id ≠ e)
    {log : List (Uuid × String)} (hchain : db.registry.chain e = links log) :
    db.log key = log.map Prod.snd := by
  rcases h with hmem | ⟨hnokey, hnoid⟩
  · exact Db.log_eq hkeys hmem hchain
  · have hnil : log = [] := by
      rw [hv.chain_eq_nil hnoid] at hchain
      exact List.length_eq_zero_iff.mp (by rw [← links_length log, ← hchain]; rfl)
    rw [Db.log_of_missing hnokey, hnil]
    rfl

/-- A transaction that has registered nothing leaves every log as it is. -/
theorem EndpointOf.log_commit (hv : db.registry.Valid fresh)
    (hkeys : (db.endpoints.map (·.key)).Nodup)
    (hview : (((program cfg).applyAll ws db).endpoints.map (·.key)).Nodup)
    (h : EndpointOf db.registry fresh held key e (ws.filter Registry.notices)) :
    ((program cfg).applyAll ws db).log = db.log := by
  obtain ⟨hmem, hold, hothers⟩ := h.view hview (endpointRows_filter ws).symm
  have hchain : ∀ e', ((program cfg).applyAll ws db).registry.chain e' = db.registry.chain e' := by
    intro e'
    rw [registry_applyAll]
    exact Registry.chain_congr (h.commit cfg hv).2.2.1
  funext key'
  by_cases hk : key' = key
  · obtain ⟨log, -, hlog⟩ := hv.chain e
    rw [hk, Db.log_eq hview hmem ((hchain e).trans hlog), hv.log_before hkeys hold hlog]
  · exact Db.log_congr (hothers key' hk) fun row _ _ => hchain row.id

theorem Registry.endpointRows_registration (current : Option VersionRow) (row : VersionRow) :
    (Registry.registration current row).filterMap Write.endpointRow = [] := by
  cases current <;> rfl

/-- **A registration takes effect at its commit.** The row it has inserted is the next of its log,
and no other log changes. -/
theorem Registers.log_commit (hv : db.registry.Valid fresh)
    (hkeys : (db.endpoints.map (·.key)).Nodup)
    (hview : (((program cfg).applyAll ws db).endpoints.map (·.key)).Nodup)
    (h : Registers cfg db.registry fresh held key (ws.filter Registry.notices)) :
    ∃ row, .insertVersion row ∈ ws ∧ (∀ row', .insertVersion row' ∈ ws → row' = row) ∧
      register (key, row.fingerprint) db.log =
        (((program cfg).applyAll ws db).log, (row.version, true)) := by
  generalize hws : ws.filter Registry.notices = rws at h
  obtain ⟨endpoint, lead, hfp, hrow, he, hlt, hnew, hlock⟩ := h
  rename_i e ep current log row
  have hmem : ∀ row', .insertVersion row' ∈ ws ↔ row' = row := by
    intro row'
    have hin : .insertVersion row' ∈ ws ↔ .insertVersion row' ∈ ws.filter Registry.notices := by
      simp [Registry.notices]
    rw [hin, hws, List.mem_append, Registry.registration, List.mem_append, List.mem_singleton,
      Write.insertVersion.injEq]
    simp [endpoint.not_insertVersion, Registry.not_insertVersion_retirement]
  refine ⟨row, (hmem row).mpr rfl, fun row' h => (hmem row').mp h, ?_⟩
  have hrows : ws.filterMap Write.endpointRow = ep.filterMap Write.endpointRow := by
    rw [← endpointRows_filter, hws, List.filterMap_append, Registry.endpointRows_registration,
      List.append_nil]
  obtain ⟨hin, hold, hothers⟩ := endpoint.view hview hrows
  obtain ⟨hv', -, hentries, hstored⟩ := endpoint.commit cfg hv
  have ha : (db.registry.writeAll ep).Ahead e current log :=
    { lead.ahead with chain := (Registry.chain_congr hentries).trans lead.ahead.chain }
  rw [← hentries] at hnew
  obtain ⟨-, hchain, hchains⟩ := hv'.register ha hrow he ⟨_, hstored, rfl⟩ lead.nodup hfp hlt hnew
  have hreg : ((program cfg).applyAll ws db).registry =
      (db.registry.writeAll ep).writeAll (Registry.registration current row) := by
    rw [registry_applyAll, hws, ← Registry.writeAll_append]
  have hlog : db.log key = log.map Prod.snd := hv.log_before hkeys hold lead.ahead.chain
  have hversion : row.version = log.length + 1 := congrArg Link.version hrow
  rw [register_of_not_mem (by rw [hlog]; exact hfp), hlog, List.length_map, hversion]
  refine Prod.ext (funext fun key' => ?_) rfl
  by_cases hk : key' = key
  · have hlog' := Db.log_eq hview hin ((congrArg (Registry.chain · e) hreg).trans hchain)
    rw [hk]
    refine (Function.update_self ..).trans (Eq.trans ?_ hlog'.symm)
    rw [List.map_append]
    rfl
  · refine (Function.update_of_ne hk _ _).trans (Eq.symm ?_)
    refine Db.log_congr (hothers key' hk) fun r hr hrk => ?_
    have hne : r.id ≠ e := by
      rintro rfl
      rcases hold with hmem' | ⟨-, hnoid⟩
      · exact hk (hrk ▸ congrArg EndpointRow.key (hv.endpoint_unique hr hmem' rfl))
      · exact hnoid r hr rfl
    rw [hreg]
    exact (hchains r.id hne).trans (Registry.chain_congr hentries)

end Log

section Commit

variable {cfg : Config} {db : Db} {fresh : Uuid} {held : Set LockKey} {key : EndpointKey}
  {ws : List Write} {e : Uuid} {row : VersionRow}

/-- What is found under a fingerprint is what the registry answers. -/
theorem EndpointOf.register_found (hv : db.registry.Valid fresh)
    (hkeys : (db.endpoints.map (·.key)).Nodup) (h : EndpointOf db.registry fresh held key e ws)
    {fp : String} (hrow : db.versionOf e fp = some row) :
    register (key, fp) db.log = (db.log, (row.version, false)) := by
  have hmem : row ∈ db.versions := List.mem_of_find?_eq_some hrow
  obtain ⟨rfl, rfl⟩ : row.endpointId = e ∧ row.fingerprint = fp := by
    simpa using List.find?_some hrow
  obtain ⟨log, hnodup, hchain, hlink⟩ := hv.mem_links hmem
  have hlog : db.log key = log.map Prod.snd := by
    cases h with
    | stored hstored => exact Db.log_eq hkeys hstored hchain
    | inserted _ hnew _ =>
      obtain ⟨r, hr, hid⟩ := hv.owner _ (List.mem_map_of_mem hmem)
      exact absurd hid (hnew r hr)
  obtain ⟨j, x, hx, hxlink⟩ := VersionLog.mem_links hlink
  have hversion : row.version = j + 1 := congrArg Link.version hxlink
  have hmark : (log.map Prod.snd)[j]? = some row.fingerprint := by
    rw [List.getElem?_map, hx, show row.fingerprint = x.2 from congrArg Link.mark hxlink]
    rfl
  obtain ⟨hj, hget⟩ := List.getElem?_eq_some_iff.mp hmark
  rw [register_of_mem (by rw [hlog]; exact List.mem_of_getElem? hmark), hlog, hversion, ← hget,
    hnodup.idxOf_getElem]

/-- What a commit does to the logs: it carries out the registration of its row, if it has one. -/
theorem Settled.log_commit (hv : db.registry.Valid fresh)
    (hkeys : (db.endpoints.map (·.key)).Nodup)
    (hview : (((program cfg).applyAll ws db).endpoints.map (·.key)).Nodup)
    (h : Settled cfg db.registry fresh held key (ws.filter Registry.notices)) :
    ((∀ row, .insertVersion row ∉ ws) → ((program cfg).applyAll ws db).log = db.log) ∧
      ∀ row, .insertVersion row ∈ ws → register (key, row.fingerprint) db.log =
        (((program cfg).applyAll ws db).log, (row.version, true)) := by
  have hnotice : ∀ {row}, .insertVersion row ∈ ws →
      .insertVersion row ∈ ws.filter Registry.notices :=
    fun h => List.mem_filter.mpr ⟨h, rfl⟩
  rcases h with hnil | ⟨e, h⟩ | h
  · refine ⟨fun _ => ?_, fun row hrow => ?_⟩
    · have hreg : ((program cfg).applyAll ws db).registry = db.registry := by
        rw [registry_applyAll, hnil]
        rfl
      funext key'
      refine Db.log_congr ?_ fun row _ _ => by rw [hreg]
      rw [Db.endpoint?, Db.endpoint?]
      exact congrArg (fun reg : Registry => reg.endpoints.find? (·.key = key')) hreg
    · rw [hnil] at hnotice
      exact absurd (hnotice hrow) List.not_mem_nil
  · exact ⟨fun _ => h.log_commit hv hkeys hview,
      fun row hrow => absurd (hnotice hrow) h.not_insertVersion⟩
  · obtain ⟨row, hmem, honly, hlog⟩ := h.log_commit hv hkeys hview
    exact ⟨fun hnone => absurd hmem (hnone row), fun row' hrow => honly row' hrow ▸ hlog⟩

end Commit

/-! ### The answer of a request -/

/-- The version a request will answer and whether it has inserted it, as soon as it knows. -/
def TrackPc.answer : TrackPc → Option (ℕ × Bool)
  | .upsert _ => none
  | .storeSnapshot u => some (u.record.version, u.inserted)
  | .selectPrior u _ => some (u.record.version, u.inserted)
  | .storeDiff d => some (d.upserted.record.version, d.upserted.inserted)
  | .setClassification d => some (d.upserted.record.version, d.upserted.inserted)
  | .enqueue q _ => some (q.drift.upserted.record.version, q.drift.upserted.inserted)
  | .commit _ r => some (r.schemaVersion, r.inserted)

/-- The registration that a request asks for. -/
def TrackCall.operation (cfg : Config) (call : TrackCall) : EndpointKey × String :=
  (call.key, (call.upsert cfg).fingerprint)

/-- The request is in an inline delivery, its POST has been answered 2xx, and the commit that
follows fails. -/
def Party.forgets : Party → Input → Bool
  | .track p, .raise _ =>
    match p.pc with
    | .enqueue _ (.deliver _ _ _ _ (.commitSuccess _)) => p.running
    | _ => false
  | _, _ => false

theorem Party.offline.not_forgets {p : Party} (h : p.offline) (x : Input) :
    p.forgets x = false := by
  cases p with
  | track p =>
    cases x with
    | raise why =>
      simp only [forgets]
      split
      next hpc =>
        rw [offline, hpc] at h
        cases h
      next => rfl
    | _ => rfl
  | _ => cases x <;> rfl

/-- What a step of a request's code does to its registration. -/
inductive AnswerMove (cfg : Config) (call : TrackCall) (v : DbView) (pc : TrackPc) (x : Input) :
    Op Write LockKey Effect (Flow TrackPc TrackResult) → Prop
  | searches {ks : List LockKey} {ws : List Write} {pc' : TrackPc} (hpc : pc.answer = none)
      (hpc' : pc'.answer = none) (hws : ∀ row, .insertVersion row ∉ ws) :
    AnswerMove cfg call v pc x (.exec ks ws (.go pc'))
  | finds {e : Uuid} {row : VersionRow} {pc' : TrackPc}
      (hpc : pc = .upsert (.fastLookup e) ∨ ∃ current, pc = .upsert (.lookup e current))
      (hrow : v.db.versionOf e (call.upsert cfg).fingerprint = some row)
      (hpc' : pc'.answer = some (row.version, false)) :
    AnswerMove cfg call v pc x (.exec [] [] (.go pc'))
  | inserts {ks : List LockKey} {row : VersionRow} {pc' : TrackPc} (hpc : pc.answer = none)
      (hrow : row.fingerprint = (call.upsert cfg).fingerprint)
      (hpc' : pc'.answer = some (row.version, true)) :
    AnswerMove cfg call v pc x (.exec ks [.insertVersion row] (.go pc'))
  | goesOn {op : Op Write LockKey Effect (Flow TrackPc TrackResult)} {pc' : TrackPc}
      (hnext : op.next = .go pc') (hkeep : ∀ f, op ≠ .rollback f) (hknown : pc.answer ≠ none)
      (hpc' : pc'.answer = pc.answer) (hws : ∀ row, .insertVersion row ∉ op.writes) :
    AnswerMove cfg call v pc x op
  | returns {r : TrackResult} (hpc : pc.answer = some (r.schemaVersion, r.inserted)) :
    AnswerMove cfg call v pc x (.commit (.done r))
  | forgets {f : Flow TrackPc TrackResult}
      (hx : ∀ p : TrackProc, p.running = true → p.pc = pc → (Party.track p).forgets x = true) :
    AnswerMove cfg call v pc x (.rollback f)
  | fails {e : Exc} : AnswerMove cfg call v pc x (.exec [] [] (.raised e))

theorem TrackCall.afterSnapshot_answer (cfg : Config) (call : TrackCall) (u : Upserted) :
    (call.afterSnapshot cfg u).answer = some (u.record.version, u.inserted) := by
  rw [afterSnapshot]
  split <;> rfl

theorem TrackCall.afterUpsert_answer (cfg : Config) (call : TrackCall) (u : Upserted) :
    (call.afterUpsert cfg u).answer = some (u.record.version, u.inserted) := by
  rw [afterUpsert]
  split
  · rfl
  · exact call.afterSnapshot_answer cfg u

/-- Enqueueing does not change the answer. -/
theorem TrackCall.enqueue_answerMove {cfg : Config} {call : TrackCall} {q : Enqueue}
    {pc : EnqueuePc} {v : DbView} {x : Input}
    {op : Op Write LockKey Effect (Flow EnqueuePc (List SubscriptionRow))}
    (h : q.Move cfg v pc x op) :
    AnswerMove cfg call v (.enqueue q pc) x (op.map
      (Flow.bind (.enqueue q) fun affected => .go (call.afterEnqueue cfg q affected)) id) := by
  have hgo : ∀ (affected rest : List SubscriptionRow), ∃ pc',
      ((Enqueue.next affected rest).bind (.enqueue q)
        (fun affected => .go (call.afterEnqueue cfg q affected)) : Flow TrackPc TrackResult) =
          .go pc' ∧
      pc'.answer = (TrackPc.enqueue q pc).answer := by
    intro affected rest
    cases rest <;> exact ⟨_, rfl, rfl⟩
  cases h with
  | selects affected _ =>
    obtain ⟨pc', hpc', hans⟩ := hgo affected affected
    exact .goesOn hpc' (by simp [Op.map]) (by simp [TrackPc.answer]) hans
      (by simp [Op.map, Op.writes])
  | inserts affected sub rest _ =>
    obtain ⟨pc', hpc', hans⟩ := hgo affected rest
    exact .goesOn hpc' (by simp [Op.map]) (by simp [TrackPc.answer]) hans
      (by simp [Op.map, Op.writes])
  | insertsActive | insertsInactive =>
    exact .goesOn rfl (by simp [Op.map]) (by simp [TrackPc.answer]) rfl
      (by simp [Op.map, Op.writes])
  | updates affected _ rest _ _ =>
    obtain ⟨pc', hpc', hans⟩ := hgo affected rest
    exact .goesOn hpc' (by simp [Op.map]) (by simp [TrackPc.answer]) hans
      (by simp [Op.map, Op.writes])
  | selectRaises | insertRaises | updateRaises => exact .fails
  | delivers affected sub rest id dpc hop =>
    cases Delivery.step_move hop with
    | deliveredRaises n why =>
      refine .forgets fun p hp hpc => ?_
      simp [Party.forgets, hpc, hp]
    | failureRaises | deadLetterRaises | givenUpRaises => exact .fails
    | _ =>
      exact .goesOn rfl (by simp [Op.map]) (by simp [TrackPc.answer]) rfl
        (by simp [Op.map, Op.writes, Delivery.insertAttempt, Delivery.upsertDlq])

theorem TrackCall.answerMove {cfg : Config} {call : TrackCall} {pc : TrackPc} {v : DbView}
    {x : Input} {op : Op Write LockKey Effect (Flow TrackPc TrackResult)}
    (h : call.step cfg pc v x = some op) : AnswerMove cfg call v pc x op := by
  cases step_move h with
  | upserts pc hop =>
    obtain ⟨ks, ws, next, rfl, hmove⟩ := Upsert.step_move hop
    cases hmove with
    | raises | endpointMissing | versionTaken => exact .fails
    | fastFound hrow => exact .finds (.inl rfl) hrow (call.afterUpsert_answer cfg _)
    | found current hrow =>
      exact .finds (.inr ⟨current, rfl⟩) hrow (call.afterUpsert_answer cfg _)
    | versionInserted _ => exact .inserts rfl rfl (call.afterUpsert_answer cfg _)
    | _ => exact .searches rfl rfl (by simp)
  | enqueues q pc hop => exact enqueue_answerMove (Enqueue.step_move hop)
  | storesSnapshot u | skipsSnapshot u =>
    exact .goesOn rfl (by simp) (by simp [TrackPc.answer]) (call.afterSnapshot_answer cfg u)
      (by simp [Op.writes])
  | comparesStored | compares | storesDiff | skipsDiff | classifies =>
    exact .goesOn rfl (by simp) (by simp [TrackPc.answer]) rfl (by simp [Op.writes])
  | comparisonFails | priorMissing | priorRaises | classifyRaises | commitRaises => exact .fails
  | commits n r => exact .returns rfl

/-! ### Histories -/

/-- A registration in a history. -/
abbrev RegistrationEvent (ι : Type*) := Event ι (EndpointKey × String) (ℕ × Bool)

/-- What the history says of a request with open transaction `ws`. While the row it has inserted is
not committed, it says nothing. -/
def TrackProc.InHistory {ι : Type*} (cfg : Config) (i : ι) (h : List (RegistrationEvent ι))
    (ws : List Write) (p : TrackProc) : Prop :=
  match p.status with
  | .running =>
    match p.pc.answer with
    | none => i ∉ h.map Event.process
    | some a =>
      (⟨i, p.call.operation cfg, a⟩ ∈ h ∧ ∀ row, .insertVersion row ∉ ws) ∨
      (i ∉ h.map Event.process ∧ ∃ row, .insertVersion row ∈ ws ∧ a = (row.version, true) ∧
        row.fingerprint = (p.call.upsert cfg).fingerprint)
  | .returned r => ⟨i, p.call.operation cfg, (r.schemaVersion, r.inserted)⟩ ∈ h
  | _ => True

def Party.InHistory {ι : Type*} (cfg : Config) (i : ι) (h : List (RegistrationEvent ι))
    (ws : List Write) : Party → Prop
  | .track p => p.InHistory cfg i h ws
  | _ => True

/-- The history `h` has led to the logs `logs` and explains the state. -/
structure ExplainsRegistry {ι : Type*} (cfg : Config) (s : World ι)
    (logs : EndpointKey → List String) (h : List (RegistrationEvent ι)) : Prop where
  logs : logs = s.db.log
  parties : ∀ i, (s.loc i).InHistory cfg i h (s.pending i)
  events : ∀ ev ∈ h, ∃ p, s.loc ev.process = .track p ∧ ev.operation = p.call.operation cfg

theorem TrackProc.next_call {cfg : Config} {p : TrackProc} {v : DbView} {x : Input}
    {op : Op Write LockKey Effect TrackProc} (h : p.next cfg v x = some op) :
    op.next.call = p.call := by
  rcases TrackProc.next_cases h with ⟨-, rfl⟩ | ⟨ok, t, -, -, rfl⟩ | ⟨cop, -, -, rfl⟩ | ⟨e, -, rfl⟩
  · rfl
  · rfl
  · rw [Op.next_map]
    cases cop.next <;> rfl
  · rfl

/-- A request stays the same request. -/
theorem Party.next_call {cfg : Config} {p : TrackProc} {v : DbView} {x : Input}
    {op : Op Write LockKey Effect Party} (h : (Party.track p).next cfg v x = some op) :
    ∃ p', op.next = .track p' ∧ p'.call = p.call := by
  obtain ⟨op', hop', rfl⟩ := Option.map_eq_some_iff.mp h
  exact ⟨op'.next, Op.next_map .., TrackProc.next_call hop'⟩

section Histories

variable {ι : Type*} {cfg : Config} {i j : ι} {h : List (RegistrationEvent ι)} {ws : List Write}

/-- An event of another process changes nothing. -/
theorem Party.InHistory.append {p : Party} (hp : p.InHistory cfg j h ws)
    {ev : RegistrationEvent ι} (hne : ev.process ≠ j) : p.InHistory cfg j (h ++ [ev]) ws := by
  have hnot : j ∉ h.map Event.process → j ∉ (h ++ [ev]).map Event.process := by
    intro hj
    simp only [List.map_append, List.map_singleton, List.mem_append, List.mem_singleton, not_or]
    exact ⟨hj, Ne.symm hne⟩
  cases p with
  | track p =>
    obtain ⟨call, pc, status, task⟩ := p
    cases status with
    | running =>
      simp only [InHistory, TrackProc.InHistory] at hp ⊢
      cases hans : pc.answer with
      | none =>
        rw [hans] at hp
        exact hnot hp
      | some a =>
        rw [hans] at hp
        rcases hp with ⟨hmem, hws⟩ | ⟨hj, hrow⟩
        · exact .inl ⟨List.mem_append_left _ hmem, hws⟩
        · exact .inr ⟨hnot hj, hrow⟩
    | returned r => exact List.mem_append_left _ hp
    | _ => trivial
  | _ => trivial

variable [DecidableEq ι] {s t : World ι} {op : Op Write LockKey Effect Party}
  {logs : EndpointKey → List String}

theorem ExplainsRegistry.events_step (hex : ExplainsRegistry cfg s logs h)
    (hst : Stepped (program cfg) s i op t) {x : Input}
    (hop : (s.loc i).next cfg (s.view (program cfg) i) x = some op) :
    ∀ ev ∈ h, ∃ p, t.loc ev.process = .track p ∧ ev.operation = p.call.operation cfg := by
  intro ev hev
  obtain ⟨p, hp, hcall⟩ := hex.events ev hev
  by_cases hi : ev.process = i
  · rw [← hi, hp] at hop
    obtain ⟨p', hp', hsame⟩ := Party.next_call hop
    refine ⟨p', by rw [hi, hst.loc, hp'], ?_⟩
    rw [hcall, TrackCall.operation, hsame, TrackCall.operation]
  · exact ⟨p, by rw [hst.loc_other hi, hp], hcall⟩

/-- A step that carries out no registration. -/
theorem ExplainsRegistry.skip (hex : ExplainsRegistry cfg s logs h)
    (hst : Stepped (program cfg) s i op t) {x : Input}
    (hop : (s.loc i).next cfg (s.view (program cfg) i) x = some op) (hlog : t.db.log = s.db.log)
    (hself : op.next.InHistory cfg i h (op.pendingAfter (s.pending i))) :
    ExplainsRegistry cfg t logs h where
  logs := hex.logs.trans hlog.symm
  parties j := by
    by_cases hj : j = i
    · subst hj
      rw [hst.loc, hst.pending]
      exact hself
    · rw [hst.loc_other hj, hst.pending_other hj]
      exact hex.parties j
  events := hex.events_step hst hop

/-- A step that carries out the registration of its request. -/
theorem ExplainsRegistry.take (hex : ExplainsRegistry cfg s logs h)
    (hst : Stepped (program cfg) s i op t) {x : Input}
    (hop : (s.loc i).next cfg (s.view (program cfg) i) x = some op) {p : TrackProc}
    (hp : s.loc i = .track p) {a : ℕ × Bool}
    (hlog : register (p.call.operation cfg) s.db.log = (t.db.log, a))
    (hself : op.next.InHistory cfg i (h ++ [⟨i, p.call.operation cfg, a⟩])
      (op.pendingAfter (s.pending i))) :
    ExplainsRegistry cfg t (register (p.call.operation cfg) logs).1
      (h ++ [⟨i, p.call.operation cfg, (register (p.call.operation cfg) logs).2⟩]) := by
  rw [hex.logs, hlog]
  refine ⟨rfl, fun j => ?_, fun ev hev => ?_⟩
  · by_cases hj : j = i
    · subst hj
      rw [hst.loc, hst.pending]
      exact hself
    · rw [hst.loc_other hj, hst.pending_other hj]
      exact (hex.parties j).append (Ne.symm hj)
  · rcases List.mem_append.mp hev with hev | hev
    · exact hex.events_step hst hop ev hev
    · obtain rfl := List.mem_singleton.mp hev
      rw [hp] at hop
      obtain ⟨p', hp', hsame⟩ := Party.next_call hop
      exact ⟨p', by rw [hst.loc, hp'], by rw [TrackCall.operation, TrackCall.operation, hsame]⟩

/-- **A step of a request's code.** -/
theorem ExplainsRegistry.code {held : Set LockKey} {p : TrackProc} {x : Input}
    {cop : Op Write LockKey Effect (Flow TrackPc TrackResult)}
    (hv : s.db.registry.Valid s.fresh) (hkeys : (s.db.endpoints.map (·.key)).Nodup)
    (hview : (((program cfg).applyAll (s.pending i) s.db).endpoints.map (·.key)).Nodup)
    (hex : ExplainsRegistry cfg s logs h) (hp : s.loc i = .track p) (hst : p.status = .running)
    (hholds : p.pc.Holds cfg s.db.registry s.fresh held p.call (s.pending i))
    (hforgets : (Party.track p).forgets x = false)
    (hcode : p.call.step cfg p.pc (s.view (program cfg) i) x = some cop)
    (hop : (s.loc i).next cfg (s.view (program cfg) i) x =
      some ((cop.map (p.after cfg) id).map .track id))
    (hstep : Stepped (program cfg) s i ((cop.map (p.after cfg) id).map .track id) t) :
    ExplainsRegistry cfg t logs h ∨ ∃ op, i ∉ h.map Event.process ∧
      ExplainsRegistry cfg t (register op logs).1 (h ++ [⟨i, op, (register op logs).2⟩]) := by
  have hi := hex.parties i
  rw [hp] at hi
  simp only [Party.InHistory, TrackProc.InHistory, hst] at hi
  have hdb := hstep.db
  rw [Op.dbAfter_map, Op.dbAfter_map] at hdb
  -- a commit carries out the registration of the inserted row, if there is one
  have hcommit : ∀ {f a}, cop = .commit f → p.pc.answer = some a →
      (∀ h' : List (RegistrationEvent ι), ⟨i, p.call.operation cfg, a⟩ ∈ h' →
        ((cop.map (p.after cfg) id).map Party.track id).next.InHistory cfg i h' []) →
      ExplainsRegistry cfg t logs h ∨ ∃ op, i ∉ h.map Event.process ∧
        ExplainsRegistry cfg t (register op logs).1 (h ++ [⟨i, op, (register op logs).2⟩]) := by
    intro f a hf hans hself
    subst hf
    have hpc : p.pc.Registered := by
      rintro pc hpc
      rw [hpc] at hans
      cases hans
    obtain ⟨hnone, hsome⟩ :=
      ((TrackPc.holds_of_registered hpc).mp hholds).log_commit hv hkeys hview
    rw [hans] at hi
    rcases hi with ⟨hmem, hno⟩ | ⟨hnot, row, hrow, rfl, hfp⟩
    · exact .inl (hex.skip hstep hop (by rw [hdb]; exact hnone hno) (hself h hmem))
    · have hlog := hsome row hrow
      rw [hfp] at hlog
      exact .inr ⟨_, hnot, hex.take hstep hop hp (by rw [hdb]; exact hlog)
        (hself _ (List.mem_append_right _ (List.mem_singleton_self _)))⟩
  cases TrackCall.answerMove hcode with
  | searches hpc hpc' hws =>
    rw [hpc] at hi
    refine .inl (hex.skip hstep hop (congrArg Db.log hdb) ?_)
    simp only [Op.map, Op.next, TrackProc.after, Party.InHistory, TrackProc.InHistory, hst, hpc']
    exact hi
  | @finds e row pc' hpc hrow hpc' =>
    have hep : EndpointOf s.db.registry s.fresh held p.call.key e (s.pending i) := by
      rcases hpc with hpc | ⟨current, hpc⟩
      · rw [hpc] at hholds
        exact hholds
      · rw [hpc] at hholds
        exact hholds.1
    have hans : p.pc.answer = none := by
      rcases hpc with hpc | ⟨current, hpc⟩ <;> rw [hpc] <;> rfl
    rw [hans] at hi
    have hrow : s.db.versionOf e (p.call.upsert cfg).fingerprint = some row :=
      (Db.versionOf_congr (hep.versions_applyAll s.db) e _).symm.trans hrow
    refine .inr ⟨_, hi, hex.take hstep hop hp (a := (row.version, false)) ?_ ?_⟩
    · rw [congrArg Db.log hdb]
      exact hep.register_found hv hkeys hrow
    · simp only [Op.map, Op.next, Op.pendingAfter, TrackProc.after, Party.InHistory,
        TrackProc.InHistory, hst, hpc', List.append_nil]
      exact .inl ⟨List.mem_append_right _ (List.mem_singleton_self _),
        fun row => hep.not_insertVersion⟩
  | @inserts ks row pc' hpc hrow hpc' =>
    rw [hpc] at hi
    refine .inl (hex.skip hstep hop (congrArg Db.log hdb) ?_)
    simp only [Op.map, Op.next, Op.pendingAfter, TrackProc.after, Party.InHistory,
      TrackProc.InHistory, hst, hpc']
    exact .inr ⟨hi, row, List.mem_append_right _ (List.mem_singleton_self _), rfl, hrow⟩
  | @goesOn _ pc' hnext hkeep hknown hpc' hws =>
    obtain ⟨a, hans⟩ := Option.ne_none_iff_exists'.mp hknown
    have hafter : ((cop.map (p.after cfg) id).map Party.track id).next =
        .track (p.after cfg (.go pc')) := by
      rw [Op.next_map, Op.next_map, hnext]
    have hgo : ∀ h' ws', (((⟨i, p.call.operation cfg, a⟩ : RegistrationEvent ι) ∈ h' ∧
        ∀ row, .insertVersion row ∉ ws') ∨ (i ∉ h'.map Event.process ∧
          ∃ row, .insertVersion row ∈ ws' ∧ a = (row.version, true) ∧
            row.fingerprint = (p.call.upsert cfg).fingerprint)) →
        ((cop.map (p.after cfg) id).map Party.track id).next.InHistory cfg i h' ws' := by
      intro h' ws' hh
      rw [hafter]
      simp only [TrackProc.after, Party.InHistory, TrackProc.InHistory, hst, hpc', hans]
      exact hh
    rw [hans] at hi
    cases cop with
    | exec ks ws next =>
      refine .inl (hex.skip hstep hop (congrArg Db.log hdb) (hgo h _ ?_))
      rcases hi with ⟨hmem, hno⟩ | ⟨hnot, row, hrow, hrest⟩
      · refine .inl ⟨hmem, fun row hrow => ?_⟩
        exact (List.mem_append.mp hrow).elim (hno row) (hws row)
      · exact .inr ⟨hnot, row, List.mem_append_left _ hrow, hrest⟩
    | emit e next => exact .inl (hex.skip hstep hop (congrArg Db.log hdb) (hgo h _ hi))
    | commit next =>
      exact hcommit rfl hans fun h' hmem => hgo h' [] (.inl ⟨hmem, fun row => List.not_mem_nil⟩)
    | rollback next => exact absurd rfl (hkeep next)
  | returns hpc => exact hcommit rfl hpc fun h' hmem => hmem
  | forgets hx =>
    rw [hx p (by simp [TrackProc.running, hst]) rfl] at hforgets
    cases hforgets
  | fails => exact .inl (hex.skip hstep hop (congrArg Db.log hdb) trivial)

/-- A party that is no request does not become one. -/
theorem Party.next_ne_track {p : Party} (hp : ∀ q, p ≠ .track q) {v : DbView} {x : Input}
    (hop : p.next cfg v x = some op) (q : TrackProc) : op.next ≠ .track q := by
  cases p with
  | track p => exact absurd rfl (hp p)
  | worker pc =>
    obtain ⟨op', -, rfl⟩ := Option.map_eq_some_iff.mp hop
    simp
  | subscription call pc =>
    obtain ⟨op', -, rfl⟩ := Option.map_eq_some_iff.mp hop
    rw [Op.next_map]
    cases op'.next <;> simp [subscribing]
  | finished =>
    cases x <;> simp only [next, reduceCtorEq, Option.some.injEq] at hop
    subst hop
    simp [Op.next]

/-- **A step of a party** carries out one registration of its own, or none. -/
theorem ExplainsRegistry.step {fresh : Uuid} {db : Db} {good : World ι → ι × Input → Prop}
    (hdb : db.registry.Valid fresh) (hkeys : (db.endpoints.map (·.key)).Nodup)
    (hs : Run (program cfg).step good (Initial db fresh) s)
    (hex : ExplainsRegistry cfg s logs h) {x : Input} (hforgets : (s.loc i).forgets x = false)
    (ht : (program cfg).step s (i, x) = some t) :
    ExplainsRegistry cfg t logs h ∨ ∃ op, i ∉ h.map Event.process ∧
      ExplainsRegistry cfg t (register op logs).1 (h ++ [⟨i, op, (register op logs).2⟩]) := by
  obtain ⟨op, hop, hst⟩ := step_cases ht
  obtain ⟨hv, hholds⟩ := Run.registry_holds hdb hs
  obtain ⟨hkeys, hviews⟩ := Run.endpoint_keys hkeys hs
  have hview := (hviews i).nodup
  have hi := hex.parties i
  have hholds := hholds i
  by_cases hp : ∃ p, s.loc i = .track p
  · obtain ⟨p, hp⟩ := hp
    have htrack := hop
    rw [show (program cfg).next = Party.next cfg from rfl, hp] at htrack
    rw [hp] at hi hholds hforgets
    obtain ⟨op', hop', rfl⟩ := Option.map_eq_some_iff.mp htrack
    rcases TrackProc.next_cases hop' with ⟨-, rfl⟩ | ⟨ok, task, -, -, rfl⟩ |
      ⟨cop, hrun, hcode, rfl⟩ | ⟨e, -, rfl⟩
    · refine .inl (hex.skip hst hop (congrArg Db.log hst.db) ?_)
      obtain ⟨call, pc, status, task⟩ := p
      cases status with
      | returned r => exact hi
      | _ => trivial
    · exact .inl (hex.skip hst hop (congrArg Db.log hst.db) hi)
    · have hpc : p.pc.Holds cfg s.db.registry s.fresh (s.own i).held p.call (s.pending i) := by
        obtain ⟨call, pc, status, task⟩ := p
        obtain rfl : status = .running := hrun
        exact hholds
      exact hex.code hv hkeys hview hp hrun hpc hforgets hcode hop hst
    · exact .inl (hex.skip hst hop (congrArg Db.log hst.db) trivial)
  · rw [not_exists] at hp
    refine .inl (hex.skip hst hop ?_ ?_)
    · have hquiet : (s.pending i).filter Registry.notices = [] := by
        cases hloc : s.loc i with
        | track p => exact absurd hloc (hp p)
        | _ =>
          rw [hloc] at hholds
          exact hholds
      rw [hst.db]
      cases op with
      | commit f =>
        have hsettled : Settled cfg s.db.registry s.fresh (s.own i).held ⟨"", "", "", ""⟩
          ((s.pending i).filter Registry.notices) := .inl hquiet
        refine (hsettled.log_commit hv hkeys hview).1 fun row hrow => ?_
        have hmem : .insertVersion row ∈ (s.pending i).filter Registry.notices :=
          List.mem_filter.mpr ⟨hrow, rfl⟩
        rw [hquiet] at hmem
        cases hmem
      | _ => rfl
    · cases hnext : op.next with
      | track q => exact absurd hnext (Party.next_ne_track hp hop q)
      | _ => trivial

end Histories

/-! ### Every run -/

section Runs

variable {ι : Type*} [DecidableEq ι] {db : Db} {fresh : Uuid} {s t : World ι}
  {as : List (ι × Input)}

/-- A log has no mark twice. -/
theorem Registry.Valid.log_nodup (hv : db.registry.Valid fresh)
    (hkeys : (db.endpoints.map (·.key)).Nodup) (key : EndpointKey) : (db.log key).Nodup := by
  cases hfind : db.endpoint? key with
  | none =>
    rw [Db.log, hfind]
    exact List.nodup_nil
  | some row =>
    have hkey : row.key = key := by simpa using List.find?_some hfind
    obtain ⟨log, hnodup, hlog⟩ := hv.chain row.id
    rw [Db.log_eq hkeys (e := row.id) (hkey ▸ List.mem_of_find?_eq_some hfind) hlog]
    exact hnodup

/-- The commit of an inline delivery does not fail. -/
def KeepsRegistration (s : World ι) (a : ι × Input) : Prop := (s.loc a.1).forgets a.2 = false

instance KeepsRegistration.decidable (s : World ι) (a : ι × Input) :
    Decidable (KeepsRegistration s a) :=
  inferInstanceAs (Decidable (_ = _))

/-- Every execution has a history that explains the state it ends in. Without inline delivery
nothing is asked of its steps. -/
theorem exists_registration_history (cfg : Config) (hdb : db.registry.Valid fresh)
    (hkeys : (db.endpoints.map (·.key)).Nodup) (hs : Initial db fresh s)
    (hgood : cfg.inlineDelivery = true → Along (program cfg).step KeepsRegistration s as)
    (he : exec (program cfg).step s as = some t) :
    ∃ h, Linearization register db.log (as.map Prod.fst) h t.db.log ∧
      ExplainsRegistry cfg t t.db.log h := by
  have hgood : Along (program cfg).step KeepsRegistration s as := by
    cases hon : cfg.inlineDelivery with
    | true => exact hgood hon
    | false =>
      exact Along.of_run (fun u a hu => (Run.offline hon hu a.1).not_forgets a.2)
        (.start hs) (Along.of_labels (fun _ _ => trivial) s)
  have hinit : ExplainsRegistry cfg s db.log [] := by
    refine ⟨by rw [hs.db], fun i => ?_, by simp⟩
    have hstart := hs.starting i
    cases hloc : s.loc i with
    | track p =>
      rw [hloc] at hstart
      cases hstart
      simp [Party.InHistory, TrackProc.InHistory, TrackProc.start, TrackPc.answer]
    | _ => trivial
  obtain ⟨logs, h, hl, hex⟩ := linearization_of_exec
    (fun c d i x o h hc hex hg hstep => hex.step hdb hkeys hc hg hstep) (.start hs) hinit hgood he
  obtain rfl := hex.logs
  exact ⟨h, hl, hex⟩

omit [DecidableEq ι] in
/-- What the history has of a request that has returned. -/
theorem ExplainsRegistry.returned {cfg : Config} {logs : EndpointKey → List String}
    {h : List (RegistrationEvent ι)} (hex : ExplainsRegistry cfg t logs h) {i : ι} {p : TrackProc}
    (hp : t.loc i = .track p) {r : TrackResult} (hr : p.status = .returned r) :
    ⟨i, p.call.operation cfg, (r.schemaVersion, r.inserted)⟩ ∈ h := by
  have hi := hex.parties i
  rw [hp] at hi
  simpa only [Party.InHistory, TrackProc.InHistory, hr] using hi

/-- **Linearizability of `track_contract`.** Every execution in which no commit of an inline
delivery fails has a serial explanation: a list of registrations, at most one of each request and at
one of its own steps, which carried out one after the other lead from the logs before to the logs
after, and answer every request that has returned what it was answered. -/
theorem registrations_linearizable (cfg : Config) (hdb : db.registry.Valid fresh)
    (hkeys : (db.endpoints.map (·.key)).Nodup) (hs : Initial db fresh s)
    (hgood : cfg.inlineDelivery = true → Along (program cfg).step KeepsRegistration s as)
    (he : exec (program cfg).step s as = some t) :
    ∃ h : List (RegistrationEvent ι),
      Linearization register db.log (as.map Prod.fst) h t.db.log ∧
      (∀ ev ∈ h, ∃ p, t.loc ev.process = .track p ∧ ev.operation = p.call.operation cfg) ∧
      ∀ i p r, t.loc i = .track p → p.status = .returned r →
        ⟨i, p.call.operation cfg, (r.schemaVersion, r.inserted)⟩ ∈ h := by
  obtain ⟨h, hl, hex⟩ := exists_registration_history cfg hdb hkeys hs hgood he
  exact ⟨h, hl, hex.events, fun i p r hp hr => hex.returned hp hr⟩

/-- **Versions identify shapes.** Of two requests for one endpoint that have returned, both were
answered the same version exactly when their payloads have the same shape, and then at most one of
them has inserted it. A request that begins after another has ended and inserts a version inserts a
higher one. -/
theorem same_version_iff_sameShape {cfg : Config} (hsha : Function.Injective cfg.sha256)
    (hdb : db.registry.Valid fresh) (hkeys : (db.endpoints.map (·.key)).Nodup)
    (hs : Initial db fresh s)
    (hgood : cfg.inlineDelivery = true → Along (program cfg).step KeepsRegistration s as)
    (he : exec (program cfg).step s as = some t) {i j : ι} (hij : i ≠ j) {p q : TrackProc}
    (hp : t.loc i = .track p) (hq : t.loc j = .track q) {r r' : TrackResult}
    (hr : p.status = .returned r) (hr' : q.status = .returned r') (hkey : p.call.key = q.call.key) :
    (r.schemaVersion = r'.schemaVersion ↔ SameShape p.call.payload.json q.call.payload.json) ∧
    (r.schemaVersion = r'.schemaVersion → (r.inserted && r'.inserted) = false) ∧
    ∀ as₁ as₂, as = as₁ ++ as₂ → (∀ a ∈ as₂, a.1 ≠ i) → (∀ a ∈ as₁, a.1 ≠ j) →
      r'.inserted = true → r.schemaVersion < r'.schemaVersion := by
  obtain ⟨h, hl, hex⟩ := exists_registration_history cfg hdb hkeys hs hgood he
  have hi := hex.returned hp hr
  have hj := hex.returned hq hr'
  have hnumber := hl.replays.answer_number hi
  have hnumber' := hl.replays.answer_number hj
  have hpos : 0 < r.schemaVersion := hl.replays.answer_pos hi
  have hpos' : 0 < r'.schemaVersion := hl.replays.answer_pos hj
  simp only [TrackCall.operation, ← hkey] at hnumber hnumber'
  have hprints : r.schemaVersion = r'.schemaVersion ↔
      (p.call.upsert cfg).fingerprint = (q.call.upsert cfg).fingerprint := by
    constructor
    · intro hsame
      rw [hsame, hnumber'] at hnumber
      exact (Option.some.inj hnumber).symm
    · intro hsame
      obtain ⟨hv, -⟩ := Run.registry_holds hdb (reachable_of_exec hs he)
      obtain ⟨hkeys, -⟩ := Run.endpoint_keys hkeys (reachable_of_exec hs he)
      rw [hsame, ← hnumber'] at hnumber
      have hlt : r.schemaVersion - 1 < (t.db.log p.call.key).length := by
        rw [hnumber'] at hnumber
        exact (List.getElem?_eq_some_iff.mp hnumber).1
      have hindex := (List.getElem?_inj hlt (hv.log_nodup hkeys p.call.key)).mp hnumber
      omega
  refine ⟨hprints.trans ?_, fun hsame => ?_, fun as₁ as₂ has hold hnew hins => ?_⟩
  · have hup := p.call.payload.unique
    have huq := q.call.payload.unique
    exact (cfg.fingerprint_eq_iff hsha (canonicalize_canonical hup)
      (canonicalize_canonical huq)).trans (canonicalize_eq_iff hup huq)
  · have hsym : Std.Symm fun e e' : RegistrationEvent ι => e.operation = e'.operation →
        (e.answer.2 && e'.answer.2) = false :=
      ⟨fun e e' h hop => by rw [Bool.and_comm]; exact h hop.symm⟩
    have honce := hl.replays.new_once.imp (fun {e e' : RegistrationEvent ι} h
      (hop : e.operation = e'.operation) => show (e.answer.2 && e'.answer.2) = false by
        rw [h hop.symm, Bool.and_false])
    refine honce.forall hi hj (fun heq => hij ?_) ?_
    · exact congrArg Event.process heq
    · exact Prod.ext hkey (hprints.mp hsame)
  · rw [has, List.map_append] at hl
    have hproc : ∀ {k : ι} {bs : List (ι × Input)}, (∀ a ∈ bs, a.1 ≠ k) → k ∉ bs.map Prod.fst := by
      intro k bs hbs hmem
      obtain ⟨a, ha, hak⟩ := List.mem_map.mp hmem
      exact hbs a ha hak
    obtain ⟨h₁, h₂, rfl, he₁, he₂⟩ := hl.before hi hj (hproc hold) (hproc hnew)
    exact hl.replays.number_lt he₁ he₂ hkey hins

end Runs

/-! ### Two requests that overlap -/

/-- What a request was answered, and for which endpoint. -/
def Party.reply? : Party → Option (EndpointKey × ℕ × Bool)
  | .track p =>
    match p.status with
    | .returned r => some (p.call.key, r.schemaVersion, r.inserted)
    | _ => none
  | _ => none

theorem Party.reply?_eq_some {p : Party} {key : EndpointKey} {version : ℕ} {inserted : Bool}
    (h : p.reply? = some (key, version, inserted)) :
    ∃ q r, p = .track q ∧ q.status = .returned r ∧ q.call.key = key ∧
      r.schemaVersion = version ∧ r.inserted = inserted := by
  cases p with
  | track q =>
    cases hst : q.status with
    | returned r =>
      simp only [reply?, hst, Option.some.injEq, Prod.mk.injEq] at h
      exact ⟨q, r, rfl, hst, h⟩
    | _ => simp [reply?, hst] at h
  | _ => cases h

/-- The sample endpoint, without versions. -/
def sampleNoVersion : Db where
  endpoints := [⟨1, sampleKey⟩]

theorem sampleNoVersion_valid : sampleNoVersion.registry.Valid 2 := by
  have h : (({} : Db).registry.write (.insertEndpoint ⟨1, sampleKey⟩)).Valid 2 :=
    (Registry.valid_empty 2).insertEndpoint (by decide) fun _ h => absurd h List.not_mem_nil
  exact h

/-- The second request has looked without the lock before the first one commits. -/
def overlapping : List (ℕ × Input) :=
  List.replicate 3 (1, .proceed 0) ++ List.replicate 9 (0, .proceed 0) ++
    List.replicate 5 (1, .proceed 0)

/-- Both requests return version 1, and the first one has inserted it. -/
theorem overlapping_runs : ∃ t,
    exec (program (sampleConfig false)).step
      (sampleWorld sampleNoVersion 2 [sampleRequest sampleOld, sampleRequest sampleOld])
      overlapping = some t ∧
    (t.loc 0).reply? = some (sampleKey, 1, true) ∧
    (t.loc 1).reply? = some (sampleKey, 1, false) := by
  have hrun : (exec (program (sampleConfig false)).step
      (sampleWorld sampleNoVersion 2 [sampleRequest sampleOld, sampleRequest sampleOld])
      overlapping).map (fun t => ((t.loc 0).reply?, (t.loc 1).reply?)) =
        some (some (sampleKey, 1, true), some (sampleKey, 1, false)) := by decide +kernel
  obtain ⟨t, ht, hreplies⟩ := Option.map_eq_some_iff.mp hrun
  exact ⟨t, ht, Prod.mk.inj hreplies⟩

theorem overlapping_initial :
    Initial sampleNoVersion 2
      (sampleWorld sampleNoVersion 2 [sampleRequest sampleOld, sampleRequest sampleOld]) :=
  sampleWorld_initial (by simp [sampleRequest, Party.Starting.track])

/-- The overlapping requests have a history. -/
theorem registrations_linearizable_overlapping :
    ∃ (t : World ℕ) (h : List (RegistrationEvent ℕ)),
      Linearization register sampleNoVersion.log (overlapping.map Prod.fst) h t.db.log ∧
      (∃ ev ∈ h, ev.process = 0 ∧ ev.answer = (1, true)) ∧
      ∃ ev ∈ h, ev.process = 1 ∧ ev.answer = (1, false) := by
  obtain ⟨t, ht, h₀, h₁⟩ := overlapping_runs
  obtain ⟨p, r, hp, hr, -, hversion, hinserted⟩ := Party.reply?_eq_some h₀
  obtain ⟨q, r', hq, hr', -, hversion', hinserted'⟩ := Party.reply?_eq_some h₁
  obtain ⟨h, hl, -, hanswers⟩ := registrations_linearizable (sampleConfig false)
    sampleNoVersion_valid (by simp [sampleNoVersion]) overlapping_initial (by simp [sampleConfig])
    ht
  exact ⟨t, h, hl, ⟨_, hanswers 0 p r hp hr, rfl, by rw [hversion, hinserted]⟩,
    ⟨_, hanswers 1 q r' hq hr', rfl, by rw [hversion', hinserted']⟩⟩

/-- The overlapping requests have sent payloads of one shape. -/
theorem same_version_iff_sameShape_overlapping :
    ∃ (t : World ℕ) (p q : TrackProc), t.loc 0 = .track p ∧ t.loc 1 = .track q ∧
      SameShape p.call.payload.json q.call.payload.json := by
  obtain ⟨t, ht, h₀, h₁⟩ := overlapping_runs
  obtain ⟨p, r, hp, hr, hkey, hversion, -⟩ := Party.reply?_eq_some h₀
  obtain ⟨q, r', hq, hr', hkey', hversion', -⟩ := Party.reply?_eq_some h₁
  exact ⟨t, p, q, hp, hq, (same_version_iff_sameShape
    (show Function.Injective (sampleConfig false).sha256 from Function.injective_id)
    sampleNoVersion_valid (by simp [sampleNoVersion]) overlapping_initial (by simp [sampleConfig])
    ht (by decide) hp hq hr hr' (hkey.trans hkey'.symm)).1.mp (hversion.trans hversion'.symm)⟩

end Driftgate.Runtime
