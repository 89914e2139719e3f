import Driftgate.Runtime.System
import Driftgate.Lib.VersionLog

/-!
# The registry as a set of chains

What the writes of `upsert_schema_version` do, without concurrency. `Db.registry` keeps what the
version chain is about: the endpoints, and for every version row its link and its endpoint. A
registry is valid when every endpoint has a chain and no identifier is used twice.

The result is `Registry.Valid.register`: retiring the current row of an endpoint and inserting the
next one appends to the log of that endpoint and leaves the others alone.
-/

namespace Driftgate.Runtime

open Driftgate.VersionLog Driftgate.ReadCommitted

/-! ### Links of rows -/

/-- The columns of a version row that make it a link of a chain. -/
def VersionRow.link (r : VersionRow) : Link Uuid String :=
  ⟨r.id, r.version, r.fingerprint, r.previousVersionId, r.isCurrent⟩

/-- The endpoints and the links of their versions. -/
structure Registry where
  endpoints : List EndpointRow
  entries : List (Uuid × Link Uuid String)

def Db.registry (db : Db) : Registry :=
  ⟨db.endpoints, db.versions.map fun r => (r.endpointId, r.link)⟩

namespace Registry

/-- The links of one endpoint. -/
def chain (reg : Registry) (e : Uuid) : List (Link Uuid String) :=
  (reg.entries.filter fun x => x.1 = e).map Prod.snd

/-- What a write does to the registry. -/
def write (w : Write) (reg : Registry) : Registry :=
  match w with
  | .insertEndpoint row => { reg with endpoints := reg.endpoints ++ [row] }
  | .insertVersion row => { reg with entries := reg.entries ++ [(row.endpointId, row.link)] }
  | .unsetCurrent id => { reg with
      entries := reg.entries.map fun x => if x.2.id = id then (x.1, x.2.retire) else x }
  | _ => reg

/-- The writes the registry notices. -/
def notices : Write → Bool
  | .insertEndpoint _ => true
  | .insertVersion _ => true
  | .unsetCurrent _ => true
  | _ => false

theorem write_of_not_notices {w : Write} (h : notices w = false) (reg : Registry) :
    reg.write w = reg := by
  cases w <;> first | rfl | simp [notices] at h

end Registry

theorem Db.registry_apply (w : Write) (db : Db) :
    (w.apply db).registry = db.registry.write w := by
  cases w with
  | unsetCurrent id =>
    simp only [Write.apply, Db.registry, Registry.write, updateWhere, List.map_map,
      Registry.mk.injEq, true_and]
    apply List.map_congr_left
    intro r _
    by_cases h : r.id = id <;> simp [h, VersionRow.link, Link.retire]
  | setClassification id c =>
    simp only [Write.apply, Db.registry, Registry.write, updateWhere, List.map_map,
      Registry.mk.injEq, true_and]
    apply List.map_congr_left
    intro r _
    by_cases h : r.id = id <;> simp [h, VersionRow.link]
  | _ => simp [Write.apply, Db.registry, Registry.write]

/-- The registry after a list of writes depends only on those it notices. -/
theorem registry_applyAll (cfg : Config) (ws : List Write) (db : Db) :
    ((program cfg).applyAll ws db).registry =
      (ws.filter Registry.notices).foldl (fun reg w => reg.write w) db.registry := by
  induction ws generalizing db with
  | nil => rfl
  | cons w ws ih =>
    have hw : ((program cfg).apply w db).registry = db.registry.write w := Db.registry_apply w db
    rw [Program.applyAll_cons, ih, hw]
    cases h : Registry.notices w with
    | true => rw [List.filter_cons_of_pos h, List.foldl_cons]
    | false => rw [List.filter_cons_of_neg (by simp [h]), Registry.write_of_not_notices h]

/-! ### Valid registries -/

/-- Every endpoint has a chain, every version has an endpoint, and identifiers below `fresh` are
used at most once. -/
structure Registry.Valid (reg : Registry) (fresh : Uuid) : Prop where
  endpointIds : (reg.endpoints.map (·.id)).Nodup
  endpointFresh : ∀ row ∈ reg.endpoints, row.id < fresh
  versionIds : (reg.entries.map (·.2.id)).Nodup
  versionFresh : ∀ x ∈ reg.entries, x.2.id < fresh
  owner : ∀ x ∈ reg.entries, ∃ row ∈ reg.endpoints, row.id = x.1
  chain : ∀ e, ∃ log, (log.map Prod.snd).Nodup ∧ reg.chain e = links log

namespace Registry

variable {reg : Registry} {fresh : Uuid}

theorem Valid.mono {fresh' : Uuid} (h : reg.Valid fresh) (hle : fresh ≤ fresh') :
    reg.Valid fresh' :=
  { h with
    endpointFresh := fun row hr => lt_of_lt_of_le (h.endpointFresh row hr) hle
    versionFresh := fun x hx => lt_of_lt_of_le (h.versionFresh x hx) hle }

/-- An endpoint has one key. -/
theorem Valid.endpoint_unique (h : reg.Valid fresh) {row row' : EndpointRow}
    (hr : row ∈ reg.endpoints) (hr' : row' ∈ reg.endpoints) (hid : row.id = row'.id) :
    row = row' :=
  List.inj_on_of_nodup_map h.endpointIds hr hr' hid

/-- A version belongs to one endpoint. -/
theorem Valid.entry_unique (h : reg.Valid fresh) {x y : Uuid × Link Uuid String}
    (hx : x ∈ reg.entries) (hy : y ∈ reg.entries) (hid : x.2.id = y.2.id) : x = y :=
  List.inj_on_of_nodup_map h.versionIds hx hy hid

/-- A version is stored once. -/
theorem Valid.version_unique {db : Db} (h : db.registry.Valid fresh) {r r' : VersionRow}
    (hr : r ∈ db.versions) (hr' : r' ∈ db.versions) (hid : r.id = r'.id) : r = r' := by
  have hnodup : (db.versions.map (·.id)).Nodup := by
    have hids := h.versionIds
    simpa [Db.registry, List.map_map, Function.comp_def, VersionRow.link] using hids
  exact List.inj_on_of_nodup_map hnodup hr hr' hid

theorem mem_chain {e : Uuid} {l : Link Uuid String} : l ∈ reg.chain e ↔ (e, l) ∈ reg.entries := by
  simp only [chain, List.mem_map, List.mem_filter, decide_eq_true_eq]
  constructor
  · rintro ⟨x, ⟨hx, rfl⟩, rfl⟩
    exact hx
  · intro h
    exact ⟨(e, l), ⟨h, rfl⟩, rfl⟩

/-- A new endpoint. -/
theorem Valid.insertEndpoint (h : reg.Valid fresh) {row : EndpointRow} (hlt : row.id < fresh)
    (hnew : ∀ r ∈ reg.endpoints, r.id ≠ row.id) : (reg.write (.insertEndpoint row)).Valid fresh :=
  { h with
    endpointIds := by
      simp only [write, List.map_append, List.map_cons, List.map_nil]
      rw [List.nodup_append]
      refine ⟨h.endpointIds, List.nodup_singleton _, ?_⟩
      intro a ha b hb
      obtain ⟨r, hr, rfl⟩ := List.mem_map.mp ha
      rw [List.mem_singleton.mp hb]
      exact hnew r hr
    endpointFresh := by
      intro r hr
      rcases List.mem_append.mp hr with hr | hr
      · exact h.endpointFresh r hr
      · rw [List.mem_singleton.mp hr]
        exact hlt
    owner := by
      intro x hx
      obtain ⟨r, hr, hid⟩ := h.owner x hx
      exact ⟨r, List.mem_append_left _ hr, hid⟩ }

/-! ### Registering a version -/

/-- What the transaction that holds the lock knows of an endpoint: the log, the current row
`current` that stands at its end, and that the fingerprint is new. -/
structure Ahead (reg : Registry) (e : Uuid) (current : Option VersionRow) (log : List (Uuid × String)) :
    Prop where
  chain : reg.chain e = links log
  last : lastId log = current.map (·.id)
  length : log.length = (current.map (·.version)).getD 0

/-- The write that takes the flag from the current row, if there is one. -/
def retirement (current : Option VersionRow) : List Write :=
  (current.map fun c => Write.unsetCurrent c.id).toList

/-- The writes that follow `current` by `row`. -/
def registration (current : Option VersionRow) (row : VersionRow) : List Write :=
  retirement current ++ [.insertVersion row]

/-- The current row of an endpoint is the end of its log. -/
theorem Valid.ahead {db : Db} (h : db.registry.Valid fresh) (e : Uuid) :
    ∃ log, (log.map Prod.snd).Nodup ∧ db.registry.Ahead e (db.currentSchema e) log := by
  obtain ⟨log, hnodup, hlog⟩ := h.chain e
  refine ⟨log, hnodup, ?_⟩
  have hentry : ∀ r ∈ db.versions, r.endpointId = e → r.link ∈ links log := by
    intro r hr he
    rw [← hlog, mem_chain]
    exact List.mem_map.mpr ⟨r, hr, by rw [he]⟩
  cases hc : db.currentSchema e with
  | none =>
    have hnone : log = [] := by
      apply links_no_current
      intro l hl
      rw [← hlog, mem_chain] at hl
      obtain ⟨r, hr, heq⟩ := List.mem_map.mp hl
      obtain ⟨he, rfl⟩ := Prod.mk.inj heq
      exact Db.currentSchema_none hc r hr he
    subst hnone
    exact ⟨hlog, rfl, rfl⟩
  | some c =>
    obtain ⟨hm, he, hcur⟩ := Db.currentSchema_some hc
    obtain ⟨hlast, hversion⟩ := links_current (hentry c hm he) hcur
    exact ⟨hlog, hlast, hversion.symm⟩

/-- The fingerprint under which no version is found is not in the log. -/
theorem Ahead.fingerprint_new {db : Db} {e : Uuid} {current : Option VersionRow}
    {log : List (Uuid × String)} (h : db.registry.Ahead e current log) {fp : String}
    (hnone : db.versionOf e fp = none) : fp ∉ log.map Prod.snd := by
  intro hm
  have hmarks : (links log).map Link.mark = log.map Prod.snd := linksFrom_marks _ _ _
  rw [← hmarks, ← h.chain] at hm
  obtain ⟨l, hl, hfp⟩ := List.mem_map.mp hm
  obtain ⟨r, hr, heq⟩ := List.mem_map.mp (mem_chain.mp hl)
  obtain ⟨he, rfl⟩ := Prod.mk.inj heq
  have hno := List.find?_eq_none.mp hnone r hr
  simp only [Bool.and_eq_true, decide_eq_true_eq, not_and] at hno
  exact hno he hfp

/-- The registry after a registration. -/
theorem foldl_registration (current : Option VersionRow) (row : VersionRow) :
    (registration current row).foldl (fun reg w => reg.write w) reg =
      { reg with
        entries := (reg.entries.map fun x =>
          if some x.2.id = current.map (·.id) then (x.1, x.2.retire) else x) ++
            [(row.endpointId, row.link)] } := by
  cases current with
  | none => simp [registration, retirement, write]
  | some c => simp [registration, retirement, write]

/-- The chains after a registration. -/
theorem chain_registration (current : Option VersionRow) (row : VersionRow) (e : Uuid) :
    ((registration current row).foldl (fun reg w => reg.write w) reg).chain e =
      ((reg.chain e).map fun l => if some l.id = current.map (·.id) then l.retire else l) ++
        if row.endpointId = e then [row.link] else [] := by
  rw [foldl_registration]
  simp only [chain, List.filter_append, List.map_append, List.filter_map, List.map_map]
  congr 1
  · have hfilter : (reg.entries.filter ((fun x : Uuid × Link Uuid String => decide (x.1 = e)) ∘
        fun x => if some x.2.id = current.map (·.id) then (x.1, x.2.retire) else x)) =
        reg.entries.filter fun x => x.1 = e := by
      apply List.filter_congr
      intro x _
      simp only [Function.comp_apply]
      split <;> rfl
    rw [hfilter]
    apply List.map_congr_left
    intro x _
    simp only [Function.comp_apply]
    split <;> rfl
  · by_cases he : row.endpointId = e <;> simp [he]

/-- The last identifier of a log is that of a link of its chain. -/
theorem Ahead.current_mem {e : Uuid} {current : Option VersionRow} {log : List (Uuid × String)}
    (h : reg.Ahead e current log) {id : Uuid} (hid : current.map (·.id) = some id) :
    ∃ l, (e, l) ∈ reg.entries ∧ l.id = id := by
  have hids : (links log).map Link.id = log.map Prod.fst := linksFrom_ids _ _ _
  have hm : id ∈ log.map Prod.fst := by
    have hlast := h.last
    rw [hid, lastId, Option.map_eq_some_iff] at hlast
    obtain ⟨x, hx, rfl⟩ := hlast
    exact List.mem_map_of_mem (List.mem_of_getLast? hx)
  rw [← hids, ← h.chain] at hm
  obtain ⟨l, hl, hlid⟩ := List.mem_map.mp hm
  exact ⟨l, mem_chain.mp hl, hlid⟩

/-- **Registration.** Following the current row of an endpoint by a row of the next version, with a
new identifier and a new fingerprint, appends to the log of that endpoint and leaves the chains of
all others alone. -/
theorem Valid.register (h : reg.Valid fresh) {e : Uuid} {current : Option VersionRow}
    {log : List (Uuid × String)} (ha : reg.Ahead e current log) {row : VersionRow}
    (hrow : row.link = ⟨row.id, log.length + 1, row.fingerprint, lastId log, true⟩)
    (he : row.endpointId = e) (howner : ∃ r ∈ reg.endpoints, r.id = e)
    (hnodup : (log.map Prod.snd).Nodup) (hfp : row.fingerprint ∉ log.map Prod.snd) (hlt : row.id < fresh)
    (hnew : ∀ x ∈ reg.entries, x.2.id ≠ row.id) :
    let reg' := (registration current row).foldl (fun reg w => reg.write w) reg
    reg'.Valid fresh ∧ reg'.chain e = links (log ++ [(row.id, row.fingerprint)]) ∧
      ∀ e', e' ≠ e → reg'.chain e' = reg.chain e' := by
  intro reg'
  have hreg' : reg' = _ := foldl_registration current row
  have hids : reg'.entries.map (·.2.id) = reg.entries.map (·.2.id) ++ [row.id] := by
    rw [hreg']
    simp only [List.map_append, List.map_map, List.map_cons, List.map_nil]
    congr 1
    apply List.map_congr_left
    intro x _
    simp only [Function.comp_apply]
    split <;> rfl
  have hchain : reg'.chain e = links (log ++ [(row.id, row.fingerprint)]) := by
    have hc : reg'.chain e = _ := chain_registration current row e
    rw [hc, if_pos he, hrow, links_concat, ha.chain]
    congr 1
    cases hcur : current.map (·.id) with
    | none =>
      have hlog : log = [] := by
        have hlast := ha.last
        rw [hcur, lastId, Option.map_eq_none_iff, List.getLast?_eq_none_iff] at hlast
        exact hlast
      simp [hlog, links, linksFrom]
    | some id =>
      rw [← links_retire (ha.last.trans hcur)]
      simp only [Option.some.injEq]
  have hother : ∀ e', e' ≠ e → reg'.chain e' = reg.chain e' := by
    intro e' hne
    have hc : reg'.chain e' = _ := chain_registration current row e'
    rw [hc, he, if_neg (Ne.symm hne), List.append_nil]
    refine (List.map_congr_left ?_).trans (List.map_id _)
    intro l hl
    have hnot : some l.id ≠ current.map (·.id) := by
      intro hid
      obtain ⟨l', hl', heq⟩ := ha.current_mem hid.symm
      exact hne (congrArg Prod.fst (h.entry_unique (mem_chain.mp hl) hl' heq.symm))
    rw [if_neg hnot, id]
  refine ⟨?_, hchain, hother⟩
  exact {
    endpointIds := by
      rw [hreg']
      exact h.endpointIds
    endpointFresh := by
      rw [hreg']
      exact h.endpointFresh
    versionIds := by
      rw [hids, List.nodup_append]
      refine ⟨h.versionIds, List.nodup_singleton _, ?_⟩
      intro a ha b hb
      obtain ⟨x, hx, rfl⟩ := List.mem_map.mp ha
      rw [List.mem_singleton.mp hb]
      exact hnew x hx
    versionFresh := by
      intro x hx
      have hid : x.2.id ∈ reg'.entries.map (·.2.id) := List.mem_map_of_mem hx
      rw [hids, List.mem_append] at hid
      rcases hid with hid | hid
      · obtain ⟨y, hy, hyx⟩ := List.mem_map.mp hid
        exact hyx ▸ h.versionFresh y hy
      · rw [List.mem_singleton.mp hid]
        exact hlt
    owner := by
      intro x hx
      rw [hreg'] at hx ⊢
      rcases List.mem_append.mp hx with hx | hx
      · obtain ⟨y, hy, rfl⟩ := List.mem_map.mp hx
        obtain ⟨r, hr, hid⟩ := h.owner y hy
        refine ⟨r, hr, hid.trans ?_⟩
        split <;> rfl
      · rw [List.mem_singleton.mp hx]
        obtain ⟨r, hr, hid⟩ := howner
        exact ⟨r, hr, hid.trans he.symm⟩
    chain := by
      intro e'
      by_cases hee : e' = e
      · subst hee
        refine ⟨_, ?_, hchain⟩
        rw [List.map_append, List.nodup_append]
        refine ⟨hnodup, List.nodup_singleton _, ?_⟩
        intro a ha b hb
        rw [List.mem_singleton.mp hb]
        intro heq
        rw [heq] at ha
        exact hfp ha
      · rw [hother e' hee]
        exact h.chain e' }

end Registry

end Driftgate.Runtime
