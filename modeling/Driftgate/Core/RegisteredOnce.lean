import Driftgate.Core.Registration
import Driftgate.Runtime.System

/-!
# Exactly one call registers

Between its lock and the end of its transaction a call relies on what it has read: that there is no
endpoint with its key, that the endpoint has no snapshot with its fingerprint (`Knows`). Only the
commit of another call could make this wrong. But that call holds the lock of its own route until
then, so the routes differ, and with them the keys and the endpoints.
-/

namespace Driftgate.Core

open Driftgate.ReadCommitted Driftgate.Transition Driftgate.Runtime

/-! ### What a call knows -/

/-- The endpoint of a call is in the table, or the open transaction has inserted it, without further
writes. -/
inductive Opened (db : EngineDb) (key : LegacyKey) (e : Uuid) : List EngineWrite → Prop
  | found (h : ⟨e, key⟩ ∈ db.apiEndpoints) : Opened db key e []
  | made (h : ∀ row ∈ db.apiEndpoints, row.key ≠ key) :
    Opened db key e [.insertEndpoint ⟨e, key⟩]

/-- What holds at a point of a call. `ws` are the writes of its open transaction. -/
def RegistrationPc.Knows (db : EngineDb) (call : Registration) (ws : List EngineWrite) :
    RegistrationPc → Prop
  | .lock => ws = []
  | .selectEndpoint => ws = []
  | .insertEndpoint => ws = [] ∧ ∀ row ∈ db.apiEndpoints, row.key ≠ call.key
  | .selectSnapshot e => Opened db call.key e ws
  | .insertSnapshot e => Opened db call.key e ws ∧ db.hasSnapshot e call.fingerprint = false
  | .commit e false => Opened db call.key e ws ∧ db.hasSnapshot e call.fingerprint = true
  | .commit e true => ∃ ws' row, ws = ws' ++ [.insertSnapshot row] ∧ Opened db call.key e ws' ∧
      row.key = (e, call.fingerprint) ∧ db.hasSnapshot e call.fingerprint = false

/-- The lock of a call. -/
def Registration.lock (cfg : Config) (call : Registration) : EngineLock :=
  .advisory (cfg.routeLockId call.key.routePath)

/-- What holds of a call wherever it is. -/
def RegistrationProc.Knows (cfg : Config) (db : EngineDb) (held : Set EngineLock)
    (ws : List EngineWrite) (p : RegistrationProc) : Prop :=
  match p.place with
  | .running pc => (pc = .lock ∨ p.call.lock cfg ∈ held) ∧ pc.Knows db p.call ws
  | .closing e => e ≠ .uniqueViolation
  | .returned e _ =>
    ⟨e, p.call.key⟩ ∈ db.apiEndpoints ∧ db.hasSnapshot e p.call.fingerprint = true
  | .failed e => e ≠ .uniqueViolation
  | .stopped => True

section Tables

variable {db : EngineDb} {key : LegacyKey} {e : Uuid} {fp : String} {ws : List EngineWrite}
  {cfg : Config}

theorem EngineDb.hasSnapshot_iff_key :
    db.hasSnapshot e fp = true ↔ (e, fp) ∈ db.snapshots.map SnapshotRow.key := by
  simp [EngineDb.hasSnapshot, SnapshotRow.key]

theorem Opened.snapshots (h : Opened db key e ws) :
    ((registrations cfg).applyAll ws db).snapshots = db.snapshots := by
  cases h <;> rfl

theorem Opened.hasSnapshot (h : Opened db key e ws) (e' : Uuid) (fp : String) :
    ((registrations cfg).applyAll ws db).hasSnapshot e' fp = db.hasSnapshot e' fp := by
  rw [EngineDb.hasSnapshot, h.snapshots, EngineDb.hasSnapshot]

theorem Opened.mem (h : Opened db key e ws) :
    ⟨e, key⟩ ∈ ((registrations cfg).applyAll ws db).apiEndpoints := by
  cases h with
  | found h => exact h
  | made h => exact List.mem_append_right _ (List.mem_singleton_self _)

theorem Opened.endpoints (h : Opened db key e ws) :
    ((registrations cfg).applyAll ws db).apiEndpoints = db.apiEndpoints ∨
      ((registrations cfg).applyAll ws db).apiEndpoints = db.apiEndpoints ++ [⟨e, key⟩] ∧
        ∀ row ∈ db.apiEndpoints, row.key ≠ key := by
  cases h with
  | found h => exact .inl rfl
  | made h => exact .inr ⟨rfl, h⟩

/-- What the commit of a call does to the tables. -/
structure Committed (db : EngineDb) (call : Registration) (e : Uuid) (inserted : Bool)
    (db' : EngineDb) : Prop where
  endpoints : db'.apiEndpoints = db.apiEndpoints ∨
    db'.apiEndpoints = db.apiEndpoints ++ [⟨e, call.key⟩] ∧
      ∀ row ∈ db.apiEndpoints, row.key ≠ call.key
  endpoint : ⟨e, call.key⟩ ∈ db'.apiEndpoints
  snapshots : ∀ e' fp, db'.hasSnapshot e' fp = true ↔
    db.hasSnapshot e' fp = true ∨ e' = e ∧ fp = call.fingerprint
  inserted : inserted = !db.hasSnapshot e call.fingerprint
  unique : (db.snapshots.map SnapshotRow.key).Nodup → (db'.snapshots.map SnapshotRow.key).Nodup

theorem RegistrationPc.Knows.committed {call : Registration} {inserted : Bool}
    (h : (RegistrationPc.commit e inserted).Knows db call ws) :
    Committed db call e inserted ((registrations cfg).applyAll ws db) := by
  cases inserted with
  | false =>
    obtain ⟨hopen, hhas⟩ := h
    refine ⟨hopen.endpoints, hopen.mem, fun e' fp => ?_, by rw [hhas]; rfl, fun hn => ?_⟩
    · rw [hopen.hasSnapshot]
      refine ⟨.inl, fun hor => hor.elim id ?_⟩
      rintro ⟨rfl, rfl⟩
      exact hhas
    · rw [hopen.snapshots]
      exact hn
  | true =>
    obtain ⟨ws', row, rfl, hopen, hrow, hnew⟩ := h
    have hsnapshots : ((registrations cfg).applyAll (ws' ++ [.insertSnapshot row]) db).snapshots =
        db.snapshots ++ [row] := by
      have hopened : ((registrations cfg).applyAll ws' db).snapshots = db.snapshots :=
        hopen.snapshots
      rw [Program.applyAll_append, ← hopened]
      rfl
    have hendpoints :
        ((registrations cfg).applyAll (ws' ++ [.insertSnapshot row]) db).apiEndpoints =
          ((registrations cfg).applyAll ws' db).apiEndpoints := by
      rw [Program.applyAll_append]
      rfl
    refine ⟨hendpoints ▸ hopen.endpoints, hendpoints ▸ hopen.mem, fun e' fp => ?_,
      by rw [hnew]; rfl, fun hn => ?_⟩
    · rw [EngineDb.hasSnapshot_iff_key, EngineDb.hasSnapshot_iff_key, hsnapshots, List.map_append,
        List.mem_append, List.map_singleton, List.mem_singleton, hrow, Prod.mk.injEq]
    · rw [hsnapshots, List.map_append, List.map_singleton, hrow]
      refine List.nodup_append.mpr ⟨hn, List.nodup_singleton _, ?_⟩
      rintro k hk k' hk' rfl
      rw [List.mem_singleton.mp hk', ← EngineDb.hasSnapshot_iff_key, hnew] at hk
      cases hk

end Tables

/-! ### A step of the call itself -/

section Own

variable {cfg : Config} {p : RegistrationProc} {v : EngineView} {db : EngineDb}
  {held : Set EngineLock} {ws : List EngineWrite} {pc : RegistrationPc}

theorem EngineDb.endpoint?_eq_none {key : LegacyKey} :
    db.endpoint? key = none ↔ ∀ row ∈ db.apiEndpoints, row.key ≠ key := by
  simp [EngineDb.endpoint?]

/-- A step of the code keeps what the call knows. -/
theorem Registration.Move.knows {op : RegistrationOp} (hmove : p.call.Move cfg v pc op)
    (hview : v.db = (registrations cfg).applyAll ws db)
    (hlock : pc = .lock ∨ p.call.lock cfg ∈ held) (h : pc.Knows db p.call ws) :
    (p.after op.next).Knows cfg (op.dbAfter (registrations cfg).apply ws db) (op.heldAfter held)
      (op.pendingAfter ws) := by
  cases hmove with
  | raises pc reason => exact Exc.noConfusion
  | locks => exact ⟨.inr (.inr (List.mem_singleton_self _)), (List.append_nil ws).trans h⟩
  | @endpointFound row hrow =>
    obtain rfl : ws = [] := h
    rw [hview] at hrow
    have hkey : row.key = p.call.key := by simpa using List.find?_some hrow
    refine ⟨.inr (.inl (hlock.resolve_left RegistrationPc.noConfusion)), .found ?_⟩
    show ⟨row.id, p.call.key⟩ ∈ db.apiEndpoints
    rw [← hkey]
    exact List.mem_of_find?_eq_some hrow
  | endpointMissing hnone =>
    obtain rfl : ws = [] := h
    rw [hview] at hnone
    exact ⟨.inr (.inl (hlock.resolve_left RegistrationPc.noConfusion)), rfl,
      EngineDb.endpoint?_eq_none.mp hnone⟩
  | endpointTaken hsome =>
    obtain ⟨rfl, hnone⟩ := h
    rw [hview] at hsome
    have hfree : db.endpoint? p.call.key = none := EngineDb.endpoint?_eq_none.mpr hnone
    rw [Program.applyAll_nil, hfree] at hsome
    cases hsome
  | endpointInserted =>
    obtain ⟨rfl, hnone⟩ := h
    exact ⟨.inr (.inl (hlock.resolve_left RegistrationPc.noConfusion)), .made hnone⟩
  | @snapshotFound e hfound =>
    have hopen : Opened db p.call.key e ws := h
    rw [hview, hopen.hasSnapshot] at hfound
    refine ⟨.inr (.inl (hlock.resolve_left RegistrationPc.noConfusion)), ?_⟩
    rw [show (Op.exec [] [] _ : RegistrationOp).pendingAfter ws = ws from List.append_nil ws]
    exact ⟨hopen, hfound⟩
  | @snapshotMissing e hmissing =>
    have hopen : Opened db p.call.key e ws := h
    rw [hview, hopen.hasSnapshot] at hmissing
    refine ⟨.inr (.inl (hlock.resolve_left RegistrationPc.noConfusion)), ?_⟩
    rw [show (Op.exec [] [] _ : RegistrationOp).pendingAfter ws = ws from List.append_nil ws]
    exact ⟨hopen, hmissing⟩
  | @snapshotTaken e hfound =>
    obtain ⟨hopen, hmissing⟩ := h
    rw [hview, hopen.hasSnapshot, hmissing] at hfound
    cases hfound
  | @snapshotInserted e now =>
    obtain ⟨hopen, hmissing⟩ := h
    exact ⟨.inr (.inl (hlock.resolve_left RegistrationPc.noConfusion)), ws, _, rfl, hopen, rfl,
      hmissing⟩
  | commits e inserted =>
    have hc : Committed db p.call e inserted ((registrations cfg).applyAll ws db) := h.committed
    exact ⟨hc.endpoint, (hc.snapshots e p.call.fingerprint).mpr (.inr ⟨rfl, rfl⟩)⟩

theorem RegistrationProc.Move.knows {op : Op EngineWrite EngineLock Empty RegistrationProc}
    (hmove : p.Move cfg v op) (hview : v.db = (registrations cfg).applyAll ws db)
    (h : p.Knows cfg db held ws) :
    op.next.Knows cfg (op.dbAfter (registrations cfg).apply ws db) (op.heldAfter held)
      (op.pendingAfter ws) := by
  cases hmove with
  | code hplace hcode =>
    rw [Knows, hplace] at h
    simp only [Op.next_map, Op.dbAfter_map, Op.heldAfter_map, Op.pendingAfter_map]
    exact hcode.knows hview h.1 h.2
  | stops hopen => trivial
  | fails hplace =>
    rw [Knows, hplace] at h
    exact h

end Own

/-! ### A commit of another call -/

section Other

variable {cfg : Config} {p q : RegistrationProc} {db db' : EngineDb} {held : Set EngineLock}
  {ws : List EngineWrite} {e : Uuid} {inserted : Bool}

theorem Committed.mem (h : Committed db p.call e inserted db') {row : ApiEndpointRow}
    (hrow : row ∈ db.apiEndpoints) : row ∈ db'.apiEndpoints := by
  obtain hsame | ⟨hnew, -⟩ := h.endpoints
  · exact hsame ▸ hrow
  · exact hnew ▸ List.mem_append_left _ hrow

/-- Calls with different keys leave each other's endpoint alone. -/
theorem Committed.opened (h : Committed db p.call e inserted db') {key : LegacyKey} {e' : Uuid}
    (hkey : p.call.key ≠ key) (hopen : Opened db key e' ws) : Opened db' key e' ws := by
  cases hopen with
  | found hfound => exact .found (h.mem hfound)
  | made hnone =>
    refine .made fun row hrow => ?_
    obtain hsame | ⟨hnew, -⟩ := h.endpoints
    · exact hnone row (hsame ▸ hrow)
    · rw [hnew, List.mem_append, List.mem_singleton] at hrow
      obtain hrow | rfl := hrow
      · exact hnone row hrow
      · exact hkey

/-- The snapshots of another endpoint stay as they are. -/
theorem Committed.missing (h : Committed db p.call e inserted db') {e' : Uuid} {fp : String}
    (he : e' ≠ e) (hmissing : db.hasSnapshot e' fp = false) : db'.hasSnapshot e' fp = false := by
  by_contra hfound
  obtain hold | hnew := (h.snapshots e' fp).mp (Bool.eq_true_of_not_eq_false hfound)
  · rw [hmissing] at hold
    cases hold
  · exact he hnew.1

/-- What a call knows survives the commit of a call with another lock. -/
theorem RegistrationPc.Knows.other {pc : RegistrationPc} {call : Registration}
    (h : pc.Knows db call ws) (hc : Committed db p.call e inserted db')
    (hkey : pc = .lock ∨ p.call.key ≠ call.key)
    (hname : ⟨e, call.key⟩ ∈ ((registrations cfg).applyAll ws db).apiEndpoints →
      p.call.key = call.key) : pc.Knows db' call ws := by
  have hne : pc ≠ .lock → p.call.key ≠ call.key := fun hpc => hkey.resolve_left hpc
  have hother : ∀ {e' ws'}, p.call.key ≠ call.key → Opened db call.key e' ws' →
      ((registrations cfg).applyAll ws' db).apiEndpoints =
        ((registrations cfg).applyAll ws db).apiEndpoints → e' ≠ e := by
    rintro e' ws' hk hopen hsame rfl
    exact hk (hname (hsame ▸ hopen.mem))
  cases pc with
  | lock => exact h
  | selectEndpoint => exact h
  | insertEndpoint =>
    have hk := hne RegistrationPc.noConfusion
    refine ⟨h.1, fun row hrow => ?_⟩
    obtain hsame | ⟨hnew, -⟩ := hc.endpoints
    · exact h.2 row (hsame ▸ hrow)
    · rw [hnew, List.mem_append, List.mem_singleton] at hrow
      obtain hrow | rfl := hrow
      · exact h.2 row hrow
      · exact hk
  | selectSnapshot e' => exact hc.opened (hne RegistrationPc.noConfusion) h
  | insertSnapshot e' =>
    have hk := hne RegistrationPc.noConfusion
    exact ⟨hc.opened hk h.1, hc.missing (hother hk h.1 rfl) h.2⟩
  | commit e' inserted' =>
    have hk := hne RegistrationPc.noConfusion
    cases inserted' with
    | false => exact ⟨hc.opened hk h.1, (hc.snapshots _ _).mpr (.inl h.2)⟩
    | true =>
      obtain ⟨ws', row, rfl, hopen, hrow, hmissing⟩ := h
      refine ⟨ws', row, rfl, hc.opened hk hopen, hrow, hc.missing (hother hk hopen ?_) hmissing⟩
      rw [Program.applyAll_append]
      rfl

theorem RegistrationProc.Knows.other (h : q.Knows cfg db held ws)
    (hc : Committed db p.call e inserted db') (hlock : p.call.lock cfg ∉ held)
    (hname : ⟨e, q.call.key⟩ ∈ ((registrations cfg).applyAll ws db).apiEndpoints →
      p.call.key = q.call.key) : q.Knows cfg db' held ws := by
  rw [Knows] at h ⊢
  split at h
  · refine ⟨h.1, h.2.other hc (h.1.imp_right fun hheld hkey => ?_) hname⟩
    rw [Registration.lock, hkey] at hlock
    exact hlock hheld
  · exact h
  · exact ⟨hc.mem h.1, (hc.snapshots _ _).mpr (.inl h.2)⟩
  · exact h
  · trivial

end Other

/-! ### Rows and their identifiers -/

section Names

variable {ι : Type*} [DecidableEq ι] {cfg : Config} {s t : Registrations ι} {i : ι}

/-- The rows of `api_endpoints`, with those of open transactions. -/
def HasRow (s : Registrations ι) (row : ApiEndpointRow) : Prop :=
  row ∈ s.db.apiEndpoints ∨ ∃ i, .insertEndpoint row ∈ s.pending i

/-- Each row has an identifier of its own. -/
structure Named (s : Registrations ι) : Prop where
  unique : ∀ row row', HasRow s row → HasRow s row' → row.id = row'.id → row = row'
  fresh : ∀ row, HasRow s row → row.id < s.fresh

theorem mem_apiEndpoints_applyAll {ws : List EngineWrite} {db : EngineDb} {row : ApiEndpointRow} :
    row ∈ ((registrations cfg).applyAll ws db).apiEndpoints ↔
      row ∈ db.apiEndpoints ∨ .insertEndpoint row ∈ ws := by
  have hwrite : ∀ (w : EngineWrite) (d : EngineDb),
      row ∈ ((registrations cfg).apply w d).apiEndpoints ↔
        row ∈ d.apiEndpoints ∨ w = .insertEndpoint row := by
    intro w d
    cases w <;> simp [registrations, EngineWrite.apply, eq_comm]
  have hall := (registrations cfg).applyAll_gain (fun d => row ∈ d.apiEndpoints) hwrite ws db
  simpa using hall

omit [DecidableEq ι] in
/-- What a call sees. -/
theorem hasRow_of_view {row : ApiEndpointRow}
    (h : row ∈ ((registrations cfg).applyAll (s.pending i) s.db).apiEndpoints) : HasRow s row := by
  obtain h | h := mem_apiEndpoints_applyAll.mp h
  · exact .inl h
  · exact .inr ⟨i, h⟩

/-- The only row a step brings has a new identifier. -/
theorem HasRow.step {op : Op EngineWrite EngineLock Empty RegistrationProc}
    (hmove : (s.loc i).Move cfg (s.view (registrations cfg) i) op)
    (hst : Stepped (registrations cfg) s i op t) {row : ApiEndpointRow} (h : HasRow t row) :
    HasRow s row ∨ row = ⟨s.fresh, (s.loc i).call.key⟩ := by
  have hwrites : .insertEndpoint row ∈ op.writes → row = ⟨s.fresh, (s.loc i).call.key⟩ := by
    intro hw
    cases hmove with
    | code hplace hcode =>
      rw [Op.writes_map] at hw
      cases hcode with
      | endpointInserted => exact EngineWrite.insertEndpoint.inj (List.mem_singleton.mp hw)
      | snapshotInserted now => cases List.mem_singleton.mp hw
      | _ => cases hw
    | _ => cases hw
  obtain hstored | ⟨j, hj⟩ := h
  · rw [hst.db] at hstored
    cases op with
    | commit l => exact .inl (hasRow_of_view hstored)
    | _ => exact .inl (.inl hstored)
  · by_cases hji : j = i
    · subst hji
      rw [hst.pending] at hj
      cases op with
      | exec ks ws l =>
        obtain hj | hj := List.mem_append.mp hj
        · exact .inl (.inr ⟨j, hj⟩)
        · exact .inr (hwrites hj)
      | emit effect l => exact .inl (.inr ⟨j, hj⟩)
      | commit l => cases hj
      | rollback l => cases hj
    · rw [hst.pending_other hji] at hj
      exact .inl (.inr ⟨j, hj⟩)

theorem Named.step {op : Op EngineWrite EngineLock Empty RegistrationProc} (h : Named s)
    (hmove : (s.loc i).Move cfg (s.view (registrations cfg) i) op)
    (hst : Stepped (registrations cfg) s i op t) : Named t := by
  have hfresh : t.fresh = s.fresh + 1 := by
    rw [show t.fresh = t.toShared.fresh from rfl, hst.shared]
    cases op <;> rfl
  have hnew : ∀ row, HasRow s row → row.id ≠ s.fresh := fun row hrow => (h.fresh row hrow).ne
  constructor
  · intro row row' hrow hrow' hid
    obtain hold | rfl := hrow.step hmove hst <;> obtain hold' | rfl := hrow'.step hmove hst
    · exact h.unique row row' hold hold' hid
    · exact absurd hid (hnew row hold)
    · exact absurd hid.symm (hnew row' hold')
    · rfl
  · intro row hrow
    rw [hfresh]
    obtain hold | rfl := hrow.step hmove hst
    · exact Nat.lt_succ_of_lt (h.fresh row hold)
    · exact Nat.lt_succ_self _

end Names

/-! ### All calls -/

section Runs

variable {ι : Type*} [DecidableEq ι] {cfg : Config} {db : EngineDb} {fresh : Uuid}
  {s t : Registrations ι} {i : ι}

/-- The call has stored a snapshot. -/
def Stored (s : Registrations ι) (i : ι) (e : Uuid) (fp : String) : Prop :=
  (s.loc i).place = .returned e true ∧ (s.loc i).call.fingerprint = fp

/-- What holds along every run that begins with the tables `db`. -/
structure Registered (cfg : Config) (db : EngineDb) (s : Registrations ι) : Prop where
  named : Named s
  key : (s.db.apiEndpoints.map (·.key)).Nodup
  snapshot : (s.db.snapshots.map SnapshotRow.key).Nodup
  knows : ∀ i, (s.loc i).Knows cfg s.db (s.own i).held (s.pending i)
  /-- Each snapshot was there at the beginning or was stored by a call. -/
  stored : ∀ e fp, s.db.hasSnapshot e fp = true ↔
    db.hasSnapshot e fp = true ∨ ∃ i, Stored s i e fp
  once : ∀ i j e fp, Stored s i e fp → Stored s j e fp → i = j
  new : ∀ i e fp, Stored s i e fp → db.hasSnapshot e fp = false

section Step

variable {op : Op EngineWrite EngineLock Empty RegistrationProc}

theorem knows_self (hmove : (s.loc i).Move cfg (s.view (registrations cfg) i) op)
    (hst : Stepped (registrations cfg) s i op t)
    (h : (s.loc i).Knows cfg s.db (s.own i).held (s.pending i)) :
    (t.loc i).Knows cfg t.db (t.own i).held (t.pending i) := by
  rw [hst.loc, hst.held, hst.pending, hst.db]
  exact hmove.knows rfl h

omit [DecidableEq ι] in
theorem stored_other (hst : Stepped (registrations cfg) s i op t) {j : ι} (hj : j ≠ i)
    (e : Uuid) (fp : String) : Stored t j e fp ↔ Stored s j e fp := by
  rw [Stored, Stored, hst.loc_other hj]

/-- **A step that is not a commit.** The tables stay, and no call returns. -/
theorem Registered.quiet (h : Registered cfg db s)
    (hmove : (s.loc i).Move cfg (s.view (registrations cfg) i) op)
    (hst : Stepped (registrations cfg) s i op t) (hop : ∀ l, op ≠ .commit l)
    (hbefore : ∀ e inserted, (s.loc i).place ≠ .returned e inserted)
    (hafter : ∀ e inserted, op.next.place ≠ .returned e inserted) : Registered cfg db t := by
  have hdb : t.db = s.db := by
    rw [hst.db]
    cases op with
    | commit l => exact absurd rfl (hop l)
    | _ => rfl
  have hstored : ∀ j e fp, Stored t j e fp ↔ Stored s j e fp := by
    intro j e fp
    by_cases hj : j = i
    · subst hj
      exact iff_of_false (fun ht => hafter e true (hst.loc ▸ ht.1)) fun hs => hbefore e true hs.1
    · exact stored_other hst hj e fp
  constructor
  · exact h.named.step hmove hst
  · exact hdb ▸ h.key
  · exact hdb ▸ h.snapshot
  · intro j
    by_cases hj : j = i
    · subst hj
      exact knows_self hmove hst (h.knows j)
    · rw [hst.loc_other hj, hdb, hst.other j hj, hst.pending_other hj]
      exact h.knows j
  · intro e fp
    rw [hdb, h.stored e fp]
    simp only [hstored]
  · intro j k e fp hj hk
    exact h.once j k e fp ((hstored j e fp).mp hj) ((hstored k e fp).mp hk)
  · exact fun j e fp hj => h.new j e fp ((hstored j e fp).mp hj)

/-! A commit: the call has the lock of its route, and has stored the snapshot exactly if it was
missing. -/

section Commit

variable {e : Uuid} {inserted : Bool}

omit [DecidableEq ι] in
theorem Registered.committed (h : Registered cfg db s) (hst : Stepped (registrations cfg) s i op t)
    (hplace : (s.loc i).place = .running (.commit e inserted))
    (hop : op = .commit { s.loc i with place := .returned e inserted }) :
    (s.loc i).call.lock cfg ∈ (s.own i).held ∧ Committed s.db (s.loc i).call e inserted t.db := by
  have hknows := h.knows i
  rw [RegistrationProc.Knows, hplace] at hknows
  refine ⟨hknows.1.resolve_left RegistrationPc.noConfusion, ?_⟩
  rw [hst.db, hop]
  have hcommitted : Committed s.db (s.loc i).call e inserted
      ((registrations cfg).applyAll (s.pending i) s.db) := hknows.2.committed
  exact hcommitted

/-- What the calls have stored after a commit. -/
theorem stored_commit (hst : Stepped (registrations cfg) s i op t)
    (hplace : (s.loc i).place = .running (.commit e inserted))
    (hop : op = .commit { s.loc i with place := .returned e inserted }) (j : ι) (e' : Uuid)
    (fp : String) : Stored t j e' fp ↔ Stored s j e' fp ∨
      (j = i ∧ inserted = true) ∧ e' = e ∧ fp = (s.loc i).call.fingerprint := by
  by_cases hj : j = i
  · subst hj
    have hloc : t.loc j = { s.loc j with place := .returned e inserted } := by
      rw [hst.loc, hop]
      rfl
    have hnot : ¬Stored s j e' fp := fun hs => by
      have hreturned := hs.1
      rw [hplace] at hreturned
      cases hreturned
    rw [Stored, hloc]
    simp only [RegistrationPlace.returned.injEq, hnot, false_or, true_and]
    tauto
  · rw [stored_other hst hj]
    exact ⟨.inl, fun hor => hor.resolve_right fun hnew => hj hnew.1.1⟩

/-- A call that inserts a snapshot has found none. -/
theorem Committed.missing_of_inserted {db' : EngineDb} {call : Registration}
    (hc : Committed db call e true db') : db.hasSnapshot e call.fingerprint = false := by
  simpa using hc.inserted.symm

theorem Committed.found_of_not_inserted {db' : EngineDb} {call : Registration}
    (hc : Committed db call e false db') : db.hasSnapshot e call.fingerprint = true := by
  simpa using hc.inserted.symm

theorem Committed.keys_nodup {db' : EngineDb} {call : Registration}
    (hc : Committed db call e inserted db') (h : (db.apiEndpoints.map (·.key)).Nodup) :
    (db'.apiEndpoints.map (·.key)).Nodup := by
  obtain hsame | ⟨hnew, hnone⟩ := hc.endpoints
  · exact hsame ▸ h
  · rw [hnew, List.map_append, List.map_singleton]
    refine List.nodup_append.mpr ⟨h, List.nodup_singleton _, ?_⟩
    rintro k hk k' hk' rfl
    obtain ⟨row, hrow, rfl⟩ := List.mem_map.mp hk
    exact hnone row hrow (List.mem_singleton.mp hk')

omit [DecidableEq ι] in
/-- The calls that do not commit go on as before. -/
theorem Registered.knows_commit (h : Registered cfg db s)
    (hst : Stepped (registrations cfg) s i op t)
    (hplace : (s.loc i).place = .running (.commit e inserted))
    (hop : op = .commit { s.loc i with place := .returned e inserted }) {j : ι} (hj : j ≠ i) :
    (t.loc j).Knows cfg t.db (t.own j).held (t.pending j) := by
  obtain ⟨hlock, hc⟩ := h.committed hst hplace hop
  have hmine : ⟨e, (s.loc i).call.key⟩ ∈
      ((registrations cfg).applyAll (s.pending i) s.db).apiEndpoints := by
    have hendpoint := hc.endpoint
    rw [hst.db, hop] at hendpoint
    exact hendpoint
  rw [hst.loc_other hj, hst.other j hj, hst.pending_other hj]
  refine (h.knows j).other hc (fun hheld => hj (State.held_unique hheld hlock)) fun hrow => ?_
  -- an endpoint with the same identifier is the same row
  have heq := h.named.unique _ _ (hasRow_of_view hmine) (hasRow_of_view hrow) rfl
  exact congrArg ApiEndpointRow.key heq

omit [DecidableEq ι] in
/-- A snapshot that a call has stored is there. -/
theorem Registered.has_of_stored (h : Registered cfg db s) {j : ι} {e' : Uuid} {fp : String}
    (hs : Stored s j e' fp) : s.db.hasSnapshot e' fp = true :=
  (h.stored e' fp).mpr (.inr ⟨j, hs⟩)

theorem Registered.stored_after (h : Registered cfg db s)
    (hst : Stepped (registrations cfg) s i op t)
    (hplace : (s.loc i).place = .running (.commit e inserted))
    (hop : op = .commit { s.loc i with place := .returned e inserted }) (e' : Uuid) (fp : String) :
    t.db.hasSnapshot e' fp = true ↔ db.hasSnapshot e' fp = true ∨ ∃ j, Stored t j e' fp := by
  have hc := (h.committed hst hplace hop).2
  have hold : s.db.hasSnapshot e' fp = true →
      db.hasSnapshot e' fp = true ∨ ∃ j, Stored t j e' fp := by
    intro hhas
    obtain hbefore | ⟨j, hj⟩ := (h.stored e' fp).mp hhas
    · exact .inl hbefore
    · exact .inr ⟨j, (stored_commit hst hplace hop j e' fp).mpr (.inl hj)⟩
  rw [hc.snapshots]
  constructor
  · rintro (hhas | ⟨rfl, rfl⟩)
    · exact hold hhas
    · cases inserted with
      | true =>
        have hmine := (stored_commit hst hplace hop i e' (s.loc i).call.fingerprint).mpr
          (.inr ⟨⟨rfl, rfl⟩, rfl, rfl⟩)
        exact .inr ⟨i, hmine⟩
      | false => exact hold hc.found_of_not_inserted
  · rintro (hbefore | ⟨j, hj⟩)
    · exact .inl ((h.stored e' fp).mpr (.inl hbefore))
    · obtain hj | ⟨-, hnew⟩ := (stored_commit hst hplace hop j e' fp).mp hj
      · exact .inl (h.has_of_stored hj)
      · exact .inr hnew

/-- **A commit.** The call has stored the snapshot exactly if it was missing. -/
theorem Registered.commit (h : Registered cfg db s)
    (hmove : (s.loc i).Move cfg (s.view (registrations cfg) i) op)
    (hst : Stepped (registrations cfg) s i op t)
    (hplace : (s.loc i).place = .running (.commit e inserted))
    (hop : op = .commit { s.loc i with place := .returned e inserted }) : Registered cfg db t := by
  have hc := (h.committed hst hplace hop).2
  have hstored := stored_commit hst hplace hop
  -- the snapshot that the call stores was there before neither the run nor the step
  have hmissing : inserted = true → s.db.hasSnapshot e (s.loc i).call.fingerprint = false := by
    rintro rfl
    exact hc.missing_of_inserted
  constructor
  · exact h.named.step hmove hst
  · exact hc.keys_nodup h.key
  · exact hc.unique h.snapshot
  · intro j
    by_cases hj : j = i
    · subst hj
      exact knows_self hmove hst (h.knows j)
    · exact h.knows_commit hst hplace hop hj
  · exact h.stored_after hst hplace hop
  · intro j k e' fp hj hk
    obtain hj | ⟨⟨rfl, hinserted⟩, rfl, rfl⟩ := (hstored j e' fp).mp hj <;>
      obtain hk | ⟨⟨rfl, hinserted'⟩, he, hfp⟩ := (hstored k _ _).mp hk
    · exact h.once j k e' fp hj hk
    · subst he hfp
      exact absurd (h.has_of_stored hj) (by simp [hmissing hinserted'])
    · exact absurd (h.has_of_stored hk) (by simp [hmissing hinserted])
    · rfl
  · intro j e' fp hj
    obtain hj | ⟨⟨-, hinserted⟩, rfl, rfl⟩ := (hstored j e' fp).mp hj
    · exact h.new j e' fp hj
    · by_contra hbefore
      have hhas := (h.stored _ _).mpr (.inl (Bool.eq_true_of_not_eq_false hbefore))
      exact absurd hhas (by simp [hmissing hinserted])

end Commit

end Step

omit [DecidableEq ι] in
theorem Registered.initial (hdb : db.Constrained fresh) (hs : RegistrationInitial db fresh s) :
    Registered cfg db s := by
  have hrows : ∀ row, HasRow s row → row ∈ db.apiEndpoints := by
    rintro row (hrow | ⟨i, hi⟩)
    · exact hs.db ▸ hrow
    · rw [hs.pending i] at hi
      cases hi
  have hnot : ∀ i e fp, ¬Stored s i e fp := by
    intro i e fp hi
    have hplace := hi.1
    rw [hs.place i] at hplace
    cases hplace
  constructor
  · refine ⟨fun row row' hrow hrow' hid => ?_,
      fun row hrow => hs.fresh ▸ hdb.fresh row (hrows row hrow)⟩
    exact List.inj_on_of_nodup_map hdb.id (hrows row hrow) (hrows row' hrow') hid
  · exact hs.db ▸ hdb.key
  · exact hs.db ▸ hdb.snapshot
  · intro i
    rw [RegistrationProc.Knows, hs.place i]
    exact ⟨.inl rfl, hs.pending i⟩
  · intro e fp
    rw [hs.db]
    exact ⟨.inl, fun h => h.elim id fun ⟨i, hi⟩ => absurd hi (hnot i e fp)⟩
  · exact fun i j e fp hi => absurd hi (hnot i e fp)
  · exact fun i e fp hi => absurd hi (hnot i e fp)

/-- **Runs.** -/
theorem registered_run {good : Registrations ι → ι × Input → Prop} (hdb : db.Constrained fresh)
    (h : Run (registrations cfg).step good (RegistrationInitial db fresh) s) :
    Registered cfg db s := by
  refine Run.invariant (I := Registered cfg db) (fun s hs => .initial hdb hs) ?_ h
  rintro s ⟨i, x⟩ t _ hI _ hs
  obtain ⟨op, hop, hst⟩ := step_cases hs
  have hmove := RegistrationProc.next_move hop
  obtain ⟨e, inserted, hplace, hcommit⟩ | ⟨hop', hbefore, hafter⟩ := hmove.commit_or_not
  · exact hI.commit hmove hst hplace hcommit
  · exact hI.quiet hmove hst hop' hbefore hafter

end Runs

/-- **Registration is exactly-once.** In every run of calls no call fails on a `UNIQUE` constraint,
no key has two endpoint rows and no endpoint and fingerprint two snapshot rows. A call that has
returned finds its rows in the tables; among the calls that have returned for one endpoint and
fingerprint exactly one says that it has inserted the snapshot, and none does if the snapshot was
there before the run. -/
theorem registered_once (cfg : Config) {ι : Type*} [DecidableEq ι] {db : EngineDb} {fresh : Uuid}
    (hdb : db.Constrained fresh) {good : Registrations ι → ι × Input → Prop} {s : Registrations ι}
    (h : Run (registrations cfg).step good (RegistrationInitial db fresh) s) :
    (∀ i, (s.loc i).place ≠ .closing .uniqueViolation ∧
      (s.loc i).place ≠ .failed .uniqueViolation) ∧
    (s.db.apiEndpoints.map (·.key)).Nodup ∧ (s.db.snapshots.map SnapshotRow.key).Nodup ∧
    ∀ i e inserted, (s.loc i).place = .returned e inserted →
      ⟨e, (s.loc i).call.key⟩ ∈ s.db.apiEndpoints ∧
      (e, (s.loc i).call.fingerprint) ∈ s.db.snapshots.map SnapshotRow.key ∧
      ((e, (s.loc i).call.fingerprint) ∉ db.snapshots.map SnapshotRow.key →
        ∃! j, (s.loc j).call.fingerprint = (s.loc i).call.fingerprint ∧
          (s.loc j).place = .returned e true) ∧
      ((e, (s.loc i).call.fingerprint) ∈ db.snapshots.map SnapshotRow.key → ∀ j,
        (s.loc j).call.fingerprint = (s.loc i).call.fingerprint →
          (s.loc j).place ≠ .returned e true) := by
  have hI : Registered cfg db s := registered_run hdb h
  refine ⟨fun i => ⟨fun hplace => ?_, fun hplace => ?_⟩, hI.key, hI.snapshot,
    fun i e inserted hplace => ?_⟩
  · have hknows := hI.knows i
    rw [RegistrationProc.Knows, hplace] at hknows
    exact hknows rfl
  · have hknows := hI.knows i
    rw [RegistrationProc.Knows, hplace] at hknows
    exact hknows rfl
  · have hknows := hI.knows i
    rw [RegistrationProc.Knows, hplace] at hknows
    obtain ⟨hendpoint, hsnapshot⟩ := hknows
    refine ⟨hendpoint, EngineDb.hasSnapshot_iff_key.mp hsnapshot, fun hnew => ?_,
      fun hold j hfp hj => ?_⟩
    · have hmissing : ¬db.hasSnapshot e (s.loc i).call.fingerprint = true :=
        fun hhas => hnew (EngineDb.hasSnapshot_iff_key.mp hhas)
      obtain ⟨j, hj⟩ := ((hI.stored _ _).mp hsnapshot).resolve_left hmissing
      refine ⟨j, ⟨hj.2, hj.1⟩, fun k hk => ?_⟩
      exact hI.once k j e _ ⟨hk.2, hk.1⟩ hj
    · have hmissing := hI.new j e _ ⟨hj, hfp⟩
      rw [EngineDb.hasSnapshot_iff_key.mpr hold] at hmissing
      cases hmissing

/-! ### Two calls -/

/-- Every call registers the same payload of one route. -/
def sampleCalls : Registrations ℕ where
  db := {}
  trace := []
  fresh := 0
  loc := fun _ => ⟨⟨⟨"orders", "POST", "/orders"⟩, "f", normalizeTypes (.obj [])⟩, .running .lock⟩
  pending := fun _ => []
  lock := fun _ => none

/-- Two calls that return, one after the other, and a third one that is stopped at its first
statement. -/
theorem registered_once_two : ∃ s : Registrations ℕ,
    Run (registrations (sampleConfig true)).step (fun _ _ => True) (RegistrationInitial {} 0) s ∧
    (s.loc 0).place = .returned 2 true ∧ (s.loc 1).place = .returned 2 false ∧
    ∃! j, (s.loc j).call.fingerprint = (s.loc 1).call.fingerprint ∧
      (s.loc j).place = .returned 2 true := by
  have hrun : (exec (registrations (sampleConfig true)).step sampleCalls
      (List.replicate 6 (0, .proceed 0) ++ [(2, .proceed 0), (2, .stop)] ++
        List.replicate 4 (1, .proceed 0))).map (fun s => ((s.loc 0).place, (s.loc 1).place)) =
      some (.returned 2 true, .returned 2 false) := by
    decide
  obtain ⟨s, hs, hplaces⟩ := Option.map_eq_some_iff.mp hrun
  obtain ⟨hzero, hone⟩ := Prod.mk.inj hplaces
  have hreach : Run (registrations (sampleConfig true)).step (fun _ _ => True)
      (RegistrationInitial {} 0) s :=
    Run.of_exec (.start ⟨rfl, rfl, fun _ => rfl, fun _ => rfl⟩) (Along.of_labels (by simp) _) hs
  have hdb : ({} : EngineDb).Constrained 0 :=
    ⟨List.nodup_nil, List.nodup_nil, nofun, List.nodup_nil⟩
  obtain ⟨-, -, -, hreturned⟩ := registered_once (sampleConfig true) hdb hreach
  exact ⟨s, hreach, hzero, hone, (hreturned 1 2 false hone).2.2.1 nofun⟩

end Driftgate.Core
