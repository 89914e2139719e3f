import Driftgate.Lib.Transition
import Driftgate.Monitor.RegistryLoader
import Driftgate.Monitor.Runner
import Mathlib.Data.List.Perm.Subperm

/-!
# Raw samples

A run of the monitor ends with a sweep: of every endpoint of the table the newest snapshots keep
their raw sample, and the others lose it. The sample is overwritten with `None`, which is stored as
the JSON value null, so the column is never an SQL null and every sweep writes the swept rows again.
An endpoint whose query finds nothing is skipped, which is the case for every endpoint when the
number of samples to keep is zero.

All snapshots of a run have the time of its transaction. Where an endpoint is listed twice in the
file it gets two snapshots of one time, and which of them counts as newer is up to the database:
a run comes with the ids that its queries have found.

The endpoints of a run share one session, and a flush is refused while another one is under way.
The snapshot that was to be flushed stays pending. Queries do not flush, so it may be stored only by
the commit, after the sweep: such snapshots of a run are late.
-/

namespace Driftgate.Monitor

open Driftgate.Lib Driftgate.Schema Driftgate.Transition

/-! ### Snapshots with samples -/

/-- A JSON value of the column `raw_sample_json`. -/
inductive RawSample
  | null
  | sample (v : Json)

def RawSample.of : Json → RawSample
  | .null => .null
  | v => .sample v

/-- A row of `schema_snapshots` with its time and its raw sample. -/
structure StoredSnapshot extends SnapshotRow where
  createdAt : ℕ
  rawSampleJson : Option RawSample

def StoredSnapshot.hasSample (row : StoredSnapshot) : Bool :=
  match row.rawSampleJson with
  | some (.sample _) => true
  | _ => false

/-- `values(raw_sample_json=None)` -/
def StoredSnapshot.dropSample (row : StoredSnapshot) : StoredSnapshot :=
  { row with rawSampleJson := some .null }

/-- What the queries of the sweep read. -/
structure SnapshotKey where
  id : ℕ
  endpointId : ℕ
  createdAt : ℕ

def StoredSnapshot.key (row : StoredSnapshot) : SnapshotKey :=
  ⟨row.id, row.endpointId, row.createdAt⟩

/-- The snapshot of a fetch. -/
def storedSnapshot (cfg : MonitorConfig) (now id : ℕ) (e : ℕ × FetchResult) : StoredSnapshot where
  toSnapshotRow := snapshotOf cfg id e
  createdAt := now
  rawSampleJson := some (if e.2.ok then .of (cfg.normalize e.2.body) else .null)

/-! ### The sweep -/

/-- What `order_by(created_at.desc()).limit(keep)` may find. -/
structure Newest (keep : ℕ) (keys : List SnapshotKey) (endpointId : ℕ) (kept : List ℕ) : Prop where
  nodup : kept.Nodup
  mem : ∀ id ∈ kept, ∃ k ∈ keys, k.id = id ∧ k.endpointId = endpointId
  length : kept.length = min keep (keys.countP fun k => k.endpointId = endpointId)
  newest : ∀ k ∈ keys, k.endpointId = endpointId → k.id ∉ kept → ∀ k' ∈ keys, k'.id ∈ kept →
    k.createdAt ≤ k'.createdAt

/-- The body of the loop of `_retention_sweep`. -/
def sweepEndpoint (rows : List StoredSnapshot) (endpointId : ℕ) (kept : List ℕ) :
    List StoredSnapshot :=
  if kept = [] then rows
  else rows.map fun row =>
    if row.endpointId = endpointId ∧ row.id ∉ kept ∧ row.rawSampleJson.isSome then row.dropSample
    else row

/-- `_retention_sweep`; `kept` is what the query finds for an endpoint. -/
def retentionSweep (rows : List StoredSnapshot) (endpointIds : List ℕ) (kept : ℕ → List ℕ) :
    List StoredSnapshot :=
  endpointIds.foldl (fun rows endpointId => sweepEndpoint rows endpointId (kept endpointId)) rows

/-! ### Runs -/

/-- The tables that a run reads and writes. -/
structure MonitorStore where
  registry : Registry := {}
  snapshots : List StoredSnapshot := []

/-- A run: its file, the time of its transaction, the fetches whose snapshots it has stored before
the sweep, in their order, and those whose snapshots are late, what the queries of its sweep find,
and whether it commits. -/
structure StoreRun where
  entries : List ApiEntry
  now : ℕ
  fetched : List (ℕ × FetchResult)
  late : List (ℕ × FetchResult)
  kept : ℕ → List ℕ
  commits : Bool

section Runs

variable (cfg : MonitorConfig) (env : LoaderEnv) (keep : ℕ)

/-- The snapshots of some fetches, the first of them with the id `first`. -/
def snapshotsOf (now first : ℕ) (fetched : List (ℕ × FetchResult)) : List StoredSnapshot :=
  fetched.mapIdx fun i e => storedSnapshot cfg now (first + i) e

/-- The snapshots when the sweep begins. -/
def StoreRun.stored (run : StoreRun) (st : MonitorStore) : List StoredSnapshot :=
  st.snapshots ++ snapshotsOf cfg run.now st.snapshots.length run.fetched

/-- The snapshots that the commit stores. -/
def StoreRun.lateSnapshots (run : StoreRun) (st : MonitorStore) : List StoredSnapshot :=
  snapshotsOf cfg run.now (run.stored cfg st).length run.late

/-- `run_monitor`, from the load of the file to the commit. -/
def storeStep (st : MonitorStore) (run : StoreRun) : Option MonitorStore :=
  match upsertEndpoints env st.registry run.entries with
  | some (registry, _) =>
    if run.commits then
      some ⟨registry, retentionSweep (run.stored cfg st)
        (registry.rows.map ApiEndpoint.id) run.kept ++ run.lateSnapshots cfg st⟩
    else some st
  | none => some st

/-- The run fetches endpoints of its file, at most `late` snapshots of each endpoint are late, and
its queries find the newest snapshots. -/
structure ValidRun (late : ℕ) (st : MonitorStore) (run : StoreRun) : Prop where
  fetched : ∀ registry endpoints,
    upsertEndpoints env st.registry run.entries = some (registry, endpoints) →
    ∀ e ∈ run.fetched ++ run.late, e.1 ∈ endpoints.map ApiEndpoint.id
  late : ∀ endpointId, run.late.countP (fun e => e.1 = endpointId) ≤ late
  newest : ∀ registry endpoints,
    upsertEndpoints env st.registry run.entries = some (registry, endpoints) →
    ∀ endpointId ∈ registry.rows.map ApiEndpoint.id,
      Newest keep ((run.stored cfg st).map StoredSnapshot.key) endpointId (run.kept endpointId)

end Runs

/-! ### One sweep -/

/-- How many other snapshots of the endpoint are not older. -/
def newerCount (keys : List SnapshotKey) (k : SnapshotKey) : ℕ :=
  keys.countP fun k' =>
    k'.endpointId = k.endpointId ∧ k'.id ≠ k.id ∧ k.createdAt ≤ k'.createdAt

/-- How many snapshots of the endpoint have their sample. -/
def sampleCount (rows : List StoredSnapshot) (endpointId : ℕ) : ℕ :=
  rows.countP fun row => row.endpointId = endpointId ∧ row.hasSample = true

/-- The row is as it was stored, or it has lost its sample to enough newer snapshots. -/
def Retained (cfg : MonitorConfig) (keep : ℕ) (keys : List SnapshotKey) (row : StoredSnapshot) :
    Prop :=
  ∃ now id e, row = storedSnapshot cfg now id e ∨
    row = (storedSnapshot cfg now id e).dropSample ∧ 0 < keep ∧ keep ≤ newerCount keys row.key

/-- What a sweep does to a row. -/
theorem mem_sweepEndpoint {rows : List StoredSnapshot} {endpointId : ℕ} {kept : List ℕ}
    {row : StoredSnapshot} (h : row ∈ sweepEndpoint rows endpointId kept) :
    ∃ old ∈ rows, row = old ∧ (old.endpointId = endpointId → kept ≠ [] → old.id ∉ kept →
        old.rawSampleJson = none) ∨
      row = old.dropSample ∧ old.endpointId = endpointId ∧ old.id ∉ kept ∧ kept ≠ [] := by
  rw [sweepEndpoint] at h
  split at h
  next hempty => exact ⟨row, h, .inl ⟨rfl, fun _ hne => absurd hempty hne⟩⟩
  next hne =>
    obtain ⟨old, hold, rfl⟩ := List.mem_map.mp h
    refine ⟨old, hold, ?_⟩
    split
    next hdrop => exact .inr ⟨rfl, hdrop.1, hdrop.2.1, hne⟩
    next hkeep =>
      refine .inl ⟨rfl, fun hendpoint _ hid => ?_⟩
      by_contra hsome
      exact hkeep ⟨hendpoint, hid, Option.isSome_iff_ne_none.mpr hsome⟩

@[simp] theorem sweepEndpoint_keys (rows : List StoredSnapshot) (endpointId : ℕ) (kept : List ℕ) :
    (sweepEndpoint rows endpointId kept).map StoredSnapshot.key = rows.map StoredSnapshot.key := by
  rw [sweepEndpoint]
  split
  · rfl
  · rw [List.map_map]
    refine List.map_congr_left fun row _ => ?_
    show StoredSnapshot.key (if _ then _ else _) = _
    split <;> rfl

/-- A sweep gives no sample back. -/
theorem sampleCount_sweepEndpoint_le (rows : List StoredSnapshot) (endpointId : ℕ) (kept : List ℕ)
    (other : ℕ) : sampleCount (sweepEndpoint rows endpointId kept) other ≤ sampleCount rows other := by
  rw [sweepEndpoint]
  split
  · exact Nat.le_refl _
  · rw [sampleCount, List.countP_map, sampleCount]
    refine List.countP_mono_left fun row _ h => ?_
    simp only [Function.comp_apply, decide_eq_true_eq] at h ⊢
    split at h
    · exact absurd h.2 (by simp [StoredSnapshot.hasSample, StoredSnapshot.dropSample])
    · exact h

/-- Different ids that all belong to snapshots of a kind are at most as many as these. -/
theorem length_le_countP {keys : List SnapshotKey} {p : SnapshotKey → Bool} {ids : List ℕ}
    (hids : ids.Nodup) (hp : ∀ id ∈ ids, ∃ k ∈ keys, k.id = id ∧ p k = true) :
    ids.length ≤ keys.countP p := by
  rw [List.countP_eq_length_filter, ← List.length_map SnapshotKey.id]
  refine (List.subperm_of_subset hids fun id hid => ?_).length_le
  obtain ⟨k, hk, rfl, hpk⟩ := hp id hid
  exact List.mem_map_of_mem (List.mem_filter.mpr ⟨hk, hpk⟩)

/-- A snapshot that the query leaves out has as many newer ones as are kept. -/
theorem Newest.newerCount_le {keep : ℕ} {keys : List SnapshotKey} {endpointId : ℕ} {kept : List ℕ}
    (h : Newest keep keys endpointId kept) (hne : kept ≠ []) {k : SnapshotKey} (hk : k ∈ keys)
    (hendpoint : k.endpointId = endpointId) (hid : k.id ∉ kept) :
    0 < keep ∧ keep ≤ newerCount keys k := by
  have hpos : 0 < kept.length := List.length_pos_of_ne_nil hne
  -- with the snapshot itself the endpoint has more than are kept, so the limit was reached
  have hmore : (k.id :: kept).length ≤ keys.countP fun k' => k'.endpointId = endpointId := by
    refine length_le_countP (List.nodup_cons.mpr ⟨hid, h.nodup⟩) fun id hmem => ?_
    rcases List.mem_cons.mp hmem with rfl | hmem
    · exact ⟨k, hk, rfl, decide_eq_true hendpoint⟩
    · obtain ⟨k', hk', hid', hendpoint'⟩ := h.mem id hmem
      exact ⟨k', hk', hid', decide_eq_true hendpoint'⟩
  have hfull : kept.length = keep := by
    have hlength := h.length
    rw [List.length_cons] at hmore
    omega
  refine ⟨hfull ▸ hpos, ?_⟩
  rw [← hfull]
  refine length_le_countP h.nodup fun id hmem => ?_
  obtain ⟨k', hk', rfl, hendpoint'⟩ := h.mem id hmem
  refine ⟨k', hk', rfl, decide_eq_true ⟨hendpoint'.trans hendpoint.symm, fun heq => ?_, ?_⟩⟩
  · exact hid (heq ▸ hmem)
  · exact h.newest k hk hendpoint hid k' hk' hmem

/-- The swept endpoint has no more samples than are to be kept. -/
theorem Newest.sampleCount_le {keep : ℕ} {rows : List StoredSnapshot} {endpointId : ℕ}
    {kept : List ℕ} (h : Newest keep (rows.map StoredSnapshot.key) endpointId kept)
    (hkeep : 0 < keep) (hids : (rows.map fun row => row.id).Nodup) :
    sampleCount (sweepEndpoint rows endpointId kept) endpointId ≤ keep := by
  have hids' : ((sweepEndpoint rows endpointId kept).map fun row => row.id).Nodup := by
    have hkeys := congrArg (List.map SnapshotKey.id) (sweepEndpoint_keys rows endpointId kept)
    rw [List.map_map, List.map_map] at hkeys
    exact (show _ = rows.map fun row => row.id from hkeys) ▸ hids
  have hle : kept.length ≤ keep := h.length ▸ Nat.min_le_left ..
  refine Nat.le_trans ?_ hle
  rw [sampleCount, List.countP_eq_length_filter, ← List.length_map (fun row => row.id)]
  refine (List.subperm_of_subset (hids'.sublist (List.filter_sublist.map _)) ?_).length_le
  intro id hid
  obtain ⟨row, hmem, rfl⟩ := List.mem_map.mp hid
  obtain ⟨hmem, hp⟩ := List.mem_filter.mp hmem
  obtain ⟨hendpoint, hsample⟩ := of_decide_eq_true hp
  obtain ⟨old, hold, ⟨rfl, hnone⟩ | ⟨rfl, -⟩⟩ := mem_sweepEndpoint hmem
  · by_contra hno
    by_cases hempty : kept = []
    · have hcount := h.length
      rw [hempty, List.length_nil] at hcount
      have hsome : 0 < (rows.map StoredSnapshot.key).countP fun k => k.endpointId = endpointId :=
        List.countP_pos_iff.mpr ⟨row.key, List.mem_map_of_mem hold, decide_eq_true hendpoint⟩
      omega
    · have hnull := hnone hendpoint hempty hno
      simp [StoredSnapshot.hasSample, hnull] at hsample
  · simp [StoredSnapshot.hasSample, StoredSnapshot.dropSample] at hsample

theorem Retained.sweepEndpoint {cfg : MonitorConfig} {keep : ℕ} {rows : List StoredSnapshot}
    {endpointId : ℕ} {kept : List ℕ}
    (h : Newest keep (rows.map StoredSnapshot.key) endpointId kept)
    (hrows : ∀ row ∈ rows, Retained cfg keep (rows.map StoredSnapshot.key) row) :
    ∀ row ∈ sweepEndpoint rows endpointId kept,
      Retained cfg keep (rows.map StoredSnapshot.key) row := by
  intro row hmem
  obtain ⟨old, hold, ⟨rfl, -⟩ | ⟨rfl, hendpoint, hid, hne⟩⟩ := mem_sweepEndpoint hmem
  · exact hrows row hold
  · have hkey : old.dropSample.key ∈ rows.map StoredSnapshot.key :=
      List.mem_map.mpr ⟨old, hold, rfl⟩
    obtain ⟨now, id, e, rfl | ⟨rfl, hcount⟩⟩ := hrows old hold
    · exact ⟨now, id, e, .inr ⟨rfl, h.newerCount_le hne hkey hendpoint hid⟩⟩
    · exact ⟨now, id, e, .inr ⟨rfl, hcount⟩⟩

/-! ### All endpoints -/

/-- **The sweep.** It changes nothing but samples, gives none back, and leaves every swept endpoint
with no more than are to be kept. -/
theorem retentionSweep_spec {cfg : MonitorConfig} {keep : ℕ} {endpointIds : List ℕ}
    {kept : ℕ → List ℕ} {rows : List StoredSnapshot}
    (hnewest : ∀ endpointId ∈ endpointIds,
      Newest keep (rows.map StoredSnapshot.key) endpointId (kept endpointId))
    (hids : (rows.map fun row => row.id).Nodup)
    (hrows : ∀ row ∈ rows, Retained cfg keep (rows.map StoredSnapshot.key) row) :
    (retentionSweep rows endpointIds kept).map StoredSnapshot.key = rows.map StoredSnapshot.key ∧
    (∀ row ∈ retentionSweep rows endpointIds kept,
      Retained cfg keep (rows.map StoredSnapshot.key) row) ∧
    (∀ other, sampleCount (retentionSweep rows endpointIds kept) other ≤ sampleCount rows other) ∧
    (0 < keep → ∀ endpointId ∈ endpointIds,
      sampleCount (retentionSweep rows endpointIds kept) endpointId ≤ keep) := by
  induction endpointIds generalizing rows with
  | nil => exact ⟨rfl, hrows, fun _ => Nat.le_refl _, fun _ _ h => absurd h List.not_mem_nil⟩
  | cons endpointId endpointIds ih =>
    rw [List.forall_mem_cons] at hnewest
    have hkeys := sweepEndpoint_keys rows endpointId (kept endpointId)
    have hids' : ((sweepEndpoint rows endpointId (kept endpointId)).map
        fun row => row.id).Nodup := by
      have hsame := congrArg (List.map SnapshotKey.id) hkeys
      rw [List.map_map, List.map_map] at hsame
      exact (show _ = rows.map fun row => row.id from hsame) ▸ hids
    obtain ⟨hsame, hretained, hless, hbound⟩ := ih (hkeys.symm ▸ hnewest.2) hids'
      (hkeys.symm ▸ Retained.sweepEndpoint hnewest.1 hrows)
    refine ⟨hsame.trans hkeys, hkeys ▸ hretained, fun other => ?_, fun hkeep other hmem => ?_⟩
    · exact Nat.le_trans (hless other) (sampleCount_sweepEndpoint_le ..)
    · rcases List.mem_cons.mp hmem with rfl | hmem
      · exact Nat.le_trans (hless other) (hnewest.1.sampleCount_le hkeep hids)
      · exact hbound hkeep other hmem

/-! ### Every run -/

section Runs

variable {cfg : MonitorConfig} {env : LoaderEnv} {keep late : ℕ}

/-- What holds after every run. -/
structure StoreInv (cfg : MonitorConfig) (keep late : ℕ) (st : MonitorStore) : Prop where
  wf : st.registry.Wf
  ids : (st.snapshots.map fun row => row.id) = List.range st.snapshots.length
  owned : ∀ row ∈ st.snapshots, row.endpointId ∈ st.registry.rows.map ApiEndpoint.id
  retained : ∀ row ∈ st.snapshots, Retained cfg keep (st.snapshots.map StoredSnapshot.key) row
  bounded : 0 < keep → ∀ endpointId, sampleCount st.snapshots endpointId ≤ keep + late

theorem StoreInv.initial (cfg : MonitorConfig) (keep late : ℕ) : StoreInv cfg keep late {} where
  wf := emptyRegistry_wf
  ids := rfl
  owned := by simp
  retained := by simp
  bounded _ _ := Nat.zero_le _

theorem Retained.mono {keys keys' : List SnapshotKey} {row : StoredSnapshot}
    (h : Retained cfg keep keys row) : Retained cfg keep (keys ++ keys') row := by
  obtain ⟨now, id, e, hrow | ⟨hrow, hkeep, hcount⟩⟩ := h
  · exact ⟨now, id, e, .inl hrow⟩
  · refine ⟨now, id, e, .inr ⟨hrow, hkeep, Nat.le_trans hcount ?_⟩⟩
    rw [newerCount, newerCount, List.countP_append]
    exact Nat.le_add_right ..

/-- New snapshots are as they were stored. -/
theorem retained_snapshotsOf {rows : List StoredSnapshot}
    (hrows : ∀ row ∈ rows, Retained cfg keep (rows.map StoredSnapshot.key) row)
    (now first : ℕ) (fetched : List (ℕ × FetchResult)) :
    ∀ row ∈ rows ++ snapshotsOf cfg now first fetched, Retained cfg keep
      ((rows ++ snapshotsOf cfg now first fetched).map StoredSnapshot.key) row := by
  intro row hrow
  rcases List.mem_append.mp hrow with hrow | hrow
  · rw [List.map_append]
    exact (hrows row hrow).mono
  · obtain ⟨i, hi, rfl⟩ := List.mem_mapIdx.mp hrow
    exact ⟨_, _, _, .inl rfl⟩

/-- The ids of the snapshots count them. -/
theorem snapshotsOf_ids (cfg : MonitorConfig) {rows : List StoredSnapshot} {n : ℕ}
    (hids : (rows.map fun row => row.id) = List.range n) (now : ℕ)
    (fetched : List (ℕ × FetchResult)) :
    ((rows ++ snapshotsOf cfg now n fetched).map fun row => row.id) =
      List.range (rows ++ snapshotsOf cfg now n fetched).length := by
  have hlength : rows.length = n := by
    have hcount := congrArg List.length hids
    rwa [List.length_map, List.length_range] at hcount
  rw [List.map_append, hids, List.length_append, hlength, snapshotsOf, List.length_mapIdx,
    List.range_add]
  refine congrArg _ (List.ext_getElem (by simp) fun i hi hi' => ?_)
  simp [storedSnapshot, snapshotOf]

theorem sampleCount_snapshotsOf_le (now first endpointId : ℕ) (fetched : List (ℕ × FetchResult)) :
    sampleCount (snapshotsOf cfg now first fetched) endpointId ≤
      fetched.countP fun e => e.1 = endpointId := by
  induction fetched generalizing first with
  | nil => exact Nat.le_refl _
  | cons e fetched ih =>
    have htail : (fun i e => storedSnapshot cfg now (first + (i + 1)) e) =
        fun i e => storedSnapshot cfg now (first + 1 + i) e :=
      funext fun i => funext fun e => congrArg (storedSnapshot cfg now · e) (by omega)
    have ih := ih (first + 1)
    rw [snapshotsOf, sampleCount] at ih
    rw [snapshotsOf, List.mapIdx_cons, htail, sampleCount, List.countP_cons, List.countP_cons]
    refine Nat.add_le_add ih ?_
    by_cases he : e.1 = endpointId
    · rw [if_pos (decide_eq_true he)]
      split <;> omega
    · rw [if_neg fun h => he (of_decide_eq_true h).1]
      exact Nat.zero_le _

/-- A run keeps what holds. -/
theorem StoreInv.step {st st' : MonitorStore} {run : StoreRun} (h : StoreInv cfg keep late st)
    (hvalid : ValidRun cfg env keep late st run) (hstep : storeStep cfg env st run = some st') :
    StoreInv cfg keep late st' := by
  rw [storeStep] at hstep
  split at hstep
  next registry endpoints hload =>
    split at hstep
    next =>
      obtain rfl := Option.some.inj hstep
      have hfetched := hvalid.fetched registry endpoints hload
      have hloaded := upsertEndpoints_loaded h.wf hload
      have hids : ((run.stored cfg st).map fun row => row.id) =
          List.range (run.stored cfg st).length := snapshotsOf_ids cfg h.ids run.now run.fetched
      have hnodup : ((run.stored cfg st).map fun row => row.id).Nodup :=
        hids ▸ List.nodup_range
      -- every snapshot belongs to an endpoint of the table
      have hnew : ∀ first, ∀ fetched ⊆ run.fetched ++ run.late,
          ∀ row ∈ snapshotsOf cfg run.now first fetched,
            row.endpointId ∈ registry.rows.map ApiEndpoint.id := by
        intro first fetched hsubset row hrow
        obtain ⟨i, hi, rfl⟩ := List.mem_mapIdx.mp hrow
        obtain ⟨ep, hep, hid⟩ := List.mem_map.mp (hfetched _ (hsubset (List.getElem_mem hi)))
        rw [hloaded.endpoints] at hep
        obtain ⟨e, -, hnamed⟩ := List.mem_filterMap.mp (List.mem_filter.mp hep).1
        exact List.mem_map.mpr ⟨ep, (Registry.mem_of_named hnamed).1, hid⟩
      have howned : ∀ k ∈ (run.stored cfg st).map StoredSnapshot.key,
          k.endpointId ∈ registry.rows.map ApiEndpoint.id := by
        intro k hk
        obtain ⟨row, hrow, rfl⟩ := List.mem_map.mp hk
        rcases List.mem_append.mp hrow with hrow | hrow
        · obtain ⟨ep, hep, hid⟩ := List.mem_map.mp (h.owned row hrow)
          rw [show row.key.endpointId = row.endpointId from rfl, ← hid,
            ← settled_id env run.entries ep]
          exact List.mem_map_of_mem (hloaded.kept ep hep)
        · exact hnew _ _ (List.subset_append_left ..) row hrow
      obtain ⟨hkeys, hswept, hless, hbound⟩ := retentionSweep_spec
        (hvalid.newest registry endpoints hload) hnodup
        (retained_snapshotsOf h.retained run.now st.snapshots.length run.fetched)
      have hsame := congrArg (List.map SnapshotKey.id) hkeys
      rw [List.map_map, List.map_map] at hsame
      refine ⟨hloaded.wf, ?_, fun row hrow => ?_, ?_, fun hkeep endpointId => ?_⟩
      · exact snapshotsOf_ids cfg (hsame.trans hids) run.now run.late
      · rcases List.mem_append.mp hrow with hrow | hrow
        · refine howned row.key ?_
          rw [← hkeys]
          exact List.mem_map_of_mem hrow
        · exact hnew _ _ (List.subset_append_right ..) row hrow
      · exact retained_snapshotsOf (hkeys.symm ▸ hswept) run.now _ run.late
      · rw [sampleCount, List.countP_append]
        refine Nat.add_le_add ?_
          (Nat.le_trans (sampleCount_snapshotsOf_le ..) (hvalid.late endpointId))
        by_cases hmem : endpointId ∈ registry.rows.map ApiEndpoint.id
        · exact hbound hkeep endpointId hmem
        · refine Nat.le_trans (hless endpointId) ?_
          rw [sampleCount, List.countP_eq_zero.mpr fun row hrow hp => hmem ?_]
          · exact Nat.zero_le _
          · rw [← (of_decide_eq_true hp).1]
            exact howned row.key (List.mem_map_of_mem hrow)
    next =>
      obtain rfl := Option.some.inj hstep
      exact h
  next =>
    obtain rfl := Option.some.inj hstep
    exact h

end Runs

/-! ### Two runs -/

end Driftgate.Monitor
