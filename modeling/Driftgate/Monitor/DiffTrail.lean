import Driftgate.Monitor.DiffLaws
import Driftgate.Monitor.Runner

/-!
# The trail of diffs

A row of `schema_diffs` names a path with the type it had and the type it has. So the rows of an
endpoint can be replayed over the types of one of its snapshots. Where no fetch of the endpoint has
failed since, every row fits what the rows before it lead to, and they end in the types of the
latest snapshot.
-/

namespace Driftgate.Monitor

open Driftgate.Schema

/-! ### Replaying diffs -/

/-- The type that each path has. -/
abbrev Types := String → Option JsonType

def typesOf (nodes : List SchemaNode) : Types := fun path => (nodeAt nodes path).map SchemaNode.type

/-- A diff is replayed where its path has the type that it starts from. -/
def applyDiff (types : Types) (d : Diff) : Option Types :=
  if types d.path = d.oldType then some (Function.update types d.path d.newType) else none

def replay (types : Types) (diffs : List Diff) : Option Types := diffs.foldlM applyDiff types

theorem replay_append (types : Types) (diffs diffs' : List Diff) :
    replay types (diffs ++ diffs') = (replay types diffs).bind fun types => replay types diffs' :=
  List.foldlM_append

/-- Diffs of different paths lead to the types that they name. -/
theorem replay_eq_some {types types' : Types} {diffs : List Diff}
    (hnodup : (diffs.map Diff.path).Nodup)
    (hdiffs : ∀ d ∈ diffs, types d.path = d.oldType ∧ types' d.path = d.newType)
    (hsame : ∀ path, path ∉ diffs.map Diff.path → types path = types' path) :
    replay types diffs = some types' := by
  induction diffs generalizing types with
  | nil =>
    obtain rfl : types = types' := funext fun path => hsame path List.not_mem_nil
    rfl
  | cons d diffs ih =>
    obtain ⟨hd, hnodup⟩ := List.nodup_cons.mp hnodup
    obtain ⟨hold, hnew⟩ := hdiffs d List.mem_cons_self
    rw [replay, List.foldlM_cons, applyDiff, if_pos hold]
    show replay (Function.update types d.path d.newType) diffs = some types'
    refine ih hnodup (fun d' hd' => ?_) (fun path hpath => ?_)
    · have hne : d'.path ≠ d.path := fun h => hd (h ▸ List.mem_map_of_mem hd')
      rw [Function.update_of_ne hne]
      exact hdiffs d' (List.mem_cons_of_mem d hd')
    · by_cases h : path = d.path
      · rw [h, Function.update_self, hnew]
      · rw [Function.update_of_ne h]
        refine hsame path fun hmem => ?_
        rcases List.mem_cons.mp hmem with hmem | hmem
        · exact h hmem
        · exact hpath hmem

/-! ### One comparison -/

section Comparison

variable {printable : Char → Bool} {old new : List SchemaNode}

/-- A reported change names the types of both schemas. -/
theorem types_of_mem_diffSchemas {d : Diff} (hd : d ∈ diffSchemas printable old new) :
    typesOf old d.path = d.oldType ∧ typesOf new d.path = d.newType := by
  rw [diffSchemas_eq, List.mem_append, List.mem_append] at hd
  rcases hd with (hd | hd) | hd
  · obtain ⟨path, hpath, hd⟩ := List.mem_filterMap.mp hd
    obtain ⟨node, hnode, rfl⟩ := Option.map_eq_some_iff.mp hd
    have hgone := of_decide_eq_true (List.mem_filter.mp (mem_sortedPaths.mp hpath)).2
    have hnone : nodeAt new path = none := not_not.mp fun h => hgone (mem_pathsOf.mpr h)
    exact ⟨congrArg (Option.map SchemaNode.type) hnode,
      congrArg (Option.map SchemaNode.type) hnone⟩
  · obtain ⟨path, hpath, hd⟩ := List.mem_filterMap.mp hd
    obtain ⟨node, hnode, rfl⟩ := Option.map_eq_some_iff.mp hd
    have hnewcomer := of_decide_eq_true (List.mem_filter.mp (mem_sortedPaths.mp hpath)).2
    have hnone : nodeAt old path = none := not_not.mp fun h => hnewcomer (mem_pathsOf.mpr h)
    exact ⟨congrArg (Option.map SchemaNode.type) hnone,
      congrArg (Option.map SchemaNode.type) hnode⟩
  · obtain ⟨path, -, hd⟩ := List.mem_filterMap.mp hd
    obtain ⟨oldNode, hold, hd⟩ := Option.bind_eq_some_iff.mp hd
    obtain ⟨newNode, hnew, hd⟩ := Option.bind_eq_some_iff.mp hd
    obtain ⟨changeType, -, hd⟩ := Option.bind_eq_some_iff.mp hd
    obtain rfl := Option.some.inj hd
    exact ⟨congrArg (Option.map SchemaNode.type) hold,
      congrArg (Option.map SchemaNode.type) hnew⟩

/-- A path that is not reported has one type in both. -/
theorem types_of_not_mem_diffSchemas {path : String}
    (h : path ∉ (diffSchemas printable old new).map Diff.path) :
    typesOf old path = typesOf new path := by
  have hnone : changeBetween (nodeAt old path) (nodeAt new path) = none := by
    refine Option.eq_none_iff_forall_ne_some.mpr fun change hchange => h ?_
    have hmem : (path, change) ∈ (diffSchemas printable old new).map Diff.entry :=
      mem_entries.mpr hchange
    obtain ⟨d, hd, hentry⟩ := List.mem_map.mp hmem
    exact List.mem_map.mpr ⟨d, hd, congrArg Prod.fst hentry⟩
  rw [typesOf, typesOf]
  cases ho : nodeAt old path with
  | none =>
    cases hn : nodeAt new path with
    | none => rfl
    | some newNode =>
      rw [ho, hn] at hnone
      cases hnone
  | some oldNode =>
    cases hn : nodeAt new path with
    | none =>
      rw [ho, hn] at hnone
      cases hnone
    | some newNode =>
      rw [ho, hn] at hnone
      exact congrArg some (pickChangeType_eq_none.mp hnone).type

/-- **One comparison.** Its diffs lead from the types of the one schema to those of the other. -/
theorem replay_diffSchemas :
    replay (typesOf old) (diffSchemas printable old new) = some (typesOf new) :=
  replay_eq_some nodup_paths (fun _ hd => types_of_mem_diffSchemas hd)
    fun _ h => types_of_not_mem_diffSchemas h

end Comparison

/-! ### The rows of an endpoint -/

section Trail

variable {cfg : MonitorConfig} {endpointId : ℕ}

/-- What the rows of an endpoint report whose snapshots are later than `since`, in their order. -/
def MonitorDb.trailOf (db : MonitorDb) (endpointId since : ℕ) : List Diff :=
  (db.diffs.filter fun row => row.endpointId = endpointId ∧ since < row.newSnapshotId).map
    SchemaDiffRow.diff

theorem snapshotOf_oldNodes (id : ℕ) {fetch : FetchResult} (h : fetch.ok) :
    (snapshotOf cfg id (endpointId, fetch)).oldNodes = nodesOf cfg fetch := by
  simp [SnapshotRow.oldNodes, snapshotOf, h]

theorem endpointId_of_mem_rowsAfter {prior : Option SnapshotRow} {id : ℕ} {e : ℕ × FetchResult}
    {row : SchemaDiffRow} (h : row ∈ rowsAfter cfg prior id e) : row.endpointId = e.1 := by
  cases prior with
  | none => cases h
  | some prior =>
    rw [rowsAfter] at h
    split at h
    · obtain ⟨d, -, rfl⟩ := List.mem_map.mp h
      rfl
    · cases h

/-- What a fetch of the endpoint reports, after a successful one: all that the schemas differ in,
since equal hashes are those of schemas that do not differ. -/
theorem rowsAfter_success (hsha : Function.Injective cfg.sha256)
    (hsentinel : ∀ text, ¬IsSentinel (cfg.sha256 text)) {old new : FetchResult} (hold : old.ok)
    (hnew : new.ok) (id id' : ℕ) :
    (rowsAfter cfg (some (snapshotOf cfg id (endpointId, old))) id' (endpointId, new)).map
        SchemaDiffRow.diff =
      diffSchemas cfg.printable (nodesOf cfg old) (nodesOf cfg new) := by
  have hhash : (snapshotOf cfg id (endpointId, old)).schemaHash = hashOf cfg old := if_pos hold
  rw [rowsAfter, hhash, snapshotOf_oldNodes id hold]
  by_cases heq : hashOf cfg old = hashOf cfg new
  · rw [if_neg fun h => h.2.1 heq]
    exact (diffSchemas_of_hash_eq hsha heq).symm
  · rw [if_pos ⟨hnew, heq, hsentinel _⟩, List.map_map]
    exact List.map_id _

theorem trailOf_append (fetches : List (ℕ × FetchResult)) (e : ℕ × FetchResult) {since : ℕ}
    (hsince : since < fetches.length) :
    (monitor cfg (fetches ++ [e])).trailOf endpointId since =
      (monitor cfg fetches).trailOf endpointId since ++
        if e.1 = endpointId then
          (rowsAfter cfg (latest (fetches.mapIdx (snapshotOf cfg)) e.1) fetches.length e).map
            SchemaDiffRow.diff
        else [] := by
  rw [MonitorDb.trailOf, monitor_diffs_append, List.filter_append, List.map_append]
  refine congrArg _ ?_
  split
  next heq =>
    refine congrArg _ (List.filter_eq_self.mpr fun row hrow => decide_eq_true ⟨?_, ?_⟩)
    · exact (endpointId_of_mem_rowsAfter hrow).trans heq
    · rw [newSnapshotId_of_mem_rowsAfter cfg hrow]
      exact hsince
  next hne =>
    rw [List.filter_eq_nil_iff.mpr, List.map_nil]
    intro row hrow hp
    exact hne ((endpointId_of_mem_rowsAfter hrow).symm.trans (of_decide_eq_true hp).1)

theorem trailOf_self (fetches : List (ℕ × FetchResult)) {since : ℕ}
    (hsince : fetches.length ≤ since + 1) :
    (monitor cfg fetches).trailOf endpointId since = [] := by
  rw [MonitorDb.trailOf, List.filter_eq_nil_iff.mpr, List.map_nil]
  intro row hrow hp
  have hlater := (of_decide_eq_true hp).2
  have hearlier := newSnapshotId_lt cfg fetches row hrow
  omega

/-- **The diffs tell what has changed.** Where no fetch of the endpoint has failed since a
successful one, the rows stored since can be replayed over its types, and lead to those of the
latest snapshot. -/
theorem trail_replays (hsha : Function.Injective cfg.sha256)
    (hsentinel : ∀ text, ¬IsSentinel (cfg.sha256 text)) (before : List (ℕ × FetchResult))
    {fetch : FetchResult} (hok : fetch.ok) (after : List (ℕ × FetchResult))
    (hafter : ∀ e ∈ after, e.1 = endpointId → e.2.ok) :
    ∃ row, latest (monitor cfg (before ++ (endpointId, fetch) :: after)).snapshots endpointId =
        some row ∧
      replay (typesOf (nodesOf cfg fetch))
          ((monitor cfg (before ++ (endpointId, fetch) :: after)).trailOf endpointId
            before.length) = some (typesOf row.oldNodes) := by
  suffices hlast : ∃ id g, FetchResult.ok g ∧
      latest ((before ++ (endpointId, fetch) :: after).mapIdx (snapshotOf cfg)) endpointId =
        some (snapshotOf cfg id (endpointId, g)) ∧
      replay (typesOf (nodesOf cfg fetch))
          ((monitor cfg (before ++ (endpointId, fetch) :: after)).trailOf endpointId
            before.length) = some (typesOf (nodesOf cfg g)) by
    obtain ⟨id, g, hg, hlatest, hreplay⟩ := hlast
    refine ⟨_, (congrArg (latest · endpointId) (monitor_snapshots cfg _)).trans hlatest, ?_⟩
    rw [snapshotOf_oldNodes id hg]
    exact hreplay
  induction after using List.reverseRecOn with
  | nil =>
    refine ⟨before.length, fetch, hok, latest_mapIdx cfg fun o ho => absurd ho List.not_mem_nil, ?_⟩
    rw [trailOf_self _ (Nat.le_of_eq List.length_append)]
    rfl
  | append_singleton after e ih =>
    obtain ⟨id, g, hg, hlatest, hreplay⟩ := ih fun o ho => hafter o (List.mem_append_left _ ho)
    have hlength : before.length < (before ++ (endpointId, fetch) :: after).length := by
      rw [List.length_append, List.length_cons]
      omega
    rw [← List.cons_append, ← List.append_assoc, trailOf_append _ e hlength, replay_append, hreplay]
    obtain ⟨id', g'⟩ := e
    by_cases heq : id' = endpointId
    · subst heq
      have hg' : g'.ok := hafter _ (List.mem_append_right _ List.mem_cons_self) rfl
      refine ⟨_, g', hg', latest_mapIdx cfg fun o ho => absurd ho List.not_mem_nil, ?_⟩
      rw [if_pos rfl, hlatest, rowsAfter_success hsha hsentinel hg hg']
      exact replay_diffSchemas
    · refine ⟨id, g, hg, ?_, ?_⟩
      · rw [← hlatest, latest, List.mapIdx_append, List.filter_append, latest]
        simp [snapshotOf, heq]
      · rw [if_neg heq]
        rfl

end Trail

/-! ### Samples -/

/-- The hash has no collisions, none of its values is a sentinel, and it is SHA-256 on the texts of
the two schemas below. -/
def trailMonitor : MonitorConfig where
  sha256 :=
    Equiv.swap
        ("0[\x7b\"array_item_type\":null,\"enum_values\":null,\"nullable\":false," ++
          "\"path\":\"a\",\"required\":true,\"type\":\"integer\"\x7d]")
        "4820ece8d3b96b22da666d3f7aab400cbd7bf522a6472054bd61d6217ab753dc" ∘
      Equiv.swap
        ("0[\x7b\"array_item_type\":null,\"enum_values\":[\"x\"],\"nullable\":false," ++
          "\"path\":\"a\",\"required\":true,\"type\":\"string\"\x7d]")
        "c77139135e342f4ffc3ae83481220e6580175614311a15b3db5357a4837b398e" ∘
      ("0" ++ ·)
  printable _ := true
  normalize body := body

theorem trailMonitor_injective : Function.Injective trailMonitor.sha256 := by
  refine (Equiv.injective _).comp ((Equiv.injective _).comp fun s t h => ?_)
  have hlist := congrArg String.toList (show "0" ++ s = "0" ++ t from h)
  rw [String.toList_append, String.toList_append] at hlist
  exact String.toList_inj.mp (List.append_cancel_left hlist)

theorem not_isSentinel_zero (s : String) : ¬IsSentinel ("0" ++ s) := by
  intro h
  rw [IsSentinel, String.toList_append] at h
  obtain ⟨l, hl⟩ := h
  cases hl

theorem not_isSentinel_swap {a b s : String} (ha : ¬IsSentinel a) (hb : ¬IsSentinel b)
    (hs : ¬IsSentinel s) : ¬IsSentinel (Equiv.swap a b s) := by
  rw [Equiv.swap_apply_def]
  split_ifs
  · exact hb
  · exact ha
  · exact hs

theorem trailMonitor_not_isSentinel (text : String) : ¬IsSentinel (trailMonitor.sha256 text) :=
  not_isSentinel_swap (by decide) (by decide)
    (not_isSentinel_swap (by decide) (by decide) (not_isSentinel_zero text))

/-- A change, with a failure of another endpoint before it. -/
theorem trail_replays_change :
    hashOf trailMonitor sampleOk =
      "4820ece8d3b96b22da666d3f7aab400cbd7bf522a6472054bd61d6217ab753dc" ∧
    hashOf trailMonitor sampleChanged =
      "c77139135e342f4ffc3ae83481220e6580175614311a15b3db5357a4837b398e" ∧
    ((monitor trailMonitor [(7, sampleOk), (8, sampleFailed), (7, sampleChanged)]).trailOf 7 0).map
      Diff.changeType = [.typeChanged] ∧
    ∃ row, latest (monitor trailMonitor
        [(7, sampleOk), (8, sampleFailed), (7, sampleChanged)]).snapshots 7 = some row ∧
      replay (typesOf (nodesOf trailMonitor sampleOk))
          ((monitor trailMonitor
            [(7, sampleOk), (8, sampleFailed), (7, sampleChanged)]).trailOf 7 0) =
        some (typesOf row.oldNodes) := by
  refine ⟨by decide +kernel, by decide +kernel, by decide +kernel, ?_⟩
  refine trail_replays trailMonitor_injective trailMonitor_not_isSentinel [] rfl
    [(8, sampleFailed), (7, sampleChanged)] fun e he heq => ?_
  rcases List.mem_cons.mp he with rfl | he
  · exact absurd heq (by decide)
  · obtain rfl := List.mem_singleton.mp he
    rfl

end Driftgate.Monitor
