import Driftgate.Lib.LastBinding
import Driftgate.Schema.Payload
import Mathlib.Data.List.Induction
import Mathlib.Data.List.Nodup

/-!
# The registry file of the monitor

Every run of the monitor starts by loading the file of endpoints into `api_endpoints`. The endpoints
are matched by name with those of the table at the start of the load, so an entry with a new name
always adds a row, also when an earlier entry has added one of that name; the unique constraint then
fails the run. Two entries for a name that the table has are both applied to its row, and the run
checks that endpoint twice, both times as the later entry has it. Nothing is ever removed from the
table: an endpoint that has left the file stays as it was, and is not checked.

An entry without a name, a provider or a url, or with a value of another type, is not part of the
model: it fails the run before anything is written. Columns with timestamps are left out.
-/

namespace Driftgate.Monitor

open Driftgate.Lib Driftgate.Schema

/-! ### Environment variables -/

/-- A character of a variable name: `\w` in ASCII. -/
def isWord (c : Char) : Bool := c.isAlphanum || c = '_'

/-- What follows a dollar sign: the name of a variable, the text it was written as, and the rest. -/
def scanVariable (cs : List Char) : Option (List Char × List Char × List Char) :=
  match cs with
  | '{' :: inner =>
    if '}' ∈ inner then
      let name := inner.takeWhile (· ≠ '}')
      some (name, '{' :: name ++ ['}'], (inner.dropWhile (· ≠ '}')).tail)
    else none
  | cs =>
    if cs.takeWhile isWord = [] then none
    else some (cs.takeWhile isWord, cs.takeWhile isWord, cs.dropWhile isWord)

/-- `os.path.expandvars`, with a bound on the number of characters left: a variable that is not set
stays as it is, and the value of one that is set is not expanded again. -/
def expandFrom (environ : String → Option String) : ℕ → List Char → List Char
  | 0, cs => cs
  | _, [] => []
  | fuel + 1, c :: cs =>
    if c = '$' then
      match scanVariable cs with
      | some (name, written, rest) =>
        match environ (String.ofList name) with
        | some value => value.toList ++ expandFrom environ fuel rest
        | none => '$' :: written ++ expandFrom environ fuel rest
      | none => c :: expandFrom environ fuel cs
    else c :: expandFrom environ fuel cs

def expandvars (environ : String → Option String) (s : String) : String :=
  String.ofList (expandFrom environ s.toList.length s.toList)

mutual

/-- `_expand_env` -/
def expandEnv (environ : String → Option String) : Json → Json
  | .str s => .str (expandvars environ s)
  | .obj members => .obj (expandMembers environ members)
  | v => v

def expandMembers (environ : String → Option String) : List (String × Json) → List (String × Json)
  | [] => []
  | (k, v) :: members => (k, expandEnv environ v) :: expandMembers environ members

end

/-! ### The table and the file -/

/-- A row of `api_endpoints`. -/
structure ApiEndpoint where
  id : ℕ
  name : String
  provider : String := ""
  url : String := ""
  method : String := ""
  headersJson : Json := .obj []
  isActive : Bool := true

/-- An entry of the file. -/
structure ApiEntry where
  name : String
  provider : String
  url : String
  method : Option String := none
  headers : Option Json := none
  isActive : Option Bool := none

/-- The variables of the process and `str.upper`. -/
structure LoaderEnv where
  environ : String → Option String
  upper : String → String

/-- The table, and an id that no row has been given. -/
structure Registry where
  rows : List ApiEndpoint := []
  nextId : ℕ := 0

/-- Names are unique, and so are ids. -/
structure Registry.Wf (r : Registry) : Prop where
  names : (r.rows.map ApiEndpoint.name).Nodup
  ids : (r.rows.map ApiEndpoint.id).Nodup
  fresh : ∀ row ∈ r.rows, row.id < r.nextId

/-! ### The load -/

section Loader

variable (env : LoaderEnv)

/-- `(entry.get("method") or "GET").upper()` -/
def ApiEntry.upperMethod (entry : ApiEntry) : String :=
  env.upper (match entry.method with
    | some m => if m = "" then "GET" else m
    | none => "GET")

/-- `_expand_env(entry.get("headers") or {})` -/
def ApiEntry.expandedHeaders (entry : ApiEntry) : Json :=
  expandEnv env.environ (match entry.headers with
    | some v => if v.truthy then v else .obj []
    | none => .obj [])

/-- The columns that an entry sets. -/
def ApiEntry.apply (entry : ApiEntry) (ep : ApiEndpoint) : ApiEndpoint :=
  { ep with
    provider := entry.provider
    url := entry.url
    method := entry.upperMethod env
    headersJson := entry.expandedHeaders env
    isActive := entry.isActive.getD true }

/-- The session while the file is read: the rows of the table, the rows to be inserted, and the ids
of the endpoints of the entries so far. -/
structure Loading where
  rows : List ApiEndpoint
  added : List ApiEndpoint := []
  nextId : ℕ
  endpoints : List ℕ := []

/-- The body of the loop over the entries. -/
def Loading.entry (s : Loading) (entry : ApiEntry) : Loading :=
  match s.rows.find? fun ep => ep.name = entry.name with
  | some ep =>
    { s with
      rows := s.rows.map fun row => if row.id = ep.id then entry.apply env row else row
      endpoints := s.endpoints ++ [ep.id] }
  | none =>
    { s with
      added := s.added ++ [entry.apply env { id := s.nextId, name := entry.name }]
      nextId := s.nextId + 1
      endpoints := s.endpoints ++ [s.nextId] }

def Loading.load (r : Registry) (entries : List ApiEntry) : Loading :=
  entries.foldl (Loading.entry env) ⟨r.rows, [], r.nextId, []⟩

/-- `upsert_endpoints`: the table after the flush and the active endpoints of the file, or nothing
when the unique constraint fails. -/
def upsertEndpoints (r : Registry) (entries : List ApiEntry) :
    Option (Registry × List ApiEndpoint) :=
  let s := Loading.load env r entries
  let rows := s.rows ++ s.added
  if (rows.map ApiEndpoint.name).Nodup then
    some (⟨rows, s.nextId⟩,
      (s.endpoints.filterMap fun id => rows.find? fun ep => ep.id = id).filter ApiEndpoint.isActive)
  else none

/-! ### What a load does -/

/-- The entry of a name that counts is the last one. -/
def lastEntry (name : String) (entries : List ApiEntry) : Option ApiEntry :=
  lastBinding name (entries.map fun e => (e.name, e))

theorem lastEntry_append (name : String) (entries entries' : List ApiEntry) :
    lastEntry name (entries ++ entries') =
      (lastEntry name entries').or (lastEntry name entries) := by
  rw [lastEntry, List.map_append, lastBinding_append]
  rfl

theorem lastEntry_singleton (name : String) (e : ApiEntry) :
    lastEntry name [e] = if e.name = name then some e else none := rfl

theorem mem_of_lastEntry {name : String} {entries : List ApiEntry} {e : ApiEntry}
    (h : lastEntry name entries = some e) : e ∈ entries ∧ e.name = name := by
  obtain ⟨e', he', heq⟩ := List.mem_map.mp (mem_of_lastBinding h)
  obtain ⟨rfl, rfl⟩ := Prod.mk.inj heq
  exact ⟨he', rfl⟩

theorem lastEntry_eq_none {name : String} {entries : List ApiEntry} :
    lastEntry name entries = none ↔ name ∉ entries.map ApiEntry.name := by
  rw [lastEntry, lastBinding_eq_none, List.map_map]
  rfl

/-- A row of the table after the entries. -/
def settled (entries : List ApiEntry) (row : ApiEndpoint) : ApiEndpoint :=
  match lastEntry row.name entries with
  | some e => e.apply env row
  | none => row

@[simp] theorem settled_id (entries : List ApiEntry) (row : ApiEndpoint) :
    (settled env entries row).id = row.id := by
  rw [settled]
  split <;> rfl

@[simp] theorem settled_name (entries : List ApiEntry) (row : ApiEndpoint) :
    (settled env entries row).name = row.name := by
  rw [settled]
  split <;> rfl

theorem settled_append_self (entries : List ApiEntry) {e : ApiEntry} {row : ApiEndpoint}
    (h : e.name = row.name) :
    settled env (entries ++ [e]) row = e.apply env (settled env entries row) := by
  rw [settled, lastEntry_append, lastEntry_singleton, if_pos h, Option.some_or, settled]
  cases lastEntry row.name entries <;> rfl

theorem settled_append_of_ne (entries : List ApiEntry) {e : ApiEntry} {row : ApiEndpoint}
    (h : e.name ≠ row.name) : settled env (entries ++ [e]) row = settled env entries row := by
  rw [settled, lastEntry_append, lastEntry_singleton, if_neg h, Option.none_or, settled]

/-- The names that an entry adds to the table. -/
def newNames (r : Registry) (entries : List ApiEntry) : List String :=
  (entries.map ApiEntry.name).filter fun name => name ∉ r.rows.map ApiEndpoint.name

/-- The session after some entries: the rows of the table have the columns of their last entry, and
every entry with a new name has added a row. -/
structure Loading.Inv (r : Registry) (entries : List ApiEntry) (s : Loading) : Prop where
  rows : s.rows = r.rows.map (settled env entries)
  added : ∀ row ∈ s.added, ∃ e ∈ entries, row = e.apply env { id := row.id, name := e.name }
  names : s.added.map ApiEndpoint.name = newNames r entries
  ids : (s.added.map ApiEndpoint.id).Nodup
  count : s.nextId = r.nextId + s.added.length
  fresh : ∀ row ∈ s.added, r.nextId ≤ row.id ∧ row.id < s.nextId
  endpoints : List.Forall₂ (fun e id => ∃ row ∈ s.rows ++ s.added, row.id = id ∧ row.name = e.name)
    entries s.endpoints

variable {env} {r : Registry} {entries : List ApiEntry}

theorem Loading.Inv.start (r : Registry) : Loading.Inv env r [] ⟨r.rows, [], r.nextId, []⟩ where
  rows := (List.map_id r.rows).symm
  added := by simp
  names := rfl
  ids := List.nodup_nil
  count := rfl
  fresh := by simp
  endpoints := .nil

theorem newNames_append (r : Registry) (entries : List ApiEntry) (e : ApiEntry) :
    newNames r (entries ++ [e]) = newNames r entries ++
      if e.name ∈ r.rows.map ApiEndpoint.name then [] else [e.name] := by
  rw [newNames, List.map_append, List.filter_append]
  by_cases h : e.name ∈ r.rows.map ApiEndpoint.name
  · rw [if_pos h]
    exact congrArg _ (List.filter_cons_of_neg (by simpa using h))
  · rw [if_neg h]
    exact congrArg _ (List.filter_cons_of_pos (by simpa using h))

/-- Rows that keep their ids and names still answer for the entries so far. -/
theorem Loading.Inv.endpoints_of {s : Loading} (h : Loading.Inv env r entries s)
    {rows : List ApiEndpoint} (hrows : ∀ row ∈ s.rows ++ s.added, ∃ row' ∈ rows,
      row'.id = row.id ∧ row'.name = row.name) {e : ApiEntry} {id : ℕ}
    (he : ∃ row ∈ rows, row.id = id ∧ row.name = e.name) :
    List.Forall₂ (fun e id => ∃ row ∈ rows, row.id = id ∧ row.name = e.name)
      (entries ++ [e]) (s.endpoints ++ [id]) := by
  refine List.rel_append (h.endpoints.imp fun e' id' hrow => ?_) (.cons he .nil)
  obtain ⟨row, hmem, hid, hname⟩ := hrow
  obtain ⟨row', hmem', hid', hname'⟩ := hrows row hmem
  exact ⟨row', hmem', hid'.trans hid, hname'.trans hname⟩

theorem Loading.Inv.entry {s : Loading} (hwf : r.Wf) (h : Loading.Inv env r entries s)
    (e : ApiEntry) : Loading.Inv env r (entries ++ [e]) (s.entry env e) := by
  have hnames : s.rows.map ApiEndpoint.name = r.rows.map ApiEndpoint.name := by
    rw [h.rows, List.map_map]
    exact List.map_congr_left fun row _ => settled_name env entries row
  have hids : s.rows.map ApiEndpoint.id = r.rows.map ApiEndpoint.id := by
    rw [h.rows, List.map_map]
    exact List.map_congr_left fun row _ => settled_id env entries row
  have hadded : ∀ row ∈ s.added, ∃ e' ∈ entries ++ [e],
      row = e'.apply env { id := row.id, name := e'.name } := by
    intro row hrow
    obtain ⟨e', he', heq⟩ := h.added row hrow
    exact ⟨e', List.mem_append_left _ he', heq⟩
  rw [Loading.entry]
  cases hfind : s.rows.find? fun ep => ep.name = e.name with
  | some ep =>
    have hep := List.mem_of_find?_eq_some hfind
    have hname : ep.name = e.name := by simpa using List.find?_some hfind
    -- the row with the id of the endpoint is the one with the name of the entry
    have hsame : ∀ row ∈ s.rows, row.id = ep.id ↔ e.name = row.name := by
      intro row hrow
      constructor
      · intro hid
        rw [List.inj_on_of_nodup_map (hids ▸ hwf.ids) hrow hep hid, hname]
      · intro heq
        rw [List.inj_on_of_nodup_map (hnames ▸ hwf.names) hrow hep (heq.symm.trans hname.symm)]
    have hold : e.name ∈ r.rows.map ApiEndpoint.name := by
      rw [← hnames, ← hname]
      exact List.mem_map_of_mem hep
    have hkeep : ∀ row : ApiEndpoint,
        (if row.id = ep.id then e.apply env row else row).id = row.id ∧
        (if row.id = ep.id then e.apply env row else row).name = row.name := by
      intro row
      split <;> exact ⟨rfl, rfl⟩
    refine ⟨?_, hadded, ?_, h.ids, h.count, h.fresh, h.endpoints_of (fun row hrow => ?_) ?_⟩
    · show s.rows.map _ = _
      rw [h.rows] at hsame ⊢
      rw [List.map_map]
      refine List.map_congr_left fun row hrow => ?_
      have hiff := hsame _ (List.mem_map_of_mem hrow)
      rw [settled_name] at hiff
      show (if _ then _ else _) = _
      by_cases heq : e.name = row.name
      · rw [if_pos (hiff.mpr heq), settled_append_self env entries heq]
      · rw [if_neg (mt hiff.mp heq), settled_append_of_ne env entries heq]
    · rw [newNames_append, if_pos hold, List.append_nil]
      exact h.names
    · rcases List.mem_append.mp hrow with hrow | hrow
      · exact ⟨_, List.mem_append_left _ (List.mem_map_of_mem hrow), hkeep row⟩
      · exact ⟨row, List.mem_append_right _ hrow, rfl, rfl⟩
    · exact ⟨_, List.mem_append_left _ (List.mem_map_of_mem hep), (hkeep ep).1,
        (hkeep ep).2.trans hname⟩
  | none =>
    have hno : ∀ row ∈ s.rows, row.name ≠ e.name := by
      simpa using hfind
    have hnew : e.name ∉ r.rows.map ApiEndpoint.name := by
      rw [← hnames]
      intro hmem
      obtain ⟨row, hrow, heq⟩ := List.mem_map.mp hmem
      exact hno row hrow heq
    refine ⟨?_, fun row hrow => ?_, ?_, ?_, ?_, fun row hrow => ?_,
      h.endpoints_of (fun row hrow => ⟨row, ?_, rfl, rfl⟩) ?_⟩
    · show s.rows = _
      rw [h.rows]
      refine List.map_congr_left fun row hrow => ?_
      refine (settled_append_of_ne env entries fun heq => ?_).symm
      exact hnew (heq ▸ List.mem_map_of_mem hrow)
    · rcases List.mem_append.mp hrow with hrow | hrow
      · exact hadded row hrow
      · obtain rfl := List.mem_singleton.mp hrow
        exact ⟨e, List.mem_append_right _ (List.mem_singleton_self e), rfl⟩
    · rw [newNames_append, if_neg hnew, ← h.names, List.map_append]
      rfl
    · rw [List.map_append, List.nodup_append]
      refine ⟨h.ids, List.nodup_singleton _, fun a ha b hb => ?_⟩
      obtain ⟨row, hrow, rfl⟩ := List.mem_map.mp ha
      obtain rfl := List.mem_singleton.mp hb
      exact Nat.ne_of_lt (h.fresh row hrow).2
    · show s.nextId + 1 = _
      rw [h.count, List.length_append, List.length_singleton, Nat.add_assoc]
    · rcases List.mem_append.mp hrow with hrow | hrow
      · exact ⟨(h.fresh row hrow).1, Nat.lt_succ_of_lt (h.fresh row hrow).2⟩
      · obtain rfl := List.mem_singleton.mp hrow
        refine ⟨?_, Nat.lt_succ_self _⟩
        show r.nextId ≤ s.nextId
        rw [h.count]
        exact Nat.le_add_right ..
    · rcases List.mem_append.mp hrow with hrow | hrow
      · exact List.mem_append_left _ hrow
      · exact List.mem_append_right _ (List.mem_append_left _ hrow)
    · exact ⟨_, List.mem_append_right _ (List.mem_append_right _ (List.mem_singleton_self _)),
        rfl, rfl⟩

/-- What holds after all entries. -/
theorem Loading.load_inv (env : LoaderEnv) (hwf : r.Wf) (entries : List ApiEntry) :
    Loading.Inv env r entries (Loading.load env r entries) := by
  induction entries using List.reverseRecOn with
  | nil => exact .start r
  | append_singleton entries e ih =>
    rw [Loading.load, List.foldl_append]
    exact ih.entry hwf e

/-- The endpoint of a name. -/
def Registry.named (r : Registry) (name : String) : Option ApiEndpoint :=
  r.rows.find? fun ep => ep.name = name

/-- A row is found by a column whose values are unique. -/
theorem find?_of_nodup {α β : Type*} [DecidableEq β] {f : α → β} {l : List α}
    (hn : (l.map f).Nodup) {a : α} (h : a ∈ l) : (l.find? fun b => f b = f a) = some a := by
  cases hfind : l.find? fun b => f b = f a with
  | none =>
    have hno := List.find?_eq_none.mp hfind a h
    exact absurd (decide_eq_true rfl) hno
  | some b =>
    have heq : f b = f a := by simpa using List.find?_some hfind
    rw [List.inj_on_of_nodup_map hn (List.mem_of_find?_eq_some hfind) h heq]

theorem Registry.Wf.named_eq {r : Registry} (hwf : r.Wf) {row : ApiEndpoint} (h : row ∈ r.rows) :
    r.named row.name = some row :=
  find?_of_nodup hwf.names h

theorem Registry.mem_of_named {r : Registry} {name : String} {row : ApiEndpoint}
    (h : r.named name = some row) : row ∈ r.rows ∧ row.name = name :=
  ⟨List.mem_of_find?_eq_some h, by simpa using List.find?_some h⟩

/-- What a load that goes through leaves. -/
structure Loaded (env : LoaderEnv) (r : Registry) (entries : List ApiEntry) (r' : Registry)
    (endpoints : List ApiEndpoint) : Prop where
  wf : r'.Wf
  kept : ∀ row ∈ r.rows, settled env entries row ∈ r'.rows
  origin : ∀ row ∈ r'.rows, (∃ old ∈ r.rows, row = settled env entries old) ∨
    row.name ∉ r.rows.map ApiEndpoint.name ∧ ∃ e ∈ entries,
      row = e.apply env { id := row.id, name := e.name }
  once : (newNames r entries).Nodup
  endpoints : endpoints =
    (entries.filterMap fun e => r'.named e.name).filter ApiEndpoint.isActive
  named : ∀ e ∈ entries, ∃ row ∈ r'.rows, row.name = e.name

/-- The ids of the entries find the rows with their names. -/
theorem filterMap_endpoints {r' : Registry} (hwf : r'.Wf) {entries : List ApiEntry} {ids : List ℕ}
    (h : List.Forall₂ (fun e id => ∃ row ∈ r'.rows, row.id = id ∧ row.name = e.name) entries ids) :
    (ids.filterMap fun id => r'.rows.find? fun ep => ep.id = id) =
      entries.filterMap fun e => r'.named e.name := by
  induction h with
  | nil => rfl
  | cons hrow _ ih =>
    obtain ⟨row, hmem, rfl, hname⟩ := hrow
    have hid : (r'.rows.find? fun ep => ep.id = row.id) = some row := find?_of_nodup hwf.ids hmem
    rw [List.filterMap_cons, List.filterMap_cons, hid, ← hname, hwf.named_eq hmem, ih]

theorem Loading.Inv.loaded {s : Loading} (hwf : r.Wf) (h : Loading.Inv env r entries s)
    (hnodup : ((s.rows ++ s.added).map ApiEndpoint.name).Nodup) :
    Loaded env r entries ⟨s.rows ++ s.added, s.nextId⟩
      ((s.endpoints.filterMap fun id => (s.rows ++ s.added).find? fun ep => ep.id = id).filter
        ApiEndpoint.isActive) := by
  have hids : s.rows.map ApiEndpoint.id = r.rows.map ApiEndpoint.id := by
    rw [h.rows, List.map_map]
    exact List.map_congr_left fun row _ => settled_id env entries row
  have hold : ∀ row ∈ s.rows, row.id < r.nextId := by
    intro row hrow
    have hmem : row.id ∈ r.rows.map ApiEndpoint.id := hids ▸ List.mem_map_of_mem hrow
    obtain ⟨old, hmem, heq⟩ := List.mem_map.mp hmem
    exact heq ▸ hwf.fresh old hmem
  have hwf' : Registry.Wf ⟨s.rows ++ s.added, s.nextId⟩ := by
    refine ⟨hnodup, ?_, fun row hrow => ?_⟩
    · show ((s.rows ++ s.added).map ApiEndpoint.id).Nodup
      rw [List.map_append, List.nodup_append]
      refine ⟨hids ▸ hwf.ids, h.ids, fun a ha b hb => ?_⟩
      obtain ⟨row, hrow, rfl⟩ := List.mem_map.mp ha
      obtain ⟨row', hrow', rfl⟩ := List.mem_map.mp hb
      exact Nat.ne_of_lt (Nat.lt_of_lt_of_le (hold row hrow) (h.fresh row' hrow').1)
    · rcases List.mem_append.mp hrow with hrow | hrow
      · refine Nat.lt_of_lt_of_le (hold row hrow) ?_
        show r.nextId ≤ s.nextId
        rw [h.count]
        exact Nat.le_add_right ..
      · exact (h.fresh row hrow).2
  rw [List.map_append] at hnodup
  have hadded : (newNames r entries).Nodup := by
    rw [← h.names]
    exact hnodup.of_append_right
  refine ⟨hwf', fun row hrow => ?_, fun row hrow => ?_, hadded,
    congrArg _ (filterMap_endpoints hwf' h.endpoints), fun e he => ?_⟩
  · refine List.mem_append_left _ ?_
    rw [h.rows]
    exact List.mem_map_of_mem hrow
  · rcases List.mem_append.mp hrow with hrow | hrow
    · rw [h.rows] at hrow
      obtain ⟨old, hmem, heq⟩ := List.mem_map.mp hrow
      exact .inl ⟨old, hmem, heq.symm⟩
    · refine .inr ⟨fun hmem => ?_, h.added row hrow⟩
      have hname : row.name ∈ newNames r entries := h.names ▸ List.mem_map_of_mem hrow
      exact of_decide_eq_true (List.mem_filter.mp hname).2 hmem
  · obtain ⟨i, hi, rfl⟩ := List.getElem_of_mem he
    obtain ⟨hlen, hall⟩ := List.forall₂_iff_get.mp h.endpoints
    obtain ⟨row, hmem, -, hname⟩ := hall i hi (hlen ▸ hi)
    exact ⟨row, hmem, hname⟩

/-- A load goes through exactly if no name that is new to the table comes twice. -/
theorem upsertEndpoints_isSome (env : LoaderEnv) (hwf : r.Wf) (entries : List ApiEntry) :
    (upsertEndpoints env r entries).isSome = true ↔ (newNames r entries).Nodup := by
  have hinv := Loading.load_inv env hwf entries
  have hnames : (Loading.load env r entries).rows.map ApiEndpoint.name =
      r.rows.map ApiEndpoint.name := by
    rw [hinv.rows, List.map_map]
    exact List.map_congr_left fun row _ => settled_name env entries row
  have hsplit : (((Loading.load env r entries).rows ++ (Loading.load env r entries).added).map
      ApiEndpoint.name).Nodup ↔ (newNames r entries).Nodup := by
    rw [List.map_append, List.nodup_append, hnames, hinv.names]
    refine ⟨fun h => h.2.1, fun h => ⟨hwf.names, h, fun a ha b hb heq => ?_⟩⟩
    exact of_decide_eq_true (List.mem_filter.mp hb).2 (heq ▸ ha)
  rw [← hsplit, upsertEndpoints]
  split
  next h => exact iff_of_true rfl h
  next h => exact iff_of_false (by simp) h

theorem upsertEndpoints_loaded (hwf : r.Wf) {r' : Registry} {endpoints : List ApiEndpoint}
    (h : upsertEndpoints env r entries = some (r', endpoints)) :
    Loaded env r entries r' endpoints := by
  have hinv := Loading.load_inv env hwf entries
  rw [upsertEndpoints] at h
  split at h
  next hnodup =>
    obtain ⟨rfl, rfl⟩ := Prod.mk.inj (Option.some.inj h)
    exact hinv.loaded hwf hnodup
  next => cases h

/-! ### The table as a dictionary -/

/-- What the monitor knows of an endpoint. -/
structure Settings where
  provider : String
  url : String
  method : String
  headersJson : Json
  isActive : Bool

def ApiEndpoint.settings (row : ApiEndpoint) : Settings :=
  ⟨row.provider, row.url, row.method, row.headersJson, row.isActive⟩

def ApiEntry.settings (env : LoaderEnv) (e : ApiEntry) : Settings :=
  ⟨e.provider, e.url, e.upperMethod env, e.expandedHeaders env, e.isActive.getD true⟩

/-- The settings of a name. -/
def Registry.settingsOf (r : Registry) (name : String) : Option Settings :=
  (r.named name).map ApiEndpoint.settings

theorem Registry.named_eq_none {r : Registry} {name : String} :
    r.named name = none ↔ name ∉ r.rows.map ApiEndpoint.name := by
  simp [Registry.named]

/-- An entry with a new name is the only one of that name. -/
theorem lastEntry_of_new (honce : (newNames r entries).Nodup) {e : ApiEntry} (he : e ∈ entries)
    (hnew : e.name ∉ r.rows.map ApiEndpoint.name) : lastEntry e.name entries = some e := by
  rw [newNames, List.filter_map] at honce
  have hmem : ∀ e' ∈ entries, e'.name = e.name →
      e' ∈ entries.filter ((fun name => decide (name ∉ r.rows.map ApiEndpoint.name)) ∘
        ApiEntry.name) := by
    intro e' he' heq
    refine List.mem_filter.mpr ⟨he', ?_⟩
    show decide (e'.name ∉ _) = true
    rw [heq]
    exact decide_eq_true hnew
  cases hlast : lastEntry e.name entries with
  | none => exact absurd (List.mem_map_of_mem he) (lastEntry_eq_none.mp hlast)
  | some e' =>
    obtain ⟨he', hname⟩ := mem_of_lastEntry hlast
    rw [List.inj_on_of_nodup_map honce (hmem e' he' hname) (hmem e he rfl) hname]

/-- **A load overrides.** The settings of a name are those of its last entry, or those it had. -/
theorem Loaded.settingsOf (hwf : r.Wf) {r' : Registry} {endpoints : List ApiEndpoint}
    (h : Loaded env r entries r' endpoints) (name : String) :
    r'.settingsOf name =
      ((lastEntry name entries).map (ApiEntry.settings env)).or (r.settingsOf name) := by
  cases hrow : r'.named name with
  | none =>
    have hno := Registry.named_eq_none.mp hrow
    have hlast : lastEntry name entries = none := by
      cases hlast : lastEntry name entries with
      | none => rfl
      | some e =>
        obtain ⟨he, rfl⟩ := mem_of_lastEntry hlast
        obtain ⟨row, hmem, hname⟩ := h.named e he
        exact absurd (hname ▸ List.mem_map_of_mem hmem) hno
    have hold : r.named name = none := by
      refine Registry.named_eq_none.mpr fun hmem => hno ?_
      obtain ⟨row, hold, rfl⟩ := List.mem_map.mp hmem
      rw [← settled_name env entries row]
      exact List.mem_map_of_mem (h.kept row hold)
    rw [Registry.settingsOf, hrow, hlast, Registry.settingsOf, hold]
    rfl
  | some row =>
    obtain ⟨hmem, rfl⟩ := Registry.mem_of_named hrow
    rw [Registry.settingsOf, hrow]
    rcases h.origin row hmem with ⟨old, hold, rfl⟩ | ⟨hnew, e, he, heq⟩
    · rw [Registry.settingsOf, settled_name, hwf.named_eq hold, settled]
      cases lastEntry old.name entries <;> rfl
    · have hname : row.name = e.name := congrArg ApiEndpoint.name heq
      rw [hname] at hnew ⊢
      rw [lastEntry_of_new h.once he hnew, heq]
      rfl

/-- **Loading again.** A file that has been loaded can be loaded again: nothing changes, and the
same endpoints are checked. -/
theorem Loaded.again {r' : Registry} {endpoints : List ApiEndpoint}
    (h : Loaded env r entries r' endpoints) :
    upsertEndpoints env r' entries = some (r', endpoints) := by
  have hall : newNames r' entries = [] := by
    refine List.filter_eq_nil_iff.mpr fun name hname => ?_
    obtain ⟨e, he, rfl⟩ := List.mem_map.mp hname
    obtain ⟨row, hmem, heq⟩ := h.named e he
    have hold : e.name ∈ r'.rows.map ApiEndpoint.name := heq ▸ List.mem_map_of_mem hmem
    simpa using hold
  -- every row has the columns of its last entry already
  have hsettled : ∀ row ∈ r'.rows, settled env entries row = row := by
    intro row hmem
    rcases h.origin row hmem with ⟨old, -, rfl⟩ | ⟨hnew, e, he, heq⟩
    · have hname := settled_name env entries old
      rw [settled, hname]
      rw [settled]
      cases lastEntry old.name entries <;> rfl
    · have hname : row.name = e.name := congrArg ApiEndpoint.name heq
      rw [settled, hname, lastEntry_of_new h.once he (hname ▸ hnew), heq]
      rfl
  have hinv := Loading.load_inv env h.wf entries
  have hrows : (Loading.load env r' entries).rows = r'.rows := by
    rw [hinv.rows]
    exact (List.map_congr_left hsettled).trans (List.map_id _)
  have hadded : (Loading.load env r' entries).added = [] := by
    have hnone := hinv.names
    rw [hall] at hnone
    exact List.map_eq_nil_iff.mp hnone
  have hnext : (Loading.load env r' entries).nextId = r'.nextId := by
    rw [hinv.count, hadded]
    rfl
  obtain ⟨⟨r'', endpoints'⟩, hagain⟩ := Option.isSome_iff_exists.mp
    ((upsertEndpoints_isSome env h.wf entries).mpr (hall ▸ List.nodup_nil))
  have hsame : r'' = r' := by
    rw [upsertEndpoints] at hagain
    split at hagain
    next =>
      obtain ⟨rfl, -⟩ := Prod.mk.inj (Option.some.inj hagain)
      rw [hrows, hadded, hnext, List.append_nil]
    next => cases hagain
  subst hsame
  rw [hagain, (upsertEndpoints_loaded h.wf hagain).endpoints, h.endpoints]

/-- **One load.** The file is loaded exactly if no name that is new to the table comes twice in it.
Then the run checks the active endpoints of the file in its order, each as its last entry has it,
and loading the file again changes nothing. -/
theorem registry_load (env : LoaderEnv) (hwf : r.Wf) (entries : List ApiEntry) :
    ((upsertEndpoints env r entries).isSome = true ↔ (newNames r entries).Nodup) ∧
    ∀ r' endpoints, upsertEndpoints env r entries = some (r', endpoints) →
      endpoints = (entries.filterMap fun e => r'.named e.name).filter ApiEndpoint.isActive ∧
      (∀ e ∈ entries, r'.settingsOf e.name =
        (lastEntry e.name entries).map (ApiEntry.settings env)) ∧
      upsertEndpoints env r' entries = some (r', endpoints) := by
  refine ⟨upsertEndpoints_isSome env hwf entries, fun r' endpoints h => ?_⟩
  have hloaded := upsertEndpoints_loaded hwf h
  refine ⟨hloaded.endpoints, fun e he => ?_, hloaded.again⟩
  rw [hloaded.settingsOf hwf]
  cases hlast : lastEntry e.name entries with
  | none => exact absurd (List.mem_map_of_mem he) (lastEntry_eq_none.mp hlast)
  | some e' => rfl

/-! ### Any number of loads -/

/-- A load by a run that ends with a commit or with a rollback. -/
def reload (env : LoaderEnv) (r : Registry) (load : List ApiEntry × Bool) : Registry :=
  match upsertEndpoints env r load.1 with
  | some (r', _) => if load.2 then r' else r
  | none => r

/-- The entries of the loads that were committed, one file after the other. -/
def committedEntries (env : LoaderEnv) : Registry → List (List ApiEntry × Bool) → List ApiEntry
  | _, [] => []
  | r, load :: loads =>
    (if load.2 ∧ (upsertEndpoints env r load.1).isSome then load.1 else []) ++
      committedEntries env (reload env r load) loads

/-- **The table over all runs.** After any loads, committed or not, names and ids are unique, every
endpoint has kept its id and its name, and the settings of a name are those of its last committed
entry. -/
theorem registry_history (env : LoaderEnv) (hwf : r.Wf) (loads : List (List ApiEntry × Bool)) :
    (loads.foldl (reload env) r).Wf ∧
    (∀ row ∈ r.rows, ∃ row' ∈ (loads.foldl (reload env) r).rows,
      row'.id = row.id ∧ row'.name = row.name) ∧
    ∀ name, (loads.foldl (reload env) r).settingsOf name =
      ((lastEntry name (committedEntries env r loads)).map (ApiEntry.settings env)).or
        (r.settingsOf name) := by
  induction loads generalizing r with
  | nil => exact ⟨hwf, fun row hrow => ⟨row, hrow, rfl, rfl⟩, fun name => rfl⟩
  | cons load loads ih =>
    rw [List.foldl_cons]
    by_cases hcommit : load.2 = true ∧ (upsertEndpoints env r load.1).isSome = true
    · obtain ⟨⟨r', endpoints⟩, hload⟩ := Option.isSome_iff_exists.mp hcommit.2
      have hloaded := upsertEndpoints_loaded hwf hload
      have hreload : reload env r load = r' := by
        rw [reload, hload]
        exact if_pos hcommit.1
      obtain ⟨hwf', hkept, hsettings⟩ := ih hloaded.wf
      rw [hreload]
      refine ⟨hwf', fun row hrow => ?_, fun name => ?_⟩
      · obtain ⟨row', hrow', hid, hname⟩ := hkept _ (hloaded.kept row hrow)
        exact ⟨row', hrow', hid.trans (settled_id ..), hname.trans (settled_name ..)⟩
      · rw [hsettings, committedEntries, if_pos hcommit, hreload, lastEntry_append,
          hloaded.settingsOf hwf, Option.map_or, Option.or_assoc]
    · have hreload : reload env r load = r := by
        rw [reload]
        cases hload : upsertEndpoints env r load.1 with
        | none => rfl
        | some result =>
          have hno : load.2 ≠ true := fun hc => hcommit ⟨hc, by rw [hload]; rfl⟩
          exact if_neg hno
      rw [hreload]
      obtain ⟨hwf', hkept, hsettings⟩ := ih hwf
      refine ⟨hwf', hkept, fun name => ?_⟩
      rw [hsettings, committedEntries, if_neg hcommit, hreload, List.nil_append]

end Loader

/-! ### Samples -/

def sampleEnv : LoaderEnv where
  environ name := if name = "TOKEN" then some "s3cret$TOKEN" else none
  upper s := s

def sampleEntry (name url : String) : ApiEntry where
  name := name
  provider := "local"
  url := url

theorem emptyRegistry_wf : ({} : Registry).Wf := ⟨.nil, .nil, by simp⟩

/-- Two files, and one whose run fails: the second one counts. -/
theorem registry_history_two : ((([([sampleEntry "a" "u1"], true), ([sampleEntry "a" "u2"], true),
    ([sampleEntry "a" "u3"], false)].foldl (reload sampleEnv) {}).settingsOf "a").map
      Settings.url) = some "u2" := by
  obtain ⟨-, -, hsettings⟩ := registry_history sampleEnv emptyRegistry_wf
    [([sampleEntry "a" "u1"], true), ([sampleEntry "a" "u2"], true),
      ([sampleEntry "a" "u3"], false)]
  rw [hsettings]
  rfl

/-- One entry of a new name is loaded, and two are not. -/
theorem registry_load_twice :
    (upsertEndpoints sampleEnv {} [sampleEntry "a" "u1"]).isSome = true ∧
    (upsertEndpoints sampleEnv {} [sampleEntry "a" "u1", sampleEntry "a" "u2"]).isSome = false := by
  refine ⟨(registry_load sampleEnv emptyRegistry_wf _).1.mpr (by decide), ?_⟩
  have hiff := (registry_load sampleEnv emptyRegistry_wf
    [sampleEntry "a" "u1", sampleEntry "a" "u2"]).1
  exact Bool.eq_false_of_not_eq_true fun h => absurd (hiff.mp h) (by decide)

/-- A value is not expanded again, and a variable that is not set stays. -/
example : expandvars sampleEnv.environ "Bearer $\x7bTOKEN\x7d $OTHER" =
    "Bearer s3cret$TOKEN $OTHER" := by
  decide

end Driftgate.Monitor
