import Driftgate.Runtime.Tables
import Driftgate.Schema.Jsonb

/-!
# The contract registry

`upsert_schema_version` registers a canonical schema with its endpoint: a fast look-up without a
lock, then an advisory lock on the endpoint, a second look, and two writes that make the new schema
the current version. All of it runs inside the transaction of the `/track` request, which ends
later; the advisory lock is held until then.

The schema is stored in a JSONB column, which reorders the keys of its objects; the record that is
returned with an insertion has the schema as it was computed.
-/

namespace Driftgate.Runtime

open Driftgate.ReadCommitted Driftgate.Schema

/-! ### Fingerprints -/

/-- The four hexadecimal digits of a UTF-16 code unit in a `\\u` escape. -/
def unicodeEscape (n : ℕ) : String := "\\u" ++ hex 4 n

/-- One character inside a JSON string with `ensure_ascii`. -/
def dumpsChar (c : Char) : String :=
  if c = '"' then "\\\""
  else if c = '\\' then "\\\\"
  else if c = '\n' then "\\n"
  else if c = '\r' then "\\r"
  else if c = '\t' then "\\t"
  else if c.toNat = 0x8 then "\\b"
  else if c.toNat = 0xc then "\\f"
  else if 0x20 ≤ c.toNat ∧ c.toNat ≤ 0x7e then String.singleton c
  else if c.toNat ≤ 0xffff then unicodeEscape c.toNat
  else
    -- characters outside the basic plane become a surrogate pair
    let n := c.toNat - 0x10000
    unicodeEscape (0xd800 + n / 0x400) ++ unicodeEscape (0xdc00 + n % 0x400)

def dumpsString (s : String) : String := "\"" ++ String.join (s.toList.map dumpsChar) ++ "\""

mutual

/-- `json.dumps(schema, sort_keys=True, separators=(",", ":"))`. -/
def dumps : CanonicalSchema → String
  | .text s => dumpsString s
  | .flag b => if b then "true" else "false"
  | .items l => "[" ++ ",".intercalate (dumpsItems l) ++ "]"
  | .members l => "\x7b" ++ ",".intercalate ((sortByKey (dumpsMembers l)).map Prod.snd) ++ "\x7d"

def dumpsItems : List CanonicalSchema → List String
  | [] => []
  | v :: l => dumps v :: dumpsItems l

def dumpsMembers : List (String × CanonicalSchema) → List (String × String)
  | [] => []
  | (k, v) :: l => (k, dumpsString k ++ ":" ++ dumps v) :: dumpsMembers l

end

/-- `fingerprint`. -/
def Config.fingerprint (cfg : Config) (schema : CanonicalSchema) : String :=
  cfg.sha256 (dumps schema)

/-! ### The advisory lock -/

/-- The value of a hexadecimal digit. -/
def hexDigit (c : Char) : ℕ :=
  if c.isDigit then c.toNat - '0'.toNat else c.toNat - 'a'.toNat + 10

/-- `int(digits, 16)`. -/
def ofHex (digits : List Char) : ℕ := digits.foldl (fun n c => 16 * n + hexDigit c) 0

/-- `_lock_id`. -/
def Config.lockId (cfg : Config) (key : EndpointKey) : ℕ :=
  let text := s!"{key.nameSpace}:{key.serviceName}:{key.httpMethod}:{key.routePath}"
  ofHex ((cfg.sha1 text).toList.take 16) % 2147483647

/-! ### Queries -/

/-- `endpoint_name`. -/
def EndpointKey.endpointName (key : EndpointKey) : String :=
  s!"{key.serviceName} {key.httpMethod} {key.routePath}"

/-- The endpoint of a key. -/
def Db.endpoint? (db : Db) (key : EndpointKey) : Option EndpointRow :=
  db.endpoints.find? (·.key = key)

/-- The row with the higher version, the earlier one if they agree. -/
def newer (best : Option VersionRow) (r : VersionRow) : Option VersionRow :=
  match best with
  | none => some r
  | some b => if b.version < r.version then some r else some b

/-- `get_current_schema`: of the current rows the one with the highest version. -/
def Db.currentSchema (db : Db) (endpointId : Uuid) : Option VersionRow :=
  (db.versions.filter fun r => r.endpointId = endpointId && r.isCurrent).foldl newer none

/-- The version registered under a fingerprint. -/
def Db.versionOf (db : Db) (endpointId : Uuid) (fingerprint : String) : Option VersionRow :=
  db.versions.find? fun r => r.endpointId = endpointId && r.fingerprint = fingerprint

/-- Whether a new row violates `UNIQUE(endpoint_id, version)` or
`UNIQUE(endpoint_id, fingerprint)`. -/
def Db.violatesUnique (db : Db) (row : VersionRow) : Bool :=
  db.versions.any fun r => r.endpointId = row.endpointId &&
    (r.version = row.version || r.fingerprint = row.fingerprint)

theorem foldl_newer_mem {rows : List VersionRow} {best : Option VersionRow} {c : VersionRow}
    (h : rows.foldl newer best = some c) : c ∈ rows ∨ best = some c := by
  induction rows generalizing best with
  | nil => exact .inr h
  | cons r rows ih =>
    rcases ih h with hc | hc
    · exact .inl (List.mem_cons_of_mem r hc)
    · cases best with
      | none => exact .inl (by simp [Option.some.inj hc])
      | some b =>
        simp only [newer] at hc
        split at hc
        · exact .inl (by simp [Option.some.inj hc])
        · exact .inr hc

theorem foldl_newer_isSome {rows : List VersionRow} {b : VersionRow} :
    (rows.foldl newer (some b)).isSome := by
  induction rows generalizing b with
  | nil => rfl
  | cons r rows ih =>
    rw [List.foldl_cons, newer]
    split <;> exact ih

/-- What `get_current_schema` returns is a current row of the endpoint. -/
theorem Db.currentSchema_some {db : Db} {e : Uuid} {c : VersionRow}
    (h : db.currentSchema e = some c) :
    c ∈ db.versions ∧ c.endpointId = e ∧ c.isCurrent = true := by
  rcases foldl_newer_mem h with hc | hc
  · simpa using hc
  · cases hc

/-- When it returns nothing, the endpoint has no current row. -/
theorem Db.currentSchema_none {db : Db} {e : Uuid} (h : db.currentSchema e = none) :
    ∀ r ∈ db.versions, r.endpointId = e → r.isCurrent = false := by
  intro r hr he
  by_contra hc
  have hm : r ∈ db.versions.filter fun r => r.endpointId = e && r.isCurrent := by
    simp [hr, he, Bool.eq_true_of_not_eq_false hc]
  rw [Db.currentSchema] at h
  cases hrows : db.versions.filter fun r => r.endpointId = e && r.isCurrent with
  | nil => simp [hrows] at hm
  | cons b rows =>
    rw [hrows, List.foldl_cons, newer] at h
    have hsome := @foldl_newer_isSome rows b
    simp [h] at hsome

/-! ### `upsert_schema_version` -/

/-- The row as the table stores it: `CAST(:canonical_schema AS jsonb)`. -/
def VersionRow.stored (r : VersionRow) : VersionRow :=
  { r with canonicalSchema := jsonb r.canonicalSchema }

@[simp] theorem VersionRow.stored_id (r : VersionRow) : r.stored.id = r.id := rfl

@[simp] theorem VersionRow.stored_endpointId (r : VersionRow) :
    r.stored.endpointId = r.endpointId := rfl

@[simp] theorem VersionRow.stored_version (r : VersionRow) : r.stored.version = r.version := rfl

@[simp] theorem VersionRow.stored_fingerprint (r : VersionRow) :
    r.stored.fingerprint = r.fingerprint := rfl

/-- The arguments of `upsert_schema_version`; the classification is `SAFE` in every call. -/
structure Upsert where
  key : EndpointKey
  fingerprint : String
  canonicalSchema : CanonicalSchema

/-- What `upsert_schema_version` returns. -/
structure Upserted where
  endpointId : Uuid
  record : VersionRow
  inserted : Bool

/-- Where `upsert_schema_version` is. `ensure_endpoint` is the first two. -/
inductive UpsertPc
  | insertEndpoint
  | selectEndpoint
  | fastLookup (endpointId : Uuid)
  | advisoryLock (endpointId : Uuid)
  | getCurrentSchema (endpointId : Uuid)
  | lookup (endpointId : Uuid) (current : Option VersionRow)
  | unsetCurrent (endpointId : Uuid) (current : VersionRow)
  | insertVersion (endpointId : Uuid) (current : Option VersionRow)

namespace Upsert

/-- The row that is inserted after `current`. -/
def newRow (u : Upsert) (id endpointId : Uuid) (current : Option VersionRow) : VersionRow where
  id := id
  endpointId := endpointId
  version := match current with | none => 1 | some c => c.version + 1
  fingerprint := u.fingerprint
  canonicalSchema := u.canonicalSchema
  compatibilityClassification := Compatibility.safe.name
  previousVersionId := current.map (·.id)
  isCurrent := true

/-- `upsert_schema_version`, from one `await` to the next. -/
def step (cfg : Config) (u : Upsert) (pc : UpsertPc) (v : DbView) (x : Input) :
    Option (Op Write LockKey Empty (Flow UpsertPc Upserted)) :=
  match pc, x with
  | .insertEndpoint, .proceed _ =>
    if (v.db.endpoint? u.key).isSome then some (.exec [] [] (.go .selectEndpoint))
    else some (.exec [.endpointKey u.key, .endpointRow v.fresh]
      [.insertEndpoint ⟨v.fresh, u.key⟩] (.go (.fastLookup v.fresh)))
  | .selectEndpoint, .proceed _ =>
    match v.db.endpoint? u.key with
    | some row => some (.exec [] [] (.go (.fastLookup row.id)))
    | none => some (.exec [] [] (.raised .noResultFound))
  | .fastLookup e, .proceed _ =>
    match v.db.versionOf e u.fingerprint with
    | some row => some (.exec [] [] (.done ⟨e, row, false⟩))
    | none => some (.exec [] [] (.go (.advisoryLock e)))
  | .advisoryLock e, .proceed _ =>
    some (.exec [.advisory (cfg.lockId u.key)] [] (.go (.getCurrentSchema e)))
  | .getCurrentSchema e, .proceed _ =>
    some (.exec [] [] (.go (.lookup e (v.db.currentSchema e))))
  | .lookup e current, .proceed _ =>
    match v.db.versionOf e u.fingerprint with
    | some row => some (.exec [] [] (.done ⟨e, row, false⟩))
    | none =>
      match current with
      | some c => some (.exec [] [] (.go (.unsetCurrent e c)))
      | none => some (.exec [] [] (.go (.insertVersion e none)))
  | .unsetCurrent e c, .proceed _ =>
    some (.exec [.versionRow c.id] [.unsetCurrent c.id] (.go (.insertVersion e (some c))))
  | .insertVersion e current, .proceed _ =>
    let row := u.newRow v.fresh e current
    if v.db.violatesUnique row then some (.exec [] [] (.raised .uniqueViolation))
    else some (.exec
      [.versionNumber e row.version, .versionFingerprint e row.fingerprint, .versionRow row.id]
      [.insertVersion row.stored] (.done ⟨e, row, true⟩))
  | _, .raise reason => some (.exec [] [] (.raised (.failed reason)))
  | _, _ => none

/-- The statements of `upsert_schema_version`, one case for each branch: the locks, the writes and
what comes next. -/
inductive Move (cfg : Config) (u : Upsert) (v : DbView) :
    UpsertPc → Input → List LockKey → List Write → Flow UpsertPc Upserted → Prop
  | raises (pc : UpsertPc) (reason : String) :
    Move cfg u v pc (.raise reason) [] [] (.raised (.failed reason))
  | endpointTaken {now : Time} (h : (v.db.endpoint? u.key).isSome) :
    Move cfg u v .insertEndpoint (.proceed now) [] [] (.go .selectEndpoint)
  | endpointInserted {now : Time} (h : v.db.endpoint? u.key = none) :
    Move cfg u v .insertEndpoint (.proceed now) [.endpointKey u.key, .endpointRow v.fresh]
      [.insertEndpoint ⟨v.fresh, u.key⟩] (.go (.fastLookup v.fresh))
  | endpointFound {now : Time} {row : EndpointRow} (h : v.db.endpoint? u.key = some row) :
    Move cfg u v .selectEndpoint (.proceed now) [] [] (.go (.fastLookup row.id))
  | endpointMissing {now : Time} (h : v.db.endpoint? u.key = none) :
    Move cfg u v .selectEndpoint (.proceed now) [] [] (.raised .noResultFound)
  | fastFound {now : Time} {e : Uuid} {row : VersionRow}
      (h : v.db.versionOf e u.fingerprint = some row) :
    Move cfg u v (.fastLookup e) (.proceed now) [] [] (.done ⟨e, row, false⟩)
  | fastMissing {now : Time} {e : Uuid} (h : v.db.versionOf e u.fingerprint = none) :
    Move cfg u v (.fastLookup e) (.proceed now) [] [] (.go (.advisoryLock e))
  | advisoryLock {now : Time} (e : Uuid) :
    Move cfg u v (.advisoryLock e) (.proceed now) [.advisory (cfg.lockId u.key)] []
      (.go (.getCurrentSchema e))
  | getCurrentSchema {now : Time} (e : Uuid) :
    Move cfg u v (.getCurrentSchema e) (.proceed now) [] []
      (.go (.lookup e (v.db.currentSchema e)))
  | found {now : Time} {e : Uuid} {row : VersionRow} (current : Option VersionRow)
      (h : v.db.versionOf e u.fingerprint = some row) :
    Move cfg u v (.lookup e current) (.proceed now) [] [] (.done ⟨e, row, false⟩)
  | missing {now : Time} {e : Uuid} (c : VersionRow)
      (h : v.db.versionOf e u.fingerprint = none) :
    Move cfg u v (.lookup e (some c)) (.proceed now) [] [] (.go (.unsetCurrent e c))
  | missingFirst {now : Time} {e : Uuid} (h : v.db.versionOf e u.fingerprint = none) :
    Move cfg u v (.lookup e none) (.proceed now) [] [] (.go (.insertVersion e none))
  | unsetCurrent {now : Time} (e : Uuid) (c : VersionRow) :
    Move cfg u v (.unsetCurrent e c) (.proceed now) [.versionRow c.id] [.unsetCurrent c.id]
      (.go (.insertVersion e (some c)))
  | versionTaken {now : Time} {e : Uuid} {current : Option VersionRow}
      (h : v.db.violatesUnique (u.newRow v.fresh e current) = true) :
    Move cfg u v (.insertVersion e current) (.proceed now) [] [] (.raised .uniqueViolation)
  | versionInserted {now : Time} {e : Uuid} {current : Option VersionRow}
      (h : v.db.violatesUnique (u.newRow v.fresh e current) = false) :
    Move cfg u v (.insertVersion e current) (.proceed now)
      [.versionNumber e (u.newRow v.fresh e current).version, .versionFingerprint e u.fingerprint,
        .versionRow v.fresh]
      [.insertVersion (u.newRow v.fresh e current).stored]
      (.done ⟨e, u.newRow v.fresh e current, true⟩)

/-- **Step inversion.** Nothing is emitted and nothing is committed. -/
theorem step_move {cfg : Config} {u : Upsert} {pc : UpsertPc} {v : DbView} {x : Input}
    {op : Op Write LockKey Empty (Flow UpsertPc Upserted)} (h : u.step cfg pc v x = some op) :
    ∃ ks ws next, op = .exec ks ws next ∧ Move cfg u v pc x ks ws next := by
  cases x with
  | proceed now =>
    cases pc with
    | insertEndpoint =>
      simp only [step] at h
      split at h
      next htaken => exact ⟨_, _, _, (Option.some.inj h).symm, .endpointTaken htaken⟩
      next hnone =>
        exact ⟨_, _, _, (Option.some.inj h).symm, .endpointInserted (by simpa using hnone)⟩
    | selectEndpoint =>
      simp only [step] at h
      split at h
      next row hrow => exact ⟨_, _, _, (Option.some.inj h).symm, .endpointFound hrow⟩
      next hnone => exact ⟨_, _, _, (Option.some.inj h).symm, .endpointMissing hnone⟩
    | fastLookup e =>
      simp only [step] at h
      split at h
      next row hrow => exact ⟨_, _, _, (Option.some.inj h).symm, .fastFound hrow⟩
      next hnone => exact ⟨_, _, _, (Option.some.inj h).symm, .fastMissing hnone⟩
    | advisoryLock e => exact ⟨_, _, _, (Option.some.inj h).symm, .advisoryLock e⟩
    | getCurrentSchema e => exact ⟨_, _, _, (Option.some.inj h).symm, .getCurrentSchema e⟩
    | lookup e current =>
      simp only [step] at h
      split at h
      next row hrow => exact ⟨_, _, _, (Option.some.inj h).symm, .found current hrow⟩
      next hnone =>
        cases current with
        | some c => exact ⟨_, _, _, (Option.some.inj h).symm, .missing c hnone⟩
        | none => exact ⟨_, _, _, (Option.some.inj h).symm, .missingFirst hnone⟩
    | unsetCurrent e c => exact ⟨_, _, _, (Option.some.inj h).symm, .unsetCurrent e c⟩
    | insertVersion e current =>
      simp only [step] at h
      split at h
      next htaken => exact ⟨_, _, _, (Option.some.inj h).symm, .versionTaken htaken⟩
      next hfree =>
        exact ⟨_, _, _, (Option.some.inj h).symm, .versionInserted (by simpa using hfree)⟩
  | raise reason => cases pc <;> exact ⟨_, _, _, (Option.some.inj h).symm, .raises _ reason⟩
  | _ => cases pc <;> cases h

end Upsert

end Driftgate.Runtime
