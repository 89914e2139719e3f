import Driftgate.Review.Evidence
import Driftgate.Runtime.DriftEventDlq
import Mathlib.Data.Rat.Floor

/-!
# Events that could not be published

`publish_fire_and_forget` calls the publisher until one call goes through or all retries are used
up. Then the event is encoded into the payload of a row of `drift_event_dlq`, from which
`replay_event_dlq` builds it again, field by field, with a default for every key and a conversion of
every value. The two lists of keys are written down separately.

A replay is a function here, of one request that nothing interleaves with.
-/

namespace Driftgate.Events

open Driftgate.Schema Driftgate.Runtime Driftgate.Review

/-! ### Events and rows -/

/-- `DriftEvent` with all its fields. -/
structure DriftEvent where
  eventId : String
  endpointId : String
  endpointName : String
  nameSpace : String
  oldFingerprint : String
  newFingerprint : String
  oldVersion : ℤ
  newVersion : ℤ
  severity : String
  compatibilityClassification : String
  timestamp : String
  schemaDiffSummary : List Json
  affectedConsumerCount : ℤ

/-- `_event_payload` of `drift_event_dlq.py`. -/
def eventPayload (event : DriftEvent) : Document :=
  [("event_id", .str event.eventId), ("endpoint_id", .str event.endpointId),
    ("endpoint_name", .str event.endpointName), ("namespace", .str event.nameSpace),
    ("old_fingerprint", .str event.oldFingerprint), ("new_fingerprint", .str event.newFingerprint),
    ("old_version", .int event.oldVersion), ("new_version", .int event.newVersion),
    ("severity", .str event.severity),
    ("compatibility_classification", .str event.compatibilityClassification),
    ("timestamp", .str event.timestamp), ("schema_diff_summary", .arr event.schemaDiffSummary),
    ("affected_consumer_count", .int event.affectedConsumerCount)]

/-- A row of `drift_event_dlq`, without its time stamps. -/
structure EventFailure where
  id : Uuid
  eventId : Uuid
  endpointId : Uuid
  endpointName : String
  nameSpace : String
  payload : Json
  failureReason : String
  publisherName : String
  attemptCount : ℕ
  status : EventDlqStatus
  replayError : Option String

/-- How texts are read by the database and by Python. -/
structure Readings where
  /-- `CAST(text AS uuid)` -/
  uuid : String → Option Uuid
  /-- The text of a UUID has at least its digits. -/
  uuid_length : ∀ text id, uuid text = some id → 32 ≤ text.length
  /-- `int(text)` -/
  int : String → Option ℤ

/-! ### Publishing -/

/-- A call of `publish_drift_detected`, or the text of its exception. -/
abbrev Outcome := Except String Unit

/-- The loop of `publish_with_retry` over the attempts that are left: the calls it makes, and how it
ends. -/
def publishAttempts (publisher : ℕ → Outcome) (event : DriftEvent) (retries : ℕ) :
    List ℕ → List (DriftEvent × Outcome) × Outcome
  | [] => ([], .ok ())
  | attempt :: rest =>
    match publisher attempt with
    | .ok () => ([(event, .ok ())], .ok ())
    | .error e =>
      if attempt = retries then ([(event, .error e)], .error e)
      else
        let later := publishAttempts publisher event retries rest
        ((event, .error e) :: later.1, later.2)

/-- `publish_with_retry` -/
def publishWithRetry (publisher : ℕ → Outcome) (event : DriftEvent) (retries : ℕ) :
    List (DriftEvent × Outcome) × Outcome :=
  publishAttempts publisher event retries (List.range' 1 retries)

/-- The `DO UPDATE` of `record_event_failure`. -/
def EventFailure.failAgain (failureReason publisherName : String) (row : EventFailure) :
    EventFailure :=
  { row with
    failureReason := failureReason
    publisherName := publisherName
    attemptCount := row.attemptCount + 1 }

/-- `record_event_failure`; `newId` is the identifier that a new row would get. -/
def recordEventFailure (c : Readings) (newId : Uuid) (event : DriftEvent)
    (failureReason publisherName : String) (rows : List EventFailure) :
    Option (List EventFailure) := do
  let eventId ← c.uuid event.eventId
  let endpointId ← c.uuid event.endpointId
  if rows.any (·.eventId = eventId) then
    some (updateWhere (·.eventId = eventId) (.failAgain failureReason publisherName) rows)
  else
    some (rows ++ [{
      id := newId
      eventId := eventId
      endpointId := endpointId
      endpointName := event.endpointName
      nameSpace := event.nameSpace
      payload := .obj (eventPayload event)
      failureReason := failureReason
      publisherName := publisherName
      attemptCount := 1
      status := .pending
      replayError := none }])

/-- What an event has led to: the calls of the publisher and the table. -/
structure Aftermath where
  calls : List (DriftEvent × Outcome)
  rows : List EventFailure

/-- The task of `publish_fire_and_forget`, with `publisher.__class__.__name__`. -/
def publishFireAndForget (c : Readings) (className : String) (publisher : ℕ → Outcome)
    (newId : Uuid) (event : DriftEvent) (retries : ℕ) (rows : List EventFailure) : Aftermath :=
  let published := publishWithRetry publisher event retries
  { calls := published.1
    rows := match published.2 with
      | .ok () => rows
      | .error _ => (recordEventFailure c newId event ("publish failed via " ++ className) className
          rows).getD rows }

/-! ### Replaying -/

section Replay

variable (c : Readings) (py : PyText)

/-- `int(v)` -/
def pyInt : Json → Option ℤ
  | .int n => some n
  | .bool b => some (if b then 1 else 0)
  | .float q => some (if 0 ≤ q then ⌊q⌋ else ⌈q⌉)
  | .str s => c.int s
  | _ => none

/-- `list(v)` -/
def pyList : Json → Option (List Json)
  | .arr items => some items
  | .str s => some (s.toList.map fun x => .str (String.singleton x))
  | .obj members => some (members.map fun e => .str e.1)
  | _ => none

/-- `row["payload"] if isinstance(row["payload"], dict) else {}` -/
def EventFailure.payloadDict (row : EventFailure) : Document :=
  match row.payload with
  | .obj members => members
  | _ => []

/-- The event of a row, unless a conversion raises; `now` is the current time. -/
def EventFailure.event (now : String) (row : EventFailure) : Option DriftEvent := do
  let payload := row.payloadDict
  let str (key default : String) := pyStr py (get payload key (.str default))
  let oldVersion ← pyInt c (get payload "old_version" (.int 0))
  let newVersion ← pyInt c (get payload "new_version" (.int 0))
  let schemaDiffSummary ← pyList (get payload "schema_diff_summary" (.arr []))
  let affectedConsumerCount ← pyInt c (get payload "affected_consumer_count" (.int 0))
  some {
    eventId := str "event_id" (uuidText row.eventId)
    endpointId := str "endpoint_id" (uuidText row.endpointId)
    endpointName := str "endpoint_name" row.endpointName
    nameSpace := str "namespace" row.nameSpace
    oldFingerprint := str "old_fingerprint" ""
    newFingerprint := str "new_fingerprint" ""
    oldVersion := oldVersion
    newVersion := newVersion
    severity := str "severity" "SAFE"
    compatibilityClassification := str "compatibility_classification" "SAFE"
    timestamp := str "timestamp" now
    schemaDiffSummary := schemaDiffSummary
    affectedConsumerCount := affectedConsumerCount }

/-- What a replay does to its row when the publisher accepts the event, or raises. -/
def EventFailure.settle (outcome : Outcome) (row : EventFailure) : EventFailure :=
  match outcome with
  | .ok () => { row with status := .replayed, replayError := none }
  | .error e =>
    { row with status := .pending, attemptCount := row.attemptCount + 1, replayError := some e }

/-- `replay_event_dlq`, where `outcome` is that of the call of the publisher, if it comes to one. -/
def replayEventDlq (now : String) (outcome : Outcome) (dlqId : Uuid) (rows : List EventFailure) :
    Aftermath :=
  match rows.find? (·.id = dlqId) with
  | none => { calls := [], rows }
  | some row =>
    if row.status = .replayed then { calls := [], rows }
    else match row.event c py now with
      | none => { calls := [], rows }
      | some event =>
        { calls := [(event, outcome)], rows := updateWhere (·.id = dlqId) (.settle outcome) rows }

end Replay

/-! ### A failed event is kept -/

section Publishing

variable {publisher : ℕ → Outcome} {event : DriftEvent} {retries : ℕ}

/-- What a publishing loop has done when it began with these attempts to go. -/
structure Published (publisher : ℕ → Outcome) (event : DriftEvent) (attempts : List ℕ)
    (run : List (DriftEvent × Outcome) × Outcome) : Prop where
  /-- It has ended with a call that went through, or all calls were made and have raised. -/
  ends : (run.2 = .ok () ∧ ∃ call, run.1.getLast? = some call ∧ call.2 = .ok ()) ∨
    ((∃ e, run.2 = .error e) ∧ run.1.length = attempts.length ∧
      ∀ call ∈ run.1, ∃ e, call.2 = .error e)
  outcomes : run.1.map Prod.snd <+: attempts.map publisher
  same : ∀ call ∈ run.1, call.1 = event
  stops : ∀ call ∈ run.1.dropLast, ∃ e, call.2 = .error e
  fails : (∃ e, run.2 = .error e) ↔ ∀ attempt ∈ attempts, ∃ e, publisher attempt = .error e

/-- The last attempt of a loop is the one that raises. -/
theorem publishAttempts_published {attempts : List ℕ} (hlast : attempts.getLast? = some retries)
    (hnodup : attempts.Nodup) :
    Published publisher event attempts (publishAttempts publisher event retries attempts) := by
  induction attempts with
  | nil => cases hlast
  | cons attempt rest ih =>
    cases hp : publisher attempt with
    | ok u =>
      have hrun : publishAttempts publisher event retries (attempt :: rest) =
          ([(event, .ok ())], .ok ()) := by
        simp only [publishAttempts, hp]
      rw [hrun]
      refine ⟨.inl ⟨rfl, _, rfl, rfl⟩, ?_, ?_, ?_, ?_⟩
      · show [.ok ()] <+: publisher attempt :: rest.map publisher
        rw [hp]
        exact (List.prefix_cons_inj _).mpr List.nil_prefix
      · intro call hcall
        rw [List.mem_singleton.mp hcall]
      · intro call hcall
        cases hcall
      · constructor
        · rintro ⟨e, he⟩
          cases he
        · intro h
          obtain ⟨e, he⟩ := h attempt List.mem_cons_self
          rw [hp] at he
          cases he
    | error e =>
      by_cases hattempt : attempt = retries
      · have hrest : rest = [] := by
          cases rest with
          | nil => rfl
          | cons b rest =>
            have hmem : retries ∈ b :: rest := by
              rw [List.getLast?_cons_cons] at hlast
              exact List.mem_of_getLast? hlast
            exact absurd (hattempt ▸ hmem) (List.nodup_cons.mp hnodup).1
        have hrun : publishAttempts publisher event retries (attempt :: rest) =
            ([(event, .error e)], .error e) := by
          simp only [publishAttempts, hp, if_pos hattempt]
        rw [hrun, hrest]
        refine ⟨.inr ⟨⟨e, rfl⟩, rfl, fun call hcall => ?_⟩, ?_, ?_, ?_, ?_⟩
        · exact ⟨e, by rw [List.mem_singleton.mp hcall]⟩
        · show [.error e] <+: [publisher attempt]
          rw [hp]
        · intro call hcall
          rw [List.mem_singleton.mp hcall]
        · intro call hcall
          cases hcall
        · refine iff_of_true ⟨e, rfl⟩ fun b hb => ?_
          rw [List.mem_singleton.mp hb]
          exact ⟨e, hp⟩
      · have hrest : rest.getLast? = some retries := by
          cases rest with
          | nil => exact absurd (Option.some.inj hlast) hattempt
          | cons b rest => rwa [List.getLast?_cons_cons] at hlast
        have hlater := ih hrest (List.nodup_cons.mp hnodup).2
        have hrun : publishAttempts publisher event retries (attempt :: rest) =
            ((event, .error e) :: (publishAttempts publisher event retries rest).1,
              (publishAttempts publisher event retries rest).2) := by
          simp only [publishAttempts, hp, if_neg hattempt]
        rw [hrun]
        refine ⟨?_, ?_, ?_, ?_, ?_⟩
        · obtain ⟨hok, call, hcall, hcallOk⟩ | ⟨hfail, hlength, hraised⟩ := hlater.ends
          · refine .inl ⟨hok, call, ?_, hcallOk⟩
            rw [List.getLast?_cons, hcall]
            rfl
          · refine .inr ⟨hfail, congrArg (· + 1) hlength, fun call hcall => ?_⟩
            obtain hcall | hcall := List.mem_cons.mp hcall
            · exact ⟨e, by rw [hcall]⟩
            · exact hraised call hcall
        · rw [List.map_cons, List.map_cons, hp]
          exact (List.prefix_cons_inj _).mpr hlater.outcomes
        · intro call hcall
          obtain hcall | hcall := List.mem_cons.mp hcall
          · rw [hcall]
          · exact hlater.same call hcall
        · intro call hcall
          cases hlaterCalls : (publishAttempts publisher event retries rest).1 with
          | nil =>
            rw [hlaterCalls] at hcall
            cases hcall
          | cons b calls =>
            rw [hlaterCalls, List.dropLast_cons_cons] at hcall
            obtain hcall | hcall := List.mem_cons.mp hcall
            · exact ⟨e, by rw [hcall]⟩
            · exact hlater.stops call (by rw [hlaterCalls]; exact hcall)
        · refine hlater.fails.trans ?_
          rw [List.forall_mem_cons]
          exact ⟨fun h => ⟨⟨e, hp⟩, h⟩, fun h => h.2⟩

theorem publishWithRetry_published (hretries : 1 ≤ retries) :
    Published publisher event (List.range' 1 retries) (publishWithRetry publisher event retries) := by
  refine publishAttempts_published ?_ List.nodup_range'
  rw [List.getLast?_range', if_neg (by omega)]
  exact congrArg some (by omega)

end Publishing

/-! ### The payload is read back -/

/-- The event that is built from the payload of an event is that event. -/
theorem event_eventPayload (c : Readings) (py : PyText) (now : String) {row : EventFailure}
    {event : DriftEvent} (h : row.payload = .obj (eventPayload event)) :
    row.event c py now = some event := by
  rw [EventFailure.event, EventFailure.payloadDict, h]
  rfl

/-! ### Nothing is lost -/

section Kept

variable (c : Readings) (py : PyText) {event : DriftEvent} {rows : List EventFailure}

/-- The row of an event that failed for the first time. -/
def EventFailure.first (newId eventId endpointId : Uuid) (event : DriftEvent)
    (className : String) : EventFailure where
  id := newId
  eventId := eventId
  endpointId := endpointId
  endpointName := event.endpointName
  nameSpace := event.nameSpace
  payload := .obj (eventPayload event)
  failureReason := "publish failed via " ++ className
  publisherName := className
  attemptCount := 1
  status := .pending
  replayError := none

theorem recordEventFailure_first {newId eventId endpointId : Uuid} {className : String}
    (hevent : c.uuid event.eventId = some eventId)
    (hendpoint : c.uuid event.endpointId = some endpointId)
    (hnew : ∀ row ∈ rows, row.eventId ≠ eventId) :
    recordEventFailure c newId event ("publish failed via " ++ className) className rows =
      some (rows ++ [.first newId eventId endpointId event className]) := by
  have hany : rows.any (·.eventId = eventId) = false := by
    refine List.any_eq_false.mpr fun row hrow => ?_
    simpa using hnew row hrow
  simp only [recordEventFailure, hevent, hendpoint, hany, Option.bind_eq_bind, Option.bind_some,
    Bool.false_eq_true, if_false]
  rfl

/-- A pending row with the payload of an event: the event is published, and the row follows the
outcome. -/
theorem replayEventDlq_pending (now : String) (outcome : Outcome) (row : EventFailure)
    (hfind : rows.find? (·.id = row.id) = some row) (hstatus : row.status = .pending)
    (hpayload : row.payload = .obj (eventPayload event)) :
    replayEventDlq c py now outcome row.id rows =
      { calls := [(event, outcome)]
        rows := updateWhere (·.id = row.id) (.settle outcome) rows } := by
  have hnot : row.status ≠ .replayed := by
    rw [hstatus]
    decide
  simp only [replayEventDlq, hfind, if_neg hnot, event_eventPayload c py now hpayload]

/-- The row that was appended is the only one with its identifier. -/
theorem updateWhere_last {f : EventFailure → EventFailure} (row : EventFailure)
    (hid : ∀ r ∈ rows, r.id ≠ row.id) :
    updateWhere (·.id = row.id) f (rows ++ [row]) = rows ++ [f row] := by
  have hrows : updateWhere (fun r : EventFailure => r.id = row.id) f rows = rows := by
    rw [updateWhere, List.map_congr_left fun r hr => if_neg (by simpa using hid r hr), List.map_id']
  rw [updateWhere] at hrows ⊢
  rw [List.map_append, hrows, List.map_singleton, if_pos (decide_eq_true rfl)]

theorem settle_status {outcome : Outcome} (row : EventFailure) :
    (row.settle outcome).status = .replayed ↔ outcome = .ok () := by
  cases outcome with
  | ok u => exact iff_of_true rfl rfl
  | error e => exact iff_of_false (fun h => by cases h) (fun h => by cases h)

/-- All calls were made, and every one has raised. -/
def Aftermath.AllRaised (run : Aftermath) (retries : ℕ) : Prop :=
  run.calls.length = retries ∧ ∀ call ∈ run.calls, ∃ e, call.2 = .error e

/-- **Nothing is lost.** The publisher is called with the event until a call goes through, or until
it has raised `retries` times; the event gets a row exactly when it has; and a replay of that row
publishes the event as it was and commits REPLAYED if the publisher accepts it. -/
theorem publish_loses_nothing (className : String) (publisher : ℕ → Outcome) {retries : ℕ}
    (hretries : 1 ≤ retries) {newId eventId endpointId : Uuid}
    (hevent : c.uuid event.eventId = some eventId)
    (hendpoint : c.uuid event.endpointId = some endpointId)
    (hnew : ∀ row ∈ rows, row.eventId ≠ eventId) (hid : ∀ row ∈ rows, row.id ≠ newId) :
    let run := publishFireAndForget c className publisher newId event retries rows
    (run.calls.length ≤ retries ∧ (∀ call ∈ run.calls, call.1 = event) ∧
      run.calls.map Prod.snd <+: (List.range' 1 retries).map publisher ∧
      (∀ call ∈ run.calls.dropLast, ∃ e, call.2 = .error e) ∧
      ((∃ call, run.calls.getLast? = some call ∧ call.2 = .ok ()) ∨ run.AllRaised retries)) ∧
    ((∃ row ∈ run.rows, row.eventId = eventId) ↔ run.AllRaised retries) ∧
    ((∃ row ∈ run.rows, row.eventId = eventId) ↔
      ∀ attempt, 1 ≤ attempt → attempt ≤ retries → ∃ e, publisher attempt = .error e) ∧
    ∀ row ∈ run.rows, row.eventId = eventId → ∀ now outcome,
      let replay := replayEventDlq c py now outcome row.id run.rows
      replay.calls = [(event, outcome)] ∧
        ((∃ row' ∈ replay.rows, row'.id = row.id ∧ row'.status = .replayed) ↔ outcome = .ok ()) := by
  intro run
  have hpublished : Published publisher event (List.range' 1 retries)
      (publishWithRetry publisher event retries) := publishWithRetry_published hretries
  have hall : (∀ attempt ∈ List.range' 1 retries, ∃ e, publisher attempt = .error e) ↔
      ∀ attempt, 1 ≤ attempt → attempt ≤ retries → ∃ e, publisher attempt = .error e := by
    refine forall_congr' fun attempt => ?_
    rw [List.mem_range'_1, and_imp]
    exact forall_congr' fun h => by rw [Nat.lt_one_add_iff]
  have hlength : run.calls.length ≤ retries := by
    have hle := hpublished.outcomes.length_le
    rwa [List.length_map, List.length_map, List.length_range'] at hle
  have hends : (∃ call, run.calls.getLast? = some call ∧ call.2 = .ok ()) ∨
      run.AllRaised retries := by
    refine hpublished.ends.imp And.right fun h => ⟨?_, h.2.2⟩
    exact h.2.1.trans (List.length_range' ..)
  -- a loop that has raised did so in every call, and one that has not made a call that went through
  have hraised : run.AllRaised retries ↔
      ∃ e, (publishWithRetry publisher event retries).2 = .error e := by
    constructor
    · intro h
      obtain ⟨-, call, hlast, hok⟩ | hfail := hpublished.ends
      · obtain ⟨e, he⟩ := h.2 call (List.mem_of_getLast? hlast)
        rw [hok] at he
        cases he
      · exact hfail.1
    · intro ⟨e, he⟩
      obtain ⟨hok, -⟩ | ⟨-, hcalls, hfail⟩ := hpublished.ends
      · rw [hok] at he
        cases he
      · exact ⟨hcalls.trans (List.length_range' ..), hfail⟩
  refine ⟨⟨hlength, hpublished.same, hpublished.outcomes, hpublished.stops, hends⟩, ?_⟩
  rw [← hall, ← hpublished.fails, hraised, ← and_assoc, and_self]
  cases houtcome : (publishWithRetry publisher event retries).2 with
  | ok u =>
    have hrows : run.rows = rows := by
      show (match (publishWithRetry publisher event retries).2 with
        | .ok () => rows
        | .error _ => _) = rows
      rw [houtcome]
    rw [hrows]
    refine ⟨iff_of_false ?_ ?_, fun row hrow he => absurd he (hnew row hrow)⟩
    · rintro ⟨row, hrow, he⟩
      exact hnew row hrow he
    · rintro ⟨e, he⟩
      cases he
  | error e =>
    have hrows : run.rows = rows ++ [.first newId eventId endpointId event className] := by
      show (match (publishWithRetry publisher event retries).2 with
        | .ok () => rows
        | .error _ => (recordEventFailure c newId event ("publish failed via " ++ className)
            className rows).getD rows) = _
      rw [houtcome, recordEventFailure_first c hevent hendpoint hnew]
      rfl
    rw [hrows]
    have hmem : EventFailure.first newId eventId endpointId event className ∈
        rows ++ [.first newId eventId endpointId event className] :=
      List.mem_append_right _ (List.mem_singleton_self _)
    refine ⟨iff_of_true ⟨_, hmem, rfl⟩ ⟨e, rfl⟩, fun row hrow he now outcome => ?_⟩
    have hfirst : row = .first newId eventId endpointId event className := by
      obtain hrow | hrow := List.mem_append.mp hrow
      · exact absurd he (hnew row hrow)
      · exact List.mem_singleton.mp hrow
    subst hfirst
    have hfind : (rows ++ [EventFailure.first newId eventId endpointId event className]).find?
        (·.id = newId) = some (.first newId eventId endpointId event className) := by
      have hnone : rows.find? (·.id = newId) = none :=
        List.find?_eq_none.mpr fun row hrow => by simpa using hid row hrow
      rw [List.find?_append, hnone, Option.none_or]
      exact List.find?_cons_of_pos (by simp [EventFailure.first])
    intro replay
    have hreplay : replay =
        { calls := [(event, outcome)]
          rows := rows ++ [(EventFailure.first newId eventId endpointId event className).settle
            outcome] } := by
      rw [← updateWhere_last (.first newId eventId endpointId event className) hid]
      exact replayEventDlq_pending c py now outcome
        (.first newId eventId endpointId event className) hfind rfl rfl
    rw [hreplay]
    refine ⟨rfl, ?_⟩
    rw [← settle_status (.first newId eventId endpointId event className)]
    constructor
    · rintro ⟨row', hrow', hsame, hstatus⟩
      obtain hrow' | hrow' := List.mem_append.mp hrow'
      · exact absurd hsame (hid row' hrow')
      · rwa [List.mem_singleton.mp hrow'] at hstatus
    · intro hstatus
      refine ⟨_, List.mem_append_right _ (List.mem_singleton_self _), ?_, hstatus⟩
      cases outcome <;> rfl

end Kept

/-- Readings under which two texts are UUIDs. -/
def sampleReadings : Readings where
  uuid text := if text = uuidText 1 then some 1 else if text = uuidText 2 then some 2 else none
  uuid_length := by
    intro text id h
    split at h
    · rename_i htext
      rw [htext]
      decide
    · split at h
      · rename_i htext
        rw [htext]
        decide
      · cases h
  int _ := none

def sampleEvent : DriftEvent where
  eventId := uuidText 1
  endpointId := uuidText 2
  endpointName := "shop:GET:/orders"
  nameSpace := "shop"
  oldFingerprint := "a1"
  newFingerprint := "b2"
  oldVersion := 1
  newVersion := 2
  severity := "BREAKING"
  compatibilityClassification := "BREAKING"
  timestamp := "2024-05-01T10:00:00+00:00"
  schemaDiffSummary := [.obj [("path", .str "total")]]
  affectedConsumerCount := 3

/-- A publisher that always raises. -/
def deadPublisher : ℕ → Outcome := fun _ => .error "ConnectionError: down"

/-- Three calls raise, and the event is replayed from its row. -/
theorem publish_loses_nothing_dead :
    let run := publishFireAndForget sampleReadings "Bus" deadPublisher 7 sampleEvent 3 []
    (run.calls.length ≤ 3 ∧ (∀ call ∈ run.calls, call.1 = sampleEvent) ∧
      run.calls.map Prod.snd <+: (List.range' 1 3).map deadPublisher ∧
      (∀ call ∈ run.calls.dropLast, ∃ e, call.2 = .error e) ∧
      ((∃ call, run.calls.getLast? = some call ∧ call.2 = .ok ()) ∨ run.AllRaised 3)) ∧
    ((∃ row ∈ run.rows, row.eventId = 1) ↔ run.AllRaised 3) ∧
    ((∃ row ∈ run.rows, row.eventId = 1) ↔
      ∀ attempt, 1 ≤ attempt → attempt ≤ 3 → ∃ e, deadPublisher attempt = .error e) ∧
    ∀ row ∈ run.rows, row.eventId = 1 → ∀ now outcome,
      let replay := replayEventDlq sampleReadings samplePyText now outcome row.id run.rows
      replay.calls = [(sampleEvent, outcome)] ∧
        ((∃ row' ∈ replay.rows, row'.id = row.id ∧ row'.status = .replayed) ↔ outcome = .ok ()) :=
  publish_loses_nothing sampleReadings samplePyText "Bus" deadPublisher (by decide) (by decide)
    (by decide : sampleReadings.uuid sampleEvent.endpointId = some 2)
    (fun row hrow => by cases hrow) (fun row hrow => by cases hrow)

end Driftgate.Events
