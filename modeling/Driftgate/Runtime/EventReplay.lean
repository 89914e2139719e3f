import Driftgate.Runtime.DriftEventDlq

/-!
# When a replay is final

Between the first read of a row and its update other requests may replay the same row. A failure
then takes the row back to PENDING, and two successes both lower the gauge. If requests take turns
(`ReplaysInTurn`), neither happens: the lock of the row is held from the update to its commit, so a
row is replayed by one request, and only that request goes on to the gauge.

For every row `Tally` relates its status, the number of decrements, and the request that has
replayed it and not yet lowered the gauge.
-/

namespace Driftgate.Runtime

open Driftgate.ReadCommitted Driftgate.Transition

/-! ### Writes and the status of a row -/

theorem statusOf_updateWhere {rows : EventDlq} {id : Uuid} {f : EventDlqRow → EventDlqRow}
    (hid : ∀ r, (f r).id = r.id) {status : EventDlqStatus} (hf : ∀ r, (f r).status = status)
    (k : Uuid) : statusOf (updateWhere (·.id = id) f rows) k =
      if k = id then (statusOf rows k).map fun _ => status else statusOf rows k := by
  simp only [statusOf, getEventRow, updateWhere]
  induction rows with
  | nil => simp
  | cons r rows ih =>
    rw [List.map_cons, List.find?_cons, List.find?_cons]
    have hsame : (if decide (r.id = id) = true then f r else r).id = r.id := by
      split
      · exact hid r
      · rfl
    rw [hsame]
    by_cases hk : r.id = k
    · subst hk
      by_cases he : r.id = id <;> simp [he, hf]
    · simp only [hk, decide_false, ih]

theorem statusOf_setReplayed (rows : EventDlq) (id k : Uuid) :
    statusOf (EventDlqWrite.apply (.setReplayed id) rows) k =
      if k = id then (statusOf rows k).map fun _ => .replayed else statusOf rows k := by
  rw [EventDlqWrite.apply]
  refine statusOf_updateWhere (fun _ => ?_) (fun _ => ?_) k
  · rfl
  · rfl

theorem statusOf_setPending (rows : EventDlq) (id : Uuid) (error : String) (k : Uuid) :
    statusOf (EventDlqWrite.apply (.setPending id error) rows) k =
      if k = id then (statusOf rows k).map fun _ => .pending else statusOf rows k := by
  rw [EventDlqWrite.apply]
  refine statusOf_updateWhere (fun _ => ?_) (fun _ => ?_) k
  · rfl
  · rfl

/-! ### What is known of a request -/

/-- Between its update and its commit a request holds the lock of its row. -/
def HoldsRow (p : ReplayProc) (pending : List EventDlqWrite) (held : Set Uuid) : Prop :=
  match p.pc with
  | .commitReplayed => pending = [.setReplayed p.call.dlqId] ∧ p.call.dlqId ∈ held
  | .commitPending error => pending = [.setPending p.call.dlqId error] ∧ p.call.dlqId ∈ held
  | _ => pending = []

def ReplayPc.writing : ReplayPc → Bool
  | .commitReplayed => true
  | .commitPending _ => true
  | _ => false

/-- The request has read its row and not ended. -/
def ReplayPc.knows : ReplayPc → Bool
  | .read => false
  | .finished _ => false
  | _ => true

/-- The request has replayed its row, or read that it is replayed, and will lower the gauge. -/
def ReplayPc.awaits : ReplayPc → Bool
  | .readAgain none => true
  | .decrement _ _ => true
  | _ => false

/-- The request has not begun, or it has ended. -/
def ReplayPc.atRest : ReplayPc → Bool
  | .read => true
  | .finished _ => true
  | _ => false

theorem ReplayPc.not_awaits_of_atRest {pc : ReplayPc} (h : pc.atRest) : ¬pc.awaits := by
  cases pc with
  | read => exact Bool.false_ne_true
  | finished result => exact Bool.false_ne_true
  | _ => cases h

/-- A request that will lower the gauge for a row. -/
def Awaits (p : ReplayProc) (id : Uuid) : Prop := p.call.dlqId = id ∧ p.pc.awaits

theorem HoldsRow.mem {p : ReplayProc} {pending : List EventDlqWrite} {held : Set Uuid}
    (h : HoldsRow p pending held) (hw : p.pc.writing) : p.call.dlqId ∈ held := by
  obtain ⟨call, pc⟩ := p
  cases pc with
  | commitReplayed => exact h.2
  | commitPending error => exact h.2
  | _ => cases hw

/-- How the status of a row, the decrements counted for it and the requests that await one fit
together. -/
inductive Tally {ι : Type*} (status : Option EventDlqStatus) (n : ℕ) (awaits : ι → Prop) : Prop
  | unreplayed : status ≠ some .replayed → n = 0 → (∀ i, ¬awaits i) → Tally status n awaits
  | awaited (i : ι) : status = some .replayed → n = 0 → awaits i → (∀ j, awaits j → j = i) →
      Tally status n awaits
  | counted : status = some .replayed → n = 1 → (∀ i, ¬awaits i) → Tally status n awaits

section Tally

variable {ι : Type*} {status : Option EventDlqStatus} {n : ℕ} {awaits awaits' : ι → Prop}

theorem Tally.congr (h : Tally status n awaits) (ha : ∀ i, awaits' i ↔ awaits i) :
    Tally status n awaits' := by
  obtain rfl : awaits' = awaits := funext fun i => propext (ha i)
  exact h

theorem Tally.replayed_of_awaits (h : Tally status n awaits) {i : ι} (hi : awaits i) :
    status = some .replayed := by
  cases h with
  | unreplayed _ _ hno => exact absurd hi (hno i)
  | awaited _ hs _ _ _ => exact hs
  | counted hs _ _ => exact hs

theorem Tally.le_one (h : Tally status n awaits) : n ≤ 1 := by
  cases h with
  | unreplayed _ hn _ => omega
  | awaited _ _ hn _ _ => omega
  | counted _ hn _ => omega

theorem Tally.eq_of_not_awaits (h : Tally status n awaits) (hno : ∀ i, ¬awaits i) :
    n = if status = some .replayed then 1 else 0 := by
  cases h with
  | unreplayed hs hn _ => rw [if_neg hs, hn]
  | awaited i _ _ hi _ => exact absurd hi (hno i)
  | counted hs hn _ => rw [if_pos hs, hn]

/-- An unreplayed row stays so under other statuses. -/
theorem Tally.set (h : Tally status n awaits) {status' : Option EventDlqStatus}
    (hs : status ≠ some .replayed) (hs' : status' ≠ some .replayed) : Tally status' n awaits := by
  cases h with
  | unreplayed _ hn hno => exact .unreplayed hs' hn hno
  | awaited _ he _ _ _ => exact absurd he hs
  | counted he _ _ => exact absurd he hs

/-- Request `i` replays the row. -/
theorem Tally.replay (h : Tally status n awaits) (hs : status ≠ some .replayed) {i : ι}
    (ha : ∀ j, awaits' j ↔ awaits j ∨ j = i) : Tally (some .replayed) n awaits' := by
  cases h with
  | unreplayed _ hn hno =>
    refine .awaited i rfl hn ((ha i).mpr (.inr rfl)) fun j hj => ?_
    rcases (ha j).mp hj with hj | hj
    · exact absurd hj (hno j)
    · exact hj
  | awaited _ he _ _ _ => exact absurd he hs
  | counted he _ _ => exact absurd he hs

/-- Request `i` lowers the gauge. -/
theorem Tally.count (h : Tally status n awaits) {i : ι} (hi : awaits i)
    (ha : ∀ j, awaits' j ↔ awaits j ∧ j ≠ i) : Tally status (n + 1) awaits' := by
  cases h with
  | unreplayed _ _ hno => exact absurd hi (hno i)
  | awaited j hs hn _ huniq =>
    refine .counted hs (by omega) fun k hk => ?_
    obtain ⟨hk, hne⟩ := (ha k).mp hk
    exact hne ((huniq k hk).trans (huniq i hi).symm)
  | counted _ _ hno => exact absurd hi (hno i)

end Tally

/-! ### The invariant -/

variable {ι : Type*}

/-- Decrements, with one for a row that was REPLAYED from the start. -/
def tallyCount (s₀ s : ReplayWorld ι) (id : Uuid) : ℕ :=
  decrements s.trace id + if statusOf s₀.db id = some .replayed then 1 else 0

structure ReplayInv (s₀ s : ReplayWorld ι) : Prop where
  holds : ∀ i, HoldsRow (s.loc i) (s.pending i) {k | s.lock k = some i}
  known : ∀ i, (s.loc i).pc.knows → statusOf s.db (s.loc i).call.dlqId ≠ none
  unreplayed : ∀ i, (s.loc i).pc.writing → statusOf s.db (s.loc i).call.dlqId ≠ some .replayed
  tally : ∀ id, Tally (statusOf s.db id) (tallyCount s₀ s id) fun i => Awaits (s.loc i) id

theorem replayInv_initial {s : ReplayWorld ι} (h : s.Initial) : ReplayInv s s := by
  refine ⟨fun i => ?_, fun i hi => ?_, fun i hi => ?_, fun id => ?_⟩
  · simp only [HoldsRow, h.loc i, h.pending i]
  · simp [h.loc i, ReplayPc.knows] at hi
  · simp [h.loc i, ReplayPc.writing] at hi
  · have hno : ∀ i, ¬Awaits (s.loc i) id := fun i hi => by
      simp [Awaits, h.loc i, ReplayPc.awaits] at hi
    have hzero : decrements s.trace id = 0 := by simp [decrements, h.trace]
    by_cases hr : statusOf s.db id = some .replayed
    · exact .counted hr (by simp [tallyCount, hzero, hr]) hno
    · exact .unreplayed hr (by simp [tallyCount, hzero, hr]) hno

section Step

variable [DecidableEq ι] {s₀ s t : ReplayWorld ι} {i : ι}

/-- What a step of request `i` has to establish: facts about its own row and its own place. -/
structure RowStep (s₀ s : ReplayWorld ι) (i : ι) (t : ReplayWorld ι) : Prop where
  other : ∀ j, j ≠ i → t.own j = s.own j
  call : (t.loc i).call = (s.loc i).call
  status : ∀ id, id ≠ (s.loc i).call.dlqId → statusOf t.db id = statusOf s.db id
  count : ∀ id, id ≠ (s.loc i).call.dlqId → decrements t.trace id = decrements s.trace id
  exists_ : statusOf t.db (s.loc i).call.dlqId = none → statusOf s.db (s.loc i).call.dlqId = none
  keeps : statusOf s.db (s.loc i).call.dlqId = some .replayed →
    statusOf t.db (s.loc i).call.dlqId = some .replayed
  holds : HoldsRow (t.loc i) (t.pending i) {k | t.lock k = some i}
  known : (t.loc i).pc.knows → statusOf t.db (s.loc i).call.dlqId ≠ none
  unreplayed : (t.loc i).pc.writing → statusOf t.db (s.loc i).call.dlqId ≠ some .replayed
  /-- nobody else writes a row that becomes REPLAYED -/
  alone : statusOf t.db (s.loc i).call.dlqId = some .replayed → ∀ j, j ≠ i →
    (s.loc j).pc.writing → (s.loc j).call.dlqId ≠ (s.loc i).call.dlqId
  tally : Tally (statusOf t.db (s.loc i).call.dlqId)
    (tallyCount s₀ t (s.loc i).call.dlqId) fun j => Awaits (t.loc j) (s.loc i).call.dlqId

theorem RowStep.inv (hinv : ReplayInv s₀ s) (h : RowStep s₀ s i t) : ReplayInv s₀ t := by
  have hloc : ∀ j, j ≠ i → t.loc j = s.loc j := fun j hj => congrArg Own.loc (h.other j hj)
  refine ⟨fun j => ?_, fun j hj => ?_, fun j hj => ?_, fun id => ?_⟩
  · by_cases hji : j = i
    · subst hji
      exact h.holds
    · have hown := h.other j hji
      have hp : t.pending j = s.pending j := congrArg Own.pending hown
      have hl : {k | t.lock k = some j} = {k | s.lock k = some j} := congrArg Own.held hown
      rw [hloc j hji, hp, hl]
      exact hinv.holds j
  · by_cases hji : j = i
    · subst hji
      rw [h.call]
      exact h.known hj
    · rw [hloc j hji] at hj ⊢
      by_cases hid : (s.loc j).call.dlqId = (s.loc i).call.dlqId
      · rw [hid]
        exact fun hn => hinv.known j hj (hid ▸ h.exists_ hn)
      · rw [h.status _ hid]
        exact hinv.known j hj
  · by_cases hji : j = i
    · subst hji
      rw [h.call]
      exact h.unreplayed hj
    · rw [hloc j hji] at hj ⊢
      by_cases hid : (s.loc j).call.dlqId = (s.loc i).call.dlqId
      · rw [hid]
        exact fun hr => h.alone hr j hji hj hid
      · rw [h.status _ hid]
        exact hinv.unreplayed j hj
  · by_cases hid : id = (s.loc i).call.dlqId
    · rw [hid]
      exact h.tally
    · have hcount : tallyCount s₀ t id = tallyCount s₀ s id := by
        rw [tallyCount, tallyCount, h.count id hid]
      rw [h.status id hid, hcount]
      refine (hinv.tally id).congr fun j => ?_
      by_cases hji : j = i
      · subst hji
        exact iff_of_false (fun ha => hid (ha.1.symm.trans (congrArg ReplayCall.dlqId h.call)))
          fun ha => hid ha.1.symm
      · rw [hloc j hji]

/-- A step that leaves the row and its tally as they are. -/
theorem RowStep.quiet (hinv : ReplayInv s₀ s) {pc : ReplayPc}
    (hother : ∀ j, j ≠ i → t.own j = s.own j) (hdb : t.db = s.db)
    (hcount : ∀ id, decrements t.trace id = decrements s.trace id)
    (hloc : t.loc i = ⟨(s.loc i).call, pc⟩) (hawaits : pc.awaits = (s.loc i).pc.awaits)
    (hholds : HoldsRow (t.loc i) (t.pending i) {k | t.lock k = some i})
    (hknown : pc.knows → statusOf s.db (s.loc i).call.dlqId ≠ none)
    (hwriting : pc.writing → statusOf s.db (s.loc i).call.dlqId ≠ some .replayed) :
    RowStep s₀ s i t := by
  refine ⟨hother, by rw [hloc], fun id _ => by rw [hdb], fun id _ => hcount id,
    fun h => by rwa [hdb] at h, fun h => by rwa [hdb], hholds, fun h => ?_, fun h => ?_,
    fun h j _ hj hid => ?_, ?_⟩
  · rw [hloc] at h
    rw [hdb]
    exact hknown h
  · rw [hloc] at h
    rw [hdb]
    exact hwriting h
  · rw [hdb] at h
    exact hinv.unreplayed j hj (hid ▸ h)
  · rw [hdb, tallyCount, hcount]
    refine (hinv.tally _).congr fun j => ?_
    by_cases hji : j = i
    · subst hji
      rw [Awaits, Awaits, hloc, hawaits]
    · rw [show t.loc j = s.loc j from congrArg Own.loc (hother j hji)]

omit [DecidableEq ι] in
theorem decrements_append (trace : List (ι × ReplayEffect)) (e : ι × ReplayEffect) (id : Uuid) :
    decrements (trace ++ [e]) id = decrements trace id + match e.2 with
      | .gaugeDec id' => if id' = id then 1 else 0
      | _ => 0 := by
  rw [decrements, List.countP_append]
  cases h : e.2 <;> simp [decrements, h]

/-- The commit of an update. -/
theorem RowStep.commit (hinv : ReplayInv s₀ s) {error : Option String} {w : EventDlqWrite}
    {status : EventDlqStatus} (hst : Stepped replayProgram s i (.commit ⟨(s.loc i).call,
      .readAgain error⟩) t) (hw : s.pending i = [w])
    (hheld : s.lock (s.loc i).call.dlqId = some i)
    (hstatus : ∀ rows k, statusOf (w.apply rows) k = if k = (s.loc i).call.dlqId then
      (statusOf rows k).map fun _ => status else statusOf rows k)
    (hwriting : (s.loc i).pc.writing) (hknows : (s.loc i).pc.knows)
    (hawaits : (s.loc i).pc.awaits = false)
    (herror : status = .replayed ↔ error = none) : RowStep s₀ s i t := by
  have hopen := hinv.unreplayed i hwriting
  have hdb : t.db = w.apply s.db := by
    have h := congrArg Shared.db hst.shared
    rw [hw] at h
    exact h
  have htrace : t.trace = s.trace := by
    have h := congrArg Shared.trace hst.shared
    exact h
  have hloc : t.loc i = ⟨(s.loc i).call, .readAgain error⟩ := hst.loc
  have hnew : statusOf t.db (s.loc i).call.dlqId = some status := by
    rw [hdb, hstatus, if_pos rfl]
    obtain ⟨old, hold⟩ := Option.ne_none_iff_exists'.mp (hinv.known i hknows)
    rw [hold]
    rfl
  have hother : ∀ j, j ≠ i → t.loc j = s.loc j := fun j hj => hst.loc_other hj
  refine ⟨hst.other, by rw [hloc], fun id hid => by rw [hdb, hstatus, if_neg hid],
    fun id _ => by rw [htrace], fun h => ?_, fun h => absurd h hopen, ?_, fun _ => ?_, fun h => ?_,
    fun _ j hji hj hid => ?_, ?_⟩
  · rw [hnew] at h
    cases h
  · have hpending : t.pending i = [] := hst.pending
    rw [HoldsRow, hloc]
    exact hpending
  · rw [hnew]
    exact Option.some_ne_none _
  · rw [hloc] at h
    cases h
  · -- two requests would hold the lock of the row
    have hlock : s.lock (s.loc j).call.dlqId = some j := (hinv.holds j).mem hj
    rw [hid, hheld] at hlock
    exact hji (Option.some.inj hlock).symm
  · have hcount : tallyCount s₀ t (s.loc i).call.dlqId = tallyCount s₀ s (s.loc i).call.dlqId := by
      rw [tallyCount, tallyCount, htrace]
    have hno : ¬Awaits (s.loc i) (s.loc i).call.dlqId := fun h => by
      rw [Awaits, hawaits] at h
      exact absurd h.2 Bool.false_ne_true
    rw [hnew, hcount]
    by_cases hs : status = .replayed
    · subst hs
      obtain rfl := herror.mp rfl
      refine (hinv.tally _).replay hopen (i := i) fun j => ?_
      by_cases hji : j = i
      · subst hji
        rw [Awaits, hloc]
        simp [ReplayPc.awaits]
      · rw [hother j hji]
        simp [hji]
    · refine ((hinv.tally _).congr fun j => ?_).set hopen fun h => hs (Option.some.inj h)
      by_cases hji : j = i
      · subst hji
        rw [iff_false_right hno, Awaits, hloc]
        cases error with
        | none => exact absurd (herror.mpr rfl) hs
        | some error => simp [ReplayPc.awaits]
      · rw [hother j hji]

theorem afterGauge_pc (call : ReplayCall) (updated : Option EventDlqRow) (error : Option String) :
    (call.afterGauge updated error).awaits = false ∧ (call.afterGauge updated error).writing = false ∧
      ((call.afterGauge updated error).knows → updated ≠ none) := by
  cases updated with
  | none => exact ⟨rfl, rfl, fun h => absurd h Bool.false_ne_true⟩
  | some row =>
    rw [ReplayCall.afterGauge]
    split <;> exact ⟨rfl, rfl, fun _ => Option.some_ne_none row⟩

theorem holdsRow_idle {p : ReplayProc} {held : Set Uuid} (h : p.pc.writing = false) :
    HoldsRow p [] held := by
  obtain ⟨call, pc⟩ := p
  cases pc with
  | commitReplayed => cases h
  | commitPending error => cases h
  | _ => rfl

/-- What a request sees of its row while it has written nothing. -/
theorem view_db (h : s.pending i = []) : (s.view replayProgram i).db = s.db := by
  show replayProgram.applyAll (s.pending i) s.db = s.db
  rw [h]
  rfl

theorem statusOf_eq_none {rows : EventDlq} {id : Uuid} :
    statusOf rows id = none ↔ getEventRow rows id = none := by
  rw [statusOf, Option.map_eq_none_iff]

/-- A read, or an update that waits for its commit. -/
theorem RowStep.exec (hinv : ReplayInv s₀ s) {ks : List Uuid} {ws : List EventDlqWrite}
    {pc : ReplayPc} (hst : Stepped replayProgram s i (.exec ks ws ⟨(s.loc i).call, pc⟩) t)
    (hnil : s.pending i = []) (hawaits : pc.awaits = (s.loc i).pc.awaits)
    (hknown : pc.knows → statusOf s.db (s.loc i).call.dlqId ≠ none)
    (hwriting : pc.writing → statusOf s.db (s.loc i).call.dlqId ≠ some .replayed)
    (hholds : ∀ held, HoldsRow ⟨(s.loc i).call, pc⟩ ws (held ∪ {k | k ∈ ks})) :
    RowStep s₀ s i t := by
  have hdb : t.db = s.db := by
    have h := congrArg Shared.db hst.shared
    exact h
  have htrace : t.trace = s.trace := by
    have h := congrArg Shared.trace hst.shared
    exact h
  have hloc : t.loc i = ⟨(s.loc i).call, pc⟩ := hst.loc
  have hpending : t.pending i = ws := by
    have h : t.pending i = s.pending i ++ ws := hst.pending
    rw [h, hnil, List.nil_append]
  have hheld : {k | t.lock k = some i} = {k | s.lock k = some i} ∪ {k | k ∈ ks} :=
    hst.held
  refine .quiet hinv hst.other hdb (fun id => by rw [htrace]) hloc hawaits ?_ hknown hwriting
  rw [hloc, hpending, hheld]
  exact hholds _

/-- An effect other than a decrement. -/
theorem RowStep.emit (hinv : ReplayInv s₀ s) {e : ReplayEffect} {pc : ReplayPc}
    (hst : Stepped replayProgram s i (.emit e ⟨(s.loc i).call, pc⟩) t)
    (he : ∀ id, e ≠ .gaugeDec id) (hnil : s.pending i = [])
    (hawaits : pc.awaits = (s.loc i).pc.awaits) (hknows : (s.loc i).pc.knows)
    (hwriting : pc.writing = false) : RowStep s₀ s i t := by
  have hdb : t.db = s.db := by
    have h := congrArg Shared.db hst.shared
    exact h
  have htrace : t.trace = s.trace ++ [(i, e)] := congrArg Shared.trace hst.shared
  have hloc : t.loc i = ⟨(s.loc i).call, pc⟩ := hst.loc
  have hpending : t.pending i = s.pending i := hst.pending
  have hcount : ∀ id, decrements t.trace id = decrements s.trace id := by
    intro id
    rw [htrace, decrements_append]
    cases e with
    | gaugeDec id' => exact absurd rfl (he id')
    | _ => rfl
  refine .quiet hinv hst.other hdb hcount hloc hawaits ?_ (fun _ => hinv.known i hknows) ?_
  · rw [hloc, hpending, hnil]
    exact holdsRow_idle hwriting
  · intro h
    rw [hwriting] at h
    cases h

/-- The gauge goes down. -/
theorem RowStep.decrement (hinv : ReplayInv s₀ s) {pc : ReplayPc}
    (hst : Stepped replayProgram s i (.emit (.gaugeDec (s.loc i).call.dlqId) ⟨(s.loc i).call, pc⟩) t)
    (hnil : s.pending i = []) (hawaits : (s.loc i).pc.awaits) (hknows : (s.loc i).pc.knows)
    (hpc : pc.awaits = false ∧ pc.writing = false) : RowStep s₀ s i t := by
  have hdb : t.db = s.db := by
    have h := congrArg Shared.db hst.shared
    exact h
  have htrace : t.trace = s.trace ++ [(i, .gaugeDec (s.loc i).call.dlqId)] :=
    congrArg Shared.trace hst.shared
  have hloc : t.loc i = ⟨(s.loc i).call, pc⟩ := hst.loc
  have hpending : t.pending i = s.pending i := hst.pending
  have hone : decrements t.trace (s.loc i).call.dlqId =
      decrements s.trace (s.loc i).call.dlqId + 1 := by
    rw [htrace, decrements_append]
    simp
  refine ⟨hst.other, by rw [hloc], fun id _ => by rw [hdb], fun id hid => ?_,
    fun h => by rwa [hdb] at h, fun h => by rwa [hdb], ?_, fun _ => ?_, fun h => ?_,
    fun h j _ hj hid => ?_, ?_⟩
  · rw [htrace, decrements_append]
    simp [Ne.symm hid]
  · rw [hloc, hpending, hnil]
    exact holdsRow_idle hpc.2
  · rw [hdb]
    exact hinv.known i hknows
  · rw [hloc, hpc.2] at h
    cases h
  · rw [hdb] at h
    exact hinv.unreplayed j hj (hid ▸ h)
  · have hcount : tallyCount s₀ t (s.loc i).call.dlqId =
        tallyCount s₀ s (s.loc i).call.dlqId + 1 := by
      rw [tallyCount, tallyCount, hone]
      omega
    rw [hdb, hcount]
    refine (hinv.tally _).count (i := i) ⟨rfl, hawaits⟩ fun j => ?_
    by_cases hji : j = i
    · subst hji
      rw [Awaits, hloc, hpc.1]
      simp
    · rw [hst.loc_other hji]
      simp [hji]

/-- An exception ends the request. -/
theorem RowStep.rollback (hinv : ReplayInv s₀ s) {result : ReplayResult}
    (hst : Stepped replayProgram s i (.rollback ⟨(s.loc i).call, .finished result⟩) t)
    (hawaits : (s.loc i).pc.awaits = false) : RowStep s₀ s i t := by
  have hdb : t.db = s.db := by
    have h := congrArg Shared.db hst.shared
    exact h
  have htrace : t.trace = s.trace := by
    have h := congrArg Shared.trace hst.shared
    exact h
  have hloc : t.loc i = ⟨(s.loc i).call, .finished result⟩ := hst.loc
  have hpending : t.pending i = [] := hst.pending
  refine .quiet hinv hst.other hdb (fun id => by rw [htrace]) hloc hawaits.symm ?_
    (fun h => absurd h Bool.false_ne_true) fun h => absurd h Bool.false_ne_true
  rw [hloc, hpending]
  rfl

/-- **One step of a request.** -/
theorem replay_rowStep (hinv : ReplayInv s₀ s) {x : ReplayInput} (hg : ReplaysInTurn s (i, x))
    (hs : replayStep s (i, x) = some t) : RowStep s₀ s i t := by
  obtain ⟨op, hop, hst⟩ := step_cases hs
  obtain ⟨op', hop', rfl⟩ := Option.map_eq_some_iff.mp hop
  have hholds := hinv.holds i
  have hknown := hinv.known i
  have hidle : ∀ {pc : ReplayPc}, pc.writing = false → ∀ held : Set Uuid,
      HoldsRow ⟨(s.loc i).call, pc⟩ [] held := fun hw _ => holdsRow_idle hw
  have hfalse : ∀ {p : Prop}, false = true → p := fun h => absurd h Bool.false_ne_true
  rw [ReplaysInTurn] at hg
  cases hpc : (s.loc i).pc with
  | read =>
    rw [HoldsRow, hpc] at hholds
    rw [hpc] at hop'
    cases x with
    | raise error => cases hop'
    | go =>
      simp only [ReplayCall.step, view_db hholds] at hop'
      cases hrow : getEventRow s.db (s.loc i).call.dlqId with
      | none =>
        rw [hrow] at hop'
        obtain rfl := (Option.some.inj hop').symm
        exact .exec hinv hst hholds (by rw [hpc]; rfl) hfalse hfalse fun held => hidle rfl _
      | some row =>
        rw [hrow] at hop'
        obtain rfl := (Option.some.inj hop').symm
        by_cases hr : row.status = .replayed
        · simp only [hr, if_true] at hst
          exact .exec hinv hst hholds (by rw [hpc]; rfl) hfalse hfalse fun held => hidle rfl _
        · simp only [hr, if_false] at hst
          refine .exec hinv hst hholds (by rw [hpc]; rfl) (fun _ => ?_) hfalse fun held => hidle rfl _
          rw [ne_eq, statusOf_eq_none, hrow]
          exact Option.some_ne_none row
  | publish row =>
    rw [HoldsRow, hpc] at hholds
    rw [hpc] at hop'
    cases x with
    | go =>
      obtain rfl := (Option.some.inj hop').symm
      exact .emit hinv hst (fun _ h => nomatch h) hholds (by rw [hpc]; rfl) (by rw [hpc]; rfl) rfl
    | raise error =>
      obtain rfl := (Option.some.inj hop').symm
      exact .emit hinv hst (fun _ h => nomatch h) hholds (by rw [hpc]; rfl) (by rw [hpc]; rfl) rfl
  | setReplayed =>
    rw [HoldsRow, hpc] at hholds
    rw [hpc] at hop' hg
    cases x with
    | raise error => cases hop'
    | go =>
      obtain rfl := (Option.some.inj hop').symm
      exact .exec hinv hst hholds (by rw [hpc]; rfl) (fun _ => hknown (by rw [hpc]; rfl))
        (fun _ => hg) fun held => ⟨rfl, .inr (List.mem_singleton_self _)⟩
  | setPending error =>
    rw [HoldsRow, hpc] at hholds
    rw [hpc] at hop' hg
    cases x with
    | raise error => cases hop'
    | go =>
      obtain rfl := (Option.some.inj hop').symm
      exact .exec hinv hst hholds (by rw [hpc]; rfl) (fun _ => hknown (by rw [hpc]; rfl))
        (fun _ => hg) fun held => ⟨rfl, .inr (List.mem_singleton_self _)⟩
  | commitReplayed =>
    rw [HoldsRow, hpc] at hholds
    rw [hpc] at hop'
    cases x with
    | raise error => cases hop'
    | go =>
      obtain rfl := (Option.some.inj hop').symm
      exact .commit hinv hst hholds.1 hholds.2 (fun rows k => statusOf_setReplayed rows _ k)
        (by rw [hpc]; rfl) (by rw [hpc]; rfl) (by rw [hpc]; rfl) (iff_of_true rfl rfl)
  | commitPending error =>
    rw [HoldsRow, hpc] at hholds
    rw [hpc] at hop'
    cases x with
    | raise error => cases hop'
    | go =>
      obtain rfl := (Option.some.inj hop').symm
      exact .commit hinv hst hholds.1 hholds.2 (fun rows k => statusOf_setPending rows _ error k)
        (by rw [hpc]; rfl) (by rw [hpc]; rfl) (by rw [hpc]; rfl) (by simp)
  | readAgain error =>
    rw [HoldsRow, hpc] at hholds
    rw [hpc] at hop' hg
    have hsome : statusOf s.db (s.loc i).call.dlqId ≠ none := hknown (by rw [hpc]; rfl)
    cases x with
    | raise reason => cases error <;> exact absurd hop' (Option.some_ne_none _).symm
    | go =>
      simp only [ReplayCall.step, view_db hholds] at hop'
      cases hrow : getEventRow s.db (s.loc i).call.dlqId with
      | none => exact absurd (statusOf_eq_none.mpr hrow) hsome
      | some row =>
        have hstatus : statusOf s.db (s.loc i).call.dlqId = some row.status := by
          rw [statusOf, hrow]
          rfl
        rw [hrow] at hop'
        obtain rfl := (Option.some.inj hop').symm
        by_cases hr : row.status = .replayed
        · simp only [hr, if_true] at hst
          -- only the request that has replayed the row reads that it is replayed
          cases error with
          | some error => exact absurd (hstatus.trans (congrArg some hr)) hg
          | none =>
            exact .exec hinv hst hholds (by rw [hpc]; rfl) (fun _ => hsome) hfalse
              fun held => hidle rfl _
        · simp only [hr, if_false] at hst
          obtain ⟨hawaits, hwriting, -⟩ :=
            afterGauge_pc (s.loc i).call (some row) error
          refine .exec hinv hst hholds ?_ (fun _ => hsome)
            (fun h => by rw [hwriting] at h; exact hfalse h) fun held => hidle hwriting _
          rw [hawaits, hpc]
          cases error with
          | some error => rfl
          | none =>
            have ha : Awaits (s.loc i) (s.loc i).call.dlqId := ⟨rfl, by rw [hpc]; rfl⟩
            have h := (hinv.tally _).replayed_of_awaits (i := i) ha
            exact absurd (Option.some.inj (hstatus.symm.trans h)) hr
  | decrement row error =>
    rw [HoldsRow, hpc] at hholds
    rw [hpc] at hop'
    cases x with
    | raise error => cases hop'
    | go =>
      obtain rfl := (Option.some.inj hop').symm
      obtain ⟨hawaits, hwriting, -⟩ := afterGauge_pc (s.loc i).call (some row) error
      exact .decrement hinv hst hholds (by rw [hpc]; rfl) (by rw [hpc]; rfl) ⟨hawaits, hwriting⟩
  | storeArtifact row error =>
    rw [HoldsRow, hpc] at hholds
    rw [hpc] at hop'
    cases x with
    | go =>
      obtain rfl := (Option.some.inj hop').symm
      exact .emit hinv hst (fun _ h => nomatch h) hholds (by rw [hpc]; rfl) (by rw [hpc]; rfl) rfl
    | raise error =>
      obtain rfl := (Option.some.inj hop').symm
      exact .rollback hinv hst (by rw [hpc]; rfl)
  | finished result =>
    rw [hpc] at hop'
    cases x <;> cases hop'

theorem replayInv_run (hinit : s₀.Initial) (h : Run replayStep ReplaysInTurn (· = s₀) s) :
    ReplayInv s₀ s := by
  refine Run.invariant ?_ ?_ h
  · rintro s rfl
    exact replayInv_initial hinit
  · rintro s ⟨i, x⟩ t _ hI hg hs
    exact (replay_rowStep hI hg hs).inv hI

/-- A step does not take a row back. -/
theorem replayed_step (hinv : ReplayInv s₀ s) {a : ι × ReplayInput} (hg : ReplaysInTurn s a)
    (hs : replayStep s a = some t) {id : Uuid} (h : statusOf s.db id = some .replayed) :
    statusOf t.db id = some .replayed := by
  obtain ⟨i, x⟩ := a
  have hrow := replay_rowStep hinv hg hs
  by_cases hid : id = (s.loc i).call.dlqId
  · rw [hid] at h ⊢
    exact hrow.keeps h
  · rw [hrow.status id hid]
    exact h

/-- A run does not take a row back. -/
theorem replayed_run (hinit : s₀.Initial) (hs : Run replayStep ReplaysInTurn (· = s₀) s)
    (ht : Run replayStep ReplaysInTurn (· = s) t) {id : Uuid}
    (h : statusOf s.db id = some .replayed) : statusOf t.db id = some .replayed := by
  refine Run.invariant (I := fun u => statusOf u.db id = some .replayed) ?_ ?_ ht
  · rintro u rfl
    exact h
  · intro u a v hu hI hg hstep
    exact replayed_step (replayInv_run hinit (hs.trans hu)) hg hstep hI

/-- No request for the row is under way. -/
def AtRest (s : ReplayWorld ι) (id : Uuid) : Prop :=
  ∀ i, (s.loc i).call.dlqId = id → (s.loc i).pc.atRest

/-- What is promised of a row between two states `s` and `t` of a run from `s₀`: REPLAYED is final,
and for a row that the run replays the gauge goes down once. -/
structure ReplayedOnce (s₀ s t : ReplayWorld ι) (id : Uuid) : Prop where
  final : statusOf s.db id = some .replayed → statusOf t.db id = some .replayed
  atMost : decrements t.trace id ≤ 1
  once : AtRest t id → decrements t.trace id =
    if statusOf t.db id = some .replayed ∧ statusOf s₀.db id ≠ some .replayed then 1 else 0

/-- **Requests that take turns replay a row once and for all.** -/
theorem replay_in_turn_final (hinit : s₀.Initial) (hs : Run replayStep ReplaysInTurn (· = s₀) s)
    (ht : Run replayStep ReplaysInTurn (· = s) t) (id : Uuid) : ReplayedOnce s₀ s t id := by
  have hinv := replayInv_run hinit (hs.trans ht)
  have hkept : statusOf s₀.db id = some .replayed → statusOf t.db id = some .replayed :=
    replayed_run hinit (.start rfl) (hs.trans ht)
  have hle : tallyCount s₀ t id ≤ 1 := (hinv.tally id).le_one
  have hcount : decrements t.trace id ≤ tallyCount s₀ t id := Nat.le_add_right _ _
  refine ⟨replayed_run hinit hs ht, hcount.trans hle, fun hrest => ?_⟩
  have hno : ∀ i, ¬Awaits (t.loc i) id := fun i ha => ReplayPc.not_awaits_of_atRest (hrest i ha.1) ha.2
  have hn : tallyCount s₀ t id = if statusOf t.db id = some .replayed then 1 else 0 :=
    (hinv.tally id).eq_of_not_awaits hno
  rw [tallyCount] at hn
  by_cases h₀ : statusOf s₀.db id = some .replayed
  · simp only [h₀, hkept h₀, if_true, ne_eq, not_true_eq_false, and_false, if_false] at hn ⊢
    omega
  · simpa only [h₀, if_false, Nat.add_zero, ne_eq, not_false_eq_true, and_true] using hn

end Step

/-! ### Requests side by side -/

/-- A row that waits for its replay. -/
def sampleEventRow : EventDlqRow where
  id := 1
  event := ⟨2, 3, "old", "new", 1, 2, .breaking, [], 0⟩
  endpointName := "GET /orders"
  nameSpace := "default"
  failureReason := "ConnectionError: broker"
  publisherName := "kafka"
  attemptCount := 1
  status := .pending
  replayError := none

/-- Two requests for the row. -/
def sampleReplays : ReplayWorld (Fin 2) where
  db := [sampleEventRow]
  loc _ := ⟨⟨1, false⟩, .read⟩
  pending _ := []
  lock _ := none

theorem sampleReplays_initial : sampleReplays.Initial :=
  ⟨fun _ => rfl, fun _ => rfl, fun _ => rfl, rfl⟩

/-- Steps of one request that nothing disturbs. -/
def goes (i : Fin 2) (n : ℕ) : List (Fin 2 × ReplayInput) := List.replicate n (i, .go)

/-- The first request fails, the second replays the row. -/
def sampleTurns : List (Fin 2 × ReplayInput) :=
  goes 0 1 ++ [(0, .raise "TimeoutError: broker")] ++ goes 0 3 ++ goes 1 4

/-- After a failure and a success the row stays REPLAYED and the gauge has gone down once. -/
theorem replay_in_turn_final_sample : ∃ s t : ReplayWorld (Fin 2),
    Run replayStep ReplaysInTurn (· = sampleReplays) s ∧
      Run replayStep ReplaysInTurn (· = s) t ∧
      statusOf s.db 1 = some .replayed ∧ AtRest t 1 ∧ ReplayedOnce sampleReplays s t 1 := by
  have hrun : ((exec replayStep sampleReplays sampleTurns).bind fun s =>
      (exec replayStep s (goes 1 2)).map fun t =>
        (statusOf s.db 1, (t.loc 0).pc.atRest, (t.loc 1).pc.atRest)) =
          some (some .replayed, true, true) := by
    decide
  have hgood : Along replayStep ReplaysInTurn sampleReplays (sampleTurns ++ goes 1 2) := by
    decide
  obtain ⟨s, hs, hrest⟩ := Option.bind_eq_some_iff.mp hrun
  obtain ⟨t, ht, hend⟩ := Option.map_eq_some_iff.mp hrest
  obtain ⟨hstatus, hends⟩ := Prod.mk.inj hend
  obtain ⟨hfirst, hsecond⟩ := Prod.mk.inj hends
  have hreach : Run replayStep ReplaysInTurn (· = sampleReplays) s :=
    .of_exec (.start rfl) hgood.left hs
  have hreach' : Run replayStep ReplaysInTurn (· = s) t :=
    .of_exec (.start rfl) (hgood.of_append hs) ht
  refine ⟨s, t, hreach, hreach', hstatus, fun i _ => ?_,
    replay_in_turn_final sampleReplays_initial hreach hreach' 1⟩
  match i with
  | 0 => exact hfirst
  | 1 => exact hsecond

/-- Both requests read PENDING. The success of the first is taken back by the failure of the
second; two successes lower the gauge twice. -/
theorem replayed_taken_back :
    (∃ s t : ReplayWorld (Fin 2), Reachable replayStep (· = sampleReplays) s ∧
      Reachable replayStep (· = s) t ∧
      statusOf s.db 1 = some .replayed ∧ statusOf t.db 1 = some .pending) ∧
    ∃ t : ReplayWorld (Fin 2), Reachable replayStep (· = sampleReplays) t ∧
      statusOf t.db 1 = some .replayed ∧ AtRest t 1 ∧ decrements t.trace 1 = 2 := by
  refine ⟨?_, ?_⟩
  · have hrun : ((exec replayStep sampleReplays (goes 0 1 ++ goes 1 1 ++ goes 0 3)).bind fun s =>
        (exec replayStep s ((1, .raise "TimeoutError: broker") :: goes 1 2)).map fun t =>
          (statusOf s.db 1, statusOf t.db 1)) = some (some .replayed, some .pending) := by
      decide
    obtain ⟨s, hs, hrest⟩ := Option.bind_eq_some_iff.mp hrun
    obtain ⟨t, ht, hend⟩ := Option.map_eq_some_iff.mp hrest
    obtain ⟨hfinal, hback⟩ := Prod.mk.inj hend
    exact ⟨s, t, reachable_of_exec rfl hs, reachable_of_exec rfl ht, hfinal, hback⟩
  · have hrun : (exec replayStep sampleReplays (goes 0 1 ++ goes 1 1 ++ goes 0 5 ++ goes 1 5)).map
        (fun t => (statusOf t.db 1, decrements t.trace 1, (t.loc 0).pc.atRest,
          (t.loc 1).pc.atRest)) = some (some .replayed, 2, true, true) := by
      decide
    obtain ⟨t, ht, hend⟩ := Option.map_eq_some_iff.mp hrun
    obtain ⟨hstatus, hend⟩ := Prod.mk.inj hend
    obtain ⟨htwice, hends⟩ := Prod.mk.inj hend
    obtain ⟨hfirst, hsecond⟩ := Prod.mk.inj hends
    refine ⟨t, reachable_of_exec rfl ht, hstatus, fun i _ => ?_, htwice⟩
    match i with
    | 0 => exact hfirst
    | 1 => exact hsecond

end Driftgate.Runtime
