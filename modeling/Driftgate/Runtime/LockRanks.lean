import Driftgate.Lib.LockOrder
import Driftgate.Lib.Whereabouts
import Driftgate.Runtime.Announcements
import Driftgate.Runtime.RowLifecycle
import Driftgate.Runtime.VersionRows

/-!
# No deadlock

The transactions of the runtime take their locks in one order: the entry of a new endpoint, the
advisory lock, the rows and entries of versions, rows of the outbox, and entries of the dead letters
last. Three kinds of lock do not follow it, and nobody waits for them: the lock of a row that the
statement inserts, one that the transaction holds already, and the rows of a batch, which
`SKIP LOCKED` picks among those that are free.

A transaction holds the entry of a dead letter only up to the commit that follows, so it never
asks for anything while it does.
-/

namespace Driftgate.Runtime

open Driftgate.ReadCommitted Driftgate.Transition

/-! ### Ranks -/

/-- The place of a lock in the order. -/
def LockKey.rank : LockKey → ℕ
  | .endpointKey _ => 0
  | .endpointRow _ => 0
  | .subscriptionRow _ => 0
  | .advisory _ => 1
  | .versionRow _ => 2
  | .versionNumber _ _ => 3
  | .versionFingerprint _ _ => 3
  | .outboxRow _ => 4
  | .dlqKey _ _ => 5

theorem LockKey.rank_lt (k : LockKey) : k.rank < 6 := by
  cases k <;> simp [rank]

/-- All locks held rank below `n`. -/
def Below (n : ℕ) (held : Set LockKey) : Prop := ∀ k ∈ held, k.rank < n

variable {held : Set LockKey} {n m : ℕ}

theorem Below.mono (h : Below n held) (hle : n ≤ m) : Below m held :=
  fun k hk => lt_of_lt_of_le (h k hk) hle

theorem Below.empty (n : ℕ) : Below n ∅ := fun _ h => absurd h (Set.notMem_empty _)

theorem Below.take {ks : List LockKey} (h : Below n held) (hks : ∀ k ∈ ks, k.rank < m)
    (hle : n ≤ m) : Below m (held ∪ {k | k ∈ ks}) := by
  rintro k (hk | hk)
  · exact lt_of_lt_of_le (h k hk) hle
  · exact hks k hk

/-! ### What a party holds -/

/-- The locks of a request inside `upsert_schema_version`. -/
def UpsertPc.Locks (held : Set LockKey) : UpsertPc → Prop
  | .insertEndpoint => Below 0 held
  | .selectEndpoint => Below 0 held
  | .fastLookup _ => Below 1 held
  | .advisoryLock _ => Below 1 held
  | .getCurrentSchema _ => Below 2 held
  | .lookup _ _ => Below 2 held
  | .unsetCurrent _ _ => Below 2 held
  | .insertVersion _ _ => Below 3 held

/-- The locks of a request inside `_enqueue_webhook_outbox`. The row that is about to be updated is
its own, or the delivery has committed. -/
def EnqueuePc.Locks (held : Set LockKey) : EnqueuePc → Prop
  | .updateOutbox _ _ _ id _ => Below 5 held ∧ (.outboxRow id ∈ held ∨ held = ∅)
  | .deliver _ _ _ _ .commitFailure => True
  | _ => Below 5 held

/-- The locks of a request. From the insert of its version to the label it holds the row. -/
def TrackPc.Locks (held : Set LockKey) : TrackPc → Prop
  | .upsert pc => pc.Locks held
  | .storeSnapshot u => Below 4 held ∧ (u.inserted = true → .versionRow u.record.id ∈ held)
  | .selectPrior u _ => Below 4 held ∧ .versionRow u.record.id ∈ held
  | .storeDiff d => Below 4 held ∧ .versionRow d.upserted.record.id ∈ held
  | .setClassification d => Below 4 held ∧ .versionRow d.upserted.record.id ∈ held
  | .enqueue _ pc => pc.Locks held
  | .commit _ _ => True

/-- The locks of a worker. It delivers and concludes with none, and marks a row with none or with
those of the batch. -/
def WorkerPc.Locks (held : Set LockKey) : WorkerPc → Prop
  | .poll => held = ∅
  | .markDelivering item _ _ => .outboxRow item.id ∈ held ∨ held = ∅
  | .selectSubscription _ _ _ => held = ∅
  | .deliver _ _ _ args pc => held = ∅ ∧ args.persistDlq = false ∧ ∀ reason, pc ≠ .upsertDlq reason
  | .conclude _ _ _ _ => held = ∅
  | .upsertDlq _ _ _ _ => Below 5 held
  | .sleep => held = ∅
  | .ended => held = ∅
  | _ => True

/-- The locks of a request: those of its code while it runs, and none when its session is closed. -/
def TrackProc.Locks (held : Set LockKey) (p : TrackProc) : Prop :=
  match p.status with
  | .running => p.pc.Locks held
  | .closing _ => True
  | _ => held = ∅

/-- The locks of a party. -/
def Party.Locks (held : Set LockKey) : Party → Prop
  | .track p => p.Locks held
  | .worker pc => pc.Locks held
  | .subscription _ .write => held = ∅
  | _ => True

/-- What makes a lock that a party asks for harmless: it ranks above those it holds, it holds it
already, it is free, or it belongs to a row that the statement inserts. -/
def Harmless (held : Set LockKey) (v : DbView) (k : LockKey) : Prop :=
  Below k.rank held ∨ k ∈ held ∨ v.busy k = false ∨ k = .versionRow v.fresh ∨ k = .outboxRow v.fresh

/-! ### Steps -/

section Steps

variable {cfg : Config} {v : DbView} {x : Input}

/-- What a step establishes. -/
structure KeepsOrder {ε ℓ : Type*} (held : Set LockKey) (v : DbView)
    (Locks : Set LockKey → ℓ → Prop) (op : Op Write LockKey ε ℓ) : Prop where
  harmless : ∀ k ∈ op.locks, Harmless held v k
  next : Locks (op.heldAfter held) op.next

/-- The locks at the end of a piece of code. -/
def Flow.Locks {ℓ ρ : Type*} (inside : Set LockKey → ℓ → Prop) (after : Set LockKey → ρ → Prop)
    (held : Set LockKey) : Flow ℓ ρ → Prop
  | .go pc => inside held pc
  | .done r => after held r
  | .raised _ => True

theorem heldAfter_exec_nil {ε ℓ : Type*} (ws : List Write) (l : ℓ) :
    (Op.exec [] ws l : Op Write LockKey ε ℓ).heldAfter held = held := by
  simp [Op.heldAfter]

/-- A statement that takes no lock. -/
theorem KeepsOrder.plain {ε ℓ : Type*} {Locks : Set LockKey → ℓ → Prop} {ws : List Write} {l : ℓ}
    (h : Locks held l) : KeepsOrder held v Locks (.exec [] ws l : Op Write LockKey ε ℓ) :=
  ⟨by simp [Op.locks], by rw [heldAfter_exec_nil]; exact h⟩

theorem KeepsOrder.emit {ε ℓ : Type*} {Locks : Set LockKey → ℓ → Prop} {e : ε} {l : ℓ}
    (h : Locks held l) : KeepsOrder held v Locks (.emit e l : Op Write LockKey ε ℓ) :=
  ⟨by simp [Op.locks], h⟩

theorem KeepsOrder.commit {ε ℓ : Type*} {Locks : Set LockKey → ℓ → Prop} {l : ℓ}
    (h : Locks ∅ l) : KeepsOrder held v Locks (.commit l : Op Write LockKey ε ℓ) :=
  ⟨by simp [Op.locks], h⟩

theorem KeepsOrder.rollback {ε ℓ : Type*} {Locks : Set LockKey → ℓ → Prop} {l : ℓ}
    (h : Locks ∅ l) : KeepsOrder held v Locks (.rollback l : Op Write LockKey ε ℓ) :=
  ⟨by simp [Op.locks], h⟩

/-- A piece of code inside another one. -/
theorem KeepsOrder.map {ε ε' ℓ ℓ' : Type*} {Locks : Set LockKey → ℓ → Prop}
    {Locks' : Set LockKey → ℓ' → Prop} {op : Op Write LockKey ε ℓ} {f : ℓ → ℓ'} {g : ε → ε'}
    (h : KeepsOrder held v Locks op) (hf : ∀ held' l, Locks held' l → Locks' held' (f l)) :
    KeepsOrder held v Locks' (op.map f g) where
  harmless := by
    rw [Op.locks_map]
    exact h.harmless
  next := by
    rw [Op.heldAfter_map, Op.next_map]
    exact hf _ _ h.next

theorem Upsert.keepsOrder {u : Upsert} {pc : UpsertPc}
    {op : Op Write LockKey Empty (Flow UpsertPc Upserted)} (h : pc.Locks held)
    (hop : u.step cfg pc v x = some op) :
    KeepsOrder held v (Flow.Locks (fun held pc => UpsertPc.Locks held pc) fun held r =>
      Below 4 held ∧ (r.inserted = true → .versionRow r.record.id ∈ held)) op := by
  obtain ⟨ks, ws, next, rfl, hmove⟩ := step_move hop
  cases hmove with
  | raises | endpointMissing | versionTaken => exact .plain trivial
  | endpointTaken => exact .plain h
  | endpointInserted hnone =>
    have hbelow : Below 0 held := h
    refine ⟨fun k hk => .inl (hbelow.mono (Nat.zero_le _)), ?_⟩
    exact hbelow.take (by simp [LockKey.rank]) (Nat.zero_le 1)
  | endpointFound hrow =>
    have hbelow : Below 0 held := h
    exact .plain (hbelow.mono (Nat.zero_le 1))
  | fastFound hrow =>
    have hbelow : Below 1 held := h
    exact .plain ⟨hbelow.mono (by decide), by simp⟩
  | fastMissing hnone => exact .plain h
  | advisoryLock e =>
    have hbelow : Below 1 held := h
    refine ⟨fun k hk => .inl ?_, hbelow.take (by simp [LockKey.rank]) (by decide)⟩
    rw [List.mem_singleton.mp hk]
    exact hbelow
  | getCurrentSchema e => exact .plain h
  | found current hrow =>
    have hbelow : Below 2 held := h
    exact .plain ⟨hbelow.mono (by decide), by simp⟩
  | missing c hnone => exact .plain h
  | missingFirst hnone =>
    have hbelow : Below 2 held := h
    exact .plain (hbelow.mono (by decide))
  | unsetCurrent e c =>
    have hbelow : Below 2 held := h
    refine ⟨fun k hk => .inl ?_, hbelow.take (by simp [LockKey.rank]) (by decide)⟩
    rw [List.mem_singleton.mp hk]
    exact hbelow
  | versionInserted hfree =>
    have hbelow : Below 3 held := h
    refine ⟨fun k hk => ?_, hbelow.take (by simp [LockKey.rank]) (by decide), fun _ => .inr ?_⟩
    · simp only [Op.locks, List.mem_cons, List.not_mem_nil, or_false] at hk
      rcases hk with rfl | rfl | rfl
      · exact .inl hbelow
      · exact .inl hbelow
      · exact .inr (.inr (.inr (.inl rfl)))
    · simp [Upsert.newRow]

theorem Delivery.keepsOrder {d : Delivery} {pc : DeliverPc} {n : ℕ} (hn : n ≤ 5)
    {op : Op Write LockKey Post (Flow DeliverPc Bool)}
    (h : pc = .commitFailure ∨ Below n held) (hop : d.step pc v x = some op) :
    KeepsOrder held v (Flow.Locks (fun held pc => pc = .commitFailure ∨ Below n held)
      fun held _ => held = ∅) op := by
  cases step_move hop with
  | answered | unanswered =>
    exact .emit (h.imp (fun h => by cases h) id)
  | success | successRaises => exact .plain (h.imp (fun h => by cases h) id)
  | delivered | givenUp => exact .commit rfl
  | deliveredRaises => exact .rollback (.inr (Below.empty n))
  | failure m reason =>
    refine .plain ?_
    have hbelow : Below n held := h.resolve_left (by simp)
    exact .inr hbelow
  | deadLetter reason =>
    have hbelow : Below n held := h.resolve_left (by simp)
    refine ⟨fun k hk => .inl ?_, .inl rfl⟩
    rw [List.mem_singleton.mp hk]
    exact hbelow.mono hn
  | failureRaises | deadLetterRaises | givenUpRaises => exact .plain trivial

theorem Enqueue.keepsOrder {q : Enqueue} {pc : EnqueuePc}
    {op : Op Write LockKey Effect (Flow EnqueuePc (List SubscriptionRow))} (h : pc.Locks held)
    (hop : q.step cfg pc v x = some op) :
    KeepsOrder held v (Flow.Locks (fun held pc => EnqueuePc.Locks held pc) fun _ _ => True) op := by
  have hnext : ∀ affected rest {held}, Below 5 held →
      Flow.Locks (fun held pc => EnqueuePc.Locks held pc) (fun _ _ => True) held
        (next affected rest) := by
    intro affected rest held hbelow
    cases rest with
    | nil => trivial
    | cons sub rest => exact hbelow
  cases step_move hop with
  | selects affected _ => exact .plain (hnext affected affected h)
  | inserts affected sub rest _ =>
    have hbelow : Below 5 held := h
    refine ⟨fun k hk => .inr (.inr (.inr (.inr (List.mem_singleton.mp hk)))), ?_⟩
    exact hnext affected rest (hbelow.take (by simp [LockKey.rank]) (Nat.le_refl 5))
  | insertsActive affected sub rest _ _ =>
    have hbelow : Below 5 held := h
    refine ⟨fun k hk => .inr (.inr (.inr (.inr (List.mem_singleton.mp hk)))), ?_⟩
    exact hbelow.take (by simp [LockKey.rank]) (Nat.le_refl 5)
  | insertsInactive affected sub rest _ _ =>
    have hbelow : Below 5 held := h
    refine ⟨fun k hk => .inr (.inr (.inr (.inr (List.mem_singleton.mp hk)))), ?_, ?_⟩
    · exact hbelow.take (by simp [LockKey.rank]) (Nat.le_refl 5)
    · exact .inl (.inr (by simp))
  | delivers affected sub rest id pc hd =>
    have hdeliver : pc = .commitFailure ∨ Below 5 held := by
      cases pc with
      | commitFailure => exact .inl rfl
      | _ => exact .inr h
    refine (Delivery.keepsOrder (Nat.le_refl 5) hdeliver hd).map fun held' f hf => ?_
    cases f with
    | go pc =>
      rcases hf with rfl | hf
      · trivial
      · cases pc with
        | commitFailure => trivial
        | _ => exact hf
    | done ok =>
      obtain rfl : held' = ∅ := hf
      exact ⟨Below.empty 5, .inr rfl⟩
    | raised e => trivial
  | updates affected _ rest id ok =>
    obtain ⟨hbelow, hrow⟩ := h
    refine ⟨fun k hk => ?_, ?_⟩
    · rw [List.mem_singleton.mp hk]
      rcases hrow with hrow | rfl
      · exact .inr (.inl hrow)
      · exact .inl (Below.empty _)
    · exact hnext affected rest (hbelow.take (by simp [LockKey.rank]) (Nat.le_refl 5))
  | selectRaises | insertRaises | updateRaises => exact .plain trivial

theorem TrackCall.afterUpsert_locks {call : TrackCall} {u : Upserted} (h : Below 4 held)
    (hu : u.inserted = true → .versionRow u.record.id ∈ held) :
    (call.afterUpsert cfg u).Locks held ∧ (call.afterSnapshot cfg u).Locks held := by
  have hafter : (call.afterSnapshot cfg u).Locks held := by
    rw [afterSnapshot]
    split
    next id hins _ => exact ⟨h, hu hins⟩
    next => trivial
  rw [afterUpsert]
  split
  · exact ⟨⟨h, hu⟩, hafter⟩
  · exact ⟨hafter, hafter⟩

theorem TrackCall.keepsOrder {call : TrackCall} {pc : TrackPc}
    {op : Op Write LockKey Effect (Flow TrackPc TrackResult)} (h : pc.Locks held)
    (hop : call.step cfg pc v x = some op) :
    KeepsOrder held v (Flow.Locks (fun held pc => TrackPc.Locks held pc) fun held _ => held = ∅)
      op := by
  cases step_move hop with
  | upserts pc hu =>
    refine (Upsert.keepsOrder h hu).map fun held' f hf => ?_
    cases f with
    | go pc => exact hf
    | done r => exact (call.afterUpsert_locks hf.1 hf.2).1
    | raised e => trivial
  | enqueues q pc hq =>
    refine (Enqueue.keepsOrder h hq).map fun held' f hf => ?_
    cases f with
    | go pc => exact hf
    | done r => trivial
    | raised e => trivial
  | storesSnapshot u => exact .emit (call.afterUpsert_locks h.1 h.2).2
  | skipsSnapshot u => exact .plain (call.afterUpsert_locks h.1 h.2).2
  | comparesStored | compares => exact .plain h
  | storesDiff d => exact .emit h
  | skipsDiff d => exact .plain h
  | classifies d =>
    obtain ⟨hbelow, hrow⟩ := h
    refine ⟨fun k hk => .inr (.inl ?_), ?_⟩
    · rw [List.mem_singleton.mp hk]
      exact hrow
    · exact hbelow.take (by simp [LockKey.rank]) (by decide)
  | commits n r => exact .commit rfl
  | comparisonFails | priorMissing | priorRaises | classifyRaises | commitRaises =>
    exact .plain trivial

theorem WorkerPc.nextItem_locks (n : ℕ) (items : List OutboxRow)
    (h : (∀ item ∈ items, .outboxRow item.id ∈ held) ∨ held = ∅) :
    (nextItem n items).Locks held := by
  cases items with
  | nil => trivial
  | cons item rest => exact h.imp (fun h => h item List.mem_cons_self) id

/-- A delivery that leaves the dead letter to its caller takes no lock. -/
theorem Delivery.locks_eq_nil {d : Delivery} (hd : d.persistDlq = false) {pc : DeliverPc}
    (hpc : ∀ reason, pc ≠ .upsertDlq reason) {op : Op Write LockKey Post (Flow DeliverPc Bool)}
    (hop : d.step pc v x = some op) :
    op.locks = [] ∧ ∀ pc', op.next = .go pc' → ∀ reason, pc' ≠ .upsertDlq reason := by
  cases step_move hop with
  | answered n code =>
    refine ⟨rfl, fun pc' hgo => ?_⟩
    cases hgo
    split <;> simp
  | failure n reason =>
    refine ⟨rfl, fun pc' hgo => ?_⟩
    cases hgo
    rw [afterFailure, hd]
    split <;> simp
  | deadLetter reason => exact absurd rfl (hpc reason)
  | _ =>
    refine ⟨rfl, fun pc' hgo => ?_⟩
    cases hgo <;> simp

theorem Op.heldAfter_empty {ε ℓ : Type*} {op : Op Write LockKey ε ℓ} (h : op.locks = []) :
    op.heldAfter ∅ = ∅ := by
  cases op with
  | exec ks ws l =>
    obtain rfl : ks = [] := h
    exact heldAfter_exec_nil ws l
  | _ => rfl

theorem WorkerPc.delivering_locks {item : OutboxRow} {rest : List OutboxRow} {n : ℕ}
    {args : Delivery} (hargs : args.persistDlq = false) {f : Flow DeliverPc Bool}
    (hf : ∀ pc, f = .go pc → ∀ reason, pc ≠ .upsertDlq reason) :
    (delivering item rest n args f).Locks ∅ := by
  cases f with
  | go pc => exact ⟨rfl, hargs, hf pc rfl⟩
  | done ok => exact rfl
  | raised e => trivial

theorem WorkerPc.keepsOrder {pc : WorkerPc} {op : Op Write LockKey Effect WorkerPc}
    (h : pc.Locks held) (hop : pc.step v x = some op) :
    KeepsOrder held v (fun held pc => WorkerPc.Locks held pc) op := by
  have hrow : ∀ {item : OutboxRow}, .outboxRow item.id ∈ held ∨ held = ∅ →
      ∀ k ∈ [LockKey.outboxRow item.id], Harmless held v k := by
    intro item hitem k hk
    rw [List.mem_singleton.mp hk]
    rcases hitem with hitem | rfl
    · exact .inr (.inl hitem)
    · exact .inl (Below.empty _)
  by_cases hdeliver : ∃ item rest n args dpc, pc = .deliver item rest n args dpc
  · obtain ⟨item, rest, n, args, dpc, rfl⟩ := hdeliver
    obtain ⟨rfl, hargs, hdpc⟩ := h
    rcases deliver_cases hop with ⟨-, rfl⟩ | ⟨op', hop', rfl⟩
    · exact .rollback rfl
    · obtain ⟨hlocks, hgo⟩ := Delivery.locks_eq_nil hargs hdpc hop'
      refine ⟨by rw [Op.locks_map, hlocks]; simp, ?_⟩
      rw [Op.heldAfter_map, Op.next_map, Op.heldAfter_empty hlocks]
      exact delivering_locks hargs hgo
  have hnot : ∀ item rest n args dpc, pc ≠ .deliver item rest n args dpc :=
    fun item rest n args dpc hpc => hdeliver ⟨item, rest, n, args, dpc, hpc⟩
  by_cases hx : x.crash = true
  · obtain rfl | rfl := step_crash hop hx hnot
    · exact .rollback rfl
    · exact .plain trivial
  · obtain ⟨now, rfl⟩ := step_proceed hop (Bool.eq_false_of_not_eq_true hx) hnot
    cases pc with
    | deliver item rest n args dpc => exact absurd rfl (hnot item rest n args dpc)
    | selectSubscription item rest n =>
      obtain rfl : held = ∅ := h
      simp only [step] at hop
      split at hop
      · exact Option.some.inj hop ▸ .plain rfl
      · refine Option.some.inj hop ▸ .plain (delivering_locks rfl fun pc hpc reason => ?_)
        obtain hs | hs := Delivery.start_cases (delivery item _ v.fresh) <;> rw [hs] at hpc <;>
          cases hpc
        simp
    | conclude item rest n how =>
      obtain rfl : held = ∅ := h
      refine Option.some.inj hop ▸ ⟨hrow (.inr rfl), ?_⟩
      cases how with
      | exhausted args => exact (Below.empty 4).take (by simp [LockKey.rank]) (by decide)
      | _ => trivial
    | poll =>
      obtain rfl : held = ∅ := h
      refine Option.some.inj hop ▸ ⟨fun k hk => ?_, nextItem_locks 0 _ (.inl fun item hitem => ?_)⟩
      · obtain ⟨row, hmem, rfl⟩ := List.mem_map.mp hk
        have hfree := (List.mem_filter.mp (List.mem_of_mem_take hmem)).2
        exact .inr (.inr (.inl (by simpa using hfree)))
      · exact .inr (List.mem_map.mpr ⟨item, hitem, rfl⟩)
    | markDelivering item rest n => exact Option.some.inj hop ▸ ⟨hrow h, trivial⟩
    | upsertDlq item rest n args =>
      have hbelow : Below 5 held := h
      refine Option.some.inj hop ▸ ⟨fun k hk => .inl ?_, trivial⟩
      rw [List.mem_singleton.mp hk]
      exact hbelow
    | commitItem item rest n =>
      exact Option.some.inj hop ▸ .commit (nextItem_locks (n + 1) rest (.inr rfl))
    | close n =>
      refine Option.some.inj hop ▸ .rollback ?_
      split <;> exact rfl
    | commitMark item rest n => exact Option.some.inj hop ▸ .commit rfl
    | countPending n => exact Option.some.inj hop ▸ .plain trivial
    | closeFailed => exact Option.some.inj hop ▸ .rollback rfl
    | sleep => exact Option.some.inj hop ▸ .plain h
    | ended => cases hop

/-- **A step of a party** asks for harmless locks only. -/
theorem Party.keepsOrder {p : Party} {op : Op Write LockKey Effect Party} (h : p.Locks held)
    (hop : p.next cfg v x = some op) : KeepsOrder held v (fun held p => Party.Locks held p) op := by
  cases p with
  | track p =>
    obtain ⟨op', hop', rfl⟩ := Option.map_eq_some_iff.mp hop
    have hp : KeepsOrder held v (fun held p => TrackProc.Locks held p) op' := by
      rcases TrackProc.next_cases hop' with ⟨-, rfl⟩ | ⟨ok, t, -, -, rfl⟩ |
        ⟨cop, hst, hcode, rfl⟩ | ⟨e, -, rfl⟩
      · refine .rollback ?_
        cases hst : p.status <;> simp [TrackProc.Locks, TrackProc.halt, hst]
      · exact .emit h
      · obtain ⟨call, pc, status, task⟩ := p
        obtain rfl : status = .running := hst
        refine (TrackCall.keepsOrder h hcode).map fun held' f hf => ?_
        cases f with
        | go pc => exact hf
        | done r => exact hf
        | raised e => trivial
      · exact .rollback rfl
    exact hp.map fun held' p hp => hp
  | worker pc =>
    obtain ⟨op', hop', rfl⟩ := Option.map_eq_some_iff.mp hop
    exact (WorkerPc.keepsOrder h hop').map fun held' pc hpc => hpc
  | subscription call pc =>
    obtain ⟨op', hop', rfl⟩ := Option.map_eq_some_iff.mp hop
    cases pc with
    | write =>
      obtain rfl : held = ∅ := h
      cases x with
      | proceed now =>
        cases call <;> obtain rfl := Option.some.inj hop' <;>
          exact ⟨fun k _ => .inl (Below.empty _), trivial⟩
      | raise why =>
        obtain rfl := Option.some.inj hop'
        exact .plain trivial
      | _ => cases hop'
    | commit =>
      cases x with
      | proceed now =>
        obtain rfl := Option.some.inj hop'
        exact .commit trivial
      | raise why =>
        obtain rfl := Option.some.inj hop'
        exact .plain trivial
      | _ => cases hop'
  | finished =>
    cases x <;> simp only [next, reduceCtorEq, Option.some.injEq] at hop
    subst hop
    exact .rollback trivial

end Steps

/-! ### Identifiers of outbox rows -/

/-- The rows a worker has in memory. -/
def WorkerPc.rows (pc : WorkerPc) : List OutboxRow := pc.underway.toList ++ pc.batch

/-- The row that an inline delivery is about. -/
def EnqueuePc.outboxId : EnqueuePc → Option Uuid
  | .deliver _ _ _ id _ => some id
  | .updateOutbox _ _ _ id _ => some id
  | _ => none

def TrackPc.outboxId : TrackPc → Option Uuid
  | .enqueue _ pc => pc.outboxId
  | _ => none

/-- The row, where the code goes on. -/
def Flow.outboxId {ℓ ρ : Type*} (outboxId : ℓ → Option Uuid) : Flow ℓ ρ → Option Uuid
  | .go pc => outboxId pc
  | _ => none

/-- The identifiers of outbox rows that a party knows. -/
def Party.KnowsRow (p : Party) (id : Uuid) : Prop :=
  match p with
  | .track p => p.pc.outboxId = some id
  | .worker pc => ∃ row ∈ pc.rows, row.id = id
  | _ => False

/-- Where identifiers of outbox rows can be found. -/
def outboxIds (cfg : Config) : Whereabouts (program cfg) where
  stored db id := ∃ row ∈ db.outbox, row.id = id
  written w id := ∃ row, w = .insertOutbox row ∧ row.id = id
  known p id := p.KnowsRow id
  apply_iff w db id := by
    cases w with
    | insertOutbox row => simp [program, Write.apply, or_and_right, exists_or]
    | updateOutbox id' change =>
      simp only [program, Write.apply, reduceCtorEq, false_and, exists_false, or_false]
      exact exists_mem_updateWhere (fun r : OutboxRow => r.id = id) _ _ fun r => Iff.rfl
    | _ => simp [program, Write.apply]

section Rows

variable {cfg : Config} {v : DbView} {x : Input}

theorem WorkerPc.nextItem_rows (n : ℕ) (items : List OutboxRow) :
    (nextItem n items).rows = items := by
  cases items <;> rfl

theorem WorkerPc.delivering_rows {item : OutboxRow} {rest : List OutboxRow} {n : ℕ}
    {args : Delivery} {f : Flow DeliverPc Bool} {row : OutboxRow}
    (h : row ∈ (delivering item rest n args f).rows) : row ∈ item :: rest := by
  cases f with
  | raised e => cases h
  | _ => exact h

theorem Delivery.mem_locks {d : Delivery} {pc : DeliverPc}
    {op : Op Write LockKey Post (Flow DeliverPc Bool)} (h : d.step pc v x = some op) {k : LockKey}
    (hk : k ∈ op.locks) : k = d.dlqKey := by
  cases step_move h with
  | deadLetter => exact List.mem_singleton.mp hk
  | _ => cases hk

/-- What a step of a worker does with rows: it knows those it knew and those it sees, and locks
only such. -/
theorem WorkerPc.step_rows {pc : WorkerPc} {op : Op Write LockKey Effect WorkerPc}
    (h : pc.step v x = some op) :
    (∀ row ∈ op.next.rows, row ∈ pc.rows ∨ row ∈ v.db.outbox) ∧
    ∀ k ∈ op.locks, (∃ row, (row ∈ pc.rows ∨ row ∈ v.db.outbox) ∧ k = .outboxRow row.id) ∨
      ∃ e c, k = .dlqKey e c := by
  by_cases hdeliver : ∃ item rest n args dpc, pc = .deliver item rest n args dpc
  · obtain ⟨item, rest, n, args, dpc, rfl⟩ := hdeliver
    obtain ⟨-, rfl⟩ | ⟨op', hop', rfl⟩ := deliver_cases h
    · exact ⟨fun row hrow => (by cases hrow), fun k hk => (by cases hk)⟩
    · rw [Op.next_map, Op.locks_map]
      exact ⟨fun row hrow => .inl (delivering_rows hrow),
        fun k hk => .inr ⟨_, _, Delivery.mem_locks hop' hk⟩⟩
  have hnot : ∀ item rest n args dpc, pc ≠ .deliver item rest n args dpc :=
    fun item rest n args dpc hpc => hdeliver ⟨item, rest, n, args, dpc, hpc⟩
  by_cases hx : x.crash = true
  · obtain rfl | rfl := step_crash h hx hnot
    · exact ⟨fun row hrow => (by cases hrow), fun k hk => (by cases hk)⟩
    · exact ⟨fun row hrow => (by cases hrow), fun k hk => (by cases hk)⟩
  · obtain ⟨now, rfl⟩ := step_proceed h (Bool.eq_false_of_not_eq_true hx) hnot
    have hitem : ∀ {item : OutboxRow} {rest : List OutboxRow}, ∀ k ∈ [LockKey.outboxRow item.id],
        (∃ row, (row ∈ item :: rest ∨ row ∈ v.db.outbox) ∧ k = .outboxRow row.id) ∨
          ∃ e c, k = .dlqKey e c :=
      fun k hk => .inl ⟨_, .inl List.mem_cons_self, List.mem_singleton.mp hk⟩
    cases pc with
    | deliver item rest n args dpc => exact absurd rfl (hnot item rest n args dpc)
    | poll =>
      obtain rfl := Option.some.inj h
      refine ⟨fun row hrow => .inr ?_, fun k hk => .inl ?_⟩
      · simp only [Op.next, nextItem_rows] at hrow
        exact (mem_selectBatch hrow).1
      · obtain ⟨row, hrow, rfl⟩ := List.mem_map.mp hk
        exact ⟨row, .inr (mem_selectBatch hrow).1, rfl⟩
    | selectSubscription item rest n =>
      simp only [step] at h
      split at h <;> obtain rfl := Option.some.inj h
      · exact ⟨fun row hrow => .inl hrow, fun k hk => by cases hk⟩
      · exact ⟨fun row hrow => .inl (delivering_rows hrow), fun k hk => by cases hk⟩
    | conclude item rest n how =>
      obtain rfl := Option.some.inj h
      exact ⟨fun row hrow => .inl (by cases how <;> exact hrow), hitem⟩
    | commitItem item rest n =>
      obtain rfl := Option.some.inj h
      refine ⟨fun row hrow => .inl ?_, fun k hk => by cases hk⟩
      simp only [Op.next, nextItem_rows] at hrow
      exact List.mem_cons_of_mem _ hrow
    | close n =>
      obtain rfl := Option.some.inj h
      refine ⟨fun row hrow => ?_, fun k hk => by cases hk⟩
      simp only [Op.next] at hrow
      split at hrow <;> cases hrow
    | markDelivering item rest n =>
      obtain rfl := Option.some.inj h
      exact ⟨fun row hrow => .inl hrow, hitem⟩
    | upsertDlq item rest n args =>
      obtain rfl := Option.some.inj h
      exact ⟨fun row hrow => .inl hrow, fun k hk => .inr ⟨_, _, List.mem_singleton.mp hk⟩⟩
    | ended => cases h
    | _ =>
      obtain rfl := Option.some.inj h
      exact ⟨fun row hrow => .inl hrow, fun k hk => by cases hk⟩

/-- What a step of a request does with rows of the outbox: it knows the one it knew or the one it
inserts, and locks only such. -/
structure KnowsRow {ε ℓ : Type*} (known : Option Uuid) (after : ℓ → Option Uuid) (v : DbView)
    (op : Op Write LockKey ε ℓ) : Prop where
  next : ∀ id, after op.next = some id → known = some id ∨ id = v.fresh
  locks : ∀ id, .outboxRow id ∈ op.locks → known = some id ∨ id = v.fresh
  writes : ∀ row, .insertOutbox row ∈ op.writes → row.id = v.fresh

theorem KnowsRow.map {ε ε' ℓ ℓ' : Type*} {known : Option Uuid} {after : ℓ → Option Uuid}
    {after' : ℓ' → Option Uuid} {op : Op Write LockKey ε ℓ} (h : KnowsRow known after v op)
    {f : ℓ → ℓ'} {g : ε → ε'} (hf : ∀ l id, after' (f l) = some id → after l = some id) :
    KnowsRow known after' v (op.map f g) := by
  refine ⟨fun id hid => ?_, ?_, ?_⟩
  · rw [Op.next_map] at hid
    exact h.next id (hf _ id hid)
  · rw [Op.locks_map]
    exact h.locks
  · rw [Op.writes_map]
    exact h.writes

theorem Enqueue.next_outboxId (affected rest : List SubscriptionRow) :
    (next affected rest).outboxId EnqueuePc.outboxId = none := by
  cases rest <;> rfl

theorem Enqueue.delivering_outboxId {affected : List SubscriptionRow} {sub : SubscriptionRow}
    {rest : List SubscriptionRow} {id id' : Uuid} {f : Flow DeliverPc Bool}
    (h : (delivering affected sub rest id f).outboxId EnqueuePc.outboxId = some id') :
    id = id' := by
  cases f with
  | raised e => cases h
  | _ => exact Option.some.inj h

theorem Enqueue.step_rows {q : Enqueue} {pc : EnqueuePc}
    {op : Op Write LockKey Effect (Flow EnqueuePc (List SubscriptionRow))}
    (h : q.step cfg pc v x = some op) :
    KnowsRow pc.outboxId (Flow.outboxId EnqueuePc.outboxId) v op := by
  cases step_move h with
  | selects affected =>
    refine ⟨fun id hid => ?_, by simp [Op.locks], by simp [Op.writes]⟩
    rw [Op.next, next_outboxId] at hid
    cases hid
  | inserts affected sub rest =>
    refine ⟨fun id hid => ?_, by simp [Op.locks], by simp [Op.writes, newRow]⟩
    rw [Op.next, next_outboxId] at hid
    cases hid
  | insertsActive | insertsInactive =>
    exact ⟨fun id hid => .inr (Option.some.inj hid).symm, by simp [Op.locks],
      by simp [Op.writes, newRow]⟩
  | delivers affected sub rest id pc hop =>
    refine ⟨fun id' hid => .inl ?_, fun id' hid => ?_, fun row hrow => ?_⟩
    · rw [Op.next_map] at hid
      exact congrArg some (delivering_outboxId hid)
    · rw [Op.locks_map] at hid
      cases Delivery.mem_locks hop hid
    · rw [Op.writes_map] at hrow
      rcases Delivery.step_table hop _ hrow with htable | htable <;> cases htable
  | updates affected sub rest id ok =>
    refine ⟨fun id' hid => ?_, fun id' hid => .inl ?_, by simp [Op.writes]⟩
    · rw [Op.next, next_outboxId] at hid
      cases hid
    · obtain ⟨rfl⟩ : LockKey.outboxRow id' = .outboxRow id := List.mem_singleton.mp hid
      rfl
  | _ => exact ⟨fun id hid => (by cases hid), by simp [Op.locks], by simp [Op.writes]⟩

theorem TrackPc.BeforeLoop.outboxId {fresh : Uuid} {pc : TrackPc} (h : pc.BeforeLoop fresh) :
    pc.outboxId = none := by
  cases pc with
  | enqueue q pc =>
    obtain ⟨rfl, -⟩ := h
    rfl
  | _ => rfl

theorem Upsert.step_rows {u : Upsert} {pc : UpsertPc}
    {op : Op Write LockKey Empty (Flow UpsertPc Upserted)} (h : u.step cfg pc v x = some op) :
    KnowsRow none (fun _ => none) v op := by
  obtain ⟨ks, ws, next, rfl, hmove⟩ := step_move h
  refine ⟨fun id hid => (by cases hid), fun id hid => ?_, fun row hrow => ?_⟩
  · cases hmove <;> simp [Op.locks] at hid
  · cases hmove <;> simp [Op.writes] at hrow

theorem TrackCall.step_rows {call : TrackCall} {pc : TrackPc}
    {op : Op Write LockKey Effect (Flow TrackPc TrackResult)} (h : call.step cfg pc v x = some op) :
    KnowsRow pc.outboxId (Flow.outboxId TrackPc.outboxId) v op := by
  by_cases hearly : pc.enqueueing = false
  · have hnext : ∀ id, Flow.outboxId TrackPc.outboxId op.next = some id →
        pc.outboxId = some id ∨ id = v.fresh := by
      intro id hid
      cases hn : op.next with
      | go pc' =>
        rw [hn, Flow.outboxId, ((step_before_enqueue hearly h).1 pc' hn).outboxId] at hid
        cases hid
      | _ => rw [hn] at hid; cases hid
    cases step_move h with
    | upserts pc hop =>
      obtain ⟨-, hlocks, hwrites⟩ := Upsert.step_rows hop
      refine ⟨hnext, fun id hid => ?_, fun row hrow => ?_⟩
      · rw [Op.locks_map] at hid
        exact hlocks id hid
      · rw [Op.writes_map] at hrow
        exact hwrites row hrow
    | enqueues | commits | commitRaises => exact absurd hearly (by simp [TrackPc.enqueueing])
    | _ => exact ⟨hnext, by simp [Op.locks], by simp [Op.writes]⟩
  · cases step_move h with
    | enqueues q pc hop =>
      refine (Enqueue.step_rows hop).map fun f id hid => ?_
      cases f with
      | go pc => exact hid
      | _ => cases hid
    | commits | commitRaises =>
      exact ⟨fun id hid => (by cases hid), by simp [Op.locks], by simp [Op.writes]⟩
    | _ => exact absurd rfl hearly

theorem TrackProc.step_rows {p : TrackProc} {op : Op Write LockKey Effect TrackProc}
    (h : p.next cfg v x = some op) :
    KnowsRow p.pc.outboxId (fun p' => p'.pc.outboxId) v op := by
  rcases next_cases h with ⟨-, rfl⟩ | ⟨ok, t, -, -, rfl⟩ | ⟨cop, -, hcode, rfl⟩ | ⟨e, -, rfl⟩
  · exact ⟨fun id hid => .inl hid, by simp [Op.locks], by simp [Op.writes]⟩
  · exact ⟨fun id hid => .inl hid, by simp [Op.locks], by simp [Op.writes]⟩
  · obtain ⟨hnext, hlocks, hwrites⟩ := TrackCall.step_rows hcode
    refine ⟨fun id hid => ?_, ?_, ?_⟩
    · rw [Op.next_map] at hid
      cases hn : cop.next with
      | go pc =>
        rw [hn] at hid
        exact hnext id (by rw [hn]; exact hid)
      | _ =>
        rw [hn] at hid
        exact .inl hid
    · rw [Op.locks_map]
      exact hlocks
    · rw [Op.writes_map]
      exact hwrites
  · exact ⟨fun id hid => .inl hid, by simp [Op.locks], by simp [Op.writes]⟩

/-- A request that is about to take `is_current` away from a version. -/
def Party.Unsets (p : Party) (id : Uuid) : Prop :=
  ∃ call task e c, p = .track ⟨call, .upsert (.unsetCurrent e c), .running, task⟩ ∧ c.id = id

/-- A row of a version that the code of a request locks. -/
theorem TrackCall.step_versionRow {call : TrackCall} {pc : TrackPc}
    {op : Op Write LockKey Effect (Flow TrackPc TrackResult)} (h : call.step cfg pc v x = some op)
    (hpc : pc.Locks held) {id : Uuid} (hid : .versionRow id ∈ op.locks) :
    .versionRow id ∈ held ∨ id = v.fresh ∨ ∃ e c, pc = .upsert (.unsetCurrent e c) ∧ c.id = id := by
  cases step_move h with
  | upserts pc hop =>
    rw [Op.locks_map] at hid
    obtain ⟨ks, ws, next, rfl, hmove⟩ := Upsert.step_move hop
    cases hmove with
    | unsetCurrent e c =>
      obtain ⟨rfl⟩ : LockKey.versionRow id = .versionRow c.id := List.mem_singleton.mp hid
      exact .inr (.inr ⟨e, c, rfl, rfl⟩)
    | versionInserted => exact .inr (.inl (by simpa [Op.locks] using hid))
    | _ => simp [Op.locks] at hid
  | enqueues q pc hop =>
    rw [Op.locks_map] at hid
    cases Enqueue.step_move hop with
    | delivers affected sub rest outboxId pc hdeliver =>
      rw [Op.locks_map] at hid
      cases Delivery.mem_locks hdeliver hid
    | _ => simp [Op.locks] at hid
  | classifies d =>
    obtain ⟨rfl⟩ : LockKey.versionRow id = .versionRow d.upserted.record.id :=
      List.mem_singleton.mp hid
    exact .inl hpc.2
  | _ => simp [Op.locks] at hid

/-- The row whose lock this is. -/
def LockKey.row : LockKey → Option Uuid
  | .versionRow id => some id
  | .outboxRow id => some id
  | _ => none

/-- **A step of a party**: the outbox rows it gets to know and the rows it locks. -/
theorem Party.step_rows {p : Party} {op : Op Write LockKey Effect Party}
    (hop : p.next cfg v x = some op) :
    (∀ id, (outboxIds cfg).Brought op id →
      p.KnowsRow id ∨ (∃ row ∈ v.db.outbox, row.id = id) ∨ id = v.fresh) ∧
    ∀ k ∈ op.locks, ∀ id, k.row = some id → p.Locks held →
      p.KnowsRow id ∨ (∃ row ∈ v.db.outbox, row.id = id) ∨ id = v.fresh ∨ k ∈ held ∨
        p.Unsets id := by
  cases p with
  | track p =>
    obtain ⟨op', hop', rfl⟩ := Option.map_eq_some_iff.mp hop
    obtain ⟨hnext, hlocks, hwrites⟩ := TrackProc.step_rows hop'
    refine ⟨fun id hid => ?_, fun k hk id hrow hp => ?_⟩
    · rcases hid with ⟨w, hw, row, rfl, rfl⟩ | hid
      · rw [Op.writes_map] at hw
        exact .inr (.inr (hwrites row hw))
      · rw [Op.next_map] at hid
        exact (hnext id hid).imp_right .inr
    · rw [Op.locks_map] at hk
      cases k with
      | outboxRow id' =>
        obtain rfl := Option.some.inj hrow
        exact (hlocks id' hk).imp_right fun h => .inr (.inl h)
      | versionRow id' =>
        obtain rfl := Option.some.inj hrow
        rcases TrackProc.next_cases hop' with ⟨-, rfl⟩ | ⟨ok, t, -, -, rfl⟩ |
          ⟨cop, hst, hcode, rfl⟩ | ⟨e, -, rfl⟩
        · cases hk
        · cases hk
        · rw [Op.locks_map] at hk
          have hpc : p.pc.Locks held := by simpa [Locks, TrackProc.Locks, hst] using hp
          rcases TrackCall.step_versionRow hcode hpc hk with
            hheld | hfresh | ⟨e, c, hpc, hc⟩
          · exact .inr (.inr (.inr (.inl hheld)))
          · exact .inr (.inr (.inl hfresh))
          · obtain ⟨call, pc, status, task⟩ := p
            obtain rfl : status = .running := hst
            obtain rfl : pc = _ := hpc
            exact .inr (.inr (.inr (.inr ⟨call, task, e, c, rfl, hc⟩)))
        · cases hk
      | _ => cases hrow
  | worker pc =>
    obtain ⟨op', hop', rfl⟩ := Option.map_eq_some_iff.mp hop
    obtain ⟨hnext, hlocks⟩ := WorkerPc.step_rows hop'
    have hseen : ∀ row, row ∈ pc.rows ∨ row ∈ v.db.outbox →
        Party.KnowsRow (.worker pc) row.id ∨ ∃ row' ∈ v.db.outbox, row'.id = row.id :=
      fun row hrow => hrow.imp (fun h => ⟨row, h, rfl⟩) fun h => ⟨row, h, rfl⟩
    refine ⟨fun id hid => ?_, fun k hk id hrow _ => ?_⟩
    · rcases hid with ⟨w, hw, row, rfl, rfl⟩ | hid
      · rw [Op.writes_map] at hw
        have hadds := (WorkerPc.step_payloads hop').2.2 _ hw
        cases hadds
      · rw [Op.next_map] at hid
        obtain ⟨row, hrow, rfl⟩ := hid
        exact (hseen row (hnext row hrow)).imp_right .inl
    · rw [Op.locks_map] at hk
      rcases hlocks k hk with ⟨row, hknown, rfl⟩ | ⟨e, c, rfl⟩
      · obtain rfl := Option.some.inj hrow
        exact (hseen row hknown).imp_right .inl
      · cases hrow
  | subscription call pc =>
    obtain ⟨op', hop', rfl⟩ := Option.map_eq_some_iff.mp hop
    refine ⟨fun id hid => ?_, fun k hk id hrow _ => ?_⟩
    · rcases hid with ⟨w, hw, row, rfl, rfl⟩ | hid
      · rw [Op.writes_map] at hw
        cases SubscriptionCall.step_table hop' _ hw
      · rw [Op.next_map] at hid
        cases hn : op'.next <;> rw [hn] at hid <;> cases hid
    · rw [Op.locks_map] at hk
      cases pc <;> cases x <;> cases call <;>
        simp only [SubscriptionCall.step, reduceCtorEq, Option.some.injEq] at hop' <;>
        subst hop' <;> simp [Op.locks] at hk <;> subst hk <;> cases hrow
  | finished =>
    cases x <;> simp only [next, reduceCtorEq, Option.some.injEq] at hop
    subst hop
    exact ⟨by simp [Whereabouts.Brought, outboxIds, Op.writes, Op.next, KnowsRow],
      by simp [Op.locks]⟩

/-- A statement, commit or call that succeeds, or a POST that is answered. -/
def Input.result : Input → Bool
  | .proceed _ => true
  | .answer _ => true
  | _ => false

theorem Delivery.exists_step (d : Delivery) (pc : DeliverPc) (v : DbView) :
    ∃ x op, x.result = true ∧ d.step pc v x = some op := by
  cases pc with
  | post n => exact ⟨.answer 200, _, rfl, rfl⟩
  | _ => exact ⟨.proceed 0, _, rfl, rfl⟩

theorem Upsert.exists_step (cfg : Config) (u : Upsert) (pc : UpsertPc) (v : DbView) :
    ∃ op, u.step cfg pc v (.proceed 0) = some op := by
  cases pc <;> simp only [step] <;> (repeat' split) <;> exact ⟨_, rfl⟩

theorem Enqueue.exists_step (cfg : Config) (q : Enqueue) (pc : EnqueuePc) (v : DbView) :
    ∃ x op, x.result = true ∧ q.step cfg pc v x = some op := by
  cases pc with
  | deliver affected sub rest id pc =>
    obtain ⟨x, op, hx, hop⟩ := (q.delivery sub).exists_step pc v
    exact ⟨x, _, hx, by rw [step, hop, Option.map_some]⟩
  | _ => exact ⟨.proceed 0, _, rfl, rfl⟩

theorem TrackCall.exists_step (cfg : Config) (call : TrackCall) (pc : TrackPc) (v : DbView) :
    ∃ x op, x.result = true ∧ call.step cfg pc v x = some op := by
  cases pc with
  | upsert pc =>
    obtain ⟨op, hop⟩ := (call.upsert cfg).exists_step cfg pc v
    exact ⟨.proceed 0, _, rfl, by rw [step, hop, Option.map_some]⟩
  | enqueue q pc =>
    obtain ⟨x, op, hx, hop⟩ := q.exists_step cfg pc v
    exact ⟨x, _, hx, by rw [step, hop, Option.map_some]⟩
  | selectPrior u id =>
    refine ⟨.proceed 0, ?_⟩
    simp only [step]
    split <;> exact ⟨_, rfl, rfl⟩
  | _ => exact ⟨.proceed 0, _, rfl, rfl⟩

theorem TrackProc.next_of_result {p : TrackProc} {x : Input} (hx : x.result = true) :
    p.next cfg v x = p.handle cfg v x := by
  cases x with
  | proceed now => rfl
  | answer code => rfl
  | _ => cases hx

/-- **A party that holds a lock** has something to do, without an error or a stop. -/
theorem Party.exists_next {p : Party} {held : Set LockKey} (hp : p.Locks held) (hheld : held ≠ ∅)
    (v : DbView) : ∃ x op, x.result = true ∧ p.next cfg v x = some op := by
  cases p with
  | track p =>
    obtain ⟨call, pc, status, task⟩ := p
    cases status with
    | running =>
      obtain ⟨x, op, hx, hop⟩ := call.exists_step cfg pc v
      have hnext : TrackProc.next cfg ⟨call, pc, .running, task⟩ v x =
          some (op.map (TrackProc.after cfg ⟨call, pc, .running, task⟩) id) := by
        simp [TrackProc.next_of_result hx, TrackProc.handle, hop]
      exact ⟨x, _, hx, congrArg (Option.map _) hnext⟩
    | closing e => exact ⟨.proceed 0, _, rfl, rfl⟩
    | _ => exact absurd hp hheld
  | worker pc =>
    cases pc with
    | deliver => exact absurd hp.1 hheld
    | ended => exact absurd hp hheld
    | selectSubscription => exact absurd hp hheld
    | _ => exact ⟨.proceed 0, _, rfl, rfl⟩
  | subscription call pc => cases pc <;> cases call <;> exact ⟨.proceed 0, _, rfl, rfl⟩
  | finished => exact ⟨.proceed 0, _, rfl, rfl⟩

end Rows

/-! ### Runs -/

section Runs

variable {ι : Type*} [DecidableEq ι] {cfg : Config} {db : Db} {fresh : Uuid} {s : World ι}
  {good : World ι → ι × Input → Prop}

theorem Run.party_locks (hs : Run (program cfg).step good (Initial db fresh) s) :
    ∀ i, (s.loc i).Locks (s.own i).held := by
  refine Run.process_invariant (A := fun _ o => Party.Locks o.held o.loc) ?_ ?_ hs
  · intro s hs i
    have hheld : (s.own i).held = ∅ := by
      ext k
      simp [State.own, hs.lock]
    rw [hheld]
    have hstart := hs.starting i
    show (s.loc i).Locks ∅
    cases hloc : s.loc i with
    | track p =>
      rw [hloc] at hstart
      cases hstart
      exact Below.empty 0
    | worker pc =>
      rw [hloc] at hstart
      cases hstart
      exact rfl
    | subscription call pc =>
      rw [hloc] at hstart
      cases hstart
      exact rfl
    | finished => trivial
  · intro s i x op _ h hop
    exact (Party.keepsOrder h hop).next

theorem Party.Starting.not_knowsRow {p : Party} (h : p.Starting) {id : Uuid} : ¬p.KnowsRow id := by
  intro hknown
  cases h with
  | track call => cases hknown
  | worker =>
    obtain ⟨row, hrow, -⟩ := hknown
    cases hrow
  | subscription call => exact hknown

/-- Outbox rows in use, wherever they are, have identifiers that have been given out. -/
theorem Run.outbox_below (hids : ∀ row ∈ db.outbox, row.id < fresh)
    (hs : Run (program cfg).step good (Initial db fresh) s) :
    ∀ id, (outboxIds cfg).Present s id → id < s.fresh := by
  refine Whereabouts.below ?_ ?_ hs
  · rintro s hs id (⟨row, hrow, rfl⟩ | ⟨i, ⟨w, hw, -⟩ | hknown⟩)
    · rw [hs.db] at hrow
      rw [hs.fresh]
      exact hids row hrow
    · rw [hs.pending] at hw
      cases hw
    · exact absurd hknown (hs.starting i).not_knowsRow
  · intro s i x op hop id hid
    have hrows := (@Party.step_rows ∅ cfg _ _ _ _ hop).1 id hid
    rcases hrows with hknown | hstored | hfresh
    · exact .inl (.inr ⟨i, .inr hknown⟩)
    · exact .inl (Whereabouts.present_of_view hstored)
    · exact .inr hfresh

/-- A version that is about to lose `is_current` has an identifier that has been given out. -/
theorem Run.unsets_below (hdb : db.registry.Valid fresh)
    (hs : Run (program cfg).step good (Initial db fresh) s) {i : ι} {id : Uuid}
    (h : (s.loc i).Unsets id) : id < s.fresh := by
  obtain ⟨hv, hholds⟩ := Run.registry_holds hdb hs
  obtain ⟨call, task, e, c, hloc, rfl⟩ := h
  have hi := hholds i
  rw [hloc] at hi
  obtain ⟨-, log, hlead, -⟩ := hi
  have hcurrent : (some c).map (·.id) = some c.id := rfl
  obtain ⟨l, hl, hlid⟩ := hlead.ahead.current_mem hcurrent
  exact hlid ▸ hv.versionFresh _ hl

/-- A locked row has an identifier that has been given out. -/
theorem Run.locked_below (hdb : db.registry.Valid fresh) (hids : ∀ row ∈ db.outbox, row.id < fresh)
    (hs : Run (program cfg).step good (Initial db fresh) s) :
    ∀ i, ∀ k ∈ (s.own i).held, ∀ id, k.row = some id → id < s.fresh := by
  refine Run.invariant (I := fun s => ∀ i, ∀ k ∈ (s.own i).held, ∀ id, k.row = some id →
    id < s.fresh) ?_ ?_ hs
  · intro s hs i k hk
    have hfree : s.lock k = some i := hk
    rw [hs.lock] at hfree
    cases hfree
  · rintro s ⟨i, x⟩ t hs hI - hstep j k hk id hid
    obtain ⟨op, hop, hst⟩ := step_cases hstep
    have hfresh : t.fresh = s.fresh + 1 := by
      rw [show t.fresh = t.toShared.fresh from rfl, hst.shared]
      cases op <;> rfl
    rw [hfresh]
    refine Nat.lt_succ_of_le ?_
    by_cases hj : j = i
    · subst hj
      rw [hst.held] at hk
      have hold : k ∈ (s.own j).held ∨ k ∈ op.locks := by
        cases op with
        | exec ks ws l => exact hk
        | emit e l => exact .inl hk
        | commit l => cases hk
        | rollback l => cases hk
      rcases hold with hold | hnew
      · exact (hI j k hold id hid).le
      · rcases (Party.step_rows hop).2 k hnew id hid (Run.party_locks hs j) with
          hknown | hstored | hfresh | hheld | hunsets
        · exact (Run.outbox_below hids hs id (.inr ⟨j, .inr hknown⟩)).le
        · exact (Run.outbox_below hids hs id (Whereabouts.present_of_view hstored)).le
        · exact hfresh.le
        · exact (hI j k hheld id hid).le
        · exact (Run.unsets_below hdb hs hunsets).le
    · rw [hst.other j hj] at hk
      exact (hI j k hk id hid).le

/-- **Lock order.** In every reachable state each statement takes locks above those its party holds,
or locks that nobody else holds. -/
theorem Run.ordered (hdb : db.registry.Valid fresh) (hids : ∀ row ∈ db.outbox, row.id < fresh)
    (hs : Run (program cfg).step good (Initial db fresh) s) :
    Ordered (program cfg) LockKey.rank s := by
  refine ordered_of_free fun i x op hop k hk => ?_
  have hbelow := Run.locked_below hdb hids hs
  rcases (Party.keepsOrder (Run.party_locks hs i) hop).harmless k hk with h | h | h | rfl | rfl
  · exact .inl h
  · exact .inr fun j hne hj => hne (State.held_unique hj h)
  · refine .inr fun j hne hj => hne ?_
    have hlock : s.lock k = some j := hj
    simpa [State.view, hlock] using h
  · exact .inr fun j _ hj => lt_irrefl _ (hbelow j _ hj _ rfl)
  · exact .inr fun j _ hj => lt_irrefl _ (hbelow j _ hj _ rfl)

/-- Every party that holds a lock gets an input that it goes on with. -/
def Attended (cfg : Config) (s : World ι) (x : ι → Input) : Prop :=
  ∀ i k, s.lock k = some i →
    ∃ op, (program cfg).next (s.loc i) (s.view (program cfg) i) (x i) = some op

/-- Nobody is stuck with locks: results that are no errors attend to all that hold one. -/
theorem Run.exists_attended (hs : Run (program cfg).step good (Initial db fresh) s) :
    ∃ x : ι → Input, (∀ i, (x i).result = true) ∧ Attended cfg s x := by
  have hlocks := Run.party_locks hs
  have hinput : ∀ i, ∃ x : Input, x.result = true ∧ ∀ k, s.lock k = some i →
      ∃ op, (program cfg).next (s.loc i) (s.view (program cfg) i) x = some op := by
    intro i
    by_cases hheld : (s.own i).held = ∅
    · refine ⟨.proceed 0, rfl, fun k hk => ?_⟩
      have hmem : k ∈ (s.own i).held := hk
      rw [hheld] at hmem
      cases hmem
    · obtain ⟨x, op, hx, hop⟩ := Party.exists_next (hlocks i) hheld (s.view (program cfg) i)
      exact ⟨x, hx, fun k _ => ⟨op, hop⟩⟩
  choose x hx using hinput
  exact ⟨x, fun i => (hx i).1, fun i => (hx i).2⟩

/-- **No deadlock.** In every reachable state, and whatever the parties are about to be told, nobody
waits in a circle; and when those that hold locks can go on, whoever waits waits, perhaps through
others, for a party that takes its step. Such inputs exist without any error among them. -/
theorem deadlock_free (hdb : db.registry.Valid fresh) (hids : ∀ row ∈ db.outbox, row.id < fresh)
    (hs : Reachable (program cfg).step (Initial db fresh) s) :
    (∃ x : ι → Input, (∀ i, (x i).result = true) ∧ Attended cfg s x) ∧
    ∀ x : ι → Input,
      (∀ i, ¬Relation.TransGen (Waits (program cfg) s x) i i) ∧
      (Attended cfg s x → ∀ i j, Waits (program cfg) s x i j →
        ∃ l, Relation.TransGen (Waits (program cfg) s x) i l ∧
          ∃ t, (program cfg).step s (l, x l) = some t) := by
  have hordered := Run.ordered hdb hids hs
  refine ⟨Run.exists_attended hs, fun x => ⟨hordered.acyclic x, fun hx i j hw => ?_⟩⟩
  exact hordered.exists_step LockKey.rank_lt hx hw

end Runs

/-- Two requests for an endpoint that nobody has registered. -/
def newcomers : World ℕ := sampleWorld {} 1 [sampleRequest sampleOld, sampleRequest sampleNew]

/-- One has inserted the endpoint, and the other one waits for the entry of its key. -/
theorem deadlock_free_newcomers :
    ∃ (s t : World ℕ) (l : ℕ),
      Waits (program (sampleConfig false)) s (fun _ => .proceed 0) 1 0 ∧
      Relation.TransGen (Waits (program (sampleConfig false)) s fun _ => .proceed 0) 1 l ∧
      (program (sampleConfig false)).step s (l, .proceed 0) = some t := by
  let P := program (sampleConfig false)
  let next (s : World ℕ) (i : ℕ) := P.next (s.loc i) (s.view P i) (.proceed 0)
  have hrun : (P.step newcomers (0, .proceed 0)).map (fun s => ((next s 0).isSome,
      (next s 1).any fun op => op.locks.any fun k => s.lock k = some 0)) = some (true, true) := by
    decide
  obtain ⟨s, hs, hboth⟩ := Option.map_eq_some_iff.mp hrun
  obtain ⟨hgo, hwait⟩ := Prod.mk.inj hboth
  have hwaits : Waits P s (fun _ => .proceed 0) 1 0 := by
    obtain ⟨op, hop, hlocks⟩ := (Option.any_eq_true _ _).mp hwait
    obtain ⟨k, hk, hlock⟩ := List.any_eq_true.mp hlocks
    exact ⟨by decide, op, hop, k, hk, of_decide_eq_true hlock⟩
  have hinit : Initial {} 1 newcomers :=
    sampleWorld_initial (by simp [sampleRequest, Party.Starting.track])
  have hattended : Attended (sampleConfig false) s fun _ => .proceed 0 := by
    intro i k hk
    by_cases hi : i = 0
    · rw [hi]
      exact Option.isSome_iff_exists.mp hgo
    · obtain ⟨op, -, hst⟩ := step_cases hs
      have hheld : k ∈ (s.own i).held := hk
      rw [hst.other i hi] at hheld
      have hnone : newcomers.lock k = some i := hheld
      cases hinit.lock k ▸ hnone
  obtain ⟨l, hl, t, ht⟩ := ((deadlock_free (Registry.valid_empty 1) (by simp)
    (.next (.start hinit) trivial hs)).2 fun _ => .proceed 0).2 hattended 1 0 hwaits
  exact ⟨s, t, l, hwaits, hl, ht⟩

end Driftgate.Runtime
