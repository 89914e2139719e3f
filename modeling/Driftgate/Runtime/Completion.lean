import Driftgate.Lib.Completion
import Driftgate.Runtime.LockRanks

/-!
# Requests come to an end

Where no statement fails and every POST is answered, each step takes a request nearer to its end.
Before it has selected the subscriptions nobody knows how many POSTs it has ahead, so what is left
is a pair: the statements up to the selection, and what follows for the subscriptions selected. The
other parties come nearer to the ends of their transactions, so that nobody has to wait for ever:
`requests_can_end`.
-/

namespace Driftgate.Runtime

open Driftgate.ReadCommitted Driftgate.Transition

/-! ### Inputs without errors -/

/-- What `deliver_with_retry` waits for, when all goes well. -/
def DeliverPc.smooth (now : Time) : DeliverPc → Input
  | .post _ => .answer 200
  | _ => .proceed now

def EnqueuePc.smooth (now : Time) : EnqueuePc → Input
  | .deliver _ _ _ _ pc => pc.smooth now
  | _ => .proceed now

def TrackPc.smooth (now : Time) : TrackPc → Input
  | .enqueue _ pc => pc.smooth now
  | _ => .proceed now

def WorkerPc.smooth (now : Time) : WorkerPc → Input
  | .deliver _ _ _ _ pc => pc.smooth now
  | _ => .proceed now

def Party.smooth (now : Time) : Party → Input
  | .track p => if p.running then p.pc.smooth now else .proceed now
  | .worker pc => pc.smooth now
  | _ => .proceed now

/-! ### What is left -/

def DeliverPc.left : DeliverPc → ℕ
  | .insertFailure _ _ => 4
  | .post _ => 3
  | .insertSuccess _ => 2
  | .commitSuccess _ => 1
  | .upsertDlq _ => 2
  | .commitFailure => 1

/-- What is left of a request: up to the selection of the subscriptions, and after it. -/
def UpsertPc.left : UpsertPc → ℕ × ℕ
  | .insertEndpoint => (1, 12)
  | .selectEndpoint => (1, 11)
  | .fastLookup _ => (1, 10)
  | .advisoryLock _ => (1, 9)
  | .getCurrentSchema _ => (1, 8)
  | .lookup _ _ => (1, 7)
  | .unsetCurrent _ _ => (1, 6)
  | .insertVersion _ _ => (1, 5)

def EnqueuePc.left : EnqueuePc → ℕ × ℕ
  | .selectAffected => (1, 0)
  | .insertOutbox _ _ rest => (0, 10 * rest.length + 12)
  | .deliver _ _ rest _ pc => (0, 10 * rest.length + 4 + pc.left)
  | .updateOutbox _ _ rest _ _ => (0, 10 * rest.length + 3)

def TrackPc.left : TrackPc → ℕ × ℕ
  | .upsert pc => pc.left
  | .storeSnapshot _ => (1, 4)
  | .selectPrior _ _ => (1, 3)
  | .storeDiff _ => (1, 2)
  | .setClassification _ => (1, 1)
  | .enqueue _ pc => pc.left
  | .commit _ _ => (0, 2)

def TrackProc.left (p : TrackProc) : ℕ × ℕ :=
  match p.status with
  | .running => p.pc.left
  | .closing _ => (0, 1)
  | _ => (0, 0)

def WorkerPc.left : WorkerPc → ℕ
  | .sleep => 41
  | .poll => 40
  | .markDelivering _ _ _ => 30
  | .commitMark _ _ _ => 29
  | .selectSubscription _ _ _ => 20
  | .deliver _ _ _ _ pc => 4 + pc.left
  | .conclude _ _ _ _ => 3
  | .upsertDlq _ _ _ _ => 2
  | .commitItem _ _ _ => 1
  | .countPending _ => 2
  | .close _ => 1
  | .closeFailed => 1
  | .ended => 0

def Party.left : Party → ℕ × ℕ
  | .track p => p.left
  | .worker pc => (0, pc.left)
  | .subscription _ .write => (0, 1)
  | _ => (0, 0)

/-- Less is left up to the selection, or as much and less of what follows. -/
def Less : ℕ × ℕ → ℕ × ℕ → Prop := Prod.Lex (· < ·) (· < ·)

theorem less_wf : WellFounded Less := WellFounded.prod_lex wellFounded_lt wellFounded_lt

theorem Less.later {a b : ℕ} (m : ℕ) (h : a < b) : Less (m, a) (m, b) := .right m h

theorem Less.selected (a b : ℕ) : Less (0, a) (1, b) := .left a b Nat.zero_lt_one

theorem less_trans {a b c : ℕ × ℕ} (h : Less a b) (h' : Less b c) : Less a c := by
  rw [Less, Prod.lex_def] at h h' ⊢
  omega

def Party.Nearer (p p' : Party) : Prop := Less p.left p'.left

theorem Party.nearer_wf : WellFounded Party.Nearer := InvImage.wf Party.left less_wf

/-! ### Every step -/

variable {v : DbView} {now : Time} {cfg : Config}

/-- An exception of the code itself, not of a statement. -/
def Exc.Own (e : Exc) : Prop := ∀ reason, e ≠ .failed reason

/-- What a step of the code has come to: less is left than `n`. -/
def Flow.Closer {ℓ ρ : Type*} (left : ℓ → ℕ × ℕ) (n : ℕ × ℕ) : Flow ℓ ρ → Prop
  | .go pc => Less (left pc) n
  | .done _ => True
  | .raised e => e.Own

theorem Flow.Closer.bind {ℓ ℓ' ρ ρ' : Type*} {left : ℓ → ℕ × ℕ} {left' : ℓ' → ℕ × ℕ} {n : ℕ × ℕ}
    {f : Flow ℓ ρ} {inside : ℓ → ℓ'} {after : ρ → Flow ℓ' ρ'} (h : f.Closer left n)
    (hinside : ∀ pc, left' (inside pc) = left pc) (hafter : ∀ r, (after r).Closer left' n) :
    (f.bind inside after).Closer left' n := by
  cases f with
  | go pc =>
    show Less (left' (inside pc)) n
    exact (hinside pc).symm ▸ h
  | done r => exact hafter r
  | raised e => exact h

/-- A step of `deliver_with_retry`. -/
theorem Delivery.step_smooth {d : Delivery} {pc : DeliverPc}
    {op : Op Write LockKey Post (Flow DeliverPc Bool)} (h : d.step pc v (pc.smooth now) = some op) :
    (∃ pc', op.next = .go pc' ∧ pc'.left < pc.left) ∨ ∃ ok, op.next = .done ok ∧ op.Ends := by
  have hmove := step_move h
  generalize hx : pc.smooth now = x at hmove
  cases hmove with
  | answered n code =>
    obtain rfl := Input.answer.inj hx
    exact .inl ⟨_, rfl, Nat.lt_succ_self 2⟩
  | success n => exact .inl ⟨_, rfl, Nat.lt_succ_self 1⟩
  | delivered n => exact .inr ⟨_, rfl, trivial⟩
  | failure n reason =>
    refine .inl ⟨_, rfl, ?_⟩
    rw [afterFailure]
    split
    · split <;> simp [DeliverPc.left]
    · exact Nat.lt_succ_self 3
  | deadLetter reason => exact .inl ⟨_, rfl, Nat.lt_succ_self 1⟩
  | givenUp => exact .inr ⟨_, rfl, trivial⟩
  | _ => cases hx

theorem Upsert.step_smooth {u : Upsert} {pc : UpsertPc}
    {op : Op Write LockKey Empty (Flow UpsertPc Upserted)}
    (h : u.step cfg pc v (.proceed now) = some op) : op.next.Closer UpsertPc.left pc.left := by
  obtain ⟨ks, ws, next, rfl, hmove⟩ := step_move h
  show next.Closer UpsertPc.left pc.left
  cases hmove with
  | endpointMissing | versionTaken => exact fun reason => by simp
  | fastFound | found | versionInserted => trivial
  | _ => exact .later 1 (by decide)

theorem Enqueue.next_closer {affected rest : List SubscriptionRow} {n : ℕ × ℕ}
    (h : Less (0, 10 * rest.length + 2) n) : (next affected rest).Closer EnqueuePc.left n := by
  cases rest with
  | nil => trivial
  | cons sub rest => exact h

/-- A step of the loop over the subscriptions. -/
theorem Enqueue.step_smooth {q : Enqueue} {pc : EnqueuePc}
    {op : Op Write LockKey Effect (Flow EnqueuePc (List SubscriptionRow))}
    (h : q.step cfg pc v (pc.smooth now) = some op) : op.next.Closer EnqueuePc.left pc.left := by
  have hmove := step_move h
  generalize hx : pc.smooth now = x at hmove
  cases hmove with
  | selects affected haffected => exact next_closer (.selected _ _)
  | inserts affected sub rest hoff => exact next_closer (.later 0 (by omega))
  | insertsActive affected sub rest hon hactive =>
    have hpost : (DeliverPc.post 1).left = 3 := rfl
    exact .later 0 (by omega)
  | insertsInactive affected sub rest hon hactive => exact .later 0 (by omega)
  | delivers affected sub rest id pc hop =>
    subst hx
    rw [Op.next_map]
    rcases Delivery.step_smooth hop with ⟨pc', hnext, hlt⟩ | ⟨ok, hnext, -⟩ <;> rw [hnext]
    · exact .later 0 (by omega)
    · exact .later 0 (by omega)
  | updates affected sub rest id ok => exact next_closer (.later 0 (Nat.lt_succ_self _))
  | _ => cases hx

/-- A request that is running has at least its commit ahead. -/
theorem TrackPc.less_left (pc : TrackPc) {n : ℕ} (hn : n < 2) : Less (0, n) pc.left := by
  cases pc with
  | upsert pc => cases pc <;> exact .selected _ _
  | enqueue q pc =>
    cases pc with
    | selectAffected => exact .selected _ _
    | _ => exact .later 0 (by omega)
  | commit n r => exact .later 0 hn
  | _ => exact .selected _ _

theorem EnqueuePc.less_left (pc : EnqueuePc) : Less (0, 2) pc.left := by
  cases pc with
  | selectAffected => exact .selected _ _
  | _ => exact .later 0 (by omega)

theorem TrackCall.afterSnapshot_less (cfg : Config) (call : TrackCall) (u : Upserted) {n : ℕ}
    (hn : 3 < n) : Less (call.afterSnapshot cfg u).left (1, n) := by
  rw [afterSnapshot]
  split
  · exact .later 1 hn
  · exact .selected _ _

theorem TrackCall.afterUpsert_less (cfg : Config) (call : TrackCall) (u : Upserted)
    (pc : UpsertPc) : Less (call.afterUpsert cfg u).left pc.left := by
  have hafter : Less (call.afterUpsert cfg u).left (1, 5) := by
    rw [afterUpsert]
    split
    · exact .later 1 (Nat.lt_succ_self 4)
    · exact call.afterSnapshot_less cfg u (by omega)
  cases pc with
  | insertVersion => exact hafter
  | _ => exact less_trans hafter (.later 1 (by decide))

/-- A step of a request. -/
theorem TrackCall.step_smooth {call : TrackCall} {pc : TrackPc}
    {op : Op Write LockKey Effect (Flow TrackPc TrackResult)}
    (h : call.step cfg pc v (pc.smooth now) = some op) : op.next.Closer TrackPc.left pc.left := by
  have hmove := step_move h
  generalize hx : pc.smooth now = x at hmove
  cases hmove with
  | upserts pc hop =>
    subst hx
    rw [Op.next_map]
    exact (Upsert.step_smooth hop).bind (fun _ => rfl) fun u => call.afterUpsert_less cfg u pc
  | enqueues q pc hop =>
    subst hx
    rw [Op.next_map]
    exact (Enqueue.step_smooth hop).bind (fun _ => rfl) fun _ => pc.less_left
  | storesSnapshot u => exact call.afterSnapshot_less cfg u (Nat.lt_succ_self 3)
  | comparesStored u id prior diffs hprior hdiffs hstored => exact .later 1 (Nat.lt_succ_self 2)
  | compares u id prior diffs hprior hdiffs hstored => exact .later 1 (by decide)
  | comparisonFails | priorMissing => exact fun reason => by simp
  | storesDiff d => exact .later 1 (Nat.lt_succ_self 1)
  | classifies d => exact .later 1 Nat.zero_lt_one
  | commits n r => trivial
  | _ => cases hx

/-! ### Requests -/

theorem DeliverPc.smooth_result (now : Time) (pc : DeliverPc) : (pc.smooth now).result = true := by
  cases pc <;> rfl

theorem TrackPc.smooth_result (now : Time) (pc : TrackPc) : (pc.smooth now).result = true := by
  cases pc with
  | enqueue q pc =>
    cases pc with
    | deliver affected sub rest id pc => exact pc.smooth_result now
    | _ => rfl
  | _ => rfl

theorem Party.smooth_result (now : Time) (p : Party) : (p.smooth now).result = true := by
  cases p with
  | track p =>
    show (if p.running then p.pc.smooth now else .proceed now).result = true
    split
    · exact p.pc.smooth_result now
    · rfl
  | worker pc =>
    cases pc with
    | deliver item rest n args pc => exact pc.smooth_result now
    | _ => rfl
  | _ => rfl

namespace TrackProc

/-- The handler of the request has ended. -/
def hasEnded (p : TrackProc) : Bool :=
  match p.status with
  | .running => false
  | .closing _ => false
  | _ => true

/-- No statement of the request has failed, and its process has not stopped. -/
def Unharmed (p : TrackProc) : Prop :=
  match p.status with
  | .closing e => e.Own
  | .failed e => e.Own
  | .stopped => False
  | _ => True

variable {p : TrackProc}

theorem smooth_running (h : p.status = .running) :
    (Party.track p).smooth now = p.pc.smooth now := by
  have hrunning : p.running = true := by rw [running, h]
  exact if_pos hrunning

theorem after_closer (cfg : Config) (hp : p.status = .running) {f : Flow TrackPc TrackResult}
    (h : f.Closer TrackPc.left p.pc.left) :
    Less (p.after cfg f).left p.left ∧ (p.after cfg f).Unharmed := by
  obtain ⟨call, pc, status, task⟩ := p
  obtain rfl : status = .running := hp
  cases f with
  | go pc' => exact ⟨h, trivial⟩
  | done r => exact ⟨pc.less_left Nat.zero_lt_two, trivial⟩
  | raised e => exact ⟨pc.less_left Nat.one_lt_two, h⟩

/-- **Every step of a request** leaves less to do. -/
theorem next_smooth {op : Op Write LockKey Effect TrackProc}
    (h : p.next cfg v ((Party.track p).smooth now) = some op) :
    Less op.next.left p.left ∧ (p.Unharmed → op.next.Unharmed) := by
  have hresult := (Party.track p).smooth_result now
  rcases next_cases h with ⟨hx, -⟩ | ⟨ok, t, hx, -⟩ | ⟨op', hst, hop, rfl⟩ | ⟨e, hst, rfl⟩
  · rw [hx] at hresult
    cases hresult
  · rw [hx] at hresult
    cases hresult
  · rw [smooth_running hst] at hop
    rw [Op.next_map]
    obtain ⟨hless, hunharmed⟩ := after_closer cfg hst (TrackCall.step_smooth hop)
    exact ⟨hless, fun _ => hunharmed⟩
  · obtain ⟨call, pc, status, task⟩ := p
    obtain rfl : status = .closing e := hst
    exact ⟨.later 0 Nat.zero_lt_one, id⟩

end TrackProc

theorem Delivery.exists_smooth (d : Delivery) (pc : DeliverPc) (v : DbView) (now : Time) :
    ∃ op, d.step pc v (pc.smooth now) = some op := by
  cases pc <;> exact ⟨_, rfl⟩

theorem Enqueue.exists_smooth (cfg : Config) (q : Enqueue) (pc : EnqueuePc) (v : DbView)
    (now : Time) : ∃ op, q.step cfg pc v (pc.smooth now) = some op := by
  cases pc with
  | deliver affected sub rest id pc =>
    obtain ⟨op, hop⟩ := (q.delivery sub).exists_smooth pc v now
    exact ⟨_, congrArg (Option.map _) hop⟩
  | _ => exact ⟨_, rfl⟩

theorem TrackCall.exists_smooth (cfg : Config) (call : TrackCall) (pc : TrackPc) (v : DbView)
    (now : Time) : ∃ op, call.step cfg pc v (pc.smooth now) = some op := by
  cases pc with
  | upsert pc =>
    have hstep : ∃ op, (call.upsert cfg).step cfg pc v (.proceed now) = some op := by
      cases pc <;> simp only [Upsert.step] <;> (repeat' split) <;> exact ⟨_, rfl⟩
    obtain ⟨op, hop⟩ := hstep
    exact ⟨_, congrArg (Option.map _) hop⟩
  | enqueue q pc =>
    obtain ⟨op, hop⟩ := q.exists_smooth cfg pc v now
    exact ⟨_, congrArg (Option.map _) hop⟩
  | selectPrior u id =>
    simp only [step, TrackPc.smooth]
    split <;> exact ⟨_, rfl⟩
  | _ => exact ⟨_, rfl⟩

/-- A request that has not ended has something to do. -/
theorem TrackProc.exists_smooth (cfg : Config) {p : TrackProc} (h : p.hasEnded = false) (v : DbView)
    (now : Time) : ∃ op, p.next cfg v ((Party.track p).smooth now) = some op := by
  rw [next_of_result ((Party.track p).smooth_result now)]
  obtain ⟨call, pc, status, task⟩ := p
  cases status with
  | running =>
    obtain ⟨op, hop⟩ := call.exists_smooth cfg pc v now
    exact ⟨_, congrArg (Option.map _) hop⟩
  | closing e => exact ⟨_, rfl⟩
  | _ => cases h

theorem TrackProc.next_hasEnded {p : TrackProc} (h : p.hasEnded = true) :
    p.next cfg v ((Party.track p).smooth now) = none := by
  rw [next_of_result ((Party.track p).smooth_result now)]
  obtain ⟨call, pc, status, task⟩ := p
  cases status with
  | running => cases h
  | closing e => cases h
  | _ => rfl

/-! ### Workers -/

theorem WorkerPc.nextItem_left (n : ℕ) (items : List OutboxRow) : (nextItem n items).left ≤ 30 := by
  cases items with
  | nil => exact Nat.le_of_ble_eq_true rfl
  | cons item rest => exact Nat.le_refl 30

/-- A step of a worker ends its transaction or brings it nearer to that. -/
theorem WorkerPc.step_smooth {pc : WorkerPc} {op : Op Write LockKey Effect WorkerPc}
    (h : pc.step v (pc.smooth now) = some op) : op.Ends ∨ op.next.left < pc.left := by
  cases pc with
  | poll =>
    obtain rfl := Option.some.inj h
    exact .inr (Nat.lt_of_le_of_lt (nextItem_left 0 _) (by decide))
  | selectSubscription item rest n =>
    simp only [step, smooth] at h
    split at h
    · obtain rfl := Option.some.inj h
      exact .inr (Nat.le_of_ble_eq_true rfl)
    · obtain rfl := Option.some.inj h
      rename_i sub _
      refine .inr ?_
      show (delivering item rest n _ (delivery item sub v.fresh).start).left < 20
      rcases (delivery item sub v.fresh).start_cases with hstart | hstart <;> rw [hstart]
      · exact Nat.le_of_ble_eq_true rfl
      · exact Nat.le_of_ble_eq_true rfl
  | deliver item rest n args pc =>
    rcases deliver_cases h with ⟨hx, -⟩ | ⟨op', hop, rfl⟩
    · have hresult := pc.smooth_result now
      rcases hx with hx | hx <;>
        · rw [show pc.smooth now = _ from hx] at hresult
          cases hresult
    · rcases Delivery.step_smooth hop with ⟨pc', hnext, hlt⟩ | ⟨ok, -, hends⟩
      · refine .inr ?_
        rw [Op.next_map, hnext]
        exact Nat.add_lt_add_left hlt 4
      · exact .inl (Op.ends_map hends)
  | conclude item rest n how =>
    obtain rfl := Option.some.inj h
    refine .inr ?_
    cases how <;> exact Nat.le_of_ble_eq_true rfl
  | ended => cases h
  | _ =>
    obtain rfl := Option.some.inj h
    first | exact .inl trivial | exact .inr (Nat.le_of_ble_eq_true rfl)

/-! ### Parties -/

/-- **Every step** ends a transaction or leaves less to do. -/
theorem Party.step_smooth {p : Party} {op : Op Write LockKey Effect Party}
    (h : p.next cfg v (p.smooth now) = some op) : op.Ends ∨ op.next.Nearer p := by
  cases p with
  | track p =>
    obtain ⟨op', hop, rfl⟩ := Option.map_eq_some_iff.mp h
    rw [Op.next_map]
    exact .inr (TrackProc.next_smooth hop).1
  | worker pc =>
    obtain ⟨op', hop, rfl⟩ := Option.map_eq_some_iff.mp h
    rw [Op.next_map]
    rcases WorkerPc.step_smooth hop with hends | hlt
    · exact .inl (Op.ends_map hends)
    · exact .inr (.later 0 hlt)
  | subscription call pc =>
    cases pc with
    | write =>
      obtain ⟨op', hop, rfl⟩ := Option.map_eq_some_iff.mp h
      cases call <;> obtain rfl := Option.some.inj hop <;> exact .inr (.later 0 Nat.zero_lt_one)
    | commit =>
      obtain rfl := Option.some.inj h
      exact .inl trivial
  | finished =>
    obtain rfl := Option.some.inj h
    exact .inl trivial

/-- Who holds a lock has something to do. -/
theorem Party.exists_smooth {p : Party} {held : Set LockKey} (hp : p.Locks held) (hheld : held ≠ ∅)
    (cfg : Config) (v : DbView) (now : Time) : ∃ op, p.next cfg v (p.smooth now) = some op := by
  cases p with
  | track p =>
    have hended : p.hasEnded = false := by
      obtain ⟨call, pc, status, task⟩ := p
      cases status with
      | running => rfl
      | closing e => rfl
      | _ => exact absurd hp hheld
    obtain ⟨op, hop⟩ := p.exists_smooth cfg hended v now
    exact ⟨_, congrArg (Option.map _) hop⟩
  | worker pc =>
    cases pc with
    | deliver => exact absurd hp.1 hheld
    | ended => exact absurd hp hheld
    | selectSubscription => exact absurd hp hheld
    | _ => exact ⟨_, rfl⟩
  | subscription call pc => cases pc <;> cases call <;> exact ⟨_, rfl⟩
  | finished => exact ⟨_, rfl⟩

/-! ### Every run -/

section Runs

variable {ι : Type*} [DecidableEq ι] {db : Db} {fresh : Uuid} {s : World ι}

/-- The transactions of the runtime come to their ends. -/
theorem closes (hdb : db.registry.Valid fresh) (hids : ∀ row ∈ db.outbox, row.id < fresh)
    (cfg : Config) (now : Time) :
    Closes (ι := ι) (program cfg) (Reachable (program cfg).step (Initial db fresh)) LockKey.rank 6
      (Party.smooth now) Party.Nearer where
  keep := fun _ _ _ hs hstep => hs.next trivial hstep
  ordered := fun _ hs => Run.ordered hdb hids hs
  bounded := LockKey.rank_lt
  goes := by
    rintro s hs i ⟨k, hk⟩
    have hheld : (s.own i).held ≠ ∅ := Set.nonempty_iff_ne_empty.mp ⟨k, hk⟩
    exact Party.exists_smooth (Run.party_locks hs i) hheld cfg _ now
  approaches := fun _ _ _ hop => Party.step_smooth hop
  wf := Party.nearer_wf

/-- Requests come nearer to their ends with every step. -/
theorem mortal (cfg : Config) (now : Time) :
    Mortal (program cfg) (Party.smooth now) Party.Nearer (fun p => ∃ q, p = .track q)
      (fun p => ∃ q, p = .track q ∧ q.hasEnded = true) where
  stays := by
    rintro _ l' ⟨p, rfl⟩ ⟨v, op, hop, rfl⟩
    obtain ⟨op', hop', rfl⟩ := Option.map_eq_some_iff.mp hop
    rw [Op.next_map]
    exact ⟨⟨_, rfl⟩, (TrackProc.next_smooth hop').1⟩
  goes := by
    rintro _ v ⟨p, rfl⟩ hnot
    have hended : p.hasEnded = false := Bool.eq_false_of_not_eq_true fun h => hnot ⟨p, rfl, h⟩
    obtain ⟨op, hop⟩ := p.exists_smooth cfg hended v now
    exact ⟨_, congrArg (Option.map _) hop⟩
  rests := by
    rintro _ v ⟨p, rfl, hended⟩
    exact congrArg (Option.map _) (TrackProc.next_hasEnded hended)

/-- Where no statement fails, requests stay unharmed. -/
theorem Run.unharmed {cfg : Config} {now : Time} {t : World ι}
    (h : Run (program cfg).step (Suited (Party.smooth now)) (· = s) t) {i : ι} {p : TrackProc}
    (hp : s.loc i = .track p) (hunharmed : p.Unharmed) : ∃ q, t.loc i = .track q ∧ q.Unharmed := by
  refine Run.invariant (I := fun t => ∃ q, t.loc i = .track q ∧ q.Unharmed)
    (fun t ht => ht ▸ ⟨p, hp, hunharmed⟩) ?_ h
  rintro u ⟨j, x⟩ w - ⟨q, hq, hunharmed⟩ hsuited hstep
  obtain ⟨op, hop, hst⟩ := step_cases hstep
  by_cases hij : i = j
  · subst hij
    rw [show x = (u.loc i).smooth now from hsuited, hq] at hop
    obtain ⟨op', hop', rfl⟩ := Option.map_eq_some_iff.mp hop
    exact ⟨op'.next, hst.loc.trans (Op.next_map ..), (TrackProc.next_smooth hop').2 hunharmed⟩
  · exact ⟨q, (hst.loc_other hij).trans hq, hunharmed⟩

/-- **Requests can end.** From every reachable state some run without errors brings any requests to
their ends, whatever the other parties are in the middle of. Those of which no statement has failed
return, or end with an exception of their own. -/
theorem requests_can_end (hdb : db.registry.Valid fresh) (hids : ∀ row ∈ db.outbox, row.id < fresh)
    {cfg : Config} (hs : Reachable (program cfg).step (Initial db fresh) s) (now : Time)
    (is : List ι) (his : ∀ i ∈ is, ∃ p, s.loc i = .track p) :
    ∃ t, Run (program cfg).step (Suited (Party.smooth now)) (· = s) t ∧
      (∀ i ∈ is, ∃ q, t.loc i = .track q ∧ q.hasEnded = true) ∧
      ∀ i ∈ is, ∀ p, s.loc i = .track p → p.Unharmed →
        ∃ q, t.loc i = .track q ∧ ((∃ r, q.status = .returned r) ∨
          ∃ e, q.status = .failed e ∧ e.Own ∧ e ≠ .uniqueViolation) := by
  have hfin : s.holders.Finite := by
    refine Run.finite_holders (fun u hu => ?_) hs
    have hnobody : u.holders = ∅ := by
      refine Set.eq_empty_of_forall_notMem ?_
      rintro i ⟨k, hk⟩
      rw [hu.lock] at hk
      cases hk
    exact hnobody ▸ Set.finite_empty
  obtain ⟨t, ht, hIt, hended⟩ := (closes hdb hids cfg now).all_end (mortal cfg now) hs hfin is his
  refine ⟨t, ht, hended, fun i hi p hp hunharmed => ?_⟩
  obtain ⟨q, hq, hended⟩ := hended i hi
  obtain ⟨q', hq', hunharmed'⟩ := Run.unharmed ht hp hunharmed
  obtain rfl : q = q' := Party.track.inj (hq.symm.trans hq')
  have hholds := (Run.registry_holds hdb hIt).2 i
  rw [hq] at hholds
  refine ⟨q, hq, ?_⟩
  obtain ⟨call, pc, status, task⟩ := q
  cases status with
  | running => cases hended
  | closing e => cases hended
  | returned r => exact .inl ⟨r, rfl⟩
  | failed e => exact .inr ⟨e, rfl, hunharmed', hholds⟩
  | stopped => exact hunharmed'.elim

end Runs

/-- Both of the newcomers come to their ends, though one has to wait for the other. -/
theorem requests_can_end_newcomers :
    ∃ t, Reachable (program (sampleConfig false)).step (Initial {} 1) t ∧
      ∀ i ∈ [0, 1], ∃ q, t.loc i = .track q ∧ q.hasEnded = true := by
  have hinit : Initial {} 1 newcomers :=
    sampleWorld_initial (by simp [sampleRequest, Party.Starting.track])
  have hrequests : ∀ i ∈ [0, 1], ∃ p, newcomers.loc i = .track p := by
    simp only [List.mem_cons, List.not_mem_nil, or_false]
    rintro i (rfl | rfl) <;> exact ⟨_, rfl⟩
  obtain ⟨t, ht, hended, -⟩ := requests_can_end (Registry.valid_empty 1)
    (fun _ h => absurd h List.not_mem_nil) (.start hinit) 0 [0, 1] hrequests
  exact ⟨t, Run.trans (.start hinit) (ht.mono fun _ _ _ _ => trivial), hended⟩

end Driftgate.Runtime
