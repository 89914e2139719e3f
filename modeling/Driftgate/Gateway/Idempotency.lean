import Driftgate.Gateway.Server
import Driftgate.Lib.Transition
import Mathlib.Data.Fintype.Basic

/-!
# Idempotency keys of the gateway

The store is asked before `await forwarder.forward(..)` and told after it. Two requests with one key
that are both asked before either is told are both forwarded, and both may be accepted. Nothing else
can go wrong: as long as no request is let through to the forwarder while a handler with its key
waits there, every key is accepted at most once.
-/

namespace Driftgate.Gateway

open Driftgate.Transition Driftgate.Schema

/-- The key of the forward a handler waits for. -/
def Handler.forwardedKey : Handler → Option String
  | .forwarding input => some input.idempotencyKey
  | _ => none

/-- The key of a request whose forward has succeeded, which is answered 202. -/
def Handler.acceptedKey : Handler → Option String
  | .answered (.accepted _ idempotencyKey) => some idempotencyKey
  | _ => none

variable {ι : Type*}

/-- The key of a request that arrives in a step and passes every check of the handler. -/
def Server.letThrough (o : GatewayOptions) (s : Server ι) (a : ι × Event) : Option String :=
  match s.handler a.1, a.2 with
  | .arriving request, .receive =>
    match o.receive s.store request with
    | .ok input => some input.idempotencyKey
    | .error _ => none
  | _, _ => none

/-- The condition on a step: no request is let through to the forwarder while a handler with its
key waits there. -/
def Unraced (o : GatewayOptions) (s : Server ι) (a : ι × Event) : Prop :=
  ∀ k ∈ s.letThrough o a, ∀ j, (s.handler j).forwardedKey ≠ some k

instance [Fintype ι] (o : GatewayOptions) (s : Server ι) (a : ι × Event) :
    Decidable (Unraced o s a) :=
  inferInstanceAs (Decidable (∀ k ∈ s.letThrough o a, ∀ j, (s.handler j).forwardedKey ≠ some k))

/-! ### The invariant -/

/-- The key a handler has taken: it is on its way to the runtime, or accepted. -/
def Handler.takenKey (h : Handler) : Option String := h.forwardedKey.or h.acceptedKey

theorem Handler.takenKey_of_accepted {h : Handler} {k : String} (hk : h.acceptedKey = some k) :
    h.takenKey = some k := by
  cases h with
  | answered reply => exact hk
  | _ => cases hk

theorem Handler.takenKey_cases {h : Handler} {k : String} (hk : h.takenKey = some k) :
    h.forwardedKey = some k ∨ h.acceptedKey = some k := by
  cases h with
  | arriving request => cases hk
  | forwarding input => exact .inl hk
  | answered reply => exact .inr hk

/-- Accepted keys are in the store, and no two handlers have taken one key. -/
structure Server.Exclusive (s : Server ι) : Prop where
  stored : ∀ i k, (s.handler i).acceptedKey = some k → k ∈ s.store
  unique : ∀ i j k, (s.handler i).takenKey = some k → (s.handler j).takenKey = some k → i = j

theorem Server.Exclusive.initial {s : Server ι} (h : s.Initial) : s.Exclusive := by
  have hidle : ∀ i k, (s.handler i).takenKey ≠ some k := by
    intro i k
    obtain ⟨request, hr⟩ := h.arriving i
    rw [hr]
    intro hk
    cases hk
  constructor
  · exact fun i k hi => absurd (Handler.takenKey_of_accepted hi) (hidle i k)
  · exact fun i j k hi => absurd hi (hidle i k)

variable [DecidableEq ι]

/-- A handler may move on when no other one has taken the key it has then, and an accepted key is
stored. -/
theorem Server.Exclusive.move {s : Server ι} (h : s.Exclusive) (i : ι) {next : Handler}
    {store : List String} (hgrow : ∀ k ∈ s.store, k ∈ store)
    (hstored : ∀ k, next.acceptedKey = some k → k ∈ store)
    (hfree : ∀ k, next.takenKey = some k → ∀ j, j ≠ i → (s.handler j).takenKey ≠ some k) :
    ({ s with store := store }.move i next).Exclusive := by
  have hcases : ∀ j, j = i ∧ ({ s with store := store }.move i next).handler j = next ∨
      j ≠ i ∧ ({ s with store := store }.move i next).handler j = s.handler j := by
    intro j
    by_cases hji : j = i
    · exact .inl ⟨hji, by rw [hji]; exact Function.update_self ..⟩
    · exact .inr ⟨hji, Function.update_of_ne hji ..⟩
  constructor
  · intro j k hj
    obtain ⟨-, hnext⟩ | ⟨-, hsame⟩ := hcases j
    · rw [hnext] at hj
      exact hstored k hj
    · rw [hsame] at hj
      exact hgrow k (h.stored j k hj)
  · intro j j' k hj hj'
    obtain ⟨hji, hnext⟩ | ⟨hji, hsame⟩ := hcases j <;>
      obtain ⟨hji', hnext'⟩ | ⟨hji', hsame'⟩ := hcases j'
    · rw [hji, hji']
    · rw [hnext] at hj
      rw [hsame'] at hj'
      exact absurd hj' (hfree k hj j' hji')
    · rw [hsame] at hj
      rw [hnext'] at hj'
      exact absurd hj (hfree k hj' j hji)
    · rw [hsame] at hj
      rw [hsame'] at hj'
      exact h.unique j j' k hj hj'

/-- What one step preserves. -/
theorem Server.Exclusive.step {o : GatewayOptions} {s t : Server ι} {a : ι × Event}
    (h : s.Exclusive) (hgood : Unraced o s a) (hs : s.step o a = some t) : t.Exclusive := by
  obtain ⟨i, e⟩ := a
  obtain ⟨request, reply, hi, -, hr, rfl⟩ | ⟨request, input, hi, rfl, hr, rfl⟩ |
    ⟨input, hi, -, rfl⟩ | ⟨input, message, hi, -, rfl⟩ := Server.step_cases hs
  · -- a refused request takes no key
    have hnone : ∀ k, (Handler.answered reply).takenKey ≠ some k := by
      intro k hk
      cases reply with
      | accepted source key => exact GatewayOptions.receive_ne_accepted source key hr
      | _ => cases hk
    exact h.move i (fun _ hk => hk) (fun k hk => absurd hk (hnone k))
      fun k hk => absurd hk (hnone k)
  · refine h.move i (fun _ hk => hk) (fun k hk => by cases hk) fun k hk j _ hj => ?_
    have hkey : input.idempotencyKey = k := Option.some.inj hk
    obtain hj | hj := Handler.takenKey_cases hj
    · have hlet : s.letThrough o (i, .receive) = some k := by
        simp only [Server.letThrough, hi, hr, hkey]
      exact hgood k hlet j hj
    · exact (GatewayOptions.receive_ok hr).2 (hkey ▸ h.stored j k hj)
  · have hown : (s.handler i).takenKey = some input.idempotencyKey := by
      rw [hi]
      rfl
    refine h.move i (fun _ hk => List.mem_insert_of_mem hk) (fun k hk => ?_) fun k hk j hji hj => ?_
    · rw [← Option.some.inj hk]
      exact List.mem_insert_self
    · exact hji (h.unique j i k hj (hown.trans hk))
  · exact h.move i (fun _ hk => hk) (fun k hk => by cases hk) fun k hk => by cases hk

/-! ### Every run -/

/-- **Idempotency.** In every run in which no request is let through while a handler with its key
waits for the forwarder, at most one request of each key is accepted. -/
theorem accepted_once (o : GatewayOptions) {s : Server ι}
    (hs : Run (Server.step o) (Unraced o) Server.Initial s) {i j : ι} {k : String}
    (hi : (s.handler i).acceptedKey = some k) (hj : (s.handler j).acceptedKey = some k) :
    i = j := by
  have hinv : s.Exclusive := Run.invariant (I := Server.Exclusive)
    (fun _ => Server.Exclusive.initial) (fun _ _ _ _ hI hg hstep => hI.step hg hstep) hs
  exact hinv.unique i j k (Handler.takenKey_of_accepted hi) (Handler.takenKey_of_accepted hj)

/-! ### A small gateway to run -/

/-- A gateway with a secret. Its digest and its parser are right for the one body that is sent, an
empty object. -/
def sampleOptions : GatewayOptions where
  hmacSecret := "secret"
  hmacSha256 := fun _ _ => "77325902caca812dc259733aacd046b73817372c777b8d95b402647474516e13"
  parseJson := fun _ => .ok (.obj [])

/-- A signed request with an empty object and a key. -/
def sampleWebhook : WebhookRequest where
  source := "shop"
  headers := [
    ("x-signature", .one "sha256=77325902caca812dc259733aacd046b73817372c777b8d95b402647474516e13"),
    ("idempotency-key", .one "idem-1")]
  rawBody := some [0x7b, 0x7d]

/-- Two handlers, each with the sample request. -/
def sampleServer : Server (Fin 2) where
  store := []
  handler := fun _ => .arriving sampleWebhook

theorem sampleServer_initial : sampleServer.Initial :=
  ⟨rfl, fun _ => ⟨_, rfl⟩⟩

/-- A duplicate that arrives after the first request was accepted is not accepted. -/
theorem accepted_once_in_sequence : ∃ s : Server (Fin 2),
    Run (Server.step sampleOptions) (Unraced sampleOptions) Server.Initial s ∧
      (s.handler 0).acceptedKey = some "idem-1" ∧
      ∀ j, (s.handler j).acceptedKey = some "idem-1" → 0 = j := by
  have hrun : (exec (Server.step sampleOptions) sampleServer
      [(0, .receive), (0, .resolve), (1, .receive)]).map
        (fun s => (s.handler 0).acceptedKey) = some (some "idem-1") := by decide
  obtain ⟨s, hs, hkey⟩ := Option.map_eq_some_iff.mp hrun
  have hgood : Along (Server.step sampleOptions) (Unraced sampleOptions) sampleServer
      [(0, .receive), (0, .resolve), (1, .receive)] := by decide
  have hreach := Run.of_exec (.start sampleServer_initial) hgood hs
  exact ⟨s, hreach, hkey, fun j hj => accepted_once sampleOptions hreach hkey hj⟩

/-- Two requests with one key that arrive before either forward ends are both accepted. -/
theorem accepted_twice : ¬∀ (o : GatewayOptions) (s : Server (Fin 2)),
    Reachable (Server.step o) Server.Initial s →
    ∀ i j k, (s.handler i).acceptedKey = some k → (s.handler j).acceptedKey = some k → i = j := by
  intro h
  have hrun : (exec (Server.step sampleOptions) sampleServer
      [(0, .receive), (1, .receive), (0, .resolve), (1, .resolve)]).map
        (fun s => ((s.handler 0).acceptedKey, (s.handler 1).acceptedKey)) =
      some (some "idem-1", some "idem-1") := by decide
  obtain ⟨s, hs, hkeys⟩ := Option.map_eq_some_iff.mp hrun
  have hkeys := Prod.mk.inj hkeys
  cases h sampleOptions s (reachable_of_exec sampleServer_initial hs) 0 1 "idem-1" hkeys.1 hkeys.2

end Driftgate.Gateway
