import Driftgate.Gateway.Idempotency

/-!
# What the gateway stores and forwards

The gateway with a journal: the calls of the forwarder, each with the request that led to it, and
the forwards from which a handler has resumed with success. No step depends on the journal. It says
what the store has to contain, and which requests may be forwarded.
-/

namespace Driftgate.Gateway

open Driftgate.Transition Driftgate.Schema

/-! ### What passes the checks -/

/-- The payload is an object, parsed from a body whose digest is the one that was supplied. -/
structure Authentic (o : GatewayOptions) (request : WebhookRequest) (input : ForwardWebhookInput) :
    Prop where
  checked : ∃ rawBody signature, request.rawBody = some rawBody ∧
    extractSignature request.getSignature = some signature ∧
    hexBytes (o.hmacSha256 o.hmacSecret rawBody).toList = hexBytes signature.toList ∧
    o.parseJson rawBody = .ok input.payload
  object : ∃ members, input.payload = .obj members
  key : request.getIdempotencyKey = some input.idempotencyKey
  source : input.source = request.source

theorem validateBodyShape_ok {v payload : Json} (h : validateBodyShape v = .ok payload) :
    payload = v ∧ ∃ members, v = .obj members := by
  cases v with
  | obj members =>
    cases h
    exact ⟨rfl, members, rfl⟩
  | _ => cases h

/-- A request that gets as far as the forwarder has passed every check. -/
theorem GatewayOptions.receive_authentic {o : GatewayOptions} {store : List String}
    {request : WebhookRequest} {input : ForwardWebhookInput}
    (h : o.receive store request = .ok input) : Authentic o request input := by
  have hkey := (receive_ok h).1
  rw [receive] at h
  split at h
  · cases h
  · rename_i signature hsignature
    split at h
    · cases h
    · split at h
      · cases h
      · split at h
        · cases h
        · rename_i rawBody hbody
          split at h
          · rename_i hequal
            split at h
            · cases h
            · rename_i payload hpayload
              cases h
              have hpresent : extractSignature request.getSignature = some signature :=
                (Option.filter_eq_some_iff.mp hsignature).1
              cases hparse : o.parseJson rawBody with
              | error message =>
                rw [hparse] at hpayload
                cases hpayload
              | ok v =>
                rw [hparse] at hpayload
                obtain ⟨rfl, hobject⟩ := validateBodyShape_ok hpayload
                exact ⟨⟨rawBody, signature, hbody, hpresent, of_decide_eq_true hequal, hparse⟩,
                  hobject, hkey, rfl⟩
          · cases h

/-! ### The journal -/

/-- The gateway and what has happened to it. -/
structure Journal (ι : Type*) where
  server : Server ι
  /-- The calls of `forwarder.forward`. -/
  calls : List (WebhookRequest × ForwardWebhookInput)
  /-- The forwards from which a handler has resumed with success. -/
  resumed : List ForwardWebhookInput

variable {ι : Type*}

/-- The call of the forwarder in a step. -/
def Server.called (o : GatewayOptions) (s : Server ι) (a : ι × Event) :
    List (WebhookRequest × ForwardWebhookInput) :=
  match s.handler a.1, a.2 with
  | .arriving request, .receive =>
    match o.receive s.store request with
    | .ok input => [(request, input)]
    | .error _ => []
  | _, _ => []

/-- The forward that has succeeded in a step. -/
def Server.resumed (s : Server ι) (a : ι × Event) : List ForwardWebhookInput :=
  match s.handler a.1, a.2 with
  | .forwarding input, .resolve => [input]
  | _, _ => []

variable [DecidableEq ι]

def Journal.step (o : GatewayOptions) (j : Journal ι) (a : ι × Event) : Option (Journal ι) :=
  (j.server.step o a).map fun server =>
    { server
      calls := j.calls ++ j.server.called o a
      resumed := j.resumed ++ j.server.resumed a }

structure Journal.Initial (j : Journal ι) : Prop where
  server : j.server.Initial
  calls : j.calls = []
  resumed : j.resumed = []

/-- Every step of the gateway is one of the gateway with its journal. -/
theorem Journal.step_server {o : GatewayOptions} {j : Journal ι} {a : ι × Event} {t : Server ι} :
    j.server.step o a = some t ↔ ∃ j', j.step o a = some j' ∧ j'.server = t := by
  rw [step]
  cases j.server.step o a with
  | none =>
    constructor
    · intro h
      cases h
    · rintro ⟨j', h, -⟩
      cases h
  | some server =>
    constructor
    · rintro ⟨⟩
      exact ⟨_, rfl, rfl⟩
    · rintro ⟨j', ⟨⟩, rfl⟩
      rfl

/-! ### The discipline -/

/-- What the journal says about the gateway. -/
structure Journal.Disciplined (o : GatewayOptions) (j : Journal ι) : Prop where
  stored : ∀ k, k ∈ j.server.store ↔ ∃ input ∈ j.resumed, input.idempotencyKey = k
  calls : ∀ call ∈ j.calls, Authentic o call.1 call.2
  forwarding : ∀ i input, j.server.handler i = .forwarding input → ∃ request,
    (request, input) ∈ j.calls
  resumed : ∀ input ∈ j.resumed, ∃ request, (request, input) ∈ j.calls

omit [DecidableEq ι] in
theorem Journal.Initial.disciplined {o : GatewayOptions} {j : Journal ι} (h : j.Initial) :
    j.Disciplined o where
  stored k := by
    rw [h.server.store, h.resumed]
    exact iff_of_false List.not_mem_nil (fun ⟨_, hinput, _⟩ => List.not_mem_nil hinput)
  calls call hcall := by
    rw [h.calls] at hcall
    cases hcall
  forwarding i input hi := by
    obtain ⟨request, hrequest⟩ := h.server.arriving i
    rw [hrequest] at hi
    cases hi
  resumed input hinput := by
    rw [h.resumed] at hinput
    cases hinput

theorem Server.move_handler (s : Server ι) (i : ι) (h : Handler) : (s.move i h).handler i = h := by
  show Function.update s.handler i h i = h
  rw [Function.update_self]

/-- A handler that is forwarding after another one has moved was forwarding before. -/
theorem Server.move_forwarding {s : Server ι} {i j : ι} {h : Handler} {input : ForwardWebhookInput}
    (hj : (s.move i h).handler j = .forwarding input) :
    s.handler j = .forwarding input ∨ (j = i ∧ h = .forwarding input) := by
  by_cases hji : j = i
  · subst hji
    rw [Server.move_handler] at hj
    exact .inr ⟨rfl, hj⟩
  · have hother : (s.move i h).handler j = s.handler j := by
      show Function.update s.handler i h j = s.handler j
      rw [Function.update_of_ne hji]
    exact .inl (hother ▸ hj)

theorem Journal.Disciplined.step {o : GatewayOptions} {j j' : Journal ι} {a : ι × Event}
    (h : j.Disciplined o) (hs : j.step o a = some j') : j'.Disciplined o := by
  obtain ⟨i, e⟩ := a
  obtain ⟨server, hserver, rfl⟩ := Option.map_eq_some_iff.mp hs
  obtain ⟨request, reply, hi, rfl, hr, rfl⟩ | ⟨request, input, hi, rfl, hr, rfl⟩ |
    ⟨input, hi, rfl, rfl⟩ | ⟨input, message, hi, rfl, rfl⟩ := Server.step_cases hserver
  · have hcalled : j.server.called o (i, .receive) = [] := by
      simp only [Server.called, hi, hr]
    have hresumed : j.server.resumed (i, .receive) = [] := by
      simp only [Server.resumed, hi]
    rw [hcalled, hresumed, List.append_nil, List.append_nil]
    refine ⟨h.stored, h.calls, fun k input hk => ?_, h.resumed⟩
    obtain hk | ⟨-, hk⟩ := Server.move_forwarding hk
    · exact h.forwarding k input hk
    · cases hk
  · have hcalled : j.server.called o (i, .receive) = [(request, input)] := by
      simp only [Server.called, hi, hr]
    have hresumed : j.server.resumed (i, .receive) = [] := by
      simp only [Server.resumed, hi]
    rw [hcalled, hresumed, List.append_nil]
    refine ⟨h.stored, fun call hcall => ?_, fun k input' hk => ?_, fun input' hinput' => ?_⟩
    · obtain hcall | hcall := List.mem_append.mp hcall
      · exact h.calls call hcall
      · rw [List.mem_singleton.mp hcall]
        exact GatewayOptions.receive_authentic hr
    · obtain hk | ⟨-, hk⟩ := Server.move_forwarding hk
      · obtain ⟨request', hrequest'⟩ := h.forwarding k input' hk
        exact ⟨request', List.mem_append_left _ hrequest'⟩
      · cases hk
        exact ⟨request, List.mem_append_right _ (List.mem_singleton_self _)⟩
    · obtain ⟨request', hrequest'⟩ := h.resumed input' hinput'
      exact ⟨request', List.mem_append_left _ hrequest'⟩
  · have hcalled : j.server.called o (i, .resolve) = [] := by
      simp only [Server.called, hi]
    have hresumed : j.server.resumed (i, .resolve) = [input] := by
      simp only [Server.resumed, hi]
    rw [hcalled, hresumed, List.append_nil]
    refine ⟨fun k => ?_, h.calls, fun k input' hk => ?_, fun input' hinput' => ?_⟩
    · show k ∈ j.server.store.insert input.idempotencyKey ↔ _
      rw [List.mem_insert_iff, h.stored]
      constructor
      · rintro (rfl | ⟨input', hinput', rfl⟩)
        · exact ⟨input, List.mem_append_right _ (List.mem_singleton_self _), rfl⟩
        · exact ⟨input', List.mem_append_left _ hinput', rfl⟩
      · rintro ⟨input', hinput', rfl⟩
        obtain hinput' | hinput' := List.mem_append.mp hinput'
        · exact .inr ⟨input', hinput', rfl⟩
        · rw [List.mem_singleton.mp hinput']
          exact .inl rfl
    · obtain hk | ⟨-, hk⟩ := Server.move_forwarding hk
      · exact h.forwarding k input' hk
      · cases hk
    · obtain hinput' | hinput' := List.mem_append.mp hinput'
      · exact h.resumed input' hinput'
      · rw [List.mem_singleton.mp hinput']
        exact h.forwarding i input hi
  · have hcalled : j.server.called o (i, .reject message) = [] := by
      simp only [Server.called, hi]
    have hresumed : j.server.resumed (i, .reject message) = [] := by
      simp only [Server.resumed, hi]
    rw [hcalled, hresumed, List.append_nil, List.append_nil]
    refine ⟨h.stored, h.calls, fun k input' hk => ?_, h.resumed⟩
    obtain hk | ⟨-, hk⟩ := Server.move_forwarding hk
    · exact h.forwarding k input' hk
    · cases hk

theorem Journal.disciplined {o : GatewayOptions} {j : Journal ι}
    (h : Reachable (Journal.step o) Journal.Initial j) : j.Disciplined o :=
  Run.invariant (I := fun j : Journal ι => j.Disciplined o) (fun _ hj => hj.disciplined)
    (fun _ _ _ _ hI _ hs => hI.step hs) h

/-! ### Refusals -/

/-- The answers 4xx and 502. -/
def Reply.Refusal (reply : Reply) : Prop := (400 ≤ reply.code ∧ reply.code < 500) ∨ reply.code = 502

/-- A step that ends in a refusal leaves the store as it was. -/
theorem Server.store_of_refusal {o : GatewayOptions} {s t : Server ι} {i : ι} {e : Event}
    {reply : Reply} (hs : s.step o (i, e) = some t) (hi : t.handler i = .answered reply)
    (hreply : reply.Refusal) : t.store = s.store := by
  obtain ⟨request, reply', -, -, -, rfl⟩ | ⟨request, input, -, -, -, rfl⟩ |
    ⟨input, -, -, rfl⟩ | ⟨input, message, -, -, rfl⟩ := Server.step_cases hs
  · rfl
  · rfl
  · rw [Server.move_handler] at hi
    cases hi
    have hcode : 202 = 502 ∨ (400 ≤ 202 ∧ 202 < 500) := hreply.symm
    omega
  · rfl

/-- The answer to a request whose key is in the store. -/
def duplicate : Reply :=
  .refused 409 "duplicate_idempotency_key" "Duplicate idempotency key"

/-- A request is refused as a duplicate only if its key is in the store. -/
theorem GatewayOptions.mem_of_duplicate {o : GatewayOptions} {store : List String}
    {request : WebhookRequest} {k : String} (hk : request.getIdempotencyKey = some k)
    (h : o.receive store request = .error duplicate) : k ∈ store := by
  rw [receive] at h
  split at h
  · cases h
  · split at h
    · cases h
    · rename_i key hkey
      have hsame : key = k := by
        have hpresent := (Option.filter_eq_some_iff.mp hkey).1
        rw [hk] at hpresent
        exact (Option.some.inj hpresent).symm
      split at h
      · rename_i hstore
        rw [← hsame]
        exact List.contains_iff_mem.mp hstore
      · repeat' split at h
        all_goals cases h

/-- **The store and the forwards.** In every run the store has exactly the keys of the requests whose
handler has resumed from a successful forward; only authentic requests are forwarded; and a request
that is refused leaves the store unchanged, so that a key whose forward failed is not a duplicate
when it is sent again. -/
theorem gateway_discipline (o : GatewayOptions) {j : Journal ι}
    (h : Reachable (Journal.step o) Journal.Initial j) :
    (∀ k, k ∈ j.server.store ↔ ∃ input ∈ j.resumed, input.idempotencyKey = k) ∧
    (∀ call ∈ j.calls, Authentic o call.1 call.2) ∧
    (∀ input ∈ j.resumed, ∃ request, (request, input) ∈ j.calls) ∧
    (∀ i e j' reply, j.step o (i, e) = some j' → j'.server.handler i = .answered reply →
      reply.Refusal → j'.server.store = j.server.store) ∧
    (∀ i input message j', j.server.handler i = .forwarding input →
      j.step o (i, .reject message) = some j' → input.idempotencyKey ∉ j.server.store →
      ∀ request, request.getIdempotencyKey = some input.idempotencyKey →
        o.receive j'.server.store request ≠ .error duplicate) := by
  have hdisciplined := Journal.disciplined h
  have hrefusal : ∀ i e j' reply, j.step o (i, e) = some j' →
      j'.server.handler i = .answered reply → reply.Refusal →
      j'.server.store = j.server.store := by
    intro i e j' reply hs hi hreply
    exact Server.store_of_refusal (Journal.step_server.mpr ⟨j', hs, rfl⟩) hi hreply
  refine ⟨hdisciplined.stored, hdisciplined.calls, hdisciplined.resumed, hrefusal, ?_⟩
  intro i input message j' hi hs hkey request hrequest hduplicate
  have hserver := Journal.step_server.mpr ⟨j', hs, rfl⟩
  have hanswered : j'.server.handler i = .answered (enqueueFailed message) := by
    simp only [Server.step, hi, Option.some.injEq] at hserver
    rw [← hserver, Server.move_handler]
  have hstore := hrefusal i _ j' _ hs hanswered (.inr rfl)
  exact hkey (hstore ▸ GatewayOptions.mem_of_duplicate hrequest hduplicate)

/-- Two handlers with the sample request, and nothing done yet. -/
def sampleJournal : Journal (Fin 2) where
  server := sampleServer
  calls := []
  resumed := []

/-- The forward of the one request fails and that of the other succeeds. -/
theorem gateway_discipline_sample : ∃ j : Journal (Fin 2),
    Reachable (Journal.step sampleOptions) Journal.Initial j ∧ j.resumed.length = 1 ∧
      ∀ k, k ∈ j.server.store ↔ ∃ input ∈ j.resumed, input.idempotencyKey = k := by
  have hrun : (exec (Journal.step sampleOptions) sampleJournal
      [(0, .receive), (0, .reject none), (1, .receive), (1, .resolve)]).map
        (fun j => j.resumed.length) = some 1 := by
    decide
  obtain ⟨j, hj, hlength⟩ := Option.map_eq_some_iff.mp hrun
  have hreach : Reachable (Journal.step sampleOptions) Journal.Initial j :=
    reachable_of_exec ⟨sampleServer_initial, rfl, rfl⟩ hj
  exact ⟨j, hreach, hlength, (gateway_discipline sampleOptions hreach).1⟩

end Driftgate.Gateway
