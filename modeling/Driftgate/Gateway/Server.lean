import Driftgate.Schema.Classifier

/-!
# The webhook gateway

The handler of `POST /webhooks/:source` checks the signature header, the idempotency key, the
signature of the raw body and its shape, and hands the payload to the forwarder. Everything before
`await forwarder.forward(..)` runs without interruption; while the handler waits there, others run.
The key enters the store only when the handler resumes from a forward that succeeded.

`Server.step` is the gateway with any number of handlers in flight. A label resumes one handler.
-/

namespace Driftgate.Gateway

open Driftgate.Schema

/-! ### Headers -/

/-- A header of a request: one value, or several under one name. -/
inductive HeaderValue
  | one (value : String)
  | many (values : List String)

/-- `normalizeHeader`. -/
def normalizeHeader : Option HeaderValue → Option String
  | none => none
  | some (.one value) => some value
  | some (.many values) => values.head?

/-- A request as Fastify hands it to the handler. Header names are in lower case. -/
structure WebhookRequest where
  source : String
  headers : List (String × HeaderValue)
  /-- Absent when the request has no body. -/
  rawBody : Option (List UInt8)

namespace WebhookRequest

def header (request : WebhookRequest) (name : String) : Option String :=
  normalizeHeader (request.headers.lookup name)

/-- `getSignature`. -/
def getSignature (request : WebhookRequest) : Option String :=
  ((request.header "x-signature").or (request.header "x-hub-signature-256")).or
    (request.header "x-webhook-signature")

/-- `getIdempotencyKey`. -/
def getIdempotencyKey (request : WebhookRequest) : Option String :=
  (request.header "idempotency-key").or (request.header "x-idempotency-key")

end WebhookRequest

/-- A header that is absent or empty is falsy. -/
def truthy (header : Option String) : Option String := header.filter (· ≠ "")

def signaturePrefix : String := "sha256="

/-- `extractSignature`. -/
def extractSignature (header : Option String) : Option String :=
  (truthy header).map fun h =>
    if signaturePrefix.toList.isPrefixOf h.toList
    then String.ofList (h.toList.drop signaturePrefix.length) else h

/-! ### Signatures -/

/-- `Buffer.from(hex, "hex")`: the bytes up to the first pair that is not hexadecimal. -/
def hexBytes : List Char → List ℕ
  | c :: d :: rest =>
    match hexValue c, hexValue d with
    | some m, some n => (16 * m + n) :: hexBytes rest
    | _, _ => []
  | _ => []

/-- `constantTimeEquals`. -/
def constantTimeEquals (expectedHex providedHex : String) : Bool :=
  hexBytes expectedHex.toList = hexBytes providedHex.toList

/-! ### The handler -/

/-- What the gateway takes from its options, from `crypto` and from `JSON`. -/
structure GatewayOptions where
  hmacSecret : String
  /-- `createHmac("sha256", secret).update(body).digest("hex")`. -/
  hmacSha256 : String → List UInt8 → String
  /-- `JSON.parse(body.toString("utf8"))`, or the message of its error. -/
  parseJson : List UInt8 → Except String Json

/-- The argument of `forwarder.forward`. -/
structure ForwardWebhookInput where
  source : String
  payload : Json
  idempotencyKey : String

/-- The answer to a request. -/
inductive Reply
  /-- `reply.code(code).send({ error, message })`. -/
  | refused (code : ℕ) (error message : String)
  /-- `reply.code(202).send({ accepted: true, source, idempotency_key })`. -/
  | accepted (source idempotencyKey : String)
  /-- The handler has thrown; Fastify answers 500. -/
  | thrown

def Reply.code : Reply → ℕ
  | refused code _ _ => code
  | accepted _ _ => 202
  | thrown => 500

/-- `validateBodyShape`. -/
def validateBodyShape : Json → Except String Json
  | .obj members => .ok (.obj members)
  | _ => .error "webhook payload must be a JSON object"

/-- The handler up to `await forwarder.forward(..)`, with the store as it is when the request
arrives: an answer, or what is forwarded. -/
def GatewayOptions.receive (o : GatewayOptions) (store : List String) (request : WebhookRequest) :
    Except Reply ForwardWebhookInput :=
  match truthy (extractSignature request.getSignature) with
  | none => .error (.refused 401 "missing_signature" "Missing webhook signature")
  | some signatureHeader =>
  match truthy request.getIdempotencyKey with
  | none => .error (.refused 400 "missing_idempotency_key" "Missing idempotency key")
  | some idempotencyKey =>
  if store.contains idempotencyKey then
    .error (.refused 409 "duplicate_idempotency_key" "Duplicate idempotency key")
  else
  match request.rawBody with
  | none => .error .thrown
  | some rawBody =>
  if constantTimeEquals (o.hmacSha256 o.hmacSecret rawBody) signatureHeader then
    match (o.parseJson rawBody).bind validateBodyShape with
    | .error message => .error (.refused 400 "malformed_json" message)
    | .ok payload => .ok { source := request.source, payload, idempotencyKey }
  else .error (.refused 403 "invalid_signature" "Invalid webhook signature")

/-- The answer when the forward succeeds. -/
def ForwardWebhookInput.accepted (input : ForwardWebhookInput) : Reply :=
  .accepted input.source input.idempotencyKey

/-- The answer when the forward throws; `message` is that of an `Error`. -/
def enqueueFailed (message : Option String) : Reply :=
  .refused 502 "enqueue_failed" (message.getD "Failed to enqueue webhook")

/-- A request that gets as far as the forwarder carries its key, which is not in the store. -/
theorem GatewayOptions.receive_ok {o : GatewayOptions} {store : List String}
    {request : WebhookRequest} {input : ForwardWebhookInput}
    (h : o.receive store request = .ok input) :
    request.getIdempotencyKey = some input.idempotencyKey ∧ input.idempotencyKey ∉ store := by
  rw [receive] at h
  split at h
  · cases h
  · split at h
    · cases h
    · rename_i key hkey
      split at h
      · cases h
      · rename_i hstore
        have hin : input.idempotencyKey = key := by
          split at h
          · cases h
          · split at h
            · split at h <;> cases h
              rfl
            · cases h
        rw [hin]
        exact ⟨(Option.filter_eq_some_iff.mp hkey).1, by simpa using hstore⟩

/-- Before the forward no request is accepted. -/
theorem GatewayOptions.receive_ne_accepted {o : GatewayOptions} {store : List String}
    {request : WebhookRequest} (source idempotencyKey : String) :
    o.receive store request ≠ .error (.accepted source idempotencyKey) := by
  rw [receive]
  intro h
  repeat' split at h
  all_goals cases h

/-! ### The gateway -/

/-- Where the handler of a request is. -/
inductive Handler
  | arriving (request : WebhookRequest)
  /-- Suspended in `await forwarder.forward(input)`. -/
  | forwarding (input : ForwardWebhookInput)
  | answered (reply : Reply)

/-- What resumes a handler. -/
inductive Event
  /-- The request arrives. -/
  | receive
  /-- The forward succeeds. -/
  | resolve
  /-- The forward throws. -/
  | reject (message : Option String)
  deriving DecidableEq

/-- The store, and the handler of every request. -/
structure Server (ι : Type*) where
  store : List String
  handler : ι → Handler

variable {ι : Type*} [DecidableEq ι]

/-- The gateway after the handler of request `i` has moved on. -/
def Server.move (s : Server ι) (i : ι) (h : Handler) : Server ι :=
  { s with handler := Function.update s.handler i h }

/-- `store.add(idempotencyKey)`. -/
def Server.add (s : Server ι) (idempotencyKey : String) : Server ι :=
  { s with store := s.store.insert idempotencyKey }

/-- One handler runs to its next `await` or to its answer. -/
def Server.step (o : GatewayOptions) (s : Server ι) (a : ι × Event) : Option (Server ι) :=
  match s.handler a.1, a.2 with
  | .arriving request, .receive =>
    match o.receive s.store request with
    | .error reply => some (s.move a.1 (.answered reply))
    | .ok input => some (s.move a.1 (.forwarding input))
  | .forwarding input, .resolve =>
    some ((s.add input.idempotencyKey).move a.1 (.answered input.accepted))
  | .forwarding _, .reject message => some (s.move a.1 (.answered (enqueueFailed message)))
  | _, _ => none

/-- A gateway that has just started: the store is empty and no request has been handled. -/
structure Server.Initial (s : Server ι) : Prop where
  store : s.store = []
  arriving : ∀ i, ∃ request, s.handler i = .arriving request

/-- What a step can do: a request arrives and is answered or forwarded, or a forward ends. -/
theorem Server.step_cases {o : GatewayOptions} {s t : Server ι} {i : ι} {e : Event}
    (h : s.step o (i, e) = some t) :
    (∃ request reply, s.handler i = .arriving request ∧ e = .receive ∧
      o.receive s.store request = .error reply ∧ t = s.move i (.answered reply)) ∨
    (∃ request input, s.handler i = .arriving request ∧ e = .receive ∧
      o.receive s.store request = .ok input ∧ t = s.move i (.forwarding input)) ∨
    (∃ input, s.handler i = .forwarding input ∧ e = .resolve ∧
      t = (s.add input.idempotencyKey).move i (.answered input.accepted)) ∨
    (∃ input message, s.handler i = .forwarding input ∧ e = .reject message ∧
      t = s.move i (.answered (enqueueFailed message))) := by
  cases hh : s.handler i with
  | arriving request =>
    cases e <;> simp only [step, hh, reduceCtorEq] at h
    cases hr : o.receive s.store request with
    | error reply =>
      simp only [hr, Option.some.injEq] at h
      exact .inl ⟨request, reply, rfl, rfl, hr, h.symm⟩
    | ok input =>
      simp only [hr, Option.some.injEq] at h
      exact .inr (.inl ⟨request, input, rfl, rfl, hr, h.symm⟩)
  | forwarding input =>
    cases e <;> simp only [step, hh, reduceCtorEq, Option.some.injEq] at h
    · exact .inr (.inr (.inl ⟨input, rfl, rfl, h.symm⟩))
    · exact .inr (.inr (.inr ⟨input, _, rfl, rfl, h.symm⟩))
  | answered reply => cases e <;> simp [step, hh] at h

end Driftgate.Gateway
