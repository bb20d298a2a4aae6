import TrailStash.Admission
import TrailStash.Auth
import TrailStash.Health
import TrailStash.Push

/-!
# The server

The stash as its clients meet it: the routes of the control API over one node, and behind them what
goes on without being asked — records arrive, passes settle, sweeps release, the downloader lands
bytes, the collector deletes them, and owed wakes are delivered.

A request is given as the routes hand it to a handler.  The extractors of the web framework come
before the handlers, and one that fails answers by itself; so a body is what its extractor yields,
which is the value for the handler or the framework's own answer.  Three things stay arguments:
`ticketNs` and `parseHash` are parsers that belong to iroh, and `Outside` is what comes of opening a
document and of writing to the blob store.

`ServeStep` is one step of the server, with what is answered and what is sent on its label.  A step
is a whole operation: a request, the handler of an arrival, a settle pass, a sweep and a collection
run from their start to their end with nothing in between.  `Tasks.lean` is the other model, of the
atomic steps that these really consist of, and in it things happen that do not happen here
(`exists_disagreement`, `exists_phantom`).  So what is said of a run of the server here and in the
modules behind is said of runs of whole operations.
-/

set_option autoImplicit false

namespace TrailStash

open Runs

/-! ## Requests and answers -/

/-- A request, as the routes hand it to their handlers. -/
inductive Request
  /-- `POST /v1/namespaces` -/
  | register (body : Except Response RegisterRequest)
  /-- `DELETE /v1/namespaces/{id}/subscription` -/
  | unsubscribe (id : Bytes) (body : Except Response UnsubscribeRequest)
  /-- `GET /v1/namespaces/{id}/content/{hash}` -/
  | content (id hash : Bytes)
  /-- `PUT /v1/namespaces/{id}/content/{hash}` -/
  | putContent (id hash : Bytes) (body : Except Response Bytes)
  /-- `GET /healthz` -/
  | healthz

/-- Whether the route is behind the guard: all but the last are. -/
def Request.isGuarded : Request → Bool
  | .healthz => false
  | _ => true

/-- What is answered. -/
inductive Answer
  /-- A status code and a text. -/
  | text (response : Response)
  /-- `200` and an octet stream. -/
  | octets (bytes : Bytes)
  /-- `200` and a JSON value. -/
  | json (value : Value)

/-- What comes of the things outside that a handler reaches for. -/
structure Outside where
  /-- What comes of importing and joining a document that has no handle yet. -/
  opened : Except JoinError Unit
  /-- Why the blob store does not take the bytes, if it does not. -/
  fault : Option String

variable {hashNew : Bytes → ContentHash}

namespace StashNode

/-- `DELETE …/subscription`, on the node. -/
def unsubscribe (node : StashNode hashNew) (ns : NamespaceId) (sub : PushSubscription) :
    Bool × StashNode hashNew :=
  ((node.registry.unsubscribe ns sub).1,
    { node with registry := (node.registry.unsubscribe ns sub).2 })

/-- `GET /healthz` -/
def healthz (node : StashNode hashNew) : Answer :=
  .json (.object [("status", .string "ok"), ("content_missing", .number node.contentStats.1),
    ("content_tracked", .number node.contentStats.2)])

end StashNode

/-- What the control API is configured with, and the parsers it uses. -/
structure ControlApi where
  /-- The pre-shared key. -/
  psk : Option String
  /-- The namespace of a read ticket, or what is wrong with it. -/
  ticketNs : String → Except String NamespaceId
  /-- `Hash::from_str`.  Iroh's panics on a text that is neither 64 nor 52 characters long, and the
  request is never answered; here `none` stands for that too. -/
  parseHash : Bytes → Option ContentHash

namespace ControlApi

variable (api : ControlApi) (node : StashNode hashNew) (outside : Outside)

/-- `StashNode::register`.  A document is opened only if it has no handle. -/
def registerTicket (readTicket : String) (subscription : Option PushSubscription) :
    Except String NamespaceId × StashNode hashNew :=
  registerOn api.ticketNs (fun ns ↦ if ns ∈ node.handles then .ok () else outside.opened)
    (fun ns ↦ node.register ns subscription) node readTicket

/-- `POST /v1/namespaces` -/
def registerHandler (req : RegisterRequest) : Answer × StashNode hashNew :=
  let (response, node) := registerHandlerOn (api.registerTicket node outside) node req
  (.text response, node)

/-- `GET /v1/namespaces/{id}/content/{hash}` -/
def contentHandler (id hash : Bytes) : Answer :=
  match parseNamespaceHex id with
  | .error e => .text ⟨400, e.text⟩
  | .ok ns =>
    match api.parseHash hash with
    | none => .text ⟨400, "content hash is malformed"⟩
    | some h =>
      match node.contentBytes ns h with
      | some bytes => .octets bytes
      -- an unknown namespace, a released hash and missing bytes look the same
      | none => .text ⟨404, ""⟩

/-- `PUT /v1/namespaces/{id}/content/{hash}` -/
def putContentHandler (id hash bytes : Bytes) : Answer × StashNode hashNew :=
  match parseNamespaceHex id with
  | .error e => (.text ⟨400, e.text⟩, node)
  | .ok ns =>
    match api.parseHash hash with
    | none => (.text ⟨400, "content hash is malformed"⟩, node)
    | some h =>
      match node.putContent ns h bytes outside.fault.isSome with
      | (node, some .stored) => (.text ⟨204, ""⟩, node)
      | (node, some .unknownNamespace) => (.text ⟨404, ""⟩, node)
      | (node, some .untrackedHash) => (.text ⟨409, ""⟩, node)
      | (node, some .hashMismatch) => (.text ⟨400, "content does not match its hash"⟩, node)
      | (node, none) => (.text ⟨502, outside.fault.getD ""⟩, node)

/-- `DELETE /v1/namespaces/{id}/subscription` -/
def unsubscribeHandler (id : Bytes) (req : UnsubscribeRequest) : Answer × StashNode hashNew :=
  let (response, node) := unsubscribeHandlerOn node.unsubscribe node id req
  (.text response, node)

/-- The routes. -/
def route : Request → Answer × StashNode hashNew
  | .register (.ok req) => api.registerHandler node outside req
  | .unsubscribe id (.ok req) => unsubscribeHandler node id req
  | .content id hash => (api.contentHandler node id hash, node)
  | .putContent id hash (.ok bytes) => api.putContentHandler node outside id hash bytes
  | .healthz => (node.healthz, node)
  | .register (.error rejection) | .unsubscribe _ (.error rejection)
  | .putContent _ _ (.error rejection) => (.text rejection, node)

/-- Why the guard turns a request away, if it does. -/
def refusal (header : Option String) (request : Request) : Option Response :=
  if request.isGuarded then pskGuard api.psk header else none

/-- Serve a request that carries this `Authorization` header. -/
def serve (header : Option String) (request : Request) : Answer × StashNode hashNew :=
  match api.refusal header request with
  | some refusal => (.text refusal, node)
  | none => api.route node outside request

end ControlApi

/-! ## The wakers -/

/-- A waker: the pushes it sends to wake the targets of a namespace, each with its bearer. -/
abbrev Waker := NamespaceId → List PushSubscription → List (PushRequest × String)

/-- The waker that does nothing. -/
def noopWaker : Waker := fun _ _ ↦ []

/-- The delivery service that admits everything. -/
def passthroughDelivery : DeliveryService := fun _ ↦ .accept

/-! ## The server over time -/

/-- The system, and the calls of `wake_for` that have not been made yet. -/
structure Server (hashNew : Bytes → ContentHash) where
  /-- The node and its store. -/
  system : System hashNew
  /-- The calls that are owed. -/
  owed : List Wake

/-- A request with its answer. -/
structure Exchange where
  /-- The `Authorization` header, if it is there and a string. -/
  header : Option String
  /-- The request. -/
  request : Request
  /-- What comes of the things outside. -/
  outside : Outside
  /-- The answer. -/
  answer : Answer

/-- What the server does. -/
inductive ServerOp (hashNew : Bytes → ContentHash)
  /-- It answers a request. -/
  | answers (x : Exchange)
  /-- Something goes on behind the API. -/
  | background (o : StoreOp hashNew)
  /-- It makes a call of `wake_for`, and sends these pushes. -/
  | wakes (w : Wake) (order : IterOrder PushSubscription) (sent : List (PushRequest × String))

/-- The operations that no request asks for. -/
def StoreOp.IsBackground : StoreOp hashNew → Prop
  | .op (.grant ..) | .op (.put ..) => False
  | _ => True

/-- One step of the server: a whole operation.  A request, the handler of an arrival, a pass, a
sweep and a collection are one step each, and nothing comes in between. -/
inductive ServeStep (api : ControlApi) (d : DeliveryService) (waker : Waker) :
    Server hashNew → ServerOp hashNew → Server hashNew → Prop
  | answers {s : System hashNew} {x : Exchange} {node : StashNode hashNew} (owed : List Wake)
      (h : api.serve s.node x.outside x.header x.request = (x.answer, node)) :
      ServeStep api d waker ⟨s, owed⟩ (.answers x) ⟨{ s with node := node }, owed⟩
  | background {s t : System hashNew} {o : StoreOp hashNew} (owed : List Wake)
      (ho : o.IsBackground) (h : System.StoreStep s o t) :
      ServeStep api d waker ⟨s, owed⟩ (.background o) ⟨t, owed ++ t.wakes.drop s.wakes.length⟩
  | wakes {s : System hashNew} {owed : List Wake} {w : Wake} (order : IterOrder PushSubscription)
      (h : w ∈ owed) :
      ServeStep api d waker ⟨s, owed⟩
        (.wakes w order ((s.node.wakeFor d order w).flatMap fun c ↦ waker w.entry.ns c.targets))
        ⟨s, owed.erase w⟩

/-- The server at boot. -/
def bootServer (hashNew : Bytes → ContentHash) (retention : RetentionPolicy) : Server hashNew :=
  ⟨.boot hashNew retention, []⟩

/-! ## A run on fixed inputs -/

/-- A control API with a key.  Its parser of tickets is made up: every text is a ticket of the same
namespace. -/
def sampleApi : ControlApi where
  psk := some "key"
  ticketNs _ := .ok (idOf 1)
  parseHash s := (parseNamespaceHex s).toOption

/-- A request with the key, when nothing outside fails. -/
def sampleExchange (request : Request) (answer : Answer) : Exchange :=
  ⟨some "Bearer key", request, ⟨.ok (), none⟩, answer⟩

/-- The registration of a namespace for a device. -/
def sampleRegister : Exchange :=
  sampleExchange (.register (.ok ⟨sampleTicket, some "tok", some "apns"⟩))
    (.text ⟨201, ""⟩)

/-- The upload of the byte zero. -/
def sampleUpload : Exchange :=
  sampleExchange (.putContent (namespaceHex (idOf 1)) (namespaceHex zeroHash) (.ok [0]))
    (.text ⟨204, ""⟩)

/-- Its download. -/
def sampleDownload : Exchange :=
  sampleExchange (.content (namespaceHex (idOf 1)) (namespaceHex zeroHash)) (.octets [0])

/-- A namespace is registered; `oldFix` arrives without its bytes, and they are uploaded. -/
def sampleOps : List (ServerOp sampleHash) :=
  [.answers sampleRegister,
    .background (.op (.arrive (idOf 1) oldFix.entry (fun _ ↦ false) oldFix.deliveredBy false 1000)),
    .answers sampleUpload]

/-- The node after `sampleOps`. -/
def sampleNode : StashNode sampleHash := (unservedFix.putContent (idOf 1) zeroHash [0] false).1

theorem serve_sampleApi {node : StashNode hashNew} (outside : Outside) (request : Request) :
    sampleApi.serve node outside (some "Bearer key") request =
      sampleApi.route node outside request := by
  have hkey : pskGuard (some "key") (some "Bearer key") = none := by decide
  have hnone : sampleApi.refusal (some "Bearer key") request = none := by
    cases request <;> exact hkey
  rw [ControlApi.serve, hnone]

/-- The registration, and the arrival of the fix. -/
theorem run_sampleArrival (d : DeliveryService) (waker : Waker) :
    Run (ServeStep sampleApi d waker) (bootServer sampleHash (.fromHours 24)) (sampleOps.take 2)
      ⟨⟨unservedFix, [], 0⟩, []⟩ := by
  have hregistered : ServeStep sampleApi d waker (bootServer sampleHash (.fromHours 24))
      (.answers sampleRegister) _ := .answers [] ((serve_sampleApi _ _).trans rfl)
  exact .cons hregistered (.cons (.background [] trivial (.intro rfl nofun)) (.nil _))

theorem step_sampleUpload (d : DeliveryService) (waker : Waker) :
    ServeStep sampleApi d waker ⟨⟨unservedFix, [], 0⟩, []⟩ (.answers sampleUpload)
      ⟨⟨sampleNode, [], 0⟩, []⟩ := by
  refine .answers [] ((serve_sampleApi _ _).trans ?_)
  dsimp only [ControlApi.route, ControlApi.putContentHandler, sampleApi, sampleUpload,
    sampleExchange]
  rw [parseNamespaceHex_namespaceHex, parseNamespaceHex_namespaceHex]
  rfl

theorem run_sampleOps (d : DeliveryService) (waker : Waker) : Run (ServeStep sampleApi d waker)
    (bootServer sampleHash (.fromHours 24)) sampleOps ⟨⟨sampleNode, [], 0⟩, []⟩ :=
  (run_sampleArrival d waker).snoc (step_sampleUpload d waker)

/-- The bytes of the fix can be downloaded. -/
theorem step_sampleDownload (d : DeliveryService) (waker : Waker) :
    ServeStep sampleApi d waker ⟨⟨sampleNode, [], 0⟩, []⟩
    (.answers sampleDownload) ⟨⟨sampleNode, [], 0⟩, []⟩ := by
  refine .answers [] ((serve_sampleApi _ _).trans ?_)
  dsimp only [ControlApi.route, ControlApi.contentHandler, sampleApi, sampleDownload,
    sampleExchange]
  rw [parseNamespaceHex_namespaceHex, parseNamespaceHex_namespaceHex]
  rfl

/-! ## Clients without the key -/

/-- The operation is the refusal of a request. -/
def ServerOp.isRefusal (api : ControlApi) : ServerOp hashNew → Bool
  | .answers x => (api.refusal x.header x.request).isSome
  | _ => false

section

variable {api : ControlApi} {d : DeliveryService} {waker : Waker} {s t : Server hashNew}
  {op : ServerOp hashNew} {ops : List (ServerOp hashNew)} {x : Exchange} {key : String}

/-- Who is turned away, and with what. -/
theorem refusal_eq_some_iff {header : Option String} {request : Request} {response : Response}
    (hkey : api.psk = some key) : api.refusal header request = some response ↔
      (request.isGuarded = true ∧
        ∀ tok, bearerToken header = some tok → asBytes tok ≠ asBytes key) ∧
      response = ⟨401, "missing or invalid pre-shared key"⟩ := by
  have hallowed : (authorize api.psk (bearerToken header)).isAllowed = true ↔
      ∃ tok, bearerToken header = some tok ∧ asBytes tok = asBytes key := by
    rw [isAllowed_authorize, hkey]
    simp
  rw [ControlApi.refusal, Option.ite_none_right_eq_some, pskGuard, Option.ite_none_left_eq_some,
    hallowed, Option.some_inj, and_assoc, not_exists]
  exact and_congr_right fun _ ↦ and_congr (forall_congr' fun _ ↦ not_and) eq_comm

/-- A refusal changes nothing. -/
theorem ServeStep.eq_of_isRefusal (hstep : ServeStep api d waker s op t)
    (hop : op.isRefusal api = true) : t = s := by
  cases hstep with
  | @answers s x node owed h =>
    obtain ⟨response, hrefusal⟩ := Option.isSome_iff_exists.mp hop
    rw [ControlApi.serve, hrefusal] at h
    obtain ⟨-, rfl⟩ := Prod.mk.inj h
    rfl
  | background => exact absurd hop Bool.false_ne_true
  | wakes => exact absurd hop Bool.false_ne_true

/-- A refused request is answered with the refusal. -/
theorem ServeStep.answer_of_refusal {response : Response}
    (hstep : ServeStep api d waker s (.answers x) t)
    (hrefusal : api.refusal x.header x.request = some response) : x.answer = .text response := by
  cases hstep with
  | answers owed h =>
    rw [ControlApi.serve, hrefusal] at h
    exact (Prod.mk.inj h).1.symm

/-- **Without the key a client is not there.**  If a key is configured, then in every run of whole
operations a request to a guarded route that does not carry it is answered with one and the same
`401`, whatever the state; and the run goes on as if none of these requests had been made: without
them it is a run between the same states, with the same answers to everybody else. -/
theorem keyless_inert (hkey : api.psk = some key) (hrun : Run (ServeStep api d waker) s ops t) :
    Run (ServeStep api d waker) s (ops.filter fun op ↦ !op.isRefusal api) t ∧
    ∀ x, .answers x ∈ ops → x.request.isGuarded = true →
      (∀ tok, bearerToken x.header = some tok → asBytes tok ≠ asBytes key) →
        (ServerOp.answers x : ServerOp hashNew).isRefusal api = true ∧
          x.answer = .text ⟨401, "missing or invalid pre-shared key"⟩ := by
  induction hrun with
  | nil s => exact ⟨.nil s, fun x hx ↦ absurd hx List.not_mem_nil⟩
  | @cons s u t op ops hst _ ih =>
    constructor
    · cases hop : op.isRefusal api with
      | true =>
        rw [List.filter_cons_of_neg (by simp [hop]), ← hst.eq_of_isRefusal hop]
        exact ih.1
      | false =>
        rw [List.filter_cons_of_pos (by simp [hop])]
        exact .cons hst ih.1
    · intro x hx hguarded hkeyless
      rcases List.mem_cons.mp hx with rfl | hx
      · have hrefusal := (refusal_eq_some_iff hkey).mpr ⟨⟨hguarded, hkeyless⟩, rfl⟩
        exact ⟨Option.isSome_iff_exists.mpr ⟨_, hrefusal⟩, hst.answer_of_refusal hrefusal⟩
      · exact ih.2 x hx hguarded hkeyless

end

/-- A registration without the key, in front of the others. -/
theorem keyless_sampleOps : ∃ ops, ops.length = 3 ∧ Run
    (ServeStep sampleApi passthroughDelivery noopWaker) (bootServer sampleHash (.fromHours 24)) ops
      ⟨⟨sampleNode, [], 0⟩, []⟩ := by
  let x : Exchange := ⟨none, sampleRegister.request, ⟨.ok (), none⟩,
    .text ⟨401, "missing or invalid pre-shared key"⟩⟩
  have hx : ServeStep sampleApi passthroughDelivery noopWaker
      (bootServer sampleHash (.fromHours 24)) (.answers x)
      (bootServer sampleHash (.fromHours 24)) :=
    .answers [] rfl
  obtain ⟨hrun, -⟩ := keyless_inert rfl (.cons hx (run_sampleOps _ _))
  exact ⟨_, by decide, hrun⟩

end TrailStash
