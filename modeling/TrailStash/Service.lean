import TrailStash.Mailbox
import TrailStash.Server

/-!
# The server is a mailbox

As long as the server does one thing at a time, its clients cannot tell it from a `Mailbox`:
`served_as_mailbox` matches every run of whole operations, in which each request, handler, pass,
sweep and collection is one step, by a run of a mailbox, step by step.  A request that makes sense
and passes the guard is a call, and its status code and body are the mailbox's reply; a request that
does neither is nothing at all, and so are the downloader's bytes and the collections.  An arrival
is a `refer`, a settle pass a `receive`, a sweep a `release`.

What a mailbox's history says of its state is then true of the server and its history
(`opt_in_over_http`), in these runs.
-/

set_option autoImplicit false

namespace TrailStash

open Runs

variable {hashNew : Bytes → ContentHash}

/-! ## Calls and replies -/

/-- A call of the mailbox. -/
abbrev MailboxCall := Mailbox.Call NamespaceId ContentHash Bytes PushSubscription

/-- What happens to the mailbox. -/
abbrev MailboxEvent := Mailbox.Event NamespaceId ContentHash Bytes PushSubscription

/-- The call that a request is, if it makes sense. -/
def ControlApi.call? (api : ControlApi) : Request → Option MailboxCall
  | .register (.ok req) => do
    let valid ← (validateRegister req).toOption
    let ns ← (api.ticketNs valid.readTicket).toOption
    return .grant ns valid.subscription
  | .unsubscribe id (.ok req) => do
    let ns ← (parseNamespaceHex id).toOption
    let platform ← parsePlatform req.platform
    return .mute ns ⟨platform, req.pushToken⟩
  | .content id hash => do
    let ns ← (parseNamespaceHex id).toOption
    let h ← api.parseHash hash
    return .fetch ns h
  | .putContent id hash (.ok bytes) => do
    let ns ← (parseNamespaceHex id).toOption
    let h ← api.parseHash hash
    return .bring ns h bytes
  | .healthz => some .count
  | _ => none

/-- How a reply is answered over HTTP. -/
inductive Renders : MailboxCall → Mailbox.Reply Bytes → Answer → Prop
  | granted (ns : NamespaceId) (sub : Option PushSubscription) :
      Renders (.grant ns sub) .done (.text ⟨201, ""⟩)
  | notGranted (ns : NamespaceId) (sub : Option PushSubscription) (code : Nat) (msg : String)
      (hcode : code = 400 ∨ code = 502) : Renders (.grant ns sub) .failed (.text ⟨code, msg⟩)
  | muted (ns : NamespaceId) (sub : PushSubscription) :
      Renders (.mute ns sub) .done (.text ⟨204, ""⟩)
  | fetched (ns : NamespaceId) (h : ContentHash) (b : Bytes) :
      Renders (.fetch ns h) (.blob b) (.octets b)
  | missed (ns : NamespaceId) (h : ContentHash) :
      Renders (.fetch ns h) .nothing (.text ⟨404, ""⟩)
  | brought (ns : NamespaceId) (h : ContentHash) (b : Bytes) :
      Renders (.bring ns h b) .done (.text ⟨204, ""⟩)
  | notBrought (ns : NamespaceId) (h : ContentHash) (b : Bytes) (msg : String) :
      Renders (.bring ns h b) .failed (.text ⟨502, msg⟩)
  | ungranted (ns : NamespaceId) (h : ContentHash) (b : Bytes) :
      Renders (.bring ns h b) .ungranted (.text ⟨404, ""⟩)
  | unreferred (ns : NamespaceId) (h : ContentHash) (b : Bytes) :
      Renders (.bring ns h b) .unreferred (.text ⟨409, ""⟩)
  | mismatch (ns : NamespaceId) (h : ContentHash) (b : Bytes) :
      Renders (.bring ns h b) .mismatch (.text ⟨400, "content does not match its hash"⟩)
  | counted (missing total : Nat) : Renders .count (.count missing total)
      (.json (.object [("status", .string "ok"), ("content_missing", .number missing),
        ("content_tracked", .number total)]))

/-- An answer that says that a call was carried out says nothing else. -/
theorem Renders.eq_done {c : MailboxCall} {r : Mailbox.Reply Bytes} {answer : Answer}
    (h : Renders c r answer) (hdone : Renders c .done answer) : r = .done := by
  cases hdone with
  | granted =>
    cases h with
    | granted => rfl
    | notGranted _ _ _ _ hcode => simp at hcode
  | muted =>
    cases h with
    | muted => rfl
  | brought =>
    cases h with
    | brought => rfl

/-- An upload is answered `404` for want of a grant. -/
theorem Renders.notFound_iff {ns : NamespaceId} {h : ContentHash} {b : Bytes}
    {r : Mailbox.Reply Bytes} {answer : Answer} (hr : Renders (.bring ns h b) r answer) :
    answer = .text ⟨404, ""⟩ ↔ r = .ungranted := by
  cases hr <;> simp

/-- The outside lets a call down. -/
def Outside.Fails (outside : Outside) : MailboxCall → Prop
  | .grant _ _ => ∃ e, outside.opened = .error e
  | .bring _ _ _ => outside.fault.isSome = true
  | _ => False

/-- What an operation of the server is to a mailbox. -/
inductive AmountsTo (api : ControlApi) : ServerOp hashNew → List MailboxEvent → Prop
  | answered {x : Exchange} {c : MailboxCall} {r : Mailbox.Reply Bytes}
      (hallowed : api.refusal x.header x.request = none) (hcall : api.call? x.request = some c)
      (hfails : r = .failed → x.outside.Fails c) (hanswer : Renders c r x.answer) :
      AmountsTo api (.answers x) [.call c r]
  | senseless {x : Exchange} (hcall : api.call? x.request = none)
      (hanswer : ∃ response, x.answer = .text response) : AmountsTo api (.answers x) []
  | refused {x : Exchange} {refusal : Response}
      (hrefused : api.refusal x.header x.request = some refusal)
      (hanswer : x.answer = .text refusal) : AmountsTo api (.answers x) []
  | arrived {ns : NamespaceId} {e : Entry} {replaced : Entry → Bool} {deliveredBy : EndpointId}
      {present : Bool} {now : Nat} (ks : Set ContentHash) :
      AmountsTo api (.background (.op (.arrive ns e replaced deliveredBy present now)))
        [.refer ns e.contentHash, .receive ks]
  | settled {now : Nat} {order : IterOrder ContentHash} {has : ContentHash → Bool}
      {fetch : ∀ h, Option {bytes // hashNew bytes = h}} (ks : Set ContentHash) :
      AmountsTo api (.background (.op (.settle now order has fetch))) [.receive ks]
  | swept {now : Nat} {faulty : NamespaceId → Bool} {nsOrder : IterOrder NamespaceId}
      {order : IterOrder ContentHash} (rs : Set (NamespaceId × ContentHash)) :
      AmountsTo api (.background (.op (.prune now faulty nsOrder order))) [.release rs]
  | landed (bytes : Bytes) : AmountsTo api (.background (.land bytes)) []
  | collected (spared : ContentHash → Bool) : AmountsTo api (.background (.collect spared)) []
  | woke (w : Wake) (order : IterOrder PushSubscription) (sent : List (PushRequest × String)) :
      AmountsTo api (.wakes w order sent) []

/-! ## The abstraction -/

/-- The node, seen as a mailbox. -/
structure Abstracts (node : StashNode hashNew)
    (m : Mailbox NamespaceId ContentHash PushSubscription) : Prop where
  /-- The grants are the registry's. -/
  granted : ∀ ns, ns ∈ m.granted ↔ node.registry.isKnown ns = true
  /-- The devices are its subscriptions. -/
  devices : ∀ ns sub, (ns, sub) ∈ m.devices ↔ node.registry.subs.contains ns sub = true
  /-- The references are those of the content index. -/
  refs : ∀ ns h, (ns, h) ∈ m.refs ↔ node.content.isTrackedFor ns h = true
  /-- Held is what is marked. -/
  held : ∀ h, h ∈ m.held ↔ node.content.isPresent h = true

variable {api : ControlApi} {d : DeliveryService} {waker : Waker}
  {node node' : StashNode hashNew} {m : Mailbox NamespaceId ContentHash PushSubscription}
  {outside : Outside} {c : MailboxCall} {request : Request} {ns : NamespaceId} {h : ContentHash}
  {sub : PushSubscription}

namespace Abstracts

theorem mem_wanted (ha : Abstracts node m) : h ∈ m.wanted ↔ node.content.isTracked h = true := by
  rw [ContentIndex.isTracked_iff]
  constructor
  · rintro ⟨⟨ns, h⟩, href, rfl⟩
    exact ⟨ns, (ha.refs ns h).mp href⟩
  · rintro ⟨ns, ht⟩
    exact ⟨(ns, h), (ha.refs ns h).mpr ht, rfl⟩

/-- A step that changes neither the registry nor the index. -/
theorem mono (ha : Abstracts node m) (hregistry : node'.registry = node.registry)
    (hcontent : node'.content = node.content) : Abstracts node' m := by
  refine ⟨?_, ?_, ?_, ?_⟩
  · rw [hregistry]
    exact ha.granted
  · rw [hregistry]
    exact ha.devices
  · rw [hcontent]
    exact ha.refs
  · rw [hcontent]
    exact ha.held

theorem register (ha : Abstracts node m) (ns : NamespaceId) (sub : Option PushSubscription) :
    Abstracts (node.register ns sub) (m.grant ns sub) := by
  refine ⟨fun ns' ↦ ?_, fun ns' sub' ↦ ?_, ha.refs, ha.held⟩
  · rw [StashNode.register, NamespaceRegistry.isKnown_register, ← ha.granted]
    exact Iff.rfl
  · have hcontains : (node.register ns sub).registry.subs.contains ns' sub' = true ↔
        (ns' = ns ∧ sub = some sub') ∨ node.registry.subs.contains ns' sub' = true := by
      rw [StashNode.register]
      cases sub with
      | none => simp [NamespaceRegistry.register]
      | some sub =>
        rw [NamespaceRegistry.register, SetMap.contains_add, Option.some_inj, eq_comm (a := sub)]
    rw [hcontains, ← ha.devices]
    exact Iff.rfl

theorem unsubscribe (ha : Abstracts node m) (ns : NamespaceId) (sub : PushSubscription) :
    Abstracts (node.unsubscribe ns sub).2 (m.mute ns sub) := by
  refine ⟨ha.granted, fun ns' sub' ↦ ?_, ha.refs, ha.held⟩
  rw [StashNode.unsubscribe, NamespaceRegistry.unsubscribe, SetMap.contains_remove, ← ha.devices,
    Mailbox.mute]
  simp

/-- Marks are set: content is received. -/
theorem receive (ha : Abstracts node m) (hregistry : node'.registry = node.registry)
    (hrefs : ∀ ns h, node'.content.isTrackedFor ns h = node.content.isTrackedFor ns h)
    (ks : Set ContentHash) (hmarks : ∀ h, node'.content.isPresent h = true ↔
      node.content.isPresent h = true ∨ (h ∈ ks ∧ node.content.isTracked h = true)) :
    Abstracts node' (m.receive ks) := by
  refine ⟨?_, ?_, fun ns h ↦ ?_, fun h ↦ ?_⟩
  · rw [hregistry]
    exact ha.granted
  · rw [hregistry]
    exact ha.devices
  · rw [hrefs]
    exact ha.refs ns h
  · rw [hmarks, ← ha.held, ← ha.mem_wanted]
    exact Iff.rfl

/-- A record arrives. -/
theorem refer (ha : Abstracts node m) (hn : ns ∈ m.granted)
    (hregistry : node'.registry = node.registry)
    (hcontent : node'.content = node.content.want ns h) : Abstracts node' (m.refer ns h hn) := by
  refine ⟨?_, ?_, fun ns' h' ↦ ?_, fun h' ↦ ?_⟩
  · rw [hregistry]
    exact ha.granted
  · rw [hregistry]
    exact ha.devices
  · rw [hcontent, ContentIndex.isTrackedFor_want, ← ha.refs, Mailbox.refer, Set.mem_insert_iff,
      Prod.mk.injEq]
  · rw [hcontent, ContentIndex.isPresent_want]
    exact ha.held h'

/-- References are dropped, and the marks of what is not referenced any more. -/
theorem release (ha : Abstracts node m) (hregistry : node'.registry = node.registry)
    (hrefs : ∀ ns h, node'.content.isTrackedFor ns h = true →
      node.content.isTrackedFor ns h = true)
    (hmarks : ∀ h, node'.content.isPresent h = true ↔
      node.content.isPresent h = true ∧ node'.content.isTracked h = true) :
    Abstracts node' (m.release {p | node'.content.isTrackedFor p.1 p.2 = false}) := by
  have hkept : ∀ ns h, (ns, h) ∈ m.refs \ {p | node'.content.isTrackedFor p.1 p.2 = false} ↔
      node'.content.isTrackedFor ns h = true := by
    intro ns h
    rw [Set.mem_sdiff, ha.refs, Set.mem_ofPred_eq, Bool.not_eq_false, and_iff_right_iff_imp]
    exact hrefs ns h
  refine ⟨?_, ?_, hkept, fun h ↦ ?_⟩
  · rw [hregistry]
    exact ha.granted
  · rw [hregistry]
    exact ha.devices
  · rw [hmarks, ContentIndex.isTracked_iff, Mailbox.release, Set.mem_inter_iff, ha.held]
    refine and_congr_right fun _ ↦ ?_
    constructor
    · rintro ⟨⟨ns, h⟩, href, rfl⟩
      exact ⟨ns, (hkept ns h).mp href⟩
    · rintro ⟨ns, ht⟩
      exact ⟨(ns, h), (hkept ns h).mpr ht, rfl⟩

end Abstracts

/-! ## Requests -/

/-- What the handlers make of a call: the answer, and the node they leave. -/
inductive Carried (outside : Outside) (node : StashNode hashNew) :
    MailboxCall → Answer × StashNode hashNew → Prop
  | granted (ns : NamespaceId) (sub : Option PushSubscription)
      (hopen : ns ∈ node.handles ∨ outside.opened = .ok ()) :
      Carried outside node (.grant ns sub) (.text ⟨201, ""⟩, node.register ns sub)
  | notGranted (ns : NamespaceId) (sub : Option PushSubscription) {e : JoinError} {code : Nat}
      {msg : String} (hclosed : ns ∉ node.handles) (hopened : outside.opened = .error e)
      (hcode : code = 400 ∨ code = 502) :
      Carried outside node (.grant ns sub) (.text ⟨code, msg⟩, node)
  | muted (ns : NamespaceId) (sub : PushSubscription) :
      Carried outside node (.mute ns sub) (.text ⟨204, ""⟩, (node.unsubscribe ns sub).2)
  | fetched {ns : NamespaceId} {h : ContentHash} {b : Bytes}
      (hb : node.contentBytes ns h = some b) : Carried outside node (.fetch ns h) (.octets b, node)
  | missed {ns : NamespaceId} {h : ContentHash} (hnone : node.contentBytes ns h = none) :
      Carried outside node (.fetch ns h) (.text ⟨404, ""⟩, node)
  | brought {ns : NamespaceId} {h : ContentHash} {b : Bytes}
      (hknown : node.registry.isKnown ns = true) (ht : node.content.isTrackedFor ns h = true)
      (hb : hashNew b = h) (hfault : outside.fault = none) :
      Carried outside node (.bring ns h b)
        (.text ⟨204, ""⟩, (node.addBytes b).2.markPresent h)
  | notBrought {ns : NamespaceId} {h : ContentHash} {b : Bytes} {msg : String}
      (hknown : node.registry.isKnown ns = true) (ht : node.content.isTrackedFor ns h = true)
      (hb : hashNew b = h) (hfault : outside.fault = some msg) :
      Carried outside node (.bring ns h b) (.text ⟨502, msg⟩, node)
  | ungranted {ns : NamespaceId} {h : ContentHash} {b : Bytes}
      (hknown : node.registry.isKnown ns = false) :
      Carried outside node (.bring ns h b) (.text ⟨404, ""⟩, node)
  | unreferred {ns : NamespaceId} {h : ContentHash} {b : Bytes}
      (hknown : node.registry.isKnown ns = true) (ht : node.content.isTrackedFor ns h = false) :
      Carried outside node (.bring ns h b) (.text ⟨409, ""⟩, node)
  | mismatch {ns : NamespaceId} {h : ContentHash} {b : Bytes}
      (hknown : node.registry.isKnown ns = true) (ht : node.content.isTrackedFor ns h = true)
      (hb : hashNew b ≠ h) :
      Carried outside node (.bring ns h b) (.text ⟨400, "content does not match its hash"⟩, node)
  | counted : Carried outside node .count (node.healthz, node)

theorem carried_register {req : RegisterRequest}
    (hcall : api.call? (.register (.ok req)) = some c) :
    Carried outside node c (api.registerHandler node outside req) := by
  dsimp only [ControlApi.call?] at hcall
  dsimp only [ControlApi.registerHandler, registerHandlerOn]
  cases hvalid : validateRegister req with
  | error e => simp [hvalid, Except.toOption] at hcall
  | ok valid =>
    cases hns : api.ticketNs valid.readTicket with
    | error e => simp [hvalid, hns, Except.toOption] at hcall
    | ok ns =>
      obtain rfl : .grant ns valid.subscription = c := by
        simpa [hvalid, hns, Except.toOption] using hcall
      dsimp only [ControlApi.registerTicket, registerOn]
      rw [hns]
      dsimp only
      by_cases hopen : ns ∈ node.handles
      · rw [if_pos hopen]
        exact .granted ns valid.subscription (Or.inl hopen)
      · rw [if_neg hopen]
        cases hopened : outside.opened with
        | error e =>
          refine .notGranted ns valid.subscription hopen hopened ?_
          split
          · exact Or.inl rfl
          · exact Or.inr rfl
        | ok _ => exact .granted ns valid.subscription (Or.inr hopened)

theorem carried_unsubscribe {id : Bytes} {req : UnsubscribeRequest}
    (hcall : api.call? (.unsubscribe id (.ok req)) = some c) :
    Carried outside node c (ControlApi.unsubscribeHandler node id req) := by
  dsimp only [ControlApi.call?] at hcall
  dsimp only [ControlApi.unsubscribeHandler, unsubscribeHandlerOn]
  cases hns : parseNamespaceHex id with
  | error e => simp [hns, Except.toOption] at hcall
  | ok ns =>
    cases hp : parsePlatform req.platform with
    | none => simp [hp] at hcall
    | some p =>
      obtain rfl : .mute ns ⟨p, req.pushToken⟩ = c := by
        simpa [hns, hp, Except.toOption] using hcall
      exact .muted ns ⟨p, req.pushToken⟩

theorem carried_content {id hash : Bytes} (hcall : api.call? (.content id hash) = some c) :
    Carried outside node c (api.contentHandler node id hash, node) := by
  dsimp only [ControlApi.call?] at hcall
  dsimp only [ControlApi.contentHandler]
  cases hns : parseNamespaceHex id with
  | error e => simp [hns, Except.toOption] at hcall
  | ok ns =>
    cases hh : api.parseHash hash with
    | none => simp [hh] at hcall
    | some h =>
      obtain rfl : .fetch ns h = c := by simpa [hns, hh, Except.toOption] using hcall
      dsimp only
      cases hbytes : node.contentBytes ns h with
      | some bytes => exact .fetched hbytes
      | none => exact .missed hbytes

theorem carried_putContent {id hash bytes : Bytes}
    (hcall : api.call? (.putContent id hash (.ok bytes)) = some c) :
    Carried outside node c (api.putContentHandler node outside id hash bytes) := by
  dsimp only [ControlApi.call?] at hcall
  dsimp only [ControlApi.putContentHandler]
  cases hns : parseNamespaceHex id with
  | error e => simp [hns, Except.toOption] at hcall
  | ok ns =>
    cases hh : api.parseHash hash with
    | none => simp [hh] at hcall
    | some h =>
      obtain rfl : .bring ns h bytes = c := by simpa [hns, hh, Except.toOption] using hcall
      dsimp only
      by_cases hknown : node.registry.isKnown ns = true
      · by_cases ht : node.content.isTrackedFor ns h = true
        · by_cases hb : hashNew bytes = h
          · cases hfault : outside.fault with
            | some msg =>
              have hput : node.putContent ns h bytes true = (node, none) := by
                simp [StashNode.putContent, hknown, ht, hb]
              rw [Option.isSome_some, hput]
              exact .notBrought hknown ht hb hfault
            | none =>
              have hput : node.putContent ns h bytes false =
                  ((node.addBytes bytes).2.markPresent h, some .stored) := by
                simp [StashNode.putContent, hknown, ht, hb, StashNode.addBytes]
              rw [Option.isSome_none, hput]
              exact .brought hknown ht hb hfault
          · have hput : node.putContent ns h bytes outside.fault.isSome =
                (node, some .hashMismatch) := by simp [StashNode.putContent, hknown, ht, hb]
            rw [hput]
            exact .mismatch hknown ht hb
        · have hput : node.putContent ns h bytes outside.fault.isSome =
              (node, some .untrackedHash) := by simp [StashNode.putContent, hknown, ht]
          rw [hput]
          exact .unreferred hknown (Bool.not_eq_true _ ▸ ht)
      · have hput : node.putContent ns h bytes outside.fault.isSome =
            (node, some .unknownNamespace) := by simp [StashNode.putContent, hknown]
        rw [hput]
        exact .ungranted (Bool.not_eq_true _ ▸ hknown)

/-- An upload leaves the node that `put_content` leaves. -/
theorem Carried.node_bring {b : Bytes} {out : Answer × StashNode hashNew}
    (hcarried : Carried outside node (.bring ns h b) out) :
    (node.putContent ns h b outside.fault.isSome).1 = out.2 := by
  cases hcarried with
  | brought hknown ht hb hfault =>
    simp [StashNode.putContent, hknown, ht, hb, hfault, StashNode.addBytes]
  | notBrought hknown ht hb hfault => simp [StashNode.putContent, hknown, ht, hb, hfault]
  | ungranted hknown => simp [StashNode.putContent, hknown]
  | unreferred hknown ht => simp [StashNode.putContent, hknown, ht]
  | mismatch hknown ht hb => simp [StashNode.putContent, hknown, ht, hb]

/-- **What the routes make of a call.** -/
theorem carried_route (hcall : api.call? request = some c) :
    Carried outside node c (api.route node outside request) := by
  cases request with
  | register body =>
    cases body with
    | error rejection => exact absurd hcall (by simp [ControlApi.call?])
    | ok req => exact carried_register hcall
  | unsubscribe id body =>
    cases body with
    | error rejection => exact absurd hcall (by simp [ControlApi.call?])
    | ok req => exact carried_unsubscribe hcall
  | content id hash => exact carried_content hcall
  | putContent id hash body =>
    cases body with
    | error rejection => exact absurd hcall (by simp [ControlApi.call?])
    | ok bytes => exact carried_putContent hcall
  | healthz =>
    obtain rfl : Mailbox.Call.count = c := Option.some.inj hcall
    exact .counted

/-- The health report counts what is wanted and not held. -/
theorem Abstracts.contentStats (ha : Abstracts node m) :
    node.contentStats = ((m.wanted \ m.held).ncard, m.wanted.ncard) := by
  have hwanted : m.wanted = (node.content.referenced : Set ContentHash) := by
    ext h
    rw [ha.mem_wanted, Finset.mem_coe, ContentIndex.mem_referenced]
  have hmissing : m.wanted \ m.held = (node.content.referenced.filter fun h ↦
      node.content.state.lookup h = some .wanted : Finset ContentHash) := by
    ext h
    rw [Set.mem_sdiff, ha.mem_wanted, ha.held, Finset.mem_coe, Finset.mem_filter,
      ContentIndex.mem_referenced]
    refine and_congr_right fun ht ↦ ?_
    rw [lookup_state_iff ht, Bool.not_eq_true]
  rw [StashNode.contentStats, ContentIndex.missingCount_eq, trackedCount_eq, hmissing, hwanted,
    Set.ncard_coe_finset, Set.ncard_coe_finset]

/-- What a handler does with a call: it answers as the mailbox does, and fails only if the outside
does. -/
def Handled (outside : Outside) (m : Mailbox NamespaceId ContentHash PushSubscription)
    (c : MailboxCall) (out : Answer × StashNode hashNew) : Prop :=
  ∃ r m', Mailbox.Answers hashNew m c r m' ∧ (r = .failed → outside.Fails c) ∧ Renders c r out.1 ∧
    Abstracts out.2 m' ∧ Consistent out.2

/-- **The handlers answer a call as the mailbox does.** -/
theorem handled_of_carried {out : Answer × StashNode hashNew} (hc : Consistent node)
    (ha : Abstracts node m) (hcarried : Carried outside node c out) :
    Handled outside m c out := by
  cases hcarried with
  | granted ns sub _ =>
    exact ⟨.done, _, .grant ns sub, by simp, .granted ns sub, ha.register ns sub,
      hc.mono rfl rfl fun _ _ ↦ id⟩
  | notGranted ns sub _ hopened hcode =>
    exact ⟨.failed, m, .grantFails ns sub, fun _ ↦ ⟨_, hopened⟩, .notGranted ns sub _ _ hcode, ha,
      hc⟩
  | muted ns sub =>
    have hafter : Consistent (node.unsubscribe ns sub).2 := hc.mono rfl rfl fun _ _ hh ↦ hh
    exact ⟨.done, _, .mute ns sub, by simp, .muted ns sub, ha.unsubscribe ns sub, hafter⟩
  | @fetched ns h b hb =>
    obtain ⟨ht, hp, hblob⟩ := contentBytes_eq_some.mp hb
    have hdigest := node.blobs.addressed h b hblob
    exact ⟨.blob b, m, .fetch ((ha.refs ns h).mpr ht) ((ha.held h).mpr hp) hdigest, by simp,
      .fetched ns h b, ha, hc⟩
  | @missed ns h hnone =>
    refine ⟨.nothing, m, .miss fun hhere ↦ ?_, by simp, .missed ns h, ha, hc⟩
    -- what is marked is stored, so it would have been found
    obtain ⟨b, hb, -⟩ := hc.contentBytes ((ha.refs ns h).mp hhere.1) ((ha.held h).mp hhere.2)
    exact absurd (hb.symm.trans hnone) (Option.some_ne_none b)
  | @brought ns h b hknown ht hb hfault =>
    have hput : (node.putContent ns h b outside.fault.isSome).1 =
        (node.addBytes b).2.markPresent h := Carried.node_bring (.brought hknown ht hb hfault)
    have hafter : Consistent (node.putContent ns h b outside.fault.isSome).1 := hc.putContent
    rw [hput] at hafter
    have hsame : ((node.addBytes b).2.markPresent h).registry = node.registry := rfl
    have hreceived : Abstracts ((node.addBytes b).2.markPresent h) (m.receive {h}) := by
      refine ha.receive hsame (fun _ _ ↦ rfl) {h} fun h' ↦ ?_
      refine ContentIndex.isPresent_markPresent.trans (or_comm.trans (or_congr_right ?_))
      rw [Set.mem_singleton_iff]
      exact and_congr_right fun heq ↦ by rw [heq]; rfl
    exact ⟨.done, _, .bring ((ha.refs ns h).mpr ht) hb, by simp, .brought ns h b, hreceived, hafter⟩
  | @notBrought ns h b msg _ ht hb hfault =>
    have hfails : outside.Fails (.bring ns h b) := Option.isSome_iff_exists.mpr ⟨msg, hfault⟩
    exact ⟨.failed, m, .bringFails ((ha.refs ns h).mpr ht) hb, fun _ ↦ hfails,
      .notBrought ns h b msg, ha, hc⟩
  | @ungranted ns h b hknown =>
    have hungranted : ns ∉ m.granted := fun hg ↦
      absurd ((ha.granted ns).mp hg) (by simp [hknown])
    exact ⟨.ungranted, m, .ungranted hungranted, by simp, .ungranted ns h b, ha, hc⟩
  | @unreferred ns h b hknown ht =>
    have hunreferred : (ns, h) ∉ m.refs := fun href ↦ absurd ((ha.refs ns h).mp href) (by simp [ht])
    exact ⟨.unreferred, m, .unreferred ((ha.granted ns).mpr hknown) hunreferred, by simp,
      .unreferred ns h b, ha, hc⟩
  | @mismatch ns h b _ ht hb =>
    exact ⟨.mismatch, m, .mismatch ((ha.refs ns h).mpr ht) hb, by simp, .mismatch ns h b, ha, hc⟩
  | counted =>
    refine ⟨_, m, .count, by simp, ?_, ha, hc⟩
    dsimp only [StashNode.healthz]
    rw [ha.contentStats]
    exact .counted _ _

/-- A request that is no call changes nothing, and is told so. -/
theorem route_of_senseless (hcall : api.call? request = none) :
    (api.route node outside request).2 = node ∧
      ∃ response, (api.route node outside request).1 = .text response := by
  cases request with
  | register body =>
    cases body with
    | error rejection => exact ⟨rfl, _, rfl⟩
    | ok req =>
      dsimp only [ControlApi.call?] at hcall
      dsimp only [ControlApi.route, ControlApi.registerHandler, registerHandlerOn]
      cases hvalid : validateRegister req with
      | error e => exact ⟨rfl, _, rfl⟩
      | ok valid =>
        dsimp only [ControlApi.registerTicket, registerOn]
        cases hns : api.ticketNs valid.readTicket with
        | error e => exact ⟨rfl, _, rfl⟩
        | ok ns => simp [hvalid, hns, Except.toOption] at hcall
  | unsubscribe id body =>
    cases body with
    | error rejection => exact ⟨rfl, _, rfl⟩
    | ok req =>
      dsimp only [ControlApi.call?] at hcall
      dsimp only [ControlApi.route, ControlApi.unsubscribeHandler, unsubscribeHandlerOn]
      cases hns : parseNamespaceHex id with
      | error e => exact ⟨rfl, _, rfl⟩
      | ok ns =>
        cases hp : parsePlatform req.platform with
        | none => exact ⟨rfl, _, rfl⟩
        | some p => simp [hns, hp, Except.toOption] at hcall
  | content id hash =>
    refine ⟨rfl, ?_⟩
    dsimp only [ControlApi.call?] at hcall
    dsimp only [ControlApi.route, ControlApi.contentHandler]
    cases hns : parseNamespaceHex id with
    | error e => exact ⟨_, rfl⟩
    | ok ns =>
      cases hh : api.parseHash hash with
      | none => exact ⟨_, rfl⟩
      | some h => simp [hns, hh, Except.toOption] at hcall
  | putContent id hash body =>
    cases body with
    | error rejection => exact ⟨rfl, _, rfl⟩
    | ok bytes =>
      dsimp only [ControlApi.call?] at hcall
      dsimp only [ControlApi.route, ControlApi.putContentHandler]
      cases hns : parseNamespaceHex id with
      | error e => exact ⟨rfl, _, rfl⟩
      | ok ns =>
        cases hh : api.parseHash hash with
        | none => exact ⟨rfl, _, rfl⟩
        | some h => simp [hns, hh, Except.toOption] at hcall
  | healthz => exact absurd hcall (Option.some_ne_none _)

/-! ## What goes on behind the API -/

open StashNode in
/-- An arrival is a record, and its content if the store has it already. -/
theorem Abstracts.arrive {e : Entry} {replaced : Entry → Bool} {peer : EndpointId}
    {present : Bool} {now : Nat} (ha : Abstracts node m) (hn : ns ∈ m.granted) :
    Abstracts ((node.replicate ns e replaced).onInsertRemote ns e peer present now).1
      ((m.refer ns e.contentHash hn).receive {h | h = e.contentHash ∧ present = true}) := by
  have hreferred : Abstracts ((node.replicate ns e replaced).want ns e.contentHash)
      (m.refer ns e.contentHash hn) := ha.refer hn rfl rfl
  have hregistry : ((node.replicate ns e replaced).onInsertRemote ns e peer present
      now).1.registry = ((node.replicate ns e replaced).want ns e.contentHash).registry :=
    frame_onInsertRemote.registry
  refine hreferred.receive hregistry (fun ns' h ↦ ?_) _ fun h ↦ ?_
  · rw [Bool.eq_iff_iff, isTrackedFor_onInsertRemote]
    exact ContentIndex.isTrackedFor_want.symm
  · cases present with
    | false =>
      refine (or_iff_left fun hc ↦ ?_).symm
      exact Bool.false_ne_true hc.1.2
    | true =>
      refine ContentIndex.isPresent_markPresent.trans (or_comm.trans (or_congr_right ?_))
      exact ⟨fun ⟨heq, ht⟩ ↦ ⟨⟨heq, rfl⟩, heq ▸ ht⟩, fun ⟨⟨heq, _⟩, ht⟩ ↦ ⟨heq, heq ▸ ht⟩⟩

/-- **What goes on behind the API is matched by events of the mailbox.** -/
theorem Abstracts.background {s t : System hashNew} {o : StoreOp hashNew}
    (hc : Consistent s.node) (ha : Abstracts s.node m) (ho : o.IsBackground)
    (hstep : System.StoreStep s o t) : ∃ evs m', AmountsTo api (.background o) evs ∧
      Run (Mailbox.Step hashNew) m evs m' ∧ Abstracts t.node m' := by
  obtain ⟨hallowed, rfl⟩ := hstep
  cases o with
  | land bytes => exact ⟨[], m, .landed bytes, .nil m, ha.mono rfl rfl⟩
  | collect spared => exact ⟨[], m, .collected spared, .nil m, ha.mono rfl rfl⟩
  | op op =>
    obtain ⟨henabled, htrue⟩ := hallowed op rfl
    cases op with
    | grant ns sub => exact ho.elim
    | put ns expected bytes fails => exact ho.elim
    | arrive ns e replaced peer present now =>
      have hn := (ha.granted ns).mpr henabled
      exact ⟨_, _, .arrived _, .cons (.refer e.contentHash hn) (.cons (.receive _ _) (.nil _)),
        ha.arrive hn⟩
    | settle now order has fetch =>
      have hafter : Consistent (s.node.settleOnce now order has fetch).1 := hc.settleLoop htrue
      refine ⟨_, _, .settled {h | (s.node.settleOnce now order has fetch).1.content.isPresent h =
        true}, .cons (.receive m _) (.nil _), ?_⟩
      refine ha.receive StashNode.frame_settleOnce.registry
        (fun _ _ ↦ StashNode.isTrackedFor_settleOnce) _ fun h ↦ ?_
      constructor
      · intro hp
        have ht := ContentIndex.isTracked_of_isPresent hp
        rw [ContentIndex.isTracked_iff] at ht
        obtain ⟨ns, ht⟩ := ht
        exact Or.inr ⟨hp, ContentIndex.isTracked_of_isTrackedFor
          (StashNode.isTrackedFor_settleOnce.symm.trans ht)⟩
      · rintro (hp | ⟨hp, -⟩)
        · exact StashNode.isPresent_settleLoop hp
        · exact hp
    | prune now faulty nsOrder order =>
      obtain ⟨k, hsheds⟩ := sheds_pruneOnce s.node now faulty nsOrder order
      obtain ⟨swept, -, hrel⟩ := StashNode.pruneOnce_spec s.node now faulty nsOrder order
      refine ⟨_, _, .swept _, .cons (.release m _) (.nil _),
        ha.release StashNode.frame_pruneOnce.registry (fun ns h ht ↦ ((hrel ns h).mp ht).1) ?_⟩
      exact fun h ↦ hsheds.present h

/-! ## The server -/

variable {policy : RetentionPolicy} {s t : Server hashNew} {op : ServerOp hashNew}
  {ops : List (ServerOp hashNew)}

/-- The server between two steps: its node is consistent, and is seen as the mailbox. -/
def Shows (s : Server hashNew) (m : Mailbox NamespaceId ContentHash PushSubscription) : Prop :=
  Consistent s.system.node ∧ Abstracts s.system.node m

theorem shows_boot : Shows (bootServer hashNew policy) .empty := by
  refine ⟨.boot, fun ns ↦ ?_, fun ns sub ↦ ?_, fun ns h ↦ ?_, fun h ↦ ?_⟩
  · simp [bootServer, System.boot, StashNode.boot, Mailbox.empty]
  · simp [bootServer, System.boot, StashNode.boot, Mailbox.empty, NamespaceRegistry.new]
  · simp [bootServer, System.boot, StashNode.boot, Mailbox.empty]
  · simp [bootServer, System.boot, StashNode.boot, Mailbox.empty]

/-- **What answering a request does**: it is refused, or makes no sense, or is a call. -/
theorem ServeStep.answers_cases {x : Exchange} (hstep : ServeStep api d waker s (.answers x) t) :
    (∃ refusal, api.refusal x.header x.request = some refusal ∧ x.answer = .text refusal ∧
      t = s) ∨
    (api.refusal x.header x.request = none ∧ api.call? x.request = none ∧
      (∃ response, x.answer = .text response) ∧ t = s) ∨
    ∃ c node, api.refusal x.header x.request = none ∧ api.call? x.request = some c ∧
      Carried x.outside s.system.node c (x.answer, node) ∧
        t = ⟨{ s.system with node := node }, s.owed⟩ := by
  cases hstep with
  | @answers sys x node owed hserve =>
    rw [ControlApi.serve] at hserve
    cases hrefusal : api.refusal x.header x.request with
    | some refusal =>
      rw [hrefusal] at hserve
      obtain ⟨hanswer, rfl⟩ := Prod.mk.inj hserve
      exact Or.inl ⟨refusal, rfl, hanswer.symm, rfl⟩
    | none =>
      rw [hrefusal] at hserve
      dsimp only at hserve
      refine Or.inr ?_
      cases hcall : api.call? x.request with
      | none =>
        obtain ⟨hsame, htext⟩ : (api.route sys.node x.outside x.request).2 = sys.node ∧
            ∃ response, (api.route sys.node x.outside x.request).1 = .text response :=
          route_of_senseless hcall
        rw [hserve] at hsame htext
        dsimp only at hsame
        subst hsame
        exact Or.inl ⟨rfl, rfl, htext, rfl⟩
      | some c =>
        have hcarried : Carried x.outside sys.node c (api.route sys.node x.outside x.request) :=
          carried_route hcall
        rw [hserve] at hcarried
        exact Or.inr ⟨c, node, rfl, rfl, hcarried, rfl⟩

/-- What answering a call does. -/
theorem ServeStep.carried {x : Exchange} (hstep : ServeStep api d waker s (.answers x) t)
    (hallowed : api.refusal x.header x.request = none) (hcall : api.call? x.request = some c) :
    ∃ node, Carried x.outside s.system.node c (x.answer, node) ∧
      t = ⟨{ s.system with node := node }, s.owed⟩ := by
  rcases hstep.answers_cases with ⟨refusal, hrefusal, -⟩ | ⟨-, hnone, -⟩ |
      ⟨c', node, -, hcall', hcarried, rfl⟩
  · exact absurd (hallowed.symm.trans hrefusal) nofun
  · exact absurd (hcall.symm.trans hnone) nofun
  · obtain rfl := Option.some.inj (hcall.symm.trans hcall')
    exact ⟨node, hcarried, rfl⟩

/-- **Every step of the server is matched by steps of the mailbox.** -/
theorem Shows.step (hs : Shows s m) (hstep : ServeStep api d waker s op t) :
    ∃ evs m', AmountsTo api op evs ∧ Run (Mailbox.Step hashNew) m evs m' ∧ Shows t m' := by
  obtain ⟨hc, ha⟩ := hs
  cases op with
  | answers x =>
    rcases hstep.answers_cases with ⟨refusal, hrefusal, hanswer, rfl⟩ |
        ⟨-, hnone, hanswer, rfl⟩ | ⟨c, node, hallowed, hcall, hcarried, rfl⟩
    · exact ⟨[], m, .refused hrefusal hanswer, .nil m, hc, ha⟩
    · exact ⟨[], m, .senseless hnone hanswer, .nil m, hc, ha⟩
    · obtain ⟨r, m', hm, hfails, hrender, ha', hc'⟩ := handled_of_carried hc ha hcarried
      exact ⟨[.call c r], m', .answered hallowed hcall hfails hrender, .cons (.call hm) (.nil m'),
        hc', ha'⟩
  | background o =>
    cases hstep with
    | background owed ho h =>
      obtain ⟨evs, m', hmatch, hrun, ha'⟩ := ha.background hc ho h
      exact ⟨evs, m', hmatch, hrun, hc.store h, ha'⟩
  | wakes w order sent =>
    cases hstep with
    | wakes => exact ⟨[], m, .woke _ _ _, .nil m, hc, ha⟩

/-- A run of the server is matched by a run of the mailbox. -/
theorem exists_shows (hrun : Run (ServeStep api d waker) (bootServer hashNew policy) ops s) :
    ∃ (evss : List (List MailboxEvent)) (m : Mailbox NamespaceId ContentHash PushSubscription),
      List.Forall₂ (AmountsTo api) ops evss ∧
        Run (Mailbox.Step hashNew) .empty evss.flatten m ∧ Shows s m :=
  hrun.simulate (R := Shows) (fun _ _ _ _ hs hst ↦ hs.step hst) shows_boot

/-- **The server is a mailbox.**  Every run of whole operations of the server, whatever requests it
answers, in whatever circumstances, and whatever goes on behind the API from one to the next, is
matched step by step by a run of a mailbox to a state that the server's node is seen as.  A request
that makes sense and passes the guard is a call of the mailbox, answered with its reply, which is a
failure only if the outside fails; every other request is nothing, and so are the bytes that the
downloader lands and the collections. -/
theorem served_as_mailbox
    (hrun : Run (ServeStep api d waker) (bootServer hashNew policy) ops s) :
    ∃ (evss : List (List MailboxEvent)) (m : Mailbox NamespaceId ContentHash PushSubscription),
      List.Forall₂ (AmountsTo api) ops evss ∧
        Run (Mailbox.Step hashNew) .empty evss.flatten m ∧ Abstracts s.system.node m := by
  obtain ⟨evss, m, hmatches, hm, hs⟩ := exists_shows hrun
  exact ⟨evss, m, hmatches, hm, hs.2⟩

/-- The bytes that were uploaded are held. -/
theorem served_as_mailbox_fix : ∃ (evss : List (List MailboxEvent))
    (m : Mailbox NamespaceId ContentHash PushSubscription),
      List.Forall₂ (AmountsTo sampleApi) sampleOps evss ∧
        Run (Mailbox.Step sampleHash) .empty evss.flatten m ∧ zeroHash ∈ m.held := by
  obtain ⟨evss, m, hm, hrun, ha⟩ :=
    served_as_mailbox (run_sampleOps passthroughDelivery noopWaker)
  exact ⟨evss, m, hm, hrun, (ha.held zeroHash).mpr (by decide)⟩

/-! ## What the history says -/

/-- The exchange is the call, and it was carried out. -/
structure Exchange.Does (api : ControlApi) (x : Exchange) (c : MailboxCall) : Prop where
  /-- The guard let it pass. -/
  allowed : api.refusal x.header x.request = none
  /-- It is the call. -/
  call : api.call? x.request = some c
  /-- The answer says that it was carried out. -/
  done : Renders c .done x.answer

/-- A registration of the namespace was carried out. -/
def OptedIn (api : ControlApi) (ops : List (ServerOp hashNew)) (ns : NamespaceId) : Prop :=
  ∃ x sub, .answers x ∈ ops ∧ x.Does api (.grant ns sub)

/-- A record of the namespace with this content hash has arrived. -/
def Arrived (ops : List (ServerOp hashNew)) (ns : NamespaceId) (h : ContentHash) : Prop :=
  ∃ e replaced peer present now,
    .background (.op (.arrive ns e replaced peer present now)) ∈ ops ∧ e.contentHash = h

variable {x : Exchange} {evs : List MailboxEvent} {evss : List (List MailboxEvent)}

/-- A call carried out is an exchange that does it. -/
theorem AmountsTo.mem_done_iff (hm : AmountsTo api op evs) :
    .call c .done ∈ evs ↔ ∃ x, op = .answers x ∧ x.Does api c := by
  cases hm with
  | @answered x c' r hallowed hcall hfails hanswer =>
    rw [List.mem_singleton]
    constructor
    · intro heq
      cases heq
      exact ⟨x, rfl, hallowed, hcall, hanswer⟩
    · rintro ⟨x', heq, hdoes⟩
      obtain rfl := ServerOp.answers.inj heq
      obtain rfl := Option.some.inj (hcall.symm.trans hdoes.call)
      rw [hanswer.eq_done hdoes.done]
  | senseless hcall _ =>
    refine iff_of_false List.not_mem_nil ?_
    rintro ⟨x', heq, hdoes⟩
    obtain rfl := ServerOp.answers.inj heq
    exact absurd (hcall.symm.trans hdoes.call) nofun
  | refused hrefused _ =>
    refine iff_of_false List.not_mem_nil ?_
    rintro ⟨x', heq, hdoes⟩
    obtain rfl := ServerOp.answers.inj heq
    exact absurd (hrefused.symm.trans hdoes.allowed) nofun
  | _ => simp

/-- A record referred to is an arrival. -/
theorem AmountsTo.of_mem_refer (hm : AmountsTo api op evs) (hmem : .refer ns h ∈ evs) :
    ∃ e replaced peer present now,
      op = .background (.op (.arrive ns e replaced peer present now)) ∧ e.contentHash = h := by
  cases hm with
  | @arrived ns' e replaced peer present now ks =>
    simp only [List.mem_cons, Mailbox.Event.refer.injEq, reduceCtorEq, List.not_mem_nil, or_self,
      or_false] at hmem
    obtain ⟨rfl, rfl⟩ := hmem
    exact ⟨e, replaced, peer, present, now, rfl, rfl⟩
  | _ => simp at hmem

theorem exists_done_iff (hm : List.Forall₂ (AmountsTo api) ops evss) :
    .call c .done ∈ evss.flatten ↔ ∃ x, .answers x ∈ ops ∧ x.Does api c := by
  induction hm with
  | nil => simp
  | cons hop _ ih =>
    rw [List.flatten_cons, List.mem_append, ih, hop.mem_done_iff, ← exists_or]
    refine exists_congr fun x ↦ ?_
    rw [List.mem_cons, or_and_right, eq_comm]

theorem arrived_of_mem_refer (hm : List.Forall₂ (AmountsTo api) ops evss)
    (hmem : .refer ns h ∈ evss.flatten) : Arrived ops ns h := by
  induction hm with
  | nil => simp at hmem
  | cons hop _ ih =>
    rcases List.mem_append.mp hmem with hmem | hmem
    · obtain ⟨e, replaced, peer, present, now, rfl, heq⟩ := hop.of_mem_refer hmem
      exact ⟨e, replaced, peer, present, now, List.mem_cons_self, heq⟩
    · obtain ⟨e, replaced, peer, present, now, hmem, heq⟩ := ih hmem
      exact ⟨e, replaced, peer, present, now, List.mem_cons_of_mem _ hmem, heq⟩

/-- The names granted to the mailbox are the namespaces registered. -/
theorem mem_granted_iff (hm : List.Forall₂ (AmountsTo api) ops evss)
    (hrun : Run (Mailbox.Step hashNew) .empty evss.flatten m) :
    ns ∈ m.granted ↔ OptedIn api ops ns := by
  rw [Mailbox.granted_iff hrun]
  constructor
  · rintro ⟨sub, hmem⟩
    obtain ⟨x, hx, hdoes⟩ := (exists_done_iff hm).mp hmem
    exact ⟨x, sub, hx, hdoes⟩
  · rintro ⟨x, sub, hx, hdoes⟩
    exact ⟨sub, (exists_done_iff hm).mpr ⟨x, hx, hdoes⟩⟩

/-- **Presenting the ticket is the grant, and there is no other.**  In every run of whole operations
of the server: content is handed out only to a request that passes the guard, and for a namespace
that was registered before with its ticket and in which a record of that content has arrived; and
its digest is the one asked for.  An upload that passes the guard and makes sense is told that the
stash does not know the namespace exactly if no registration of it was carried out before. -/
theorem opt_in_over_http (hrun : Run (ServeStep api d waker) (bootServer hashNew policy) ops s)
    (hstep : ServeStep api d waker s (.answers x) t) :
    (∀ b, x.answer = .octets b → ∃ ns, api.refusal x.header x.request = none ∧
      api.call? x.request = some (.fetch ns (hashNew b)) ∧ OptedIn api ops ns ∧
        Arrived ops ns (hashNew b)) ∧
    ∀ ns h b, api.refusal x.header x.request = none →
      api.call? x.request = some (.bring ns h b) →
        (x.answer = .text ⟨404, ""⟩ ↔ ¬ OptedIn api ops ns) := by
  obtain ⟨evss, m, hm, hmrun, hs⟩ := exists_shows hrun
  obtain ⟨evs, m', hop, hevs, -⟩ := hs.step hstep
  constructor
  · intro b hb
    cases hop with
    | answered hallowed hcall _ hanswer =>
      rw [hb] at hanswer
      cases hanswer with
      | fetched ns h =>
        cases Run.singleton_iff.mp hevs with
        | call hcalled =>
          cases hcalled with
          | fetch href _ hdigest =>
            subst hdigest
            have hgranted := (mem_granted_iff hm hmrun).mp (m.refs_granted _ href)
            have harrived := arrived_of_mem_refer hm (Mailbox.referred hmrun href)
            exact ⟨ns, hallowed, hcall, hgranted, harrived⟩
    | senseless _ htext =>
      obtain ⟨response, htext⟩ := htext
      exact absurd (htext.symm.trans hb) nofun
    | refused _ htext => exact absurd (htext.symm.trans hb) nofun
  · intro ns h b hallowed hcall
    rw [← mem_granted_iff hm hmrun]
    cases hop with
    | answered _ hcall' _ hanswer =>
      obtain rfl := Option.some.inj (hcall'.symm.trans hcall)
      cases Run.singleton_iff.mp hevs with
      | call hcalled => exact hanswer.notFound_iff.trans hcalled.ungranted_iff
    | senseless hnone _ => exact absurd (hnone.symm.trans hcall) nofun
    | refused hrefused _ => exact absurd (hrefused.symm.trans hallowed) nofun

/-- What the requests of the sample are. -/
theorem call_sampleUpload :
    sampleApi.call? sampleUpload.request = some (.bring (idOf 1) zeroHash [0]) := by
  dsimp only [ControlApi.call?, sampleApi, sampleUpload, sampleExchange]
  rw [parseNamespaceHex_namespaceHex, parseNamespaceHex_namespaceHex]
  rfl

theorem call_sampleDownload :
    sampleApi.call? sampleDownload.request = some (.fetch (idOf 1) zeroHash) := by
  dsimp only [ControlApi.call?, sampleApi, sampleDownload, sampleExchange]
  rw [parseNamespaceHex_namespaceHex, parseNamespaceHex_namespaceHex]
  rfl

/-- The download of the fix was opted in to. -/
theorem opt_in_over_http_fix :
    OptedIn sampleApi sampleOps (idOf 1) ∧ Arrived sampleOps (idOf 1) zeroHash := by
  obtain ⟨ns, -, hcall, hgranted, harrived⟩ :=
    (opt_in_over_http (run_sampleOps passthroughDelivery noopWaker)
      (step_sampleDownload _ _)).1 [0] rfl
  rw [call_sampleDownload] at hcall
  obtain ⟨rfl, heq⟩ := Mailbox.Call.fetch.inj (Option.some.inj hcall)
  exact ⟨hgranted, heq ▸ harrived⟩

end TrailStash
