import Mathlib.Data.List.DropRight
import TrailStash.Subscriptions

/-!
# The control API

Request shapes, their validation, and the two handlers that reach the registry:
`POST /v1/namespaces` and `DELETE /v1/namespaces/{id}/subscription`.  A request is what the JSON
body deserialises to.

Two things are arguments.  `ticketNs` is the parser of read tickets, which belongs to iroh-docs: the
namespace of the ticket, or what is wrong with it.  `joined` is what came of opening the document,
which is the import and the joining of the gossip swarm, or nothing at all if there is a handle
already.
-/

set_option autoImplicit false

namespace TrailStash

/-! ## Strings -/

/-- Upper bound on an iroh-docs read-ticket string. -/
def maxTicketLen : Nat := 4096

/-- Upper bound on a push token. -/
def maxTokenLen : Nat := 512

/-- Minimum plausible ticket length; anything shorter is obviously junk. -/
def minTicketLen : Nat := 16

/-- `char::is_whitespace`: the characters with the Unicode property `White_Space`. -/
def isWhitespace (c : Char) : Bool :=
  ('\x09' ≤ c && c ≤ '\x0d') || c == ' ' || c == '\u0085' || c == '\u00a0' || c == '\u1680' ||
    ('\u2000' ≤ c && c ≤ '\u200a') || c == '\u2028' || c == '\u2029' || c == '\u202f' ||
    c == '\u205f' || c == '\u3000'

/-- `str::trim` -/
def trim (s : String) : String :=
  String.ofList ((s.toList.dropWhile isWhitespace).rdropWhile isWhitespace)

/-- Trimming goes no further the second time. -/
@[simp] theorem trim_trim (s : String) : trim (trim s) = trim s := by
  rw [trim, trim, String.toList_ofList]
  refine congrArg String.ofList ?_
  set l := s.toList.dropWhile isWhitespace with hl
  have hfix : (l.rdropWhile isWhitespace).dropWhile isWhitespace = l.rdropWhile isWhitespace := by
    rw [List.dropWhile_eq_self_iff]
    intro hpos
    -- what is left after the end is trimmed starts where the front was trimmed
    have hpre : l.rdropWhile isWhitespace <+: l := List.rdropWhile_prefix isWhitespace l
    have hstart := List.dropWhile_eq_self_iff.mp (List.dropWhile_idempotent isWhitespace s.toList)
    rw [hpre.getElem hpos]
    exact hstart _
  rw [hfix, List.rdropWhile_idempotent]

/-! ## Validation -/

/-- `POST /v1/namespaces` body. -/
structure RegisterRequest where
  /-- The read ticket. -/
  readTicket : String
  /-- The device token. -/
  pushToken : Option String
  /-- The wire platform string. -/
  platform : Option String

/-- A validated registration ready for the node to act on. -/
structure ValidRegister where
  /-- The read ticket. -/
  readTicket : String
  /-- The device to wake. -/
  subscription : Option PushSubscription

/-- Validation failures, each mapping to a `400 Bad Request`. -/
inductive ApiError
  | badTicket
  | badToken
  | badPlatform
  | incompletePush
  | badNamespace
  deriving DecidableEq

/-- The text of an error. -/
def ApiError.text : ApiError → String
  | .badTicket => "read ticket missing or malformed"
  | .badToken => "push token missing or too long"
  | .badPlatform => "platform must be 'apns' or 'fcm'"
  | .incompletePush => "push token and platform must be provided together"
  | .badNamespace => "namespace id must be 64 lowercase hex characters"

/-- Parse the wire platform string. -/
def parsePlatform (s : String) : Option Platform :=
  if s = "apns" then some .apns else if s = "fcm" then some .fcm else none

/-- Light structural guard on a ticket string: bounded length, base32-ish. -/
def looksLikeTicket (s : String) : Bool :=
  minTicketLen ≤ s.utf8ByteSize && s.utf8ByteSize ≤ maxTicketLen && s.toList.all Char.isAlphanum

/-- Validate a registration. -/
def validateRegister (req : RegisterRequest) : Except ApiError ValidRegister := do
  let ticket := trim req.readTicket
  if !looksLikeTicket ticket then
    throw .badTicket
  let subscription ← match req.pushToken, req.platform with
    | none, none => pure none
    | some token, some platform => do
      let token := trim token
      if token.isEmpty || decide (maxTokenLen < token.utf8ByteSize) then
        throw .badToken
      match parsePlatform platform with
      | none => throw .badPlatform
      | some platform => pure (some (PushSubscription.mk platform token))
    | _, _ => throw .incompletePush
  return ⟨ticket, subscription⟩

/-! ## Namespace ids on the wire -/

/-- Hex value of a single byte, rejecting uppercase. -/
def lowerHexVal (b : UInt8) : Option UInt8 :=
  if '0'.toUInt8 ≤ b && b ≤ '9'.toUInt8 then some (b - '0'.toUInt8)
  else if 'a'.toUInt8 ≤ b && b ≤ 'f'.toUInt8 then some (b - 'a'.toUInt8 + 10)
  else none

/-- The loop of `parse_namespace_hex`, pair by pair. -/
def parseHexPairs : Bytes → Option Bytes
  | hi :: lo :: s => do
    let hi ← lowerHexVal hi
    let lo ← lowerHexVal lo
    let out ← parseHexPairs s
    return ((hi <<< 4) ||| lo) :: out
  | _ => some []

theorem length_parseHexPairs {s out : Bytes} (h : parseHexPairs s = some out) :
    out.length = s.length / 2 := by
  induction s using parseHexPairs.induct generalizing out with
  | case1 hi lo s ih =>
    simp only [parseHexPairs, Option.bind_eq_bind, Option.bind_eq_some_iff] at h
    obtain ⟨hi', -, lo', -, rest, hrest, hout⟩ := h
    obtain rfl := Option.some.inj hout
    rw [List.length_cons, ih hrest, List.length_cons, List.length_cons]
    omega
  | case2 s hs =>
    rw [parseHexPairs] at h
    · obtain rfl := Option.some.inj h
      match s, hs with
      | [], _ => rfl
      | [_], _ => simp
      | hi :: lo :: s, hs => exact absurd rfl (hs hi lo s)
    · exact hs

/-- Parse a `{namespaceId}` path segment into raw bytes. -/
def parseNamespaceHex (s : Bytes) : Except ApiError NamespaceId :=
  if hs : s.length = 64 then
    match h : parseHexPairs s with
    | some out => .ok ⟨out.toArray, by rw [List.size_toArray, length_parseHexPairs h, hs]⟩
    | none => .error .badNamespace
  else .error .badNamespace

/-- Lowercase-hex a namespace id. -/
def namespaceHex (ns : NamespaceId) : Bytes := ns.toList.flatMap hexByte

theorem lowerHexVal_hexDigit {d : UInt8} (h : d < 16) : lowerHexVal (hexDigit d) = some d :=
  forall_nibble (P := fun d ↦ lowerHexVal (hexDigit d) = some d) (by decide) h

theorem nibbles (b : UInt8) :
    b >>> 4 < 16 ∧ b &&& 0xf < 16 ∧ ((b >>> 4) <<< 4) ||| (b &&& 0xf) = b :=
  forall_byte (P := fun b ↦ b >>> 4 < 16 ∧ b &&& 0xf < 16 ∧
    ((b >>> 4) <<< 4) ||| (b &&& 0xf) = b) (by decide +kernel) b

theorem parseHexPairs_hex (out : Bytes) : parseHexPairs (out.flatMap hexByte) = some out := by
  induction out with
  | nil => rfl
  | cons b out ih =>
    obtain ⟨hhi, hlo, hb⟩ := nibbles b
    rw [List.flatMap_cons, hexByte, List.cons_append, List.cons_append, List.nil_append,
      parseHexPairs, lowerHexVal_hexDigit hhi, lowerHexVal_hexDigit hlo, ih]
    exact congrArg (fun b ↦ some (b :: out)) hb

/-- A namespace id is read back from its hexadecimal form. -/
theorem parseNamespaceHex_namespaceHex (ns : NamespaceId) :
    parseNamespaceHex (namespaceHex ns) = .ok ns := by
  have hlen : (namespaceHex ns).length = 64 := by
    simp [namespaceHex, hexByte, List.length_flatMap]
  have hpairs : parseHexPairs (namespaceHex ns) = some ns.toList := parseHexPairs_hex ns.toList
  rw [parseNamespaceHex, dif_pos hlen]
  split
  · next out hout =>
    obtain rfl : ns.toList = out := Option.some.inj (hpairs.symm.trans hout)
    rfl
  · next hnone =>
    rw [hpairs] at hnone
    exact absurd hnone (by simp)

/-! ## Handlers -/

/-- What a handler answers: the status code and the body. -/
structure Response where
  /-- The status code. -/
  status : Nat
  /-- The body. -/
  body : String
  deriving DecidableEq

/-- Why a namespace could not be joined. -/
inductive JoinError
  /-- `import_namespace` failed. -/
  | importNamespace (e : String)
  /-- `start_sync` failed. -/
  | startSync (e : String)

/-- The text of the error. -/
def JoinError.text : JoinError → String
  | .importNamespace e => "import namespace capability: " ++ e
  | .startSync e => "join namespace without bootstrap peers: " ++ e

/-- `DELETE …/subscription` body. -/
structure UnsubscribeRequest where
  /-- The device token. -/
  pushToken : String
  /-- The wire platform string. -/
  platform : String

/-! The handlers are the same for the registry on its own and for the node that it is part of, and
are written for any state `σ`. -/

section

variable {σ : Type*} (ticketNs : String → Except String NamespaceId)

/-- `StashNode::register`.  The document is opened with the outcome `joined`, and `record` is what
the registration leaves. -/
def registerOn (joined : NamespaceId → Except JoinError Unit) (record : NamespaceId → σ) (state : σ)
    (readTicket : String) : Except String NamespaceId × σ :=
  match ticketNs readTicket with
  | .error e => (.error ("parse doc ticket: " ++ e), state)
  | .ok ns =>
    match joined ns with
    | .error e => (.error e.text, state)
    | .ok () => (.ok ns, record ns)

/-- `register_handler`, which calls `register`. -/
def registerHandlerOn
    (register : String → Option PushSubscription → Except String NamespaceId × σ) (state : σ)
    (req : RegisterRequest) : Response × σ :=
  match validateRegister req with
  | .error e => (⟨400, e.text⟩, state)
  | .ok valid =>
    match register valid.readTicket valid.subscription with
    | (.ok _, state) => (⟨201, ""⟩, state)
    -- a malformed ticket that slipped past the light guard is the client's fault
    | (.error msg, state) =>
      (⟨if "parse doc ticket".toList <:+: msg.toList then 400 else 502, msg⟩, state)

/-- `unsubscribe_handler`, which calls `unsubscribe`. -/
def unsubscribeHandlerOn (unsubscribe : NamespaceId → PushSubscription → Bool × σ) (state : σ)
    (id : Bytes) (req : UnsubscribeRequest) : Response × σ :=
  match parseNamespaceHex id with
  | .error e => (⟨400, e.text⟩, state)
  | .ok ns =>
    match parsePlatform req.platform with
    | none => (⟨400, "platform must be 'apns' or 'fcm'"⟩, state)
    -- 204 whether or not it existed
    | some platform => (⟨204, ""⟩, (unsubscribe ns ⟨platform, req.pushToken⟩).2)

/-- `StashNode::register`, as far as the registry is concerned. -/
def registerNode (joined : Except JoinError Unit) (g : NamespaceRegistry) (readTicket : String)
    (subscription : Option PushSubscription) : Except String NamespaceId × NamespaceRegistry :=
  registerOn ticketNs (fun _ ↦ joined) (fun ns ↦ (g.register ns subscription).2) g readTicket

/-- `POST /v1/namespaces` -/
def registerHandler (joined : Except JoinError Unit) (g : NamespaceRegistry)
    (req : RegisterRequest) : Response × NamespaceRegistry :=
  registerHandlerOn (registerNode ticketNs joined g) g req

/-- `DELETE /v1/namespaces/{id}/subscription` -/
def unsubscribeHandler (g : NamespaceRegistry) (id : Bytes) (req : UnsubscribeRequest) :
    Response × NamespaceRegistry :=
  unsubscribeHandlerOn g.unsubscribe g id req

end

end TrailStash
