import TrailStash.Lib.WebUrl
import TrailStash.Unsubscribe
import TrailStash.Wire

/-!
# Silent pushes

A wake becomes one request for each device, to the push service of its platform.  An FCM request
carries the device token in its body.  An APNs request carries it in its URL, behind the last slash
and as it is.

Validation bounds the length of a token and says nothing of its characters.  `apns_endpoint_iff` is
what that comes to: the URL is the endpoint of the device, as it is written and as an HTTP client
reads it, exactly if the token can stand for itself as the last segment of a path, and otherwise the
request, with the operator's credential in it, goes somewhere else.  `wake_served` is the same for
every push of a stash that has served any sequence of requests.
-/

set_option autoImplicit false

namespace TrailStash

open Urls NamespaceRegistry

/-! ## Requests -/

/-- A JSON value, as far as pushes have them. -/
inductive Value
  /-- A number. -/
  | number (n : Nat)
  /-- A string. -/
  | string (s : String)
  /-- The members of an object. -/
  | object (members : List (String × Value))

/-- `PUSH_TYPE` -/
def pushType : String := "trail-sync"

/-- A push request minus the `Authorization` header, which the sender adds. -/
structure PushRequest where
  /-- The URL. -/
  url : String
  /-- The headers. -/
  headers : List (String × String)
  /-- The body. -/
  body : Value

/-- `namespace_hex`, as the `String` it returns. -/
def namespaceHexText (ns : NamespaceId) : String :=
  String.ofList ((namespaceHex ns).map fun b ↦ Char.ofNat b.toNat)

/-- Build an APNs background-push request for one device token. -/
def apnsRequest (host bundleId deviceToken : String) (ns : NamespaceId) : PushRequest where
  url := "https://" ++ host ++ "/3/device/" ++ deviceToken
  headers := [("apns-push-type", "background"), ("apns-priority", "5"), ("apns-topic", bundleId),
    -- no store-and-retry: a later sync catches up
    ("apns-expiration", "0")]
  body := .object [("aps", .object [("content-available", .number 1)]), ("type", .string pushType),
    ("ns", .string (namespaceHexText ns))]

/-- Build an FCM data-only message for one device token. -/
def fcmRequest (projectId deviceToken : String) (ns : NamespaceId) : PushRequest where
  url := "https://fcm.googleapis.com/v1/projects/" ++ projectId ++ "/messages:send"
  headers := []
  body := .object [("message", .object [("token", .string deviceToken),
    ("data", .object [("type", .string pushType), ("ns", .string (namespaceHexText ns))]),
    ("android", .object [("priority", .string "high")]),
    ("apns", .object [
      ("headers", .object [("apns-push-type", .string "background"),
        ("apns-priority", .string "5")]),
      ("payload", .object [("aps", .object [("content-available", .number 1)])])])])]

/-- Static per-platform routing config for the sender. -/
structure PushConfig where
  /-- The APNs host. -/
  apnsHost : String
  /-- App bundle id, sent as `apns-topic`. -/
  bundleId : String
  /-- Firebase project id. -/
  fcmProjectId : String

/-- What the credential source answers. -/
structure PushCredentials where
  /-- The bearer for APNs. -/
  apnsBearer : Option String
  /-- The bearer for FCM. -/
  fcmBearer : Option String

/-- The waker that pushes. -/
structure HttpPushWaker where
  /-- The routing. -/
  config : PushConfig
  /-- The credentials. -/
  creds : PushCredentials

namespace HttpPushWaker

/-- The request for one device and the bearer it is sent with. -/
def build (waker : HttpPushWaker) (ns : NamespaceId) (sub : PushSubscription) :
    Option (PushRequest × String) :=
  match sub.platform with
  | .apns => waker.creds.apnsBearer.map fun bearer ↦
    (apnsRequest waker.config.apnsHost waker.config.bundleId sub.token ns, bearer)
  | .fcm => waker.creds.fcmBearer.map fun bearer ↦
    (fcmRequest waker.config.fcmProjectId sub.token ns, bearer)

/-- What is sent to wake the targets: without a credential, nothing. -/
def wake (waker : HttpPushWaker) (ns : NamespaceId) (targets : List PushSubscription) :
    List (PushRequest × String) := targets.filterMap (waker.build ns)

theorem mem_wake {waker : HttpPushWaker} {ns : NamespaceId} {targets : List PushSubscription}
    {sent : PushRequest × String} :
    sent ∈ waker.wake ns targets ↔ ∃ sub ∈ targets, waker.build ns sub = some sent :=
  List.mem_filterMap

end HttpPushWaker

/-! ## The namespace of a push -/

/-- An ASCII byte is the code of its character. -/
theorem charOfByte_ascii {b : UInt8} (h : b < 0x80) : (Char.ofNat b.toNat).toNat < 0x80 ∧
    UInt8.ofNat (Char.ofNat b.toNat).toNat = b :=
  forall_byte (P := fun b ↦ b < 0x80 → (Char.ofNat b.toNat).toNat < 0x80 ∧
    UInt8.ofNat (Char.ofNat b.toNat).toNat = b) (by decide +kernel) b h

/-- **A push names its namespace**: what it says of it is read back. -/
theorem parseNamespaceHex_namespaceHexText (ns : NamespaceId) :
    parseNamespaceHex (asBytes (namespaceHexText ns)) = .ok ns := by
  have hdigits := (exists_parseNamespaceHex_iff.mp ⟨ns, parseNamespaceHex_namespaceHex ns⟩).2
  have hcode : ∀ b ∈ namespaceHex ns, (Char.ofNat b.toNat).toNat < 0x80 ∧
      UInt8.ofNat (Char.ofNat b.toNat).toNat = b := fun b hb ↦
    charOfByte_ascii (lt_of_isLowerHex (List.all_eq_true.mp hdigits b hb))
  have htext : (namespaceHexText ns).toList =
      (namespaceHex ns).map fun b ↦ Char.ofNat b.toNat := String.toList_ofList
  have hascii : ∀ c ∈ (namespaceHexText ns).toList, c.toNat < 0x80 := by
    rw [htext, List.forall_mem_map]
    exact fun b hb ↦ (hcode b hb).1
  have hbytes : asBytes (namespaceHexText ns) = namespaceHex ns := by
    rw [asBytes_ascii hascii, htext, List.map_map]
    exact (List.map_congr_left fun b hb ↦ (hcode b hb).2).trans (List.map_id _)
  rw [hbytes, parseNamespaceHex_namespaceHex]

/-! ## Endpoints -/

/-- The URL is the endpoint of a device: the scheme, the host, the three segments, and nothing
else. -/
structure IsEndpoint (u : Url) (host device : String) : Prop where
  /-- It is an `https` URL. -/
  scheme : u.scheme = "https".toList
  /-- At the host. -/
  authority : u.authority = host.toList
  /-- Its path names the device. -/
  segments : u.segments = ["3".toList, "device".toList, device.toList]
  /-- It has no query. -/
  query : u.query = none
  /-- Nor a fragment. -/
  fragment : u.fragment = none
  /-- Every segment stands for itself. -/
  noDots : ∀ s ∈ u.segments, ¬ IsDots s

/-- A request to this URL goes to the device: the URL is the endpoint of the device as it is
written, and still is when the client that sends the request has read it. -/
def Addresses (url host device : String) : Prop :=
  (∃ u, parse url.toList = some u ∧ IsEndpoint u host device) ∧
    ∃ u, parseWeb url.toList = some u ∧ IsEndpoint u host device

variable {host bundleId device bearer : String} {ns : NamespaceId} {waker : HttpPushWaker}
  {push : PushRequest}

/-- What is read as the endpoint has a host and a token that a client takes as they are. -/
theorem IsEndpoint.of_parseWeb {u : Url} {s : List Char} (hu : IsEndpoint u host device)
    (hs : parseWeb s = some u) : IsHost host.toList ∧ IsSegment device.toList := by
  obtain ⟨hplain, hsegments⟩ := webPlain_of_parseWeb hs
  have htail : u.tail = [] := by rw [Url.tail, hu.query, hu.fragment]; rfl
  have hlast : u.segments.getLast? = some device.toList := by rw [hu.segments]; rfl
  obtain ⟨hdevice, hdots⟩ := hsegments _ (List.mem_of_getLast? hlast)
  rw [hu.authority] at hplain
  refine ⟨⟨fun hnil ↦ ?_, hplain⟩, hdevice, hdots,
    fun c hc ↦ isControl_of_parseWeb hs htail hlast hc⟩
  have hblank := segments_of_parseWeb hs (hu.authority.trans hnil)
  rw [hu.segments] at hblank
  simp at hblank

/-- The endpoint of a device whose token can stand for itself. -/
theorem exists_endpoint (hhost : IsHost host.toList) (hdevice : IsSegment device.toList) :
    ∃ u, u.text = (apnsRequest host bundleId device ns).url.toList ∧ parseWeb u.text = some u ∧
      IsEndpoint u host device := by
  have hsegments : ∀ s ∈ ["3".toList, "device".toList, device.toList],
      WebPlain s ∧ ¬ IsWebDots s := List.forall_mem_cons.mpr ⟨by decide, List.forall_mem_cons.mpr
    ⟨by decide, List.forall_mem_singleton.mpr ⟨hdevice.1, hdevice.2.1⟩⟩⟩
  let u : Url := {
    scheme := "https".toList
    authority := host.toList
    segments := ["3".toList, "device".toList, device.toList]
    query := none
    fragment := none
    isScheme_scheme := by decide
    plain_authority := hhost.2.plain
    plain_segments := fun s hs ↦ (hsegments s hs).1.plain
    plain_query := nofun }
  have htext : u.text = (apnsRequest host bundleId device ns).url.toList := by
    simp [u, Url.text, Url.path, Url.tail, apnsRequest]
  refine ⟨u, htext, parseWeb_text hhost (List.cons_ne_nil _ _) hsegments ?_ rfl,
    rfl, rfl, rfl, rfl, rfl, fun s hs hdots ↦ (hsegments s hs).2 hdots.isWebDots⟩
  rintro _ ⟨rfl⟩
  exact hdevice.2.2

/-- **Where an APNs request goes**: to the device exactly if host and token can stand for
themselves. -/
theorem addresses_apnsRequest_iff :
    Addresses (apnsRequest host bundleId device ns).url host device ↔
      IsHost host.toList ∧ IsSegment device.toList := by
  constructor
  · rintro ⟨-, u, hs, hu⟩
    exact hu.of_parseWeb hs
  · rintro ⟨hhost, hdevice⟩
    obtain ⟨u, htext, hweb, hu⟩ := exists_endpoint hhost hdevice
    exact ⟨⟨u, parse_eq_some_iff.mpr htext, hu⟩, u, htext ▸ hweb, hu⟩

/-- Tokens that climb out of their place in the path: as it is written, and as a client reads it. -/
example : (parse (apnsRequest "host" "app" "../../2" (idOf 1)).url.toList).map Url.segments =
    some (["3", "device", "..", "..", "2"].map String.toList) := by decide

example : (parseWeb (apnsRequest "host" "app" "%2e%2E\\2" (idOf 1)).url.toList).map Url.segments =
    some (["3", "2"].map String.toList) := by decide

/-- **Every push was asked for**, by a request that was accepted with its device; and if it is for
APNs, it goes to that device exactly if host and token can stand for themselves. -/
theorem wake_served {ticketNs : String → Except String NamespaceId} {calls : List ApiCall}
    {order : IterOrder PushSubscription}
    (hsent : (push, bearer) ∈ waker.wake ns ((served ticketNs calls).wakeTargets ns order)) :
    ∃ sub, Accepted calls sub ∧ waker.build ns sub = some (push, bearer) ∧
      (sub.platform = .apns → (Addresses push.url waker.config.apnsHost sub.token ↔
        IsHost waker.config.apnsHost.toList ∧ IsSegment sub.token.toList)) := by
  obtain ⟨sub, hsub, hbuild⟩ := HttpPushWaker.mem_wake.mp hsent
  refine ⟨sub, accepted_of_served (mem_wakeTargets.mp hsub), hbuild, fun hplatform ↦ ?_⟩
  rw [HttpPushWaker.build, hplatform] at hbuild
  obtain ⟨_, -, heq⟩ := Option.map_eq_some_iff.mp hbuild
  obtain ⟨rfl, -⟩ := Prod.mk.inj heq
  exact addresses_apnsRequest_iff

end TrailStash
