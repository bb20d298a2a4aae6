import TrailStash.Api
import TrailStash.LastCall

/-!
# Subscribing and unsubscribing over the wire

A device subscribes with `POST /v1/namespaces` and unsubscribes with `DELETE …/subscription`, giving
the same two strings.  The first path trims the token before it records it, the second takes it as
it comes, and the registry compares tokens for equality.  So the second undoes the first exactly
when there is nothing to trim (`unsubscribe_undoes_iff`); otherwise it finds nothing to remove,
because no token with padding is ever recorded, and answers as if it had.
-/

set_option autoImplicit false

namespace TrailStash

open NamespaceRegistry

/-- A call of the control API that reaches for the registry. -/
inductive ApiCall
  /-- `POST /v1/namespaces`, and what came of opening the document -/
  | register (joined : Except JoinError Unit) (req : RegisterRequest)
  /-- `DELETE /v1/namespaces/{id}/subscription` -/
  | unsubscribe (id : Bytes) (req : UnsubscribeRequest)

variable (ticketNs : String → Except String NamespaceId)

/-- Serve a call. -/
def serve (g : NamespaceRegistry) : ApiCall → Response × NamespaceRegistry
  | .register joined req => registerHandler ticketNs joined g req
  | .unsubscribe id req => unsubscribeHandler g id req

/-- The registry after a sequence of calls of the control API. -/
def served (calls : List ApiCall) : NamespaceRegistry :=
  calls.foldl (fun g c ↦ (serve ticketNs g c).2) .new

/-- The call of the registry that a call of the API comes to, if it comes that far. -/
def registryCall : ApiCall → Option RegistryCall
  | .register joined req =>
    match validateRegister req with
    | .error _ => none
    | .ok valid =>
      match ticketNs valid.readTicket, joined with
      | .ok ns, .ok () => some (.register ns valid.subscription)
      | _, _ => none
  | .unsubscribe id req =>
    match parseNamespaceHex id, parsePlatform req.platform with
    | .ok ns, some platform => some (.unsubscribe ns ⟨platform, req.pushToken⟩)
    | _, _ => none

variable {ticketNs} {g : NamespaceRegistry} {c : ApiCall} {calls : List ApiCall}
  {joined : Except JoinError Unit} {req : RegisterRequest} {valid : ValidRegister}
  {ns ns' : NamespaceId} {sub : PushSubscription} {ticket token platform : String}

/-- **A call of the API is at most one call of the registry.** -/
theorem snd_serve : (serve ticketNs g c).2 = (registryCall ticketNs c).elim g g.apply := by
  cases c with
  | register joined req =>
    dsimp only [serve, registerHandler, registerHandlerOn, registryCall, registerNode, registerOn]
    cases validateRegister req with
    | error e => rfl
    | ok valid =>
      dsimp only
      cases ticketNs valid.readTicket <;> cases joined <;> rfl
  | unsubscribe id req =>
    dsimp only [serve, unsubscribeHandler, unsubscribeHandlerOn, registryCall]
    cases parseNamespaceHex id <;> cases parsePlatform req.platform <;> rfl

/-! ## What validation accepts -/

/-- A text that passes the guard on tickets.  Whether it is a ticket, and of which namespace, is up
to the parser, which is an argument here; iroh's would refuse this one. -/
def sampleTicket : String := "docaaaabbbbccccdddd1234"

/-- **What validation accepts**: a ticket on its own, or one with a token and a platform, and then
the token is recorded without its padding. -/
theorem validateRegister_cases (h : validateRegister req = .ok valid) :
    (req.pushToken = none ∧ req.platform = none ∧ valid.subscription = none) ∨
    ∃ token platform p, req.pushToken = some token ∧ req.platform = some platform ∧
      parsePlatform platform = some p ∧ valid.subscription = some ⟨p, trim token⟩ := by
  obtain ⟨ticket, pushToken, platform⟩ := req
  simp only [validateRegister, bind, Except.bind, pure, Except.pure, throw, throwThe,
    MonadExceptOf.throw] at h
  split at h
  · exact absurd h (by simp)
  · cases pushToken with
    | none =>
      cases platform with
      | none =>
        obtain rfl := Except.ok.inj h
        exact Or.inl ⟨rfl, rfl, rfl⟩
      | some platform => exact absurd h (by simp)
    | some token =>
      cases platform with
      | none => exact absurd h (by simp)
      | some platform =>
        dsimp only at h
        split at h
        · exact absurd h (by simp)
        · split at h
          · exact absurd h (by simp)
          · next p hp =>
            obtain rfl := Except.ok.inj h
            exact Or.inr ⟨token, platform, p, rfl, rfl, hp, rfl⟩

/-- A recorded token has no padding, whatever was sent. -/
theorem trim_of_validateRegister (h : validateRegister req = .ok valid)
    (hsub : valid.subscription = some sub) : trim sub.token = sub.token := by
  rcases validateRegister_cases h with ⟨-, -, hnone⟩ | ⟨token, platform, p, -, -, -, hsome⟩
  · exact absurd (hnone.symm.trans hsub) (by simp)
  · obtain rfl := Option.some.inj (hsome.symm.trans hsub)
    exact trim_trim token

/-- A request among the calls was accepted with this subscription. -/
def Accepted (calls : List ApiCall) (sub : PushSubscription) : Prop :=
  ∃ joined req valid, ApiCall.register joined req ∈ calls ∧ validateRegister req = .ok valid ∧
    valid.subscription = some sub

theorem Accepted.mono {calls' : List ApiCall} (h : Accepted calls sub)
    (hsub : ∀ c ∈ calls, c ∈ calls') : Accepted calls' sub := by
  obtain ⟨joined, req, valid, hmem, hvalid⟩ := h
  exact ⟨joined, req, valid, hsub _ hmem, hvalid⟩

theorem accepted_of_registryCall
    (h : registryCall ticketNs c = some (.register ns (some sub))) : Accepted [c] sub := by
  cases c with
  | register joined req =>
    dsimp only [registryCall] at h
    split at h
    · exact absurd h (by simp)
    · next valid hvalid =>
      split at h
      · obtain ⟨-, hsub⟩ := RegistryCall.register.inj (Option.some.inj h)
        exact ⟨_, req, valid, List.mem_singleton_self _, hvalid, hsub⟩
      · exact absurd h (by simp)
  | unsubscribe id req =>
    dsimp only [registryCall] at h
    split at h <;> simp at h

theorem served_snoc : served ticketNs (calls ++ [c]) =
    (serve ticketNs (served ticketNs calls) c).2 := by
  rw [served, List.foldl_append, List.foldl_cons, List.foldl_nil]
  rfl

/-- **Every recorded subscription was accepted** in some request. -/
theorem accepted_of_served (h : (served ticketNs calls).subs.contains ns sub = true) :
    Accepted calls sub := by
  induction calls using List.reverseRecOn with
  | nil => exact absurd h (by simp [served, new])
  | append_singleton calls c ih =>
    have hbefore : (served ticketNs calls).subs.contains ns sub = true →
        Accepted (calls ++ [c]) sub := fun h ↦
      (ih h).mono fun _ hmem ↦ List.mem_append_left [c] hmem
    rw [served_snoc, snd_serve] at h
    cases hc : registryCall ticketNs c with
    | none =>
      rw [hc] at h
      exact hbefore h
    | some call =>
      rw [hc, Option.elim_some, contains_apply] at h
      split at h
      · next hnames =>
        -- what is added is what was asked for
        cases call with
        | register ns' sub' =>
          obtain ⟨-, rfl⟩ : ns' = ns ∧ sub' = some sub := by
            simpa [RegistryCall.names] using hnames
          exact (accepted_of_registryCall hc).mono fun _ hmem ↦ List.mem_append_right calls hmem
        | unsubscribe ns' sub' => exact absurd h (by simp [RegistryCall.isRegister])
      · exact hbefore h

/-- No recorded token has padding. -/
def TokensTrimmed (g : NamespaceRegistry) : Prop :=
  ∀ ns sub, g.subs.contains ns sub = true → trim sub.token = sub.token

theorem tokensTrimmed_served (ticketNs : String → Except String NamespaceId)
    (calls : List ApiCall) : TokensTrimmed (served ticketNs calls) := by
  intro ns sub h
  obtain ⟨_, _, _, -, hvalid, hsub⟩ := accepted_of_served h
  exact trim_of_validateRegister hvalid hsub

/-! ## The two paths -/

/-- The registration of a validated request. -/
theorem registerHandler_created (g : NamespaceRegistry) (hvalid : validateRegister req = .ok valid)
    (hns : ticketNs valid.readTicket = .ok ns) :
    registerHandler ticketNs (.ok ()) g req =
      (⟨201, ""⟩, (g.register ns valid.subscription).2) := by
  dsimp only [registerHandler, registerHandlerOn]
  rw [hvalid]
  dsimp only [registerNode, registerOn]
  rw [hns]

/-- The removal of a subscription. -/
theorem unsubscribeHandler_noContent {p : Platform} (hp : parsePlatform platform = some p) :
    unsubscribeHandler g (namespaceHex ns) ⟨token, platform⟩ =
      (⟨204, ""⟩, (g.unsubscribe ns ⟨p, token⟩).2) := by
  dsimp only [unsubscribeHandler, unsubscribeHandlerOn]
  rw [parseNamespaceHex_namespaceHex, hp]

/-- Between two registries, the subscription is gone and nothing else has changed. -/
def Undone (ns : NamespaceId) (sub : PushSubscription) (order : IterOrder PushSubscription)
    (posted deleted : NamespaceRegistry) : Prop :=
  sub ∉ deleted.wakeTargets ns order ∧
  ∀ ns' sub', ¬ (ns' = ns ∧ sub' = sub) →
    (sub' ∈ deleted.wakeTargets ns' order ↔ sub' ∈ posted.wakeTargets ns' order)

/-- Removing a subscription undoes it. -/
theorem undone_unsubscribe {order : IterOrder PushSubscription} :
    Undone ns sub order g (g.unsubscribe ns sub).2 := by
  constructor
  · rw [mem_wakeTargets, unsubscribe, SetMap.contains_remove]
    exact fun h ↦ h.2 ⟨rfl, rfl⟩
  · intro ns' sub' hne
    rw [mem_wakeTargets, mem_wakeTargets, unsubscribe, SetMap.contains_remove]
    exact and_iff_left hne

/-- Removing a subscription with padding removes nothing. -/
theorem TokensTrimmed.unsubscribe_padded {p : Platform} (hg : TokensTrimmed g)
    (hpad : trim token ≠ token) : (g.unsubscribe ns ⟨p, token⟩).2 = g := by
  have habsent : g.subs.contains ns ⟨p, token⟩ = false :=
    Bool.eq_false_iff.mpr fun h ↦ hpad (hg ns ⟨p, token⟩ h)
  rw [unsubscribe, SetMap.remove_of_not_contains habsent]

/-- **Unsubscribing undoes subscribing exactly if the token has no padding.**  Whatever calls were
served before: a registration with a token and a platform that is accepted and carried out records
a subscription, and the removal with the same token and platform is answered as carried out; but
it takes the subscription away, and leaves every other one, if and only if trimming the token
does nothing. -/
theorem unsubscribe_undoes_iff (calls : List ApiCall) (order : IterOrder PushSubscription)
    (hvalid : validateRegister ⟨ticket, some token, some platform⟩ = .ok valid)
    (hns : ticketNs valid.readTicket = .ok ns) :
    ∃ sub posted deleted, valid.subscription = some sub ∧
      registerHandler ticketNs (.ok ()) (served ticketNs calls)
        ⟨ticket, some token, some platform⟩ = (⟨201, ""⟩, posted) ∧
      unsubscribeHandler posted (namespaceHex ns) ⟨token, platform⟩ = (⟨204, ""⟩, deleted) ∧
      sub ∈ posted.wakeTargets ns order ∧
      (Undone ns sub order posted deleted ↔ trim token = token) := by
  rcases validateRegister_cases hvalid with ⟨hnone, -⟩ | ⟨_, _, p, htoken, hplatform, hp, hsub⟩
  · exact absurd hnone (by simp)
  obtain rfl := Option.some.inj htoken
  obtain rfl := Option.some.inj hplatform
  have hposted := registerHandler_created (served ticketNs calls) hvalid hns
  set posted := ((served ticketNs calls).register ns valid.subscription).2 with hregister
  have htrimmed : TokensTrimmed posted := by
    have hserved := tokensTrimmed_served ticketNs
      (calls ++ [.register (.ok ()) ⟨ticket, some token, some platform⟩])
    rwa [served_snoc, serve, hposted] at hserved
  have hmem : ⟨p, trim token⟩ ∈ posted.wakeTargets ns order := by
    rw [mem_wakeTargets, hregister, hsub, register, SetMap.contains_add]
    exact Or.inl ⟨rfl, rfl⟩
  refine ⟨⟨p, trim token⟩, posted, _, hsub, hposted, unsubscribeHandler_noContent hp, hmem, ?_⟩
  constructor
  · intro hundone
    by_contra hpad
    rw [htrimmed.unsubscribe_padded hpad] at hundone
    exact hundone.1 hmem
  · intro htrim
    rw [htrim]
    exact undone_unsubscribe

/-- A token without padding, and the platform `apns`.  Nothing depends on what the ticket is: here
the parser takes every text for a ticket of the same namespace. -/
theorem unsubscribe_undoes_bare : Undone (idOf 1) ⟨.apns, "tok"⟩ (.any _)
    (registerHandler (fun _ ↦ .ok (idOf 1)) (.ok ()) .new
      ⟨sampleTicket, some "tok", some "apns"⟩).2
    (unsubscribeHandler (registerHandler (fun _ ↦ .ok (idOf 1)) (.ok ()) .new
      ⟨sampleTicket, some "tok", some "apns"⟩).2 (namespaceHex (idOf 1))
        ⟨"tok", "apns"⟩).2 := by
  have hvalid : validateRegister ⟨sampleTicket, some "tok", some "apns"⟩ =
      .ok ⟨sampleTicket, some ⟨.apns, "tok"⟩⟩ := by rfl
  obtain ⟨sub, posted, deleted, hsub, hposted, hdeleted, -, hiff⟩ :=
    @unsubscribe_undoes_iff (fun _ ↦ .ok (idOf 1)) _ _ _ _ _ [] (.any _) hvalid rfl
  obtain rfl := Option.some.inj hsub
  rw [served, List.foldl_nil] at hposted
  rw [hposted, hdeleted]
  exact hiff.mpr (by decide)

/-- **A device that pads its token cannot unsubscribe.**  The ticket and its parser are made up; by
`unsubscribe_undoes_iff` any others would do. -/
theorem exists_undying : ¬ ∀ (ticketNs : String → Except String NamespaceId) (calls : List ApiCall)
    (order : IterOrder PushSubscription) (ticket token platform : String) (valid : ValidRegister)
    (ns : NamespaceId) (sub : PushSubscription),
    validateRegister ⟨ticket, some token, some platform⟩ = .ok valid →
    ticketNs valid.readTicket = .ok ns → valid.subscription = some sub →
    let posted := (registerHandler ticketNs (.ok ()) (served ticketNs calls)
      ⟨ticket, some token, some platform⟩).2
    Undone ns sub order posted
      (unsubscribeHandler posted (namespaceHex ns) ⟨token, platform⟩).2 := by
  intro hall
  have hvalid : validateRegister ⟨sampleTicket, some " tok ", some "apns"⟩ =
      .ok ⟨sampleTicket, some ⟨.apns, "tok"⟩⟩ := by rfl
  have hgone := (hall (fun _ ↦ .ok (idOf 1)) [] (.any _) _ _ _ _ (idOf 1) _ hvalid rfl rfl).1
  refine hgone (mem_wakeTargets.mpr ?_)
  rw [registerHandler_created _ hvalid rfl, unsubscribeHandler_noContent (p := .apns) (by decide),
    unsubscribe, SetMap.contains_remove, register, SetMap.contains_add]
  exact ⟨Or.inl ⟨rfl, rfl⟩, by decide⟩

end TrailStash
