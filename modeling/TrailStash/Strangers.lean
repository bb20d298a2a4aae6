import TrailStash.Service

/-!
# Among strangers

One stash serves many groups of people who do not know each other, and all of them have the same
key.  So what one group does must not matter to another.  It does in one way, which is meant: blobs
are shared, and content that somebody brings is there for everyone who refers to it.

`served_apart` says that this is all, in runs of whole operations (`ServeStep`).  Take any set of
namespaces.  To their clients the server is a mailbox in which nobody calls but themselves: a
request for another namespace is nothing to them, or content received; no record but their own is
referred to; and their grants, devices and references are what their own calls and records have made
them.  The health report is left out, because it is about everything.
-/

set_option autoImplicit false

namespace TrailStash

open Runs

variable {hashNew : Bytes → ContentHash} {api : ControlApi} {d : DeliveryService} {waker : Waker}
  {policy : RetentionPolicy} {s t : Server hashNew} {op : ServerOp hashNew}
  {ops : List (ServerOp hashNew)} {evs : List MailboxEvent} {evss : List (List MailboxEvent)}
  {N : Set NamespaceId}

/-- What an operation of the server is to the clients of these namespaces. -/
inductive AmountsToFor (api : ControlApi) (N : Set NamespaceId) :
    ServerOp hashNew → List MailboxEvent → Prop
  | answered {x : Exchange} {c : MailboxCall} {r : Mailbox.Reply Bytes} (hc : c.IsAbout N)
      (hallowed : api.refusal x.header x.request = none) (hcall : api.call? x.request = some c)
      (hfails : r = .failed → x.outside.Fails c) (hanswer : Renders c r x.answer) :
      AmountsToFor api N (.answers x) [.call c r]
  | brought {x : Exchange} {ns : NamespaceId} {h : ContentHash} {b : Bytes} (hns : ns ∉ N)
      (hdoes : x.Does api (.bring ns h b)) : AmountsToFor api N (.answers x) [.receive {h}]
  | ignored {x : Exchange} (hnot : ∀ c, api.refusal x.header x.request = none →
      api.call? x.request = some c → ¬ c.IsAbout N) : AmountsToFor api N (.answers x) []
  | arrived {ns : NamespaceId} {e : Entry} {replaced : Entry → Bool} {deliveredBy : EndpointId}
      {present : Bool} {now : Nat} (hns : ns ∈ N) (ks ks' : Set ContentHash) :
      AmountsToFor api N (.background (.op (.arrive ns e replaced deliveredBy present now)))
        [.refer ns e.contentHash, .receive ks, .receive ks']
  | arrivedElsewhere {ns : NamespaceId} {e : Entry} {replaced : Entry → Bool}
      {deliveredBy : EndpointId} {present : Bool} {now : Nat} (hns : ns ∉ N)
      (ks : Set ContentHash) :
      AmountsToFor api N (.background (.op (.arrive ns e replaced deliveredBy present now)))
        [.receive ks]
  | settled {now : Nat} {order : IterOrder ContentHash} {has : ContentHash → Bool}
      {fetch : ∀ h, Option {bytes // hashNew bytes = h}} (ks : Set ContentHash) :
      AmountsToFor api N (.background (.op (.settle now order has fetch))) [.receive ks]
  | swept {now : Nat} {faulty : NamespaceId → Bool} {nsOrder : IterOrder NamespaceId}
      {order : IterOrder ContentHash} (rs : Set (NamespaceId × ContentHash)) :
      AmountsToFor api N (.background (.op (.prune now faulty nsOrder order))) [.release rs]
  | landed (bytes : Bytes) : AmountsToFor api N (.background (.land bytes)) []
  | collected (spared : ContentHash → Bool) : AmountsToFor api N (.background (.collect spared)) []
  | woke (w : Wake) (order : IterOrder PushSubscription) (sent : List (PushRequest × String)) :
      AmountsToFor api N (.wakes w order sent) []

/-- What these clients see of a single event. -/
theorem seen_singleton {ev : MailboxEvent} (hseen : List.Forall₂ (Mailbox.Seen N) [ev] evss) :
    Mailbox.Seen N ev evss.flatten := by
  cases hseen with
  | cons hev hrest =>
    cases hrest
    rwa [List.flatten_singleton]

/-- What an operation is to these clients is what they see of what it is to everybody. -/
theorem AmountsTo.seen (hop : AmountsTo api op evs)
    (hseen : List.Forall₂ (Mailbox.Seen N) evs evss) : AmountsToFor api N op evss.flatten := by
  cases hop with
  | @answered x c r hallowed hcall hfails hanswer =>
    have hev := seen_singleton hseen
    generalize evss.flatten = evs at hev ⊢
    cases hev with
    | own r hc => exact .answered hc hallowed hcall hfails hanswer
    | brought h b hns => exact .brought hns ⟨hallowed, hcall, hanswer⟩
    | foreign hc =>
      exact .ignored fun c' _ hcall' ↦ Option.some.inj (hcall.symm.trans hcall') ▸ hc
  | senseless hnone =>
    cases hseen
    exact .ignored fun c _ hcall ↦ absurd (hnone.symm.trans hcall) nofun
  | refused hrefused =>
    cases hseen
    exact .ignored fun c hallowed _ ↦ absurd (hrefused.symm.trans hallowed) nofun
  | arrived ks =>
    cases hseen with
    | cons hev hrest =>
      have hreceived := seen_singleton hrest
      rw [List.flatten_cons]
      generalize List.flatten _ = evs' at hreceived ⊢
      cases hreceived
      cases hev with
      | refer hns _ => exact .arrived hns _ ks
      | unrefer _ hns => exact .arrivedElsewhere hns ks
  | settled ks =>
    have hev := seen_singleton hseen
    generalize evss.flatten = evs at hev ⊢
    cases hev
    exact .settled ks
  | swept rs =>
    have hev := seen_singleton hseen
    generalize evss.flatten = evs at hev ⊢
    cases hev
    exact .swept rs
  | landed bytes =>
    cases hseen
    exact .landed bytes
  | collected spared =>
    cases hseen
    exact .collected spared
  | woke w order sent =>
    cases hseen
    exact .woke w order sent

/-- Every step of the server is matched by steps of the mailbox of these clients. -/
theorem apart_step {a : Mailbox NamespaceId ContentHash PushSubscription}
    (ha : ∃ m, Shows s m ∧ a = m.only N) (hstep : ServeStep api d waker s op t) :
    ∃ evs b, AmountsToFor api N op evs ∧ Run (Mailbox.Step hashNew) a evs b ∧
      ∃ m, Shows t m ∧ b = m.only N := by
  obtain ⟨m, hs, rfl⟩ := ha
  obtain ⟨evs, m', hop, hrun, hs'⟩ := hs.step hstep
  obtain ⟨evss, hseen, hown⟩ := Mailbox.run_only hrun
  exact ⟨evss.flatten, _, hop.seen hseen, hown, m', hs', rfl⟩

/-- **Every group has a mailbox of its own.**  Take any set of namespaces, and any run of whole
operations of the server.  It is matched step by step by a run of a mailbox to the state that the
server's node is seen as, as far as it is about these namespaces.  The calls in it are the requests
about these namespaces that make sense and pass the guard, answered with the mailbox's replies; the
records referred to are those that arrive in them; and to every other request it is nothing, or, if
content is brought, content received. -/
theorem served_apart (N : Set NamespaceId)
    (hrun : Run (ServeStep api d waker) (bootServer hashNew policy) ops s) :
    ∃ (evss : List (List MailboxEvent)) (m : Mailbox NamespaceId ContentHash PushSubscription),
      List.Forall₂ (AmountsToFor api N) ops evss ∧
        Run (Mailbox.Step hashNew) .empty evss.flatten (m.only N) ∧ Abstracts s.system.node m := by
  have hboot : ∃ m, Shows (bootServer hashNew policy) m ∧ Mailbox.empty = m.only N :=
    ⟨.empty, shows_boot, Mailbox.only_empty.symm⟩
  have hsim := hrun.simulate (R := fun s a ↦ ∃ m, Shows s m ∧ a = m.only N)
    (fun _ _ _ _ ha hst ↦ apart_step ha hst) hboot
  obtain ⟨evss, a, hmatches, hown, m, hs, rfl⟩ := hsim
  exact ⟨evss, m, hmatches, hown, hs.2⟩

/-- Who uses the namespace of the sample has its content; the others have nothing. -/
theorem served_apart_fix : ∃ (evss evss' : List (List MailboxEvent))
    (m m' : Mailbox NamespaceId ContentHash PushSubscription),
      Run (Mailbox.Step sampleHash) .empty evss.flatten (m.only {idOf 1}) ∧
        zeroHash ∈ (m.only {idOf 1}).held ∧
      Run (Mailbox.Step sampleHash) .empty evss'.flatten (m'.only {idOf 2}) ∧
        (m'.only {idOf 2}).refs = ∅ := by
  have hrun := run_sampleOps passthroughDelivery noopWaker
  obtain ⟨evss, m, -, hown, ha⟩ := served_apart {idOf 1} hrun
  obtain ⟨evss', m', -, hother, ha'⟩ := served_apart {idOf 2} hrun
  refine ⟨evss, evss', m, m', hown, ?_, hother, ?_⟩
  · have href : (idOf 1, zeroHash) ∈ m.refs := (ha.refs _ _).mpr (by decide)
    exact ⟨(ha.held zeroHash).mpr (by decide), (idOf 1, zeroHash), ⟨href, rfl⟩, rfl⟩
  · refine Set.eq_empty_of_forall_notMem fun p hp ↦ ?_
    have hgranted := (ha'.granted p.1).mp (m'.refs_granted p hp.1)
    rw [hp.2] at hgranted
    exact absurd hgranted (by decide)

end TrailStash
