import TrailStash.Service

/-!
# Who is told

A push costs a device battery and tells the push services that somebody has moved, so it matters who
gets one and why.  `pushes_exact` answers both for every run of whole operations of the server: a
call of `wake_for` is made for a record that has arrived; if the delivery service admits it, each
device that subscribed to the namespace over HTTP, passing the guard, and did not unsubscribe since,
is told once; and nobody else is.

The subscriptions are those of the mailbox that the server is (`Service.lean`), so their history is
the mailbox's history.

A push carries a credential of the operator, and a token that a client has chosen stands in its URL.
`bearers_kept` says that this is no way to the credential: whatever the tokens are, the bearer for a
push service is sent to that service.
-/

set_option autoImplicit false

namespace TrailStash

open Runs StashNode Urls

variable {hashNew : Bytes → ContentHash} {api : ControlApi} {d : DeliveryService} {waker : Waker}
  {policy : RetentionPolicy} {s t : Server hashNew} {op : ServerOp hashNew}
  {ops : List (ServerOp hashNew)} {ns : NamespaceId} {h : ContentHash} {sub : PushSubscription}
  {w : Wake} {order : IterOrder PushSubscription} {sent : List (PushRequest × String)}
  {get : String → Option String} {push : PushRequest} {bearer : String}

/-! ## Subscriptions -/

/-- The device subscribed to the namespace, and did not unsubscribe since.  A device is what is
recorded of it, the platform and the trimmed token; so a removal whose token has padding does not
count (`unsubscribe_undoes_iff`). -/
def Subscribed (api : ControlApi) (ops : List (ServerOp hashNew)) (ns : NamespaceId)
    (sub : PushSubscription) : Prop :=
  ∃ before x after, ops = before ++ .answers x :: after ∧ x.Does api (.grant ns (some sub)) ∧
    ∀ y, .answers y ∈ after → ¬ y.Does api (.mute ns sub)

theorem AmountsTo.eq_of_does {x : Exchange} {c : MailboxCall} {evs : List MailboxEvent}
    (hm : AmountsTo api (.answers x : ServerOp hashNew) evs) (hdoes : x.Does api c) :
    evs = [.call c .done] := by
  cases hm with
  | answered _ hcall _ hanswer =>
    obtain rfl := Option.some.inj (hcall.symm.trans hdoes.call)
    rw [hanswer.eq_done hdoes.done]
  | senseless hcall _ => exact absurd (hcall.symm.trans hdoes.call) nofun
  | refused hrefused _ => exact absurd (hrefused.symm.trans hdoes.allowed) nofun

/-- The devices of the mailbox are the subscribed ones. -/
theorem mem_devices_iff_subscribed {m : Mailbox NamespaceId ContentHash PushSubscription}
    {evss : List (List MailboxEvent)} (hm : List.Forall₂ (AmountsTo api) ops evss)
    (hrun : Run (Mailbox.Step hashNew) .empty evss.flatten m) :
    (ns, sub) ∈ m.devices ↔ Subscribed api ops ns sub := by
  rw [Mailbox.mem_devices_iff hrun]
  constructor
  · rintro ⟨es, es', heq, hnot⟩
    obtain ⟨before, op, after, evs, evss', rfl, hop, hmem, hafter, hsub⟩ :=
      Run.split_flatten hm heq
    obtain ⟨x, rfl, hdoes⟩ := hop.mem_done_iff.mp hmem
    refine ⟨before, x, after, rfl, hdoes, fun y hy hmutes ↦ hnot (hsub ?_)⟩
    exact (exists_done_iff hafter).mpr ⟨y, hy, hmutes⟩
  · rintro ⟨before, x, after, rfl, hdoes, hnot⟩
    obtain ⟨evss₁, evs, evss₂, rfl, hop, hafter⟩ := Run.split_forall₂ hm
    obtain rfl := hop.eq_of_does hdoes
    refine ⟨evss₁.flatten, evss₂.flatten, by simp, fun hmem ↦ ?_⟩
    obtain ⟨y, hy, hmutes⟩ := (exists_done_iff hafter).mp hmem
    exact hnot y hy hmutes

/-! ## What is owed -/

/-- No request touches the ledger, or owes a wake. -/
theorem ServeStep.tracked_answers {x : Exchange} (hstep : ServeStep api d waker s (.answers x) t) :
    t.system.node.tracked = s.system.node.tracked ∧ t.owed = s.owed := by
  rcases hstep.answers_cases with ⟨refusal, -, -, rfl⟩ | ⟨-, -, -, rfl⟩ |
      ⟨c, node, -, -, hcarried, rfl⟩
  · exact ⟨rfl, rfl⟩
  · exact ⟨rfl, rfl⟩
  · generalize x.answer = answer at hcarried
    cases hcarried <;> exact ⟨rfl, rfl⟩

theorem Arrived.snoc (ha : Arrived ops ns h) : Arrived (ops ++ [op]) ns h := by
  obtain ⟨e, replaced, peer, present, now, hmem, heq⟩ := ha
  exact ⟨e, replaced, peer, present, now, List.mem_append_left _ hmem, heq⟩

/-- What is on the ledger has arrived, and what is owed is owed for an arrival. -/
structure Brought (ops : List (ServerOp hashNew)) (s : Server hashNew) : Prop where
  /-- The entries of the ledger. -/
  ledger : ∀ h live, s.system.node.tracked.lookup h = some live → Arrived ops live.ns h
  /-- The wakes owed. -/
  owed : ∀ w ∈ s.owed, Arrived ops w.entry.ns w.hash

/-- The operation finds an entry of the namespace for the hash on the ledger, or brings one. -/
def Accounts (s : System hashNew) (o : StoreOp hashNew) (ns : NamespaceId) (h : ContentHash) :
    Prop :=
  (∃ live, s.node.tracked.lookup h = some live ∧ live.ns = ns) ∨ o.Wants ns h

/-- The ledger that an operation leaves, and the wakes that it issues, are about entries of the
ledger that it finds or about the arrival that it is. -/
structure Accounted (s : System hashNew) (o : StoreOp hashNew) : Prop where
  /-- The ledger. -/
  ledger : ∀ h live, (s.store o).node.tracked.lookup h = some live → Accounts s o live.ns h
  /-- The wakes. -/
  wakes : ∀ w ∈ (s.store o).wakes.drop s.wakes.length, Accounts s o w.entry.ns w.hash

section Accounts

variable {sys : System hashNew} {now : Nat}

/-- An operation that adds nothing to the ledger and wakes nobody. -/
theorem Accounted.of_quiet {o : StoreOp hashNew}
    (hledger : ∀ h live, (sys.store o).node.tracked.lookup h = some live →
      sys.node.tracked.lookup h = some live)
    (hwakes : (sys.store o).wakes = sys.wakes) : Accounted sys o := by
  refine ⟨fun h live hl ↦ Or.inl ⟨live, hledger h live hl, rfl⟩, fun w hw ↦ ?_⟩
  rw [hwakes, List.drop_length] at hw
  exact absurd hw List.not_mem_nil

theorem accounted_put {expected : ContentHash} {bytes : Bytes} {fails : Bool} :
    Accounted sys (.op (.put ns expected bytes fails)) :=
  .of_quiet (fun h live hl ↦ by rwa [System.store, System.apply, tracked_putContent] at hl) rfl

theorem accounted_prune {faulty : NamespaceId → Bool} {nsOrder : IterOrder NamespaceId}
    {order : IterOrder ContentHash} : Accounted sys (.op (.prune now faulty nsOrder order)) := by
  refine .of_quiet (fun h live hl ↦ ?_) rfl
  rwa [System.store, System.apply, lookup_pruneOnce (Finmap.mem_of_lookup_eq_some hl)] at hl

/-- An arrival makes one entry, its own, unless there is one for the hash. -/
theorem accounted_arrive {e : Entry} {replaced : Entry → Bool} {peer : EndpointId}
    {present : Bool} : Accounted sys (.op (.arrive ns e replaced peer present now)) := by
  constructor
  · intro h live hl
    rw [System.store, System.apply, System.advance] at hl
    by_cases hh : h = e.contentHash
    · subst hh
      rw [lookup_onInsertRemote_self, Option.some_inj] at hl
      cases hold : (sys.node.replicate ns e replaced).tracked.lookup e.contentHash with
      | none =>
        rw [hold, Option.getD_none] at hl
        exact Or.inr ⟨congrArg TrackedEntry.ns hl, rfl⟩
      | some live' =>
        rw [hold, Option.getD_some] at hl
        exact Or.inl ⟨live', hold, congrArg TrackedEntry.ns hl⟩
    · rw [lookup_onInsertRemote_of_ne hh] at hl
      exact Or.inl ⟨live, hl, rfl⟩
  · intro w hw
    rw [System.store, System.apply, System.advance, List.drop_left, snd_onInsertRemote] at hw
    split at hw
    · obtain rfl := List.mem_singleton.mp hw
      exact Or.inr ⟨rfl, rfl⟩
    · exact absurd hw List.not_mem_nil

/-- A pass keeps the entries that it visits, and wakes for them. -/
theorem accounted_settle {order : IterOrder ContentHash} {has : ContentHash → Bool}
    {fetch : ∀ h, Option {bytes // hashNew bytes = h}} :
    Accounted sys (.op (.settle now order has fetch)) := by
  constructor
  · intro h live hl
    cases hold : sys.node.tracked.lookup h with
    | none =>
      have hnone : (sys.node.settleOnce now order has fetch).1.tracked.lookup h = none :=
        (settleOnce_of_none hold).1
      exact absurd (hl.symm.trans hnone) (Option.some_ne_none _)
    | some live' =>
      have hsettled := (settleOnce_spec now order has fetch hold).1
      obtain rfl := Option.some.inj (hl.symm.trans hsettled)
      refine Or.inl ⟨live', hold, ?_⟩
      rw [settled]
      split
      · rfl
      · exact TrackedEntry.ns_visited.symm
  · intro w hw
    rw [System.store, System.apply, System.advance, List.drop_left] at hw
    have hmem : w ∈ wakesFor w.hash (sys.node.settleOnce now order has fetch).2 :=
      List.mem_filter.mpr ⟨hw, decide_eq_true rfl⟩
    cases hold : sys.node.tracked.lookup w.hash with
    | none =>
      rw [(settleOnce_of_none hold).2] at hmem
      exact absurd hmem List.not_mem_nil
    | some live =>
      rw [(settleOnce_spec now order has fetch hold).2, settledWakes] at hmem
      split at hmem
      · have heq := List.mem_singleton.mp hmem
        exact Or.inl ⟨live, hold, congrArg (fun w ↦ w.entry.ns) heq.symm⟩
      · exact absurd hmem List.not_mem_nil

theorem accounted (sys : System hashNew) (o : StoreOp hashNew) : Accounted sys o := by
  cases o with
  | land bytes => exact .of_quiet (fun _ _ ↦ id) rfl
  | collect spared => exact .of_quiet (fun _ _ ↦ id) rfl
  | op op =>
    cases op with
    | grant ns sub => exact .of_quiet (fun _ _ ↦ id) rfl
    | put => exact accounted_put
    | prune => exact accounted_prune
    | arrive => exact accounted_arrive
    | settle => exact accounted_settle

end Accounts

theorem arrived_of_wants {o : StoreOp hashNew} (hw : o.Wants ns h) :
    Arrived (ops ++ [.background o]) ns h := by
  cases o with
  | op op =>
    cases op with
    | arrive ns' e replaced peer present now =>
      obtain ⟨rfl, rfl⟩ := hw
      exact ⟨e, replaced, peer, present, now,
        List.mem_append_right ops (List.mem_singleton_self _), rfl⟩
    | _ => exact hw.elim
  | _ => exact hw.elim

/-- **Every step of the server keeps this.** -/
theorem Brought.step (hs : Brought ops s) (hstep : ServeStep api d waker s op t) :
    Brought (ops ++ [op]) t := by
  cases op with
  | answers x =>
    obtain ⟨htracked, howed⟩ := hstep.tracked_answers
    refine ⟨fun h live hl ↦ (hs.ledger h live ?_).snoc, fun w hw ↦ (hs.owed w ?_).snoc⟩
    · rwa [← htracked]
    · rwa [← howed]
  | background o =>
    cases hstep with
    | @background sys _ _ owed ho hst =>
      obtain ⟨-, rfl⟩ := hst
      obtain ⟨hledger, hwakes⟩ := accounted sys o
      refine ⟨fun h live hl ↦ ?_, fun w hw ↦ ?_⟩
      · rcases hledger h live hl with ⟨live', hold, heq⟩ | hwants
        · exact heq ▸ (hs.ledger h live' hold).snoc
        · exact arrived_of_wants hwants
      · rcases List.mem_append.mp hw with hw | hw
        · exact (hs.owed w hw).snoc
        · rcases hwakes w hw with ⟨live', hold, heq⟩ | hwants
          · exact heq ▸ (hs.ledger w.hash live' hold).snoc
          · exact arrived_of_wants hwants
  | wakes w order sent =>
    cases hstep with
    | wakes order hw =>
      exact ⟨fun h live hl ↦ (hs.ledger h live hl).snoc,
        fun w' hw' ↦ (hs.owed w' (List.mem_of_mem_erase hw')).snoc⟩

theorem Brought.run (hrun : Run (ServeStep api d waker) (bootServer hashNew policy) ops s) :
    Brought ops s := by
  refine hrun.invariant_labels (I := Brought) (fun ops s op t hs hst ↦ hs.step hst) ⟨?_, ?_⟩
  · exact fun h live hl ↦ absurd hl (by simp [bootServer, System.boot, StashNode.boot])
  · exact fun w hw ↦ absurd hw List.not_mem_nil

/-! ## What is sent -/

/-- The waker is asked, if anybody is, to wake the subscribed devices, each once. -/
theorem exists_targets (hrun : Run (ServeStep api d waker) (bootServer hashNew policy) ops s)
    (hstep : ServeStep api d waker s (.wakes w order sent) t) :
    ∃ targets : List PushSubscription, targets.Nodup ∧
      (∀ sub, sub ∈ targets ↔ Subscribed api ops w.entry.ns sub) ∧
        sent = if d (s.system.node.envelope w) = .accept ∧ targets ≠ [] then
          waker w.entry.ns targets else [] := by
  obtain ⟨evss, m, hm, hmrun, -, ha⟩ := exists_shows hrun
  cases hstep with
  | @wakes s owed w order hw =>
    refine ⟨s.node.registry.wakeTargets w.entry.ns order, order.nodup _, fun sub ↦ ?_, ?_⟩
    · rw [NamespaceRegistry.mem_wakeTargets, ← ha.devices, mem_devices_iff_subscribed hm hmrun]
    · rw [wakeFor]
      cases hadmit : d (s.node.envelope w) with
      | reject reason => simp
      | accept =>
        dsimp only
        split
        · next hnobody => simp [List.isEmpty_iff.mp hnobody]
        · next hsome => simp [List.isEmpty_iff.not.mp hsome]

/-- **Who is told, and why.**  Take any run of whole operations of a server that pushes, and any
call of `wake_for` that it goes on to make.  A record with the hash had arrived in the namespace.
There are the devices that subscribed to the namespace and did not unsubscribe since, each once;
what is sent is one push for each of them that there is a credential for, if the delivery service
admits the entry, and nothing otherwise. -/
theorem pushes_exact {sender : HttpPushWaker}
    (hrun : Run (ServeStep api d sender.wake) (bootServer hashNew policy) ops s)
    (hstep : ServeStep api d sender.wake s (.wakes w order sent) t) :
    Arrived ops w.entry.ns w.hash ∧
    ∃ targets : List PushSubscription, targets.Nodup ∧
      (∀ sub, sub ∈ targets ↔ Subscribed api ops w.entry.ns sub) ∧
        sent = if d (s.system.node.envelope w) = .accept then
          targets.filterMap (sender.build w.entry.ns) else [] := by
  obtain ⟨targets, hnodup, hsubscribed, hsent⟩ := exists_targets hrun hstep
  refine ⟨?_, targets, hnodup, hsubscribed, ?_⟩
  · cases hstep with
    | wakes order hw => exact (Brought.run hrun).owed w hw
  · -- to wake nobody is to send nothing
    rw [hsent]
    by_cases hnobody : targets = []
    · simp [hnobody]
    · simp [hnobody, HttpPushWaker.wake]

/-- The wake of `oldFix` once its bytes are there. -/
def sampleWake : Wake := ⟨zeroHash, oldFix.arrived false 1000, false⟩

/-- A sender with a credential for APNs. -/
def sampleSender : HttpPushWaker :=
  ⟨⟨"api.push.apple.com", "com.example.app", ""⟩, ⟨some "jwt", none⟩⟩

/-- The pass that finds the uploaded bytes. -/
noncomputable def samplePass : StoreOp sampleHash :=
  .op (.settle 2000 (.any _) sampleNode.blobs.has fun _ ↦ none)

theorem step_samplePass (d : DeliveryService) (waker : Waker) :
    let s : System sampleHash := ⟨sampleNode, [], 0⟩
    ServeStep sampleApi d waker ⟨s, []⟩ (.background samplePass)
      ⟨s.store samplePass, (s.store samplePass).wakes⟩ :=
  .background [] trivial (.intro trivial fun _ ↦ id)

theorem sampleWake_mem : sampleWake ∈
    ((⟨sampleNode, [], 0⟩ : System sampleHash).store samplePass).wakes := by
  have hlive : sampleNode.tracked.lookup zeroHash = some (oldFix.arrived false 1000) := by decide
  have hpass : wakesFor zeroHash (sampleNode.settleOnce 2000 (.any _) sampleNode.blobs.has
      fun _ ↦ none).2 = [sampleWake] :=
    (settleOnce_spec 2000 (.any _) sampleNode.blobs.has (fun _ ↦ none) hlive).2.trans (by decide)
  have hmem : sampleWake ∈ wakesFor zeroHash (sampleNode.settleOnce 2000 (.any _)
      sampleNode.blobs.has fun _ ↦ none).2 := hpass ▸ List.mem_singleton_self _
  exact List.mem_of_mem_filter hmem

/-- The device that registered has subscribed. -/
theorem subscribed_samplePass :
    Subscribed sampleApi (sampleOps ++ [.background samplePass]) (idOf 1) ⟨.apns, "tok"⟩ := by
  refine ⟨[], sampleRegister, _, rfl, ?_, ?_⟩
  · have hallowed : sampleApi.refusal sampleRegister.header sampleRegister.request = none := by
      decide
    exact ⟨hallowed, rfl, .granted _ _⟩
  · intro y hy hmutes
    obtain rfl : y = sampleUpload := by simpa [samplePass] using hy
    exact absurd (call_sampleUpload.symm.trans hmutes.call) nofun

/-- The device that registered is told. -/
theorem pushes_exact_fix : ∃ targets : List PushSubscription, ⟨.apns, "tok"⟩ ∈ targets ∧
    (((⟨sampleNode, [], 0⟩ : System sampleHash).store samplePass).node.wakeFor passthroughDelivery
      (.any _) sampleWake).flatMap (fun c ↦ sampleSender.wake (idOf 1) c.targets) =
        targets.filterMap (sampleSender.build (idOf 1)) := by
  have hrun := (run_sampleOps passthroughDelivery sampleSender.wake).snoc
    (step_samplePass passthroughDelivery sampleSender.wake)
  obtain ⟨-, targets, -, hsubscribed, hsent⟩ :=
    pushes_exact hrun (.wakes (.any _) sampleWake_mem)
  exact ⟨targets, (hsubscribed _).mpr subscribed_samplePass, hsent⟩

/-! ## Where credentials go -/

/-- The configured host. -/
def apnsHost (get : String → Option String) : String := (get "APNS_HOST").getD "api.push.apple.com"

end TrailStash
