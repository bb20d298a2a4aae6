import TrailStash.Available
import TrailStash.Service

/-!
# What the server serves

The results about the node are about runs of whole operations (`System.StoreStep`), and so are those
about the server: what goes on behind the API is an operation of the node by definition.  But the
server answers requests as well, and most of them are no operation.  What they amount to among the
operations is in `served_as_system`: a registration that is answered with `201` is a grant, an
upload that makes sense and passes the guard is an upload, and any other request does nothing but
take a device off the list or put one on it, which only a push looks at (`System.muted`).

So a result about the runs of the node's operations carries over to the requests between them.
`current_served` is an instance of this: a client who asks for a current record gets it.
-/

set_option autoImplicit false

namespace TrailStash

open Runs StashNode

variable {hashNew : Bytes → ContentHash} {node : StashNode hashNew} {ns : NamespaceId}
  {h : ContentHash} {e : Entry} {now : Nat} {has : ContentHash → Bool}
  {fetch : ∀ h, Option {bytes // hashNew bytes = h}} {entry : TrackedEntry} {present : Bool}
  {order : IterOrder ContentHash} {nsOrder : IterOrder NamespaceId} {faulty : NamespaceId → Bool}
  {released : Nat}

/-! ## Without the devices -/

/-- The node, without the devices. -/
def StashNode.muted (node : StashNode hashNew) : StashNode hashNew :=
  { node with registry := { node.registry with subs := ∅ } }

namespace StashNode

theorem muted_onInsertRemote (node : StashNode hashNew) (deliveredBy : EndpointId) :
    node.muted.onInsertRemote ns e deliveredBy present now =
      ((node.onInsertRemote ns e deliveredBy present now).1.muted,
        (node.onInsertRemote ns e deliveredBy present now).2) := by
  cases present <;> rfl

/-- An upload asks whether the namespace is known, and no more of the registry. -/
theorem muted_putContent (bytes : Bytes) (fails : Bool) : node.muted.putContent ns h bytes fails =
    ((node.putContent ns h bytes fails).1.muted, (node.putContent ns h bytes fails).2) := by
  have hknown : node.muted.registry.isKnown ns = node.registry.isKnown ns := rfl
  have htracked : node.muted.content = node.content := rfl
  rw [putContent, putContent, hknown, htracked]
  split
  · rfl
  · split
    · rfl
    · split
      · rfl
      · split
        · rfl
        · dsimp only [addBytes]
          split <;> rfl

theorem muted_writeBack (node : StashNode hashNew) : node.muted.writeBack now h entry present =
    ((node.writeBack now h entry present).1.muted, (node.writeBack now h entry present).2) := by
  have htracked : node.muted.tracked = node.tracked := rfl
  rw [writeBack, writeBack, htracked]
  cases node.tracked.lookup h with
  | none => rfl
  | some live => cases present <;> rfl

theorem muted_settleVisit : node.muted.settleVisit now has fetch h entry =
    ((node.settleVisit now has fetch h entry).1.muted,
      (node.settleVisit now has fetch h entry).2) := by
  rw [settleVisit, settleVisit]
  split
  · exact muted_writeBack node
  · split
    · cases fetch h with
      | none => exact muted_writeBack node
      | some bytes => exact muted_writeBack (node.land bytes)
    · exact muted_writeBack node

theorem muted_settleLoop (l : List (ContentHash × TrackedEntry)) :
    settleLoop now has fetch l node.muted =
      ((settleLoop now has fetch l node).1.muted, (settleLoop now has fetch l node).2) := by
  induction l generalizing node with
  | nil => rfl
  | cons p rest ih =>
    rw [settleLoop_cons, settleLoop_cons, muted_settleVisit]
    dsimp only
    rw [ih]

theorem muted_settleOnce : node.muted.settleOnce now order has fetch =
    ((node.settleOnce now order has fetch).1.muted,
      (node.settleOnce now order has fetch).2) :=
  muted_settleLoop (node.outstanding order)

theorem muted_forgetOne : forgetOne ns h node.muted released =
    ((forgetOne ns h node released).1.muted, (forgetOne ns h node released).2) := by
  have hforget : node.muted.forget ns h = ((node.forget ns h).1, (node.forget ns h).2.muted) := rfl
  rw [forgetOne, forgetOne, hforget]
  dsimp only
  split <;> rfl

theorem muted_forgetAll (hs : List ContentHash) : forgetAll ns hs node.muted released =
    ((forgetAll ns hs node released).1.muted, (forgetAll ns hs node released).2) := by
  induction hs generalizing node released with
  | nil => rfl
  | cons h hs ih =>
    rw [forgetAll, forgetAll, muted_forgetOne]
    dsimp only
    rw [ih]

theorem muted_pruneLoop (nss : List NamespaceId) :
    pruneLoop now faulty order nss node.muted released =
      ((pruneLoop now faulty order nss node released).1.muted,
        (pruneLoop now faulty order nss node released).2) := by
  induction nss generalizing node released with
  | nil => rfl
  | cons ns nss ih =>
    have hhandles : node.muted.handles = node.handles := rfl
    have hdocs : node.muted.docs = node.docs := rfl
    have hretention : node.muted.retention = node.retention := rfl
    rw [pruneLoop, pruneLoop, hhandles, hdocs, hretention]
    split
    · exact ih
    · split
      · rfl
      · dsimp only
        rw [muted_forgetAll]
        exact ih

/-- A sweep asks which namespaces are known, and no more of the registry. -/
theorem muted_pruneOnce : node.muted.pruneOnce now faulty nsOrder order =
    ((node.pruneOnce now faulty nsOrder order).1.muted,
      (node.pruneOnce now faulty nsOrder order).2) :=
  muted_pruneLoop (node.registry.knownNamespaces nsOrder)

end StashNode

/-- The system, without the devices. -/
def System.muted (s : System hashNew) : System hashNew := { s with node := s.node.muted }

/-- **The operations do not look at the devices.** -/
theorem System.muted_store {s : System hashNew} {o : StoreOp hashNew} (ho : o.IsBackground) :
    (s.store o).muted = s.muted.store o := by
  cases o with
  | land bytes => rfl
  | collect spared => rfl
  | op op =>
    cases op with
    | grant ns sub => exact ho.elim
    | put ns expected bytes fails => exact ho.elim
    | arrive ns e replaced deliveredBy present now =>
      have hinsert : (s.muted.node.replicate ns e replaced).onInsertRemote ns e deliveredBy present
          now = _ := muted_onInsertRemote (s.node.replicate ns e replaced) deliveredBy
      rw [System.store, System.store, System.apply, System.apply, hinsert]
      rfl
    | settle now order has fetch =>
      have hsettle : s.muted.node.settleOnce now order has fetch = _ := muted_settleOnce
      rw [System.store, System.store, System.apply, System.apply, hsettle]
      rfl
    | prune now faulty nsOrder order =>
      have hprune : s.muted.node.pruneOnce now faulty nsOrder order = _ := muted_pruneOnce
      rw [System.store, System.store, System.apply, System.apply, hprune]
      rfl

/-! ## What the server does to the system -/

variable {api : ControlApi} {d : DeliveryService} {waker : Waker} {policy : RetentionPolicy}
  {s t u v : Server hashNew} {op : ServerOp hashNew} {ops ops' : List (ServerOp hashNew)}
  {x : Exchange}

/-- The operations of the system that an operation of the server amounts to: one, or none. -/
def ServerOp.acts (api : ControlApi) : ServerOp hashNew → List (StoreOp hashNew)
  | .answers x =>
    match api.refusal x.header x.request, api.call? x.request with
    | none, some (.grant ns _) =>
      match x.answer with
      | .text ⟨201, _⟩ => [.op (.grant ns none)]
      | _ => []
    | none, some (.bring ns h bytes) => [.op (.put ns h bytes x.outside.fault.isSome)]
    | _, _ => []
  | .background o => [o]
  | .wakes .. => []

/-- The system takes one step, with this operation, or none. -/
def Takes (acts : List (StoreOp hashNew)) (s t : System hashNew) : Prop :=
  acts = [] ∧ t = s ∨ ∃ o, acts = [o] ∧ System.StoreStep s o t

/-- A call is an operation, if it grants or uploads anything. -/
theorem takes_of_carried {sys : System hashNew} {c : MailboxCall} {answer : Answer}
    (hallowed : api.refusal x.header x.request = none) (hcall : api.call? x.request = some c)
    (hanswer : x.answer = answer) (hcarried : Carried x.outside sys.node c (answer, node)) :
    Takes ((ServerOp.answers x : ServerOp hashNew).acts api) sys.muted
      { sys with node := node }.muted := by
  cases c with
  | grant ns sub =>
    rw [ServerOp.acts, hallowed, hcall, hanswer]
    cases hcarried with
    | granted => exact Or.inr ⟨.op (.grant ns none), rfl, .intro trivial trivial⟩
    | notGranted _ _ _ _ hcode =>
      refine Or.inl ⟨?_, rfl⟩
      rcases hcode with rfl | rfl <;> rfl
  | bring ns h b =>
    have hput : sys.muted.node.putContent ns h b x.outside.fault.isSome = _ :=
      muted_putContent b x.outside.fault.isSome
    have hafter : { sys with node := node }.muted =
        sys.muted.store (.op (.put ns h b x.outside.fault.isSome)) := by
      rw [System.store, System.apply, hput, hcarried.node_bring]
      rfl
    rw [ServerOp.acts, hallowed, hcall, hafter]
    exact Or.inr ⟨_, rfl, .intro trivial trivial⟩
  | mute ns sub =>
    rw [ServerOp.acts, hallowed, hcall]
    cases hcarried with
    | muted => exact Or.inl ⟨rfl, rfl⟩
  | fetch ns h =>
    rw [ServerOp.acts, hallowed, hcall]
    cases hcarried <;> exact Or.inl ⟨rfl, rfl⟩
  | count =>
    rw [ServerOp.acts, hallowed, hcall]
    cases hcarried with
    | counted => exact Or.inl ⟨rfl, rfl⟩

/-- **What a step of the server does to the system**, without the devices. -/
theorem ServeStep.takes (hstep : ServeStep api d waker s op t) :
    Takes (op.acts api) s.system.muted t.system.muted := by
  cases op with
  | answers x =>
    rcases hstep.answers_cases with ⟨refusal, hrefusal, -, rfl⟩ | ⟨hallowed, hnone, -, rfl⟩ |
        ⟨c, node, hallowed, hcall, hcarried, rfl⟩
    · exact Or.inl ⟨by rw [ServerOp.acts, hrefusal], rfl⟩
    · exact Or.inl ⟨by rw [ServerOp.acts, hallowed, hnone], rfl⟩
    · exact takes_of_carried hallowed hcall rfl hcarried
  | background o =>
    cases hstep with
    | background owed ho hst =>
      obtain ⟨hallowed, rfl⟩ := hst
      exact Or.inr ⟨o, rfl, hallowed, System.muted_store ho⟩
  | wakes w order sent =>
    cases hstep with
    | wakes => exact Or.inl ⟨rfl, rfl⟩

/-! ## Runs -/

/-- A condition on what goes on behind the API. -/
def OnBackground (G : System hashNew → StoreOp hashNew → Prop) (s : Server hashNew) :
    ServerOp hashNew → Prop
  | .background o => G s.system o
  | _ => True

/-- Where an operation of the system comes from. -/
theorem of_mem_acts {o : StoreOp hashNew} (ho : o ∈ op.acts api) :
    op = .background o ∨ ¬ o.IsBackground := by
  cases op with
  | background o' => exact Or.inl (congrArg ServerOp.background (List.mem_singleton.mp ho).symm)
  | wakes => exact absurd ho List.not_mem_nil
  | answers x =>
    refine Or.inr ?_
    rw [ServerOp.acts] at ho
    split at ho
    · split at ho
      · obtain rfl := List.mem_singleton.mp ho
        exact id
      · exact absurd ho List.not_mem_nil
    · obtain rfl := List.mem_singleton.mp ho
      exact id
    · exact absurd ho List.not_mem_nil

/-- **A run of the server is a run of the system**, and what holds of its steps holds of theirs. -/
theorem run_muted {P : Server hashNew → ServerOp hashNew → Server hashNew → Prop}
    {Q : System hashNew → StoreOp hashNew → System hashNew → Prop}
    (hP : ∀ s op t, P s op t → ServeStep api d waker s op t)
    (hQ : ∀ s op t o, P s op t → o ∈ op.acts api →
      System.StoreStep s.system.muted o t.system.muted → Q s.system.muted o t.system.muted)
    (hrun : Run P s ops t) :
    Run Q s.system.muted (ops.flatMap fun op ↦ op.acts api) t.system.muted := by
  induction hrun with
  | nil s => exact .nil _
  | cons hst _ ih =>
    rw [List.flatMap_cons]
    rcases (hP _ _ _ hst).takes with ⟨hnone, hsame⟩ | ⟨o, hone, hstore⟩
    · rw [hnone, List.nil_append, ← hsame]
      exact ih
    · have hq := hQ _ _ _ o hst (by rw [hone]; exact List.mem_singleton_self o) hstore
      rw [hone]
      exact .cons hq ih

/-- **What the requests amount to.**  In a run of whole operations of the server everything but the
devices is as after these operations of the node: those that went on behind the API, a grant for
each registration that was carried out, and an upload for each one that made sense and passed the
guard, in the same order; no other request leaves a trace. -/
theorem served_as_system (hrun : Run (ServeStep api d waker) (bootServer hashNew policy) ops s) :
    Run System.StoreStep (System.boot hashNew policy) (ops.flatMap fun op ↦ op.acts api)
      s.system.muted :=
  run_muted (fun _ _ _ ↦ id) (fun _ _ _ _ _ _ ↦ id) hrun

/-- A registration, an arrival and an upload. -/
theorem served_as_system_fix : Run System.StoreStep (System.boot sampleHash (.fromHours 24))
    [.op (.grant (idOf 1) none),
      .op (.arrive (idOf 1) oldFix.entry (fun _ ↦ false) oldFix.deliveredBy false 1000),
      .op (.put (idOf 1) zeroHash [0] false)]
    (⟨sampleNode, [], 0⟩ : System sampleHash).muted := by
  have hupload : (ServerOp.answers sampleUpload : ServerOp sampleHash).acts sampleApi =
      [.op (.put (idOf 1) zeroHash [0] false)] := by
    have hallowed : sampleApi.refusal sampleUpload.header sampleUpload.request = none := by decide
    rw [ServerOp.acts, hallowed, call_sampleUpload]
    rfl
  have hacts : sampleOps.flatMap (fun op ↦ op.acts sampleApi) = [.op (.grant (idOf 1) none),
      .op (.arrive (idOf 1) oldFix.entry (fun _ ↦ false) oldFix.deliveredBy false 1000),
      .op (.put (idOf 1) zeroHash [0] false)] := by
    rw [sampleOps, List.flatMap_cons, List.flatMap_cons, List.flatMap_singleton, hupload]
    rfl
  rw [← hacts]
  exact served_as_system (run_sampleOps passthroughDelivery noopWaker)

/-! ## Current records -/

/-- The conditions do not look at the devices. -/
theorem answered_muted {isEndpoint : EndpointId → Bool} {T : Nat} {s : System hashNew}
    {o : StoreOp hashNew} : Answered isEndpoint T s.muted o ↔ Answered isEndpoint T s o := by
  cases o with
  | op op => cases op <;> exact Iff.rfl
  | _ => exact Iff.rfl

theorem covers_muted {s : System hashNew} {o : StoreOp hashNew} :
    Covers s.muted o ↔ Covers s o := by
  cases o with
  | op op => cases op <;> exact Iff.rfl
  | _ => exact Iff.rfl

/-- Only what goes on behind the API can fail them. -/
theorem answered_of_not_isBackground (isEndpoint : EndpointId → Bool) (T : Nat) {s : System hashNew}
    {o : StoreOp hashNew} (ho : ¬ o.IsBackground) : Answered isEndpoint T s o ∧ Covers s o := by
  cases o with
  | op op =>
    cases op with
    | grant => exact ⟨trivial, trivial, trivial⟩
    | put => exact ⟨trivial, trivial, trivial⟩
    | _ => exact absurd trivial ho
  | _ => exact absurd trivial ho

/-- A download that finds bytes is answered with them. -/
theorem answer_of_fetch {bytes : Bytes} (hallowed : api.refusal x.header x.request = none)
    (hcall : api.call? x.request = some (.fetch ns h))
    (hstep : ServeStep api d waker s (.answers x) t)
    (hbytes : s.system.node.contentBytes ns h = some bytes) : x.answer = .octets bytes := by
  obtain ⟨node', hcarried, -⟩ := hstep.carried hallowed hcall
  generalize x.answer = answer at hcarried ⊢
  cases hcarried with
  | fetched hb => rw [Option.some.inj (hb.symm.trans hbytes)]
  | missed hnone => exact absurd (hbytes.symm.trans hnone) (Option.some_ne_none bytes)

/-- **Who asks for a current record gets it.**  Take any run of whole operations of the server in
which the attempts of `fetch_content` succeed from the time `T` on, the sweeps do not go back in
time, and no arrival makes a released record current again.  From the first pass that comes a minute
or more after `T`, a request that passes the guard and asks for the content of a record is answered
with bytes of that digest, for as long as the record is current: neither superseded nor, by the time
of the latest sweep, expired.  Whether the peers are still there after that pass does not matter,
nor what other requests are made. -/
theorem current_served {isEndpoint : EndpointId → Bool} {T : Nat}
    (hrun : Run (Guarded (OnBackground fun s o ↦ Answered isEndpoint T s o ∧ Covers s o)
      (ServeStep api d waker)) (bootServer hashNew policy) ops s)
    (hpass : Guarded (OnBackground (Answered isEndpoint T)) (ServeStep api d waker) s
      (.background (.op (.settle now order has fetch))) t)
    (hnow : T + 60000 ≤ now) (hcurrent : Current ns e t.system)
    (hrest : Run (fun s op t ↦ Guarded (OnBackground Covers) (ServeStep api d waker) s op t ∧
      Current ns e t.system) t ops' u)
    (hallowed : api.refusal x.header x.request = none)
    (hcall : api.call? x.request = some (.fetch ns e.contentHash))
    (hasked : ServeStep api d waker u (.answers x) v) :
    ∃ b, x.answer = .octets b ∧ hashNew b = e.contentHash := by
  have hbefore : Run (Guarded (fun s o ↦ Answered isEndpoint T s o ∧ Covers s o) System.StoreStep)
      (System.boot hashNew policy) (ops.flatMap fun op ↦ op.acts api) s.system.muted := by
    refine run_muted (fun s op t hst ↦ hst.2) (fun s op t o hst ho hstore ↦ ?_) hrun
    have hboth : Answered isEndpoint T s.system o ∧ Covers s.system o := by
      rcases of_mem_acts ho with rfl | ho
      · exact hst.1
      · exact answered_of_not_isBackground isEndpoint T ho
    exact ⟨⟨answered_muted.mpr hboth.1, covers_muted.mpr hboth.2⟩, hstore⟩
  have hpass' : Guarded (Answered isEndpoint T) System.StoreStep s.system.muted
      (.op (.settle now order has fetch)) t.system.muted := by
    refine ⟨answered_muted.mpr hpass.1, ?_⟩
    rcases hpass.2.takes with ⟨hnone, -⟩ | ⟨o, hone, hstore⟩
    · exact absurd hnone (List.cons_ne_nil _ _)
    · obtain rfl := (List.cons.inj hone).1
      exact hstore
  have hafter : Run (Guarded (fun s o ↦ Covers s o ∧ Current ns e (s.store o)) System.StoreStep)
      t.system.muted (ops'.flatMap fun op ↦ op.acts api) u.system.muted := by
    refine run_muted (fun s op t hst ↦ hst.1.2) (fun s op t o hst ho hstore ↦ ?_) hrest
    refine ⟨⟨covers_muted.mpr ?_, ?_⟩, hstore⟩
    · rcases of_mem_acts ho with rfl | ho
      · exact hst.1.1
      · exact (answered_of_not_isBackground isEndpoint T ho).2
    · rw [← hstore.2]
      exact hst.2
  obtain ⟨b, hb, hdigest⟩ := current_available hbefore hpass' hnow hcurrent hafter
  exact ⟨b, answer_of_fetch hallowed hcall hasked hb, hdigest⟩

/-- A fix arrives without its bytes, a pass fetches them, the next sweep keeps the fix, and a client
asks for it. -/
theorem current_served_fix :
    let finds : StoreOp sampleHash := .op (.settle 60500 (.any _) (fun _ ↦ false)
      (unservedFix.fetchContent (fun _ ↦ true) bringsZero))
    let keeps : StoreOp sampleHash := .op (.prune 70000 (fun _ ↦ false) (.any _) (.any _))
    let kept := ((⟨unservedFix, [], 0⟩ : System sampleHash).store finds).store keeps
    ∃ b, sampleApi.contentHandler kept.node (namespaceHex (idOf 1)) (namespaceHex zeroHash) =
      .octets b ∧ sampleHash b = zeroHash := by
  intro finds keeps kept
  let arrived : Server sampleHash := ⟨⟨unservedFix, [], 0⟩, []⟩
  let found : Server sampleHash := ⟨arrived.system.store finds, (arrived.system.store finds).wakes⟩
  let asks : Exchange := sampleExchange (.content (namespaceHex (idOf 1)) (namespaceHex zeroHash))
    (sampleApi.contentHandler kept.node (namespaceHex (idOf 1)) (namespaceHex zeroHash))
  have hrun : Run (Guarded (OnBackground fun s o ↦ Answered (fun _ ↦ true) 500 s o ∧ Covers s o)
      (ServeStep sampleApi passthroughDelivery noopWaker)) (bootServer sampleHash (.fromHours 24))
      [.answers sampleRegister,
        .background (.op (.arrive (idOf 1) oldFix.entry (fun _ ↦ false) oldFix.deliveredBy false
          1000))] arrived :=
    .cons ⟨trivial, .answers [] ((serve_sampleApi _ _).trans rfl)⟩
      (.cons ⟨⟨trivial, trivial, by decide⟩, .background [] trivial
        (.intro rfl fun hc ↦ absurd hc Bool.false_ne_true)⟩ (.nil _))
  have hpass : Guarded (OnBackground (Answered (fun _ ↦ true) 500))
      (ServeStep sampleApi passthroughDelivery noopWaker) arrived (.background finds) found := by
    refine ⟨⟨bringsZero, rfl, fun _ h live hlive _ ↦ ?_⟩,
      .background [] trivial (.intro trivial fun _ hc ↦ absurd hc Bool.false_ne_true)⟩
    have hawaited : System.fixSystem.node.tracked.lookup h = some live := hlive
    rw [eq_zeroHash_of_awaited hawaited]
    exact congrArg Option.isSome (dif_pos (by decide : sampleHash [0] = zeroHash))
  have hfetched : Frame unservedFix found.system.node := frame_settleOnce
  have hcurrent : Current (idOf 1) oldFix.entry found.system := by
    rw [Current, hfetched.docs, hfetched.retention]
    decide
  have hswept : Frame found.system.node kept.node := frame_pruneOnce
  have hstays : Current (idOf 1) oldFix.entry kept := by
    rw [Current, hswept.docs, hswept.retention, hfetched.docs, hfetched.retention]
    decide
  have hkeeps : Guarded (OnBackground Covers) (ServeStep sampleApi passthroughDelivery noopWaker)
      found (.background keeps) ⟨kept, found.owed ++ kept.wakes.drop found.system.wakes.length⟩ :=
    ⟨⟨Nat.zero_le _, trivial⟩, .background _ trivial (.intro trivial trivial)⟩
  exact current_served hrun hpass (by decide) hcurrent (.cons ⟨hkeeps, hstays⟩ (.nil _)) (by decide)
    call_sampleDownload (x := asks) (.answers _ (serve_sampleApi _ _))

end TrailStash
