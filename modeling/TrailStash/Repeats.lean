import TrailStash.Pushes
import TrailStash.Receipts
import TrailStash.Served

/-!
# Asking again

A client whose answer was lost on the way cannot know whether its request was carried out, and asks
again; meanwhile the server has gone on.  `retry_inert` says that it may: as long as nothing has
taken back what the request did, the repetition changes nothing at all and is answered as the first
one was.  Both results here are about runs of whole operations (`ServeStep`): no sweep or handler is
under way while a request is served.

What a call that was carried out leaves behind is `Stands`, what takes it back is `Undoes`, and the
result is in three steps: a call that is carried out leaves it behind, every other step keeps it,
and where it stands the call has nothing to do.

An upload that is refused is another matter: whether it helps to ask again depends on what was
missing.  `upload_answers` reads it off the status code: the registration, the record, the right
bytes, or room on the disk.
-/

set_option autoImplicit false

namespace TrailStash

open Runs StashNode TrailStash.System

variable {hashNew : Bytes → ContentHash} {api : ControlApi} {d : DeliveryService} {waker : Waker}
  {policy : RetentionPolicy} {s t u v : Server hashNew} {op : ServerOp hashNew}
  {ops ops' : List (ServerOp hashNew)} {node node' : StashNode hashNew} {outside : Outside}
  {m m' : Mailbox NamespaceId ContentHash PushSubscription} {evs : List MailboxEvent}
  {x y : Exchange} {c : MailboxCall} {answer : Answer} {ns : NamespaceId} {h : ContentHash}
  {b : Bytes} {sub : PushSubscription}

/-! ## What a call leaves behind -/

/-- What a call that was carried out leaves behind. -/
def Stands (node : StashNode hashNew) : MailboxCall → Prop
  | .grant ns sub => (node.registry.isKnown ns = true ∧ ns ∈ node.handles) ∧
      ∀ sub', sub = some sub' → node.registry.subs.contains ns sub' = true
  | .mute ns sub => node.registry.subs.contains ns sub = false
  | .bring ns h b => node.registry.isKnown ns = true ∧ Served ns h b node
  | _ => False

/-- What takes it back: the device is muted; the device subscribes; a sweep lets go of the
reference, or other bytes with the same digest are stored. -/
def Undoes (api : ControlApi) (s : Server hashNew) (op : ServerOp hashNew) : MailboxCall → Prop
  | .grant ns (some sub) => ∃ y, op = .answers y ∧ y.Does api (.mute ns sub)
  | .mute ns sub => ∃ y, op = .answers y ∧ y.Does api (.grant ns (some sub))
  | .bring ns h b => ∃ o ∈ op.acts api, Forgets ns h s.system o ∨
      ∃ b', o.Brings b' ∧ hashNew b' = h ∧ b' ≠ b
  | _ => False

/-- A call that is carried out leaves it behind. -/
theorem stands_of_carried (hcarried : Carried outside node c (answer, node'))
    (hdone : Renders c .done answer) : Stands node' c := by
  cases hcarried with
  | granted ns sub =>
    refine ⟨⟨NamespaceRegistry.isKnown_register.mpr (Or.inl rfl), Finset.mem_insert_self ns _⟩, ?_⟩
    rintro sub' rfl
    exact SetMap.contains_add.mpr (Or.inl ⟨rfl, rfl⟩)
  | notGranted ns sub _ _ hcode =>
    cases hdone
    simp at hcode
  | muted ns sub =>
    refine Bool.eq_false_iff.mpr fun hc ↦ ?_
    exact (SetMap.contains_remove.mp hc).2 ⟨rfl, rfl⟩
  | @brought ns h b hknown ht hb hfault =>
    refine ⟨hknown, ht, ?_, if_pos hb.symm, hb ▸ Finset.mem_insert_self _ _⟩
    exact ContentIndex.isPresent_markPresent.mpr
      (Or.inl ⟨rfl, ContentIndex.isTracked_of_isTrackedFor ht⟩)
  | fetched | missed | counted | notBrought | ungranted | unreferred | mismatch => cases hdone

/-- Where it stands, the call has nothing to do, and says that it is done; unless it is an upload
and the blob store fails. -/
theorem inert_of_stands (hs : Stands node c) (hcarried : Carried outside node c (answer, node')) :
    node' = node ∧ (Renders c .done answer ∨
      (∃ ns h b, c = .bring ns h b) ∧ outside.fault.isSome = true) := by
  cases hcarried with
  | granted ns sub =>
    obtain ⟨⟨hknown, hopen⟩, hsub⟩ := hs
    refine ⟨?_, Or.inl (.granted ns sub)⟩
    have hregistry : (node.registry.register ns sub).2 = node.registry := by
      have hsame : insert ns node.registry.known = node.registry.known :=
        Finset.insert_eq_of_mem (NamespaceRegistry.isKnown_iff.mp hknown)
      cases sub with
      | none => rw [NamespaceRegistry.register, hsame]
      | some sub =>
        rw [NamespaceRegistry.register, hsame]
        dsimp only
        rw [SetMap.add_of_contains (hsub sub rfl)]
    rw [StashNode.register, hregistry, Finset.insert_eq_of_mem hopen]
  | notGranted ns sub hclosed => exact absurd hs.1.2 hclosed
  | muted ns sub =>
    refine ⟨?_, Or.inl (.muted ns sub)⟩
    rw [StashNode.unsubscribe, NamespaceRegistry.unsubscribe, SetMap.remove_of_not_contains hs]
  | @brought ns h b hknown ht hb hfault =>
    obtain ⟨-, hserved⟩ := hs
    refine ⟨?_, Or.inl (.brought ns h b)⟩
    subst hb
    dsimp only [StashNode.addBytes, StashNode.markPresent]
    rw [BlobStore.addBytes_of_stored hserved.blob hserved.tagged,
      ContentIndex.markPresent_of_isPresent hserved.present]
  | @notBrought ns h b msg _ _ _ hfault =>
    exact ⟨rfl, Or.inr ⟨⟨ns, h, b, rfl⟩, Option.isSome_iff_exists.mpr ⟨msg, hfault⟩⟩⟩
  | ungranted hknown => exact absurd hs.1 (by simp [hknown])
  | unreferred hknown ht => exact absurd hs.2.tracked (by simp [ht])
  | @mismatch ns h b _ _ hb => exact absurd (node.blobs.addressed h b hs.2.blob) hb
  | fetched | missed | counted => exact hs.elim

/-! ## What every step keeps -/

/-- Grants and handles are for good. -/
theorem granted_store {sys : System hashNew} (o : StoreOp hashNew) :
    (sys.node.registry.isKnown ns = true → (sys.store o).node.registry.isKnown ns = true) ∧
      (ns ∈ sys.node.handles → ns ∈ (sys.store o).node.handles) := by
  cases o with
  | land bytes => exact ⟨id, id⟩
  | collect spared => exact ⟨id, id⟩
  | op op =>
    by_cases hop : ∃ ns' sub, op = .grant ns' sub
    · obtain ⟨ns', sub, rfl⟩ := hop
      exact ⟨fun hknown ↦ NamespaceRegistry.isKnown_register.mpr (Or.inr hknown),
        Finset.mem_insert_of_mem⟩
    · obtain ⟨hregistry, hhandles⟩ := registry_apply (s := sys) fun ns' sub h ↦ hop ⟨ns', sub, h⟩
      rw [store, hregistry, hhandles]
      exact ⟨id, id⟩

theorem ServeStep.granted (hstep : ServeStep api d waker s op t) :
    (s.system.node.registry.isKnown ns = true → t.system.node.registry.isKnown ns = true) ∧
      (ns ∈ s.system.node.handles → ns ∈ t.system.node.handles) := by
  have hmuted : (s.system.muted.node.registry.isKnown ns = true →
      t.system.muted.node.registry.isKnown ns = true) ∧
        (ns ∈ s.system.muted.node.handles → ns ∈ t.system.muted.node.handles) := by
    rcases hstep.takes with ⟨-, hsame⟩ | ⟨o, -, -, hstore⟩
    · rw [hsame]
      exact ⟨id, id⟩
    · rw [hstore]
      exact granted_store o
  exact hmuted

theorem forgets_muted {sys : System hashNew} {o : StoreOp hashNew} :
    Forgets ns h sys.muted o ↔ Forgets ns h sys o := by
  cases o with
  | op op =>
    cases op with
    | prune now faulty nsOrder order =>
      have hprune : sys.muted.node.pruneOnce now faulty nsOrder order = _ := muted_pruneOnce
      rw [Forgets, Forgets, hprune]
      exact Iff.rfl
    | _ => exact Iff.rfl
  | _ => exact Iff.rfl

theorem ServeStep.served (hstep : ServeStep api d waker s op t)
    (hs : Served ns h b s.system.node)
    (hop : ¬ ∃ o ∈ op.acts api, Forgets ns h s.system o ∨
      ∃ b', o.Brings b' ∧ hashNew b' = h ∧ b' ≠ b) : Served ns h b t.system.node := by
  have hbefore : Served ns h b s.system.muted.node := ⟨hs.tracked, hs.present, hs.blob, hs.tagged⟩
  have hafter : Served ns h b t.system.muted.node := by
    rcases hstep.takes with ⟨-, hsame⟩ | ⟨o, hone, -, hstore⟩
    · rw [hsame]
      exact hbefore
    · have ho : o ∈ op.acts api := hone ▸ List.mem_singleton_self o
      rw [hstore]
      refine hbefore.store (fun hforgets ↦ ?_) fun b' hbrings hdigest ↦ ?_
      · exact hop ⟨o, ho, Or.inl (forgets_muted.mp hforgets)⟩
      · by_contra hne
        exact hop ⟨o, ho, Or.inr ⟨b', hbrings, hdigest, hne⟩⟩
  exact ⟨hafter.tracked, hafter.present, hafter.blob, hafter.tagged⟩

/-- Who is told changes with the calls that say so. -/
theorem Shows.contains_iff (hs : Shows s m) (hstep : ServeStep api d waker s op t) :
    t.system.node.registry.subs.contains ns sub = true ↔
      (∃ y, op = .answers y ∧ y.Does api (.grant ns (some sub))) ∨
      (s.system.node.registry.subs.contains ns sub = true ∧
        ¬ ∃ y, op = .answers y ∧ y.Does api (.mute ns sub)) := by
  obtain ⟨evs, m', hop, hrun, -, ha'⟩ := hs.step hstep
  rw [← ha'.devices, ← hs.2.devices, ← hop.mem_done_iff, ← hop.mem_done_iff]
  cases hop with
  | answered =>
    rw [(Run.singleton_iff.mp hrun).mem_devices_iff, List.mem_singleton, List.mem_singleton]
    exact or_congr eq_comm (and_congr_right fun _ ↦ not_congr eq_comm)
  | senseless | refused | arrived | settled | swept | landed | collected | woke =>
    rw [Mailbox.devices_of_no_calls hrun (by simp)]
    simp

/-- **Every step keeps what a call has left behind**, unless it undoes it. -/
theorem Stands.step (hstands : Stands s.system.node c) (hs : Shows s m)
    (hstep : ServeStep api d waker s op t) (hop : ¬ Undoes api s op c) :
    Stands t.system.node c := by
  cases c with
  | grant ns sub =>
    refine ⟨⟨hstep.granted.1 hstands.1.1, hstep.granted.2 hstands.1.2⟩, ?_⟩
    rintro sub' rfl
    exact (hs.contains_iff hstep).mpr (Or.inr ⟨hstands.2 sub' rfl, hop⟩)
  | mute ns sub =>
    refine Bool.eq_false_iff.mpr fun hc ↦ ?_
    rcases (hs.contains_iff hstep).mp hc with hgrants | ⟨hc, -⟩
    · exact hop hgrants
    · exact Bool.eq_false_iff.mp hstands hc
  | bring ns h b => exact ⟨hstep.granted.1 hstands.1, hstep.served hstands.2 hop⟩
  | fetch ns h => exact hstands
  | count => exact hstands

/-! ## Repetitions -/

/-- There is one way to say that a call was carried out. -/
theorem Renders.unique_done {answer' : Answer} (hdone : Renders c .done answer)
    (hdone' : Renders c .done answer') : answer' = answer := by
  cases hdone <;> cases hdone' <;> rfl

/-- **A request may be repeated.**  In any run of whole operations of the server a call is carried
out, and after it nothing undoes what it did: for the subscription of a device, the device is not
muted; for a muting, the device does not subscribe; for an upload, no sweep lets go of the
reference, and no other bytes of its digest are stored; and a grant by itself is never undone.  Then
whoever makes the call again leaves the server exactly as it is, and is answered as the first one
was, unless the call is an upload and the blob store fails. -/
theorem retry_inert (hrun : Run (ServeStep api d waker) (bootServer hashNew policy) ops s)
    (hfirst : ServeStep api d waker s (.answers x) t) (hdoes : x.Does api c)
    (hrest : Run (Guarded (fun s op ↦ ¬ Undoes api s op c) (ServeStep api d waker)) t ops' u)
    (hallowed : api.refusal y.header y.request = none) (hcall : api.call? y.request = some c)
    (hagain : ServeStep api d waker u (.answers y) v) :
    v = u ∧ (y.answer = x.answer ∨
      (∃ ns h b, c = .bring ns h b) ∧ y.outside.fault.isSome = true) := by
  obtain ⟨-, m, -, -, hs⟩ := exists_shows (hrun.snoc hfirst)
  have hstands : Stands t.system.node c := by
    obtain ⟨node, hcarried, rfl⟩ := hfirst.carried hdoes.allowed hdoes.call
    exact stands_of_carried hcarried hdoes.done
  have hstill : Stands u.system.node c := by
    refine (hrest.invariant (I := fun s : Server hashNew ↦ Stands s.system.node c ∧ ∃ m, Shows s m)
      (fun s op t hinv hst ↦ ?_) ⟨hstands, m, hs⟩).1
    obtain ⟨hstands, m, hs⟩ := hinv
    obtain ⟨-, m', -, -, hs'⟩ := hs.step hst.2
    exact ⟨hstands.step hs hst.2 hst.1, m', hs'⟩
  obtain ⟨node, hcarried, rfl⟩ := hagain.carried hallowed hcall
  obtain ⟨rfl, hanswer⟩ := inert_of_stands hstill hcarried
  exact ⟨rfl, hanswer.imp_left hdoes.done.unique_done⟩

/-- The bytes are uploaded, the store is collected, and the upload is repeated. -/
theorem retry_inert_fix :
    let collected := sampleNode.collect fun _ ↦ false
    sampleApi.serve collected ⟨.ok (), none⟩ sampleUpload.header sampleUpload.request =
      (.text ⟨204, ""⟩, collected) := by
  intro collected
  let u : Server sampleHash := ⟨⟨collected, [], 0⟩, []⟩
  let served := sampleApi.serve collected ⟨.ok (), none⟩ sampleUpload.header sampleUpload.request
  let again : Exchange := { sampleUpload with answer := served.1 }
  have hallowed : sampleApi.refusal sampleUpload.header sampleUpload.request = none := by decide
  have hdoes : sampleUpload.Does sampleApi (.bring (idOf 1) zeroHash [0]) :=
    ⟨hallowed, call_sampleUpload, .brought _ _ _⟩
  have hcollects : Run (Guarded (fun s op ↦ ¬ Undoes sampleApi s op (.bring (idOf 1) zeroHash [0]))
      (ServeStep sampleApi passthroughDelivery noopWaker)) ⟨⟨sampleNode, [], 0⟩, []⟩
      [.background (.collect fun _ ↦ false)] u := by
    refine .cons ⟨?_, .background [] trivial ⟨nofun, rfl⟩⟩ (.nil _)
    rintro ⟨o, ho, hundoes⟩
    obtain rfl := List.mem_singleton.mp ho
    rcases hundoes with hforgets | ⟨b, hbrings, -⟩
    · exact hforgets
    · exact hbrings
  obtain ⟨hsame, hanswer⟩ := retry_inert (run_sampleArrival passthroughDelivery noopWaker)
    (step_sampleUpload _ _) hdoes hcollects hallowed call_sampleUpload (y := again)
    (.answers [] rfl)
  have hnode : served.2 = collected := congrArg (fun s : Server sampleHash ↦ s.system.node) hsame
  exact Prod.ext (hanswer.resolve_right fun hfault ↦ absurd hfault.2 (by decide)) hnode

/-! ## Refused uploads -/

/-- A record of the namespace with this hash has arrived, and no sweep has let go of it since. -/
def Referred (api : ControlApi) (d : DeliveryService) (waker : Waker) (policy : RetentionPolicy)
    (ops : List (ServerOp hashNew)) (s : Server hashNew) (ns : NamespaceId) (h : ContentHash) :
    Prop :=
  ∃ before op after u v, ops = before ++ op :: after ∧
    Run (ServeStep api d waker) (bootServer hashNew policy) before u ∧
      ServeStep api d waker u op v ∧ (∃ o, op = .background o ∧ o.Wants ns h) ∧
        Run (Guarded (fun s op ↦ ¬ ∃ o, op = .background o ∧ Forgets ns h s.system o)
          (ServeStep api d waker)) v after s

/-- References come with arrivals, and go with sweeps. -/
theorem ServeStep.isTrackedFor_iff (hstep : ServeStep api d waker s op t) :
    t.system.node.content.isTrackedFor ns h = true ↔ (∃ o, op = .background o ∧ o.Wants ns h) ∨
      (s.system.node.content.isTrackedFor ns h = true ∧
        ¬ ∃ o, op = .background o ∧ Forgets ns h s.system o) := by
  cases op with
  | answers x =>
    have hsame : t.system.node.content.isTrackedFor ns h =
        s.system.node.content.isTrackedFor ns h := by
      rcases hstep.answers_cases with ⟨refusal, -, -, rfl⟩ | ⟨-, -, -, rfl⟩ |
          ⟨c, node, -, -, hcarried, rfl⟩
      · rfl
      · rfl
      · generalize x.answer = answer at hcarried
        cases hcarried <;> rfl
    rw [hsame]
    simp
  | background o =>
    cases hstep with
    | background owed ho hst =>
      obtain ⟨-, rfl⟩ := hst
      rw [isTrackedFor_store]
      simp
  | wakes w order sent =>
    cases hstep
    simp

theorem isTrackedFor_iff_referred
    (hrun : Run (ServeStep api d waker) (bootServer hashNew policy) ops s) :
    s.system.node.content.isTrackedFor ns h = true ↔ Referred api d waker policy ops s ns h :=
  hrun.iff_since_guarded (q := fun s ↦ s.system.node.content.isTrackedFor ns h = true)
    (A := fun op ↦ ∃ o, op = .background o ∧ o.Wants ns h)
    (B := fun s op ↦ ∃ o, op = .background o ∧ Forgets ns h s.system o)
    (fun _ _ _ hst ↦ hst.isTrackedFor_iff) Bool.false_ne_true

/-- **What an upload is told, and why.**  In every run of whole operations of the server, take an
upload that passes the guard and makes sense.  If no registration of its namespace was carried out
before, it is answered with `404`; otherwise, if no record with the hash has arrived there or a
sweep has let go of it since, with `409`; otherwise with `400` if the bytes are not what the hash
says, with `502` and the reason if the blob store fails, and with `204` if not.  Whatever else than
`204` it is answered with leaves no trace. -/
theorem upload_answers (hrun : Run (ServeStep api d waker) (bootServer hashNew policy) ops s)
    (hallowed : api.refusal x.header x.request = none)
    (hcall : api.call? x.request = some (.bring ns h b))
    (hstep : ServeStep api d waker s (.answers x) t) :
    (¬ OptedIn api ops ns → x.answer = .text ⟨404, ""⟩) ∧
    (OptedIn api ops ns → ¬ Referred api d waker policy ops s ns h → x.answer = .text ⟨409, ""⟩) ∧
    (Referred api d waker policy ops s ns h →
      (hashNew b ≠ h → x.answer = .text ⟨400, "content does not match its hash"⟩) ∧
      (hashNew b = h → ∀ msg, x.outside.fault = some msg → x.answer = .text ⟨502, msg⟩) ∧
      (hashNew b = h → x.outside.fault = none → x.answer = .text ⟨204, ""⟩)) ∧
    (x.answer ≠ .text ⟨204, ""⟩ → t = s) := by
  obtain ⟨evss, m, hm, hmrun, -, ha⟩ := exists_shows hrun
  rw [← mem_granted_iff hm hmrun, ha.granted, ← isTrackedFor_iff_referred hrun]
  have hgranted : s.system.node.content.isTrackedFor ns h = true →
      s.system.node.registry.isKnown ns = true := fun ht ↦
    (ha.granted ns).mp (m.refs_granted _ ((ha.refs ns h).mpr ht))
  obtain ⟨node, hcarried, rfl⟩ := hstep.carried hallowed hcall
  generalize x.answer = answer at hcarried ⊢
  cases hcarried with
  | brought hknown ht hb hfault => simp [hknown, ht, hb, hfault]
  | notBrought hknown ht hb hfault => simp [hknown, ht, hb, hfault]
  | ungranted hknown =>
    have ht : ¬ s.system.node.content.isTrackedFor ns h = true := fun ht ↦
      absurd (hgranted ht) (by simp [hknown])
    simp [hknown, ht]
  | unreferred hknown ht => simp [hknown, ht]
  | mismatch hknown ht hb => simp [hknown, ht, hb]

/-- The fix has arrived, and its bytes are offered while the disk is full. -/
theorem upload_answers_fix :
    (sampleApi.serve unservedFix ⟨.ok (), some "disk full"⟩ sampleUpload.header
      sampleUpload.request).1 = .text ⟨502, "disk full"⟩ := by
  let outside : Outside := ⟨.ok (), some "disk full"⟩
  let x : Exchange := { sampleUpload with
    outside := outside
    answer := (sampleApi.serve unservedFix outside sampleUpload.header sampleUpload.request).1 }
  have hrun := run_sampleArrival passthroughDelivery noopWaker
  have hallowed : sampleApi.refusal sampleUpload.header sampleUpload.request = none := by decide
  have hreferred : Referred sampleApi passthroughDelivery noopWaker (.fromHours 24)
      (sampleOps.take 2) ⟨⟨unservedFix, [], 0⟩, []⟩ (idOf 1) zeroHash :=
    (isTrackedFor_iff_referred hrun).mp (by decide)
  obtain ⟨-, -, hanswers, -⟩ :=
    upload_answers hrun hallowed call_sampleUpload (x := x) (.answers [] rfl)
  exact (hanswers hreferred).2.1 (by decide) "disk full" rfl

end TrailStash
