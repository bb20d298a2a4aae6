import TrailStash.Steps

/-!
# Registering a namespace

`register` imports a namespace, opens it for replication, records the grant and, the first time,
spawns a watcher task; the watcher subscribes to the namespace's events and handles them one after
the other.  Here calls of `register` and watchers run as tasks of a pool, with the steps between
which other tasks may run, the failures of the docs engine, and calls that are dropped at an await.
Remote inserts happen as soon as replication is open, and their events go to the watchers that
have subscribed by then.

Nothing looks at the entries that arrived between opening and subscribing, so these are never
referenced (`exists_unnoticed`).  `noticed_iff` says precisely what an idle watcher has missed: the
hashes inserted before it subscribed that no later insert has brought again.
-/

set_option autoImplicit false

namespace TrailStash

open Runs StashNode
open Pool (Alone Fired)

variable {hashNew : Bytes → ContentHash} {ns ns' : NamespaceId} {sub : Option PushSubscription}
  {h : ContentHash}

/-! ## The tasks -/

/-- Where a call of `register` is. -/
inductive RegisterPc
  /-- About to parse the ticket and to take the handles lock. -/
  | start
  /-- Holds the handles lock; awaiting `import_namespace`. -/
  | importing
  /-- The namespace is imported; about to call `start_sync`. -/
  | imported
  /-- Awaiting `start_sync`. -/
  | syncing
  /-- The handle is open and the lock released; about to record the grant. -/
  | opened
  /-- The grant is recorded; `first` says whether a watcher is to be spawned. -/
  | recorded (first : Bool)
  /-- Returned, with or without an error. -/
  | returned (ok : Bool)
  /-- Dropped at an await. -/
  | abandoned

/-- Where a watcher is; `queue` are the events delivered to it and not yet taken. -/
inductive WatchPc
  /-- About to subscribe. -/
  | spawned
  /-- Awaiting the next event. -/
  | listening (queue : List Delivery)
  /-- Handling an event. -/
  | handling (d : Delivery) (pc : HandlerPc) (queue : List Delivery)
  /-- The subscription failed or the event stream broke. -/
  | stopped

/-- A task: a call of `register`, or the watcher of a namespace. -/
inductive JoinTask
  /-- A call of `register`. -/
  | register (ns : NamespaceId) (sub : Option PushSubscription) (pc : RegisterPc)
  /-- A watcher. -/
  | watch (ns : NamespaceId) (pc : WatchPc)

/-- What they share. -/
structure Joining (hashNew : Bytes → ContentHash) extends Shared hashNew where
  /-- Whether a call holds the handles lock across its awaits. -/
  handlesHeld : Bool
  /-- The namespaces that are open for replication. -/
  opened : Finset NamespaceId

/-! ## The steps -/

/-- The steps of a call of `register`. -/
inductive RegisterStep (ns : NamespaceId) (sub : Option PushSubscription) :
    Joining hashNew → RegisterPc → Joining hashNew → RegisterPc → Prop
  | badTicket {σ} : RegisterStep ns sub σ .start σ (.returned false)
  | present {σ} (hfree : σ.handlesHeld = false) (hhandle : ns ∈ σ.node.handles) :
      RegisterStep ns sub σ .start σ .opened
  | lock {σ} (hfree : σ.handlesHeld = false) (hhandle : ns ∉ σ.node.handles) :
      RegisterStep ns sub σ .start { σ with handlesHeld := true } .importing
  | importFails {σ} :
      RegisterStep ns sub σ .importing { σ with handlesHeld := false } (.returned false)
  | imports {σ} : RegisterStep ns sub σ .importing σ .imported
  /-- From here on the namespace may replicate. -/
  | syncs {σ} : RegisterStep ns sub σ .imported { σ with opened := insert ns σ.opened } .syncing
  | syncFails {σ} :
      RegisterStep ns sub σ .syncing { σ with handlesHeld := false } (.returned false)
  | joins {σ} : RegisterStep ns sub σ .syncing
      { σ with
        node := { σ.node with handles := insert ns σ.node.handles }
        handlesHeld := false } .opened
  | dropLock {σ} : RegisterStep ns sub σ .start σ .abandoned
  | dropImport {σ} : RegisterStep ns sub σ .importing { σ with handlesHeld := false } .abandoned
  | dropSync {σ} : RegisterStep ns sub σ .syncing { σ with handlesHeld := false } .abandoned
  | records {σ} : RegisterStep ns sub σ .opened
      { σ with node := { σ.node with registry := (σ.node.registry.register ns sub).2 } }
      (.recorded (σ.node.registry.register ns sub).1)
  | skips {σ} : RegisterStep ns sub σ (.recorded false) σ (.returned true)

/-- The steps of a watcher. -/
inductive WatchStep : Joining hashNew → WatchPc → Joining hashNew → WatchPc → Prop
  | subscribes {σ} : WatchStep σ .spawned σ (.listening [])
  | refused {σ} : WatchStep σ .spawned σ .stopped
  | next {σ d queue} : WatchStep σ (.listening (d :: queue)) σ (.handling d .start queue)
  | handles {σ σ' d pc pc' queue} (h : HandlerStep d σ.toShared pc σ' pc') :
      WatchStep σ (.handling d pc queue) { σ with toShared := σ' } (.handling d pc' queue)
  | finishes {σ d ws queue} : WatchStep σ (.handling d (.done ws) queue) σ (.listening queue)
  | breaks {σ queue} : WatchStep σ (.listening queue) σ .stopped

/-- One atomic step of a task. -/
inductive JoinMicro : Joining hashNew → JoinTask → Joining hashNew → JoinTask → Prop
  | register {σ σ' ns sub pc pc'} (h : RegisterStep ns sub σ pc σ' pc') :
      JoinMicro σ (.register ns sub pc) σ' (.register ns sub pc')
  | watch {σ σ' ns pc pc'} (h : WatchStep σ pc σ' pc') :
      JoinMicro σ (.watch ns pc) σ' (.watch ns pc')

/-- A watcher that has subscribed is given an event. -/
def WatchPc.take (d : Delivery) : WatchPc → WatchPc
  | .listening queue => .listening (queue ++ [d])
  | .handling d' pc queue => .handling d' pc (queue ++ [d])
  | pc => pc

/-- An event goes to the watcher of its namespace. -/
def JoinTask.deliver (d : Delivery) : JoinTask → JoinTask
  | .watch ns pc => .watch ns (if d.ns = ns then pc.take d else pc)
  | t => t

/-- What happens next. -/
inductive JoinEvent
  /-- The task, where it was before its step. -/
  | fire (t : JoinTask)
  /-- `register` is called. -/
  | call (ns : NamespaceId) (sub : Option PushSubscription)
  /-- A record is inserted from remote. -/
  | insert (d : Delivery) (replaced : Entry → Bool)

/-- A node, the calls of `register` on it and its watchers. -/
abbrev JoinPool (hashNew : Bytes → ContentHash) := Pool (Joining hashNew) JoinTask

/-- One step of the pool. -/
inductive JoinStep : JoinPool hashNew → JoinEvent → JoinPool hashNew → Prop
  | fire {p p' : JoinPool hashNew} {t : JoinTask} (h : Pool.Fire JoinMicro p t p') :
      JoinStep p (.fire t) p'
  /-- The first call for a namespace returns, having spawned its watcher. -/
  | spawn {σ : Joining hashNew} (before after : List JoinTask) (ns : NamespaceId)
      (sub : Option PushSubscription) :
      JoinStep ⟨σ, before ++ .register ns sub (.recorded true) :: after⟩
        (.fire (.register ns sub (.recorded true)))
        ⟨σ, .watch ns .spawned :: (before ++ .register ns sub (.returned true) :: after)⟩
  | call {σ : Joining hashNew} {ts : List JoinTask} (ns : NamespaceId)
      (sub : Option PushSubscription) :
      JoinStep ⟨σ, ts⟩ (.call ns sub) ⟨σ, .register ns sub .start :: ts⟩
  | insert {σ : Joining hashNew} {ts : List JoinTask} (d : Delivery) (replaced : Entry → Bool)
      (hopen : d.ns ∈ σ.opened) :
      JoinStep ⟨σ, ts⟩ (.insert d replaced)
        ⟨{ σ with node := σ.node.replicate d.ns d.entry replaced }, ts.map (JoinTask.deliver d)⟩

/-- The pool at boot. -/
def bootJoin (hashNew : Bytes → ContentHash) (retention : RetentionPolicy) : JoinPool hashNew :=
  ⟨⟨⟨.boot hashNew retention, false⟩, false, ∅⟩, []⟩

/-- **The call.**  Run alone up to its return, it is the operation `register`. -/
theorem register_alone (σ : Joining hashNew) (hfree : σ.handlesHeld = false) :
    ∃ opened, Alone JoinMicro σ (.register ns sub .start)
      { σ with node := σ.node.register ns sub, opened := opened }
      (.register ns sub (.recorded (σ.node.registry.register ns sub).1)) := by
  obtain ⟨⟨node, trackedHeld⟩, handlesHeld, opened⟩ := σ
  obtain rfl : handlesHeld = false := hfree
  by_cases hhandle : ns ∈ node.handles
  · refine ⟨opened, .step (.register (.present rfl hhandle)) (.step (.register .records) ?_)⟩
    rw [StashNode.register, Finset.insert_eq_of_mem hhandle]
    exact .refl _ _
  · refine ⟨insert ns opened, .step (.register (.lock rfl hhandle)) ?_⟩
    refine .step (.register .imports) (.step (.register .syncs) ?_)
    exact .step (.register .joins) (.step (.register .records) (.refl _ _))

/-! ## One watcher -/

variable {p p' : JoinPool hashNew} {ev : JoinEvent} {evs : List JoinEvent} {t t' : JoinTask}
  {σ σ' : Joining hashNew} {d : Delivery} {queue : List Delivery} {pc pc' : WatchPc}

/-- The task is the watcher of `ns` or is about to spawn it. -/
def JoinTask.claims (ns : NamespaceId) : JoinTask → Bool
  | .register ns' _ (.recorded true) => ns' = ns
  | .watch ns' _ => ns' = ns
  | _ => false

/-- A namespace has one watcher at most, and none before it is known. -/
structure OneWatcher (ns : NamespaceId) (p : JoinPool hashNew) : Prop where
  /-- One at most. -/
  one : p.tasks.countP (JoinTask.claims ns) ≤ 1
  /-- None before the grant. -/
  none : p.shared.node.registry.isKnown ns = false → p.tasks.countP (JoinTask.claims ns) = 0

theorem OneWatcher.eq (hs : OneWatcher ns p) (hpc : .watch ns pc ∈ p.tasks)
    (hpc' : .watch ns pc' ∈ p.tasks) : pc = pc' := by
  have heq := Pool.eq_of_countP_le_one hs.one hpc hpc' (by simp [JoinTask.claims])
    (by simp [JoinTask.claims])
  exact (JoinTask.watch.inj heq).2

@[simp] theorem claims_deliver : (t.deliver d).claims ns = t.claims ns := by cases t <;> rfl

/-- No watcher touches the grants or the handles. -/
theorem WatchStep.frame (hstep : WatchStep σ pc σ' pc') : Frame σ.node σ'.node := by
  cases hstep with
  | handles h => exact (Micro.handler h).frame
  | _ => exact .refl _

/-- A watcher adds a reference in its first step with an event. -/
theorem WatchStep.references_cases (hstep : WatchStep σ pc σ' pc') :
    (∃ d queue, pc = .handling d .start queue ∧ pc' = .handling d .wanted queue ∧ ∀ ns h,
      σ'.node.content.isTrackedFor ns h = true ↔
        (ns = d.ns ∧ h = d.hash) ∨ σ.node.content.isTrackedFor ns h = true) ∨
    ∀ ns h, σ'.node.content.isTrackedFor ns h = σ.node.content.isTrackedFor ns h := by
  cases hstep with
  | handles h =>
    rcases h.references_cases with ⟨rfl, rfl, hiff⟩ | ⟨-, -, hsame⟩
    · exact Or.inl ⟨_, _, rfl, rfl, hiff⟩
    · exact Or.inr hsame
  | _ => exact Or.inr fun _ _ ↦ rfl

/-- A grant is for good. -/
theorem JoinMicro.isKnown_of_isKnown (hm : JoinMicro σ t σ' t')
    (hknown : σ.node.registry.isKnown ns = true) : σ'.node.registry.isKnown ns = true := by
  cases hm with
  | register hstep =>
    cases hstep with
    | records => exact NamespaceRegistry.isKnown_register.mpr (Or.inr hknown)
    | _ => exact hknown
  | watch hstep =>
    rw [hstep.frame.registry]
    exact hknown

/-- A claim is made only by recording the first grant. -/
theorem JoinMicro.claims_cases (hm : JoinMicro σ t σ' t') (hc : t'.claims ns = true) :
    t.claims ns = true ∨
      (σ.node.registry.isKnown ns = false ∧ σ'.node.registry.isKnown ns = true) := by
  cases hm with
  | @register _ ns' sub _ _ hstep =>
    cases hstep with
    | records =>
      cases hfirst : (σ.node.registry.register ns' sub).1 with
      | false => exact absurd (hfirst ▸ hc) (by simp [JoinTask.claims])
      | true =>
        rw [hfirst] at hc
        obtain rfl : ns' = ns := of_decide_eq_true hc
        refine Or.inr ⟨decide_eq_false (of_decide_eq_true hfirst), ?_⟩
        exact NamespaceRegistry.isKnown_register.mpr (Or.inl rfl)
    | _ => exact absurd hc (by simp [JoinTask.claims])
  | watch hstep => exact Or.inl hc

/-- As many watchers as before, and the namespace is known if it was. -/
theorem OneWatcher.of_count (hs : OneWatcher ns p)
    (hcount : p'.tasks.countP (JoinTask.claims ns) = p.tasks.countP (JoinTask.claims ns))
    (hknown : p'.shared.node.registry = p.shared.node.registry) : OneWatcher ns p' :=
  ⟨hcount.trans_le hs.one, fun hunknown ↦ hcount.trans (hs.none (hknown ▸ hunknown))⟩

theorem oneWatcher_step (hs : OneWatcher ns p) (hstep : JoinStep p ev p') : OneWatcher ns p' := by
  cases hstep with
  | @fire p p' t hfire =>
    obtain ⟨t', hf⟩ := hfire.fired
    have hcount := hf.count (JoinTask.claims ns)
    have hle : (t.claims ns).toNat ≤ p.tasks.countP (JoinTask.claims ns) := by
      cases hc : t.claims ns with
      | false => exact Nat.zero_le _
      | true => exact List.countP_pos_iff.mpr ⟨t, hf.mem, hc⟩
    have hclaims : t'.claims ns = true → _ := hf.micro.claims_cases
    refine ⟨?_, fun hunknown ↦ ?_⟩
    · cases hc : t'.claims ns with
      | false =>
        rw [hc, Bool.toNat_false] at hcount
        have := hs.one
        omega
      | true =>
        rw [hc, Bool.toNat_true] at hcount
        rcases hclaims hc with hc | ⟨hunknown, -⟩
        · rw [hc, Bool.toNat_true] at hcount
          have := hs.one
          omega
        · have := hs.none hunknown
          omega
    · have hnone : p.tasks.countP (JoinTask.claims ns) = 0 := by
        refine hs.none (Bool.eq_false_iff.mpr fun hknown ↦ ?_)
        exact absurd (hf.micro.isKnown_of_isKnown hknown) (Bool.eq_false_iff.mp hunknown)
      have hc' : t'.claims ns = false := by
        refine Bool.eq_false_iff.mpr fun hc ↦ ?_
        rcases hclaims hc with hc | ⟨-, hknown⟩
        · rw [hc, Bool.toNat_true] at hle
          omega
        · exact absurd hknown (Bool.eq_false_iff.mp hunknown)
      rw [hc', Bool.toNat_false] at hcount
      omega
  | spawn before after ns' sub =>
    refine hs.of_count ?_ rfl
    simp [List.countP_append, List.countP_cons, JoinTask.claims, Nat.add_assoc]
  | call ns' sub => exact hs.of_count (List.countP_cons_of_neg (by simp [JoinTask.claims])) rfl
  | insert d replaced =>
    refine hs.of_count ?_ rfl
    rw [List.countP_map]
    exact List.countP_congr fun t _ ↦ by simp

/-! ## What a watcher is told -/

/-- The events a watcher has been given and not finished. -/
def WatchPc.deliveries : WatchPc → List Delivery
  | .listening queue => queue
  | .handling d _ queue => d :: queue
  | _ => []

/-- The hashes a watcher has been told of and has not yet referenced. -/
def WatchPc.pending : WatchPc → List ContentHash
  | .listening queue => queue.map Delivery.hash
  | .handling d .start queue => d.hash :: queue.map Delivery.hash
  | .handling _ _ queue => queue.map Delivery.hash
  | _ => []

/-- The watcher receives events. -/
def WatchPc.Hears : WatchPc → Prop
  | .listening _ => True
  | .handling _ _ _ => True
  | _ => False

/-- A watcher is given the events of its own namespace. -/
def Routed (p : JoinPool hashNew) : Prop :=
  ∀ ns pc, .watch ns pc ∈ p.tasks → ∀ d ∈ pc.deliveries, d.ns = ns

theorem JoinMicro.of_watch (hm : JoinMicro σ (.watch ns pc) σ' t') :
    ∃ pc', t' = .watch ns pc' ∧ WatchStep σ pc σ' pc' := by
  cases hm with
  | watch hstep => exact ⟨_, rfl, hstep⟩

theorem WatchStep.ne_spawned (hstep : WatchStep σ pc σ' pc') : pc' ≠ .spawned := by
  cases hstep <;> exact nofun

theorem WatchStep.shared_of_spawned (hstep : WatchStep σ .spawned σ' pc') : σ' = σ := by
  cases hstep <;> rfl

theorem WatchStep.of_spawned (hstep : WatchStep σ .spawned σ' pc') (hhears : pc'.Hears) :
    pc' = .listening [] := by
  cases hstep with
  | subscribes => rfl
  | refused => exact hhears.elim

theorem WatchStep.deliveries_subset (hstep : WatchStep σ pc σ' pc') :
    pc'.deliveries ⊆ pc.deliveries := by
  cases hstep with
  | next => exact List.Subset.refl _
  | handles => exact List.Subset.refl _
  | finishes => exact List.subset_cons_self _ _
  | _ => exact List.nil_subset _

theorem mem_deliveries_take {d' : Delivery} (hd : d' ∈ (pc.take d).deliveries) :
    d' = d ∨ d' ∈ pc.deliveries := by
  cases pc with
  | listening queue => exact (List.mem_append.mp hd).symm.imp_left List.mem_singleton.mp
  | handling d₀ pc queue =>
    rcases List.mem_cons.mp hd with rfl | hd
    · exact Or.inr List.mem_cons_self
    · refine (List.mem_append.mp hd).symm.imp List.mem_singleton.mp (List.mem_cons_of_mem _)
  | _ => exact absurd hd List.not_mem_nil

theorem pending_take (hhears : pc.Hears) : (pc.take d).pending = pc.pending ++ [d.hash] := by
  cases pc with
  | listening queue => exact List.map_append
  | handling d₀ pc queue => cases pc <;> simp [WatchPc.take, WatchPc.pending]
  | _ => exact hhears.elim

theorem hears_take : (pc.take d).Hears ↔ pc.Hears := by cases pc <;> exact Iff.rfl

theorem take_ne_spawned (hpc : pc ≠ .spawned) : pc.take d ≠ .spawned := by
  cases pc with
  | spawned => exact absurd rfl hpc
  | _ => exact nofun

/-- The watchers after an insert. -/
theorem mem_deliver {ts : List JoinTask} (hmem : .watch ns pc ∈ ts.map (JoinTask.deliver d)) :
    ∃ pc₀, .watch ns pc₀ ∈ ts ∧ pc = if d.ns = ns then pc₀.take d else pc₀ := by
  obtain ⟨t, ht, heq⟩ := List.mem_map.mp hmem
  cases t with
  | register => exact absurd heq (by simp [JoinTask.deliver])
  | watch ns₀ pc₀ =>
    obtain ⟨rfl, rfl⟩ := JoinTask.watch.inj heq
    exact ⟨pc₀, ht, rfl⟩

/-- The watchers after a first call has returned. -/
theorem mem_spawn {before after : List JoinTask} {ok : Bool}
    (hmem : .watch ns pc ∈ .watch ns' .spawned :: (before ++ .register ns' sub (.returned ok) ::
      after)) : (ns = ns' ∧ pc = .spawned) ∨
        .watch ns pc ∈ before ++ .register ns' sub (.recorded true) :: after := by
  rcases List.mem_cons.mp hmem with heq | hmem
  · exact Or.inl (JoinTask.watch.inj heq)
  · refine Or.inr (List.mem_append.mpr ((List.mem_append.mp hmem).imp_right fun hmem ↦ ?_))
    exact List.mem_cons_of_mem _ ((List.mem_cons.mp hmem).resolve_left nofun)

theorem routed_step (hs : Routed p) (hstep : JoinStep p ev p') : Routed p' := by
  intro ns pc hmem d hd
  cases hstep with
  | fire hfire =>
    obtain ⟨t', hf⟩ := hfire.fired
    rcases hf.news _ hmem with rfl | hmem
    · cases hf.micro with
      | watch hstep => exact hs ns _ hf.mem d (hstep.deliveries_subset hd)
    · exact hs ns pc hmem d hd
  | spawn before after ns' sub =>
    rcases mem_spawn hmem with ⟨-, rfl⟩ | hmem
    · exact absurd hd List.not_mem_nil
    · exact hs ns pc hmem d hd
  | call => exact hs ns pc ((List.mem_cons.mp hmem).resolve_left nofun) d hd
  | insert d₀ replaced =>
    obtain ⟨pc₀, hmem₀, rfl⟩ := mem_deliver hmem
    split at hd
    · next hns => exact (mem_deliveries_take hd).elim (fun heq ↦ heq ▸ hns) (hs ns pc₀ hmem₀ d)
    · exact hs ns pc₀ hmem₀ d hd

/-- **Who adds a reference**: a watcher in its first step with an event. -/
theorem JoinMicro.references_cases (hm : JoinMicro σ t σ' t') :
    (∃ ns₀ d queue, t = .watch ns₀ (.handling d .start queue) ∧
      t' = .watch ns₀ (.handling d .wanted queue) ∧ ∀ ns h,
        σ'.node.content.isTrackedFor ns h = true ↔
          (ns = d.ns ∧ h = d.hash) ∨ σ.node.content.isTrackedFor ns h = true) ∨
    ∀ ns h, σ'.node.content.isTrackedFor ns h = σ.node.content.isTrackedFor ns h := by
  cases hm with
  | register hstep => cases hstep <;> exact Or.inr fun _ _ ↦ rfl
  | watch hstep =>
    refine hstep.references_cases.imp_left ?_
    rintro ⟨d, queue, rfl, rfl, hiff⟩
    exact ⟨_, d, queue, rfl, rfl, hiff⟩

/-- As long as no watcher of `ns` has subscribed, `ns` references nothing. -/
def Silent (ns : NamespaceId) (p : JoinPool hashNew) : Prop :=
  (∀ pc, .watch ns pc ∈ p.tasks → pc = .spawned) →
    ∀ h, p.shared.node.content.isTrackedFor ns h = false

theorem silent_step (hr : Routed p) (hs : Silent ns p) (hstep : JoinStep p ev p') :
    Silent ns p' := by
  intro hall h
  cases hstep with
  | @fire p p' t hfire =>
    obtain ⟨t', hf⟩ := hfire.fired
    have hspawned : ∀ pc, .watch ns pc ∈ p.tasks → pc = .spawned := by
      intro pc hmem
      rcases hf.keeps _ hmem with rfl | hmem
      · cases hf.micro with
        | watch hstep => exact absurd (hall _ hf.mem') hstep.ne_spawned
      · exact hall pc hmem
    rcases hf.micro.references_cases with ⟨ns₀, d, queue, rfl, rfl, hiff⟩ | hsame
    · refine Bool.eq_false_iff.mpr fun ht ↦ ?_
      rcases (hiff ns h).mp ht with ⟨hns, -⟩ | ht
      · have hd : d.ns = ns₀ := hr ns₀ _ hf.mem d List.mem_cons_self
        obtain rfl : ns = ns₀ := hns.trans hd
        exact absurd (hspawned _ hf.mem) nofun
      · exact absurd ht (Bool.eq_false_iff.mp (hs hspawned h))
    · exact (hsame ns h).trans (hs hspawned h)
  | spawn before after ns' sub =>
    refine hs (fun pc hmem ↦ hall pc (List.mem_cons_of_mem _ ?_)) h
    refine List.mem_append.mpr ((List.mem_append.mp hmem).imp_right fun hmem ↦ ?_)
    exact List.mem_cons_of_mem _ ((List.mem_cons.mp hmem).resolve_left nofun)
  | call => exact hs (fun pc hmem ↦ hall pc (List.mem_cons_of_mem _ hmem)) h
  | insert d replaced =>
    refine hs (fun pc hmem ↦ ?_) h
    by_contra hpc
    have hmem' := List.mem_map_of_mem (f := JoinTask.deliver d) hmem
    have hspawned := hall _ hmem'
    split at hspawned
    · exact take_ne_spawned hpc hspawned
    · exact hpc hspawned

/-- The hash that an event inserts for `ns`. -/
def JoinEvent.inserts (ns : NamespaceId) : JoinEvent → Option ContentHash
  | .insert d _ => if d.ns = ns then some d.hash else none
  | _ => none

/-- The hashes inserted for `ns`. -/
def inserted (ns : NamespaceId) (evs : List JoinEvent) : List ContentHash :=
  evs.filterMap (JoinEvent.inserts ns)

theorem inserted_append {evs' : List JoinEvent} :
    inserted ns (evs ++ evs') = inserted ns evs ++ inserted ns evs' := List.filterMap_append

/-- A step that inserts nothing for `ns`. -/
theorem inserted_snoc (hnone : ev.inserts ns = none) :
    inserted ns (evs ++ [ev]) = inserted ns evs := by
  rw [inserted_append, inserted, inserted, List.filterMap_cons_none hnone, List.filterMap_nil,
    List.append_nil]

/-- The watcher of `ns` has subscribed, and it has referenced or still has before it exactly the
hashes inserted since. -/
def Told (ns : NamespaceId) (evs : List JoinEvent) (p : JoinPool hashNew) : Prop :=
  ∃ pc, .watch ns pc ∈ p.tasks ∧ pc ≠ .spawned ∧ (pc.Hears → ∀ h, h ∈ inserted ns evs ↔
    p.shared.node.content.isTrackedFor ns h = true ∨ h ∈ pc.pending)

/-- A watcher references what it takes from its queue. -/
theorem WatchStep.told (hstep : WatchStep σ pc σ' pc') (hr : ∀ d ∈ pc.deliveries, d.ns = ns)
    (hpc : pc ≠ .spawned) (hhears : pc'.Hears) : pc.Hears ∧ ∀ h,
      (σ'.node.content.isTrackedFor ns h = true ∨ h ∈ pc'.pending ↔
        σ.node.content.isTrackedFor ns h = true ∨ h ∈ pc.pending) := by
  cases hstep with
  | subscribes => exact absurd rfl hpc
  | next => exact ⟨trivial, fun _ ↦ Iff.rfl⟩
  | @handles σ₁ d pc pc₁ queue hstep =>
    refine ⟨trivial, fun h ↦ ?_⟩
    rcases hstep.references_cases with ⟨rfl, rfl, hiff⟩ | ⟨hpc, hpc₁, hsame⟩
    · have hd : d.ns = ns := hr d List.mem_cons_self
      have hpending : h ∈ (WatchPc.handling d .start queue).pending ↔
          h = d.hash ∨ h ∈ (WatchPc.handling d .wanted queue).pending := List.mem_cons
      rw [hiff ns h, hpending, hd, and_iff_right rfl, or_assoc, or_left_comm]
    · have hrest : ∀ {pc : HandlerPc}, pc ≠ .start →
          (WatchPc.handling d pc queue).pending = queue.map Delivery.hash := by
        intro pc hne
        cases pc with
        | start => exact absurd rfl hne
        | _ => rfl
      rw [hrest hpc, hrest hpc₁]
      exact or_congr_left (Bool.eq_iff_iff.mp (hsame ns h))
  | finishes => exact ⟨trivial, fun _ ↦ Iff.rfl⟩
  | _ => exact hhears.elim

theorem told_step (hr : Routed p) (ho : OneWatcher ns p) (hs : Told ns evs p)
    (hstep : JoinStep p ev p') : Told ns (evs ++ [ev]) p' := by
  obtain ⟨pc, hmem, hpc, htold⟩ := hs
  rw [Told]
  cases hstep with
  | @fire p p' t hfire =>
    obtain ⟨t', hf⟩ := hfire.fired
    rw [inserted_snoc rfl]
    by_cases ht : t = .watch ns pc
    · -- the watcher itself takes a step
      subst ht
      obtain ⟨pc', rfl, hstep⟩ := hf.micro.of_watch
      refine ⟨pc', hf.mem', hstep.ne_spawned, fun hhears h ↦ ?_⟩
      obtain ⟨hhears, hiff⟩ := hstep.told (hr ns pc hmem) hpc hhears
      exact (htold hhears h).trans (hiff h).symm
    · -- another task does, and it references nothing for this namespace
      have hmem' := (hf.keeps _ hmem).resolve_left fun heq ↦ ht heq.symm
      refine ⟨pc, hmem', hpc, fun hhears h ↦ (htold hhears h).trans (or_congr_left ?_)⟩
      rcases hf.micro.references_cases with ⟨ns₀, d, queue, rfl, -, hiff⟩ | hsame
      · refine ⟨fun ht ↦ (hiff ns h).mpr (Or.inr ht), fun ht' ↦ ?_⟩
        refine ((hiff ns h).mp ht').resolve_left ?_
        rintro ⟨hns, -⟩
        obtain rfl : ns = ns₀ := hns.trans (hr ns₀ _ hf.mem d List.mem_cons_self)
        exact ht (congrArg _ (ho.eq hf.mem hmem))
      · exact (Bool.eq_iff_iff.mp (hsame ns h)).symm
  | spawn before after ns' sub =>
    rw [inserted_snoc rfl]
    refine ⟨pc, List.mem_cons_of_mem _ ?_, hpc, htold⟩
    refine List.mem_append.mpr ((List.mem_append.mp hmem).imp_right fun hmem ↦ ?_)
    exact List.mem_cons_of_mem _ ((List.mem_cons.mp hmem).resolve_left nofun)
  | call ns' sub =>
    rw [inserted_snoc rfl]
    exact ⟨pc, List.mem_cons_of_mem _ hmem, hpc, htold⟩
  | insert d replaced =>
    have hmem' := List.mem_map_of_mem (f := JoinTask.deliver d) hmem
    refine ⟨_, hmem', ?_, fun hhears h ↦ ?_⟩
    · split
      · exact take_ne_spawned hpc
      · exact hpc
    · by_cases hns : d.ns = ns
      · rw [if_pos hns] at hhears ⊢
        have hpc := hears_take.mp hhears
        have hnew : inserted ns [.insert d replaced] = [d.hash] := by
          simp [inserted, JoinEvent.inserts, hns]
        rw [inserted_append, List.mem_append, htold hpc h, pending_take hpc, List.mem_append,
          or_assoc, hnew]
        exact Iff.rfl
      · rw [if_neg hns] at hhears ⊢
        have hnone : (JoinEvent.insert d replaced).inserts ns = none := if_neg hns
        rw [inserted_snoc hnone]
        exact htold hhears h

/-! ## What an idle watcher has noticed -/

theorem oneWatcher_boot {policy : RetentionPolicy} : OneWatcher ns (bootJoin hashNew policy) :=
  ⟨Nat.zero_le _, fun _ ↦ rfl⟩

/-- **What is noticed.**  Take a run in which the watcher of a namespace subscribes and is idle at
the end.  Every entry ever inserted into the namespace is then referenced if and only if every entry
inserted before the watcher subscribed shares its content with one inserted after. -/
theorem noticed_iff {policy : RetentionPolicy} {early late : List JoinEvent}
    (hrun : Run JoinStep (bootJoin hashNew policy)
      (early ++ .fire (.watch ns .spawned) :: late) p)
    (hidle : .watch ns (.listening []) ∈ p.tasks) :
    (∀ h ∈ inserted ns (early ++ .fire (.watch ns .spawned) :: late),
        p.shared.node.content.isTrackedFor ns h = true) ↔
      ∀ h ∈ inserted ns early, h ∈ inserted ns late := by
  -- what holds throughout the run
  let I : JoinPool hashNew → Prop := fun p ↦ Routed p ∧ OneWatcher ns p
  have hI : ∀ p ev p', I p → JoinStep p ev p' → I p' := fun p ev p' hs h ↦
    ⟨routed_step hs.1 h, oneWatcher_step hs.2 h⟩
  have hboot : I (bootJoin hashNew policy) :=
    ⟨fun _ _ hmem ↦ absurd hmem List.not_mem_nil, oneWatcher_boot⟩
  obtain ⟨p₁, hearly, hrest⟩ := Run.append_iff.mp hrun
  have h₁ : I p₁ := hearly.invariant hI hboot
  -- up to the subscription nothing is referenced
  have hsilent : Routed p₁ ∧ Silent ns p₁ :=
    hearly.invariant (I := fun p ↦ Routed p ∧ Silent ns p)
      (fun p ev p' hs h ↦ ⟨routed_step hs.1 h, silent_step hs.1 hs.2 h⟩)
      ⟨hboot.1, fun _ _ ↦ rfl⟩
  cases hrest with
  | @cons _ p₂ _ _ _ hsub hlate =>
    have htold : Told ns [] p₂ := by
      cases hsub with
      | fire hfire =>
        obtain ⟨t', hf⟩ := hfire.fired
        have hnone := hsilent.2 fun pc hmem ↦ h₁.2.eq hmem hf.mem
        obtain ⟨pc', rfl, hstep⟩ := hf.micro.of_watch
        refine ⟨pc', hf.mem', hstep.ne_spawned, fun hhears h ↦ ?_⟩
        rw [hstep.of_spawned hhears, hstep.shared_of_spawned, hnone h]
        simp [inserted, WatchPc.pending]
    -- and from there on exactly what the watcher is told
    have hend : I p ∧ Told ns late p := by
      refine hlate.invariant_labels (I := fun evs p ↦ I p ∧ Told ns evs p)
        (fun evs p ev p' hs h ↦ ⟨hI p ev p' hs.1 h, told_step hs.1.1 hs.1.2 hs.2 h⟩)
        ⟨hI _ _ _ h₁ hsub, htold⟩
    obtain ⟨hIp, pc, hmem, -, hiff⟩ := hend
    obtain rfl : pc = .listening [] := hIp.2.eq hmem hidle
    have htracked : ∀ h, h ∈ inserted ns late ↔
        p.shared.node.content.isTrackedFor ns h = true := fun h ↦
      (hiff trivial h).trans (or_iff_left List.not_mem_nil)
    have hevs : inserted ns (early ++ .fire (.watch ns .spawned) :: late) =
        inserted ns early ++ inserted ns late := by
      rw [inserted_append]
      rfl
    simp only [hevs, List.mem_append, ← htracked]
    exact ⟨fun hall h hh ↦ hall h (Or.inl hh), fun hall h hh ↦ hh.elim (hall h) id⟩

/-- The node with its one namespace registered and these records in its replicas. -/
def joined (docs : NamespaceId → List Entry) : Joining sampleHash where
  node := { (boot sampleHash (.fromHours 24)).register (idOf 1) none with docs := docs }
  trackedHeld := false
  handlesHeld := false
  opened := {idOf 1}

/-- The events of a registration that nobody interrupts. -/
def joins : List JoinEvent :=
  .call (idOf 1) none :: [.start, .importing, .imported, .syncing, .opened, .recorded true].map
    fun pc ↦ .fire (.register (idOf 1) none pc)

/-- The events of an insert that the watcher handles. -/
def hears : List JoinEvent :=
  .insert oldFix (fun _ ↦ false) :: .fire (.watch (idOf 1) (.listening [oldFix])) ::
    [.start, .wanted, .found false, .inserted false false (oldFix.arrived false 1000),
      .done []].map fun pc ↦ .fire (.watch (idOf 1) (.handling oldFix pc []))

/-- A namespace is registered, its watcher subscribes, and a fix arrives and is handled. -/
theorem noticed_lateFix : ((joined fun _ ↦ []).node.took oldFix false 1000).content.isTrackedFor
    (idOf 1) zeroHash = true := by
  have hrun : Run JoinStep (bootJoin sampleHash (.fromHours 24))
      (joins ++ .fire (.watch (idOf 1) .spawned) :: hears)
      ⟨{ joined (fun _ ↦ []) with node := (joined fun _ ↦ []).node.took oldFix false 1000 },
        [.watch (idOf 1) (.listening []), .register (idOf 1) none (.returned true)]⟩ := by
    refine .cons (.call (idOf 1) none) ?_
    refine .cons (.fire (.intro [] [] (.register (.lock rfl (by decide))))) ?_
    refine .cons (.fire (.intro [] [] (.register .imports))) ?_
    refine .cons (.fire (.intro [] [] (.register .syncs))) ?_
    refine .cons (.fire (.intro [] [] (.register .joins))) ?_
    refine .cons (.fire (.intro [] [] (.register .records))) ?_
    refine .cons (.spawn [] [] (idOf 1) none) ?_
    refine .cons (.fire (.intro [] [_] (.watch .subscribes))) ?_
    refine .cons (.insert oldFix (fun _ ↦ false) (by decide)) ?_
    refine .cons (.fire (.intro [] [_] (.watch .next))) ?_
    refine .cons (.fire (.intro [] [_] (.watch (.handles .want)))) ?_
    refine .cons (.fire (.intro [] [_] (.watch (.handles (.has false nofun))))) ?_
    refine .cons (.fire (.intro [] [_] (.watch (.handles (.insert 1000 rfl))))) ?_
    refine .cons (.fire (.intro [] [_] (.watch (.handles .skip)))) ?_
    exact .cons (.fire (.intro [] [_] (.watch .finishes))) (.nil _)
  exact (noticed_iff hrun List.mem_cons_self).mpr (by decide) zeroHash (by decide)

/-- **An entry goes unnoticed.**  The fix arrives while the call still awaits `start_sync`.  Later
the watcher subscribes, has no event to handle, and the fix is not referenced. -/
theorem exists_unnoticed : ¬ ∀ (evs : List JoinEvent) (p : JoinPool sampleHash) (ns : NamespaceId),
    Run JoinStep (bootJoin sampleHash (.fromHours 24)) evs p → .watch ns (.listening []) ∈ p.tasks →
      ∀ h ∈ inserted ns evs, p.shared.node.content.isTrackedFor ns h = true := by
  intro hall
  let docs := ((boot sampleHash (.fromHours 24)).replicate (idOf 1) oldFix.entry fun _ ↦ false).docs
  have hrun : Run JoinStep (bootJoin sampleHash (.fromHours 24))
      [.call (idOf 1) none, .fire (.register (idOf 1) none .start),
        .fire (.register (idOf 1) none .importing), .fire (.register (idOf 1) none .imported),
        .insert oldFix (fun _ ↦ false), .fire (.register (idOf 1) none .syncing),
        .fire (.register (idOf 1) none .opened), .fire (.register (idOf 1) none (.recorded true)),
        .fire (.watch (idOf 1) .spawned)]
      ⟨joined docs,
        [.watch (idOf 1) (.listening []), .register (idOf 1) none (.returned true)]⟩ := by
    refine .cons (.call (idOf 1) none) ?_
    refine .cons (.fire (.intro [] [] (.register (.lock rfl (by decide))))) ?_
    refine .cons (.fire (.intro [] [] (.register .imports))) ?_
    refine .cons (.fire (.intro [] [] (.register .syncs))) ?_
    refine .cons (.insert oldFix (fun _ ↦ false) (by decide)) ?_
    refine .cons (.fire (.intro [] [] (.register .joins))) ?_
    refine .cons (.fire (.intro [] [] (.register .records))) ?_
    refine .cons (.spawn [] [] (idOf 1) none) ?_
    exact .cons (.fire (.intro [] [_] (.watch .subscribes))) (.nil _)
  have hnoticed := hall _ _ (idOf 1) hrun List.mem_cons_self zeroHash (by decide)
  exact absurd hnoticed Bool.false_ne_true

end TrailStash
