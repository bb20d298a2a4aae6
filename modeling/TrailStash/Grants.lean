import TrailStash.Registration

/-!
# The bookkeeping of grants

`register` keeps three sets in step: the namespaces that are known, those with an open handle, and,
through the watchers, those that the content index references.  It decides twice whether it is the
first: under the handles lock, whether to import, and in the registry, whether to spawn a watcher;
and it may fail, or be dropped, between its awaits.

Here any number of calls run together with the watchers they spawn, with sweeps and with
unsubscribes.  A call has a number, so that its steps can be told from those of another call with
the same arguments.  `Granted` is what holds in every reachable state, `Counted` what the steps so
far add up to, and `grants_consistent` what follows.
-/

set_option autoImplicit false

namespace TrailStash

open Runs StashNode
open Pool (Fired)

variable {hashNew : Bytes → ContentHash} {ns ns' : NamespaceId} {sub : Option PushSubscription}
  {h : ContentHash} {id : Nat}

/-! ## The pool -/

/-- A task: a call of `register` with its number, the watcher of a namespace, or a sweep. -/
inductive GrantTask
  /-- A call of `register`. -/
  | call (id : Nat) (ns : NamespaceId) (sub : Option PushSubscription) (pc : RegisterPc)
  /-- A watcher. -/
  | watch (ns : NamespaceId) (pc : WatchPc)
  /-- A sweep at `now`, with the number of blobs released so far. -/
  | sweep (now : Nat) (pc : SweepPc) (released : Nat)

/-- One atomic step of a task. -/
inductive GrantMicro : Joining hashNew → GrantTask → Joining hashNew → GrantTask → Prop
  | call {σ σ' id ns sub pc pc'} (h : RegisterStep ns sub σ pc σ' pc') :
      GrantMicro σ (.call id ns sub pc) σ' (.call id ns sub pc')
  /-- The first call for a namespace spawns its watcher and returns. -/
  | spawns {σ id ns sub} :
      GrantMicro σ (.call id ns sub (.recorded true)) σ (.call id ns sub (.returned true))
  | watch {σ σ' ns pc pc'} (h : WatchStep σ pc σ' pc') :
      GrantMicro σ (.watch ns pc) σ' (.watch ns pc')
  /-- To look up a handle a sweep has to wait for the handles lock. -/
  | sweep {σ σ' now pc pc' n n'}
      (hfree : ∀ ns queue, pc = .visiting (ns :: queue) → σ.handlesHeld = false)
      (h : SweepStep now σ.toShared (pc, n) σ' (pc', n')) :
      GrantMicro σ (.sweep now pc n) { σ with toShared := σ' } (.sweep now pc' n')

/-- The watcher that the next step of a task spawns. -/
def GrantTask.spawned : GrantTask → List GrantTask
  | .call _ ns _ (.recorded true) => [.watch ns .spawned]
  | _ => []

/-- The task is the call with this number. -/
def GrantTask.isCall (id : Nat) : GrantTask → Bool
  | .call id' _ _ _ => id' = id
  | _ => false

/-- An event goes to the watcher of its namespace. -/
def GrantTask.deliver (d : Delivery) : GrantTask → GrantTask
  | .watch ns pc => .watch ns (if d.ns = ns then pc.take d else pc)
  | t => t

/-- What happens next. -/
inductive GrantEvent
  /-- A task takes a step. -/
  | fire (t t' : GrantTask)
  /-- `register` is called. -/
  | call (id : Nat) (ns : NamespaceId) (sub : Option PushSubscription)
  /-- A record is inserted from remote. -/
  | insert (d : Delivery) (replaced : Entry → Bool)
  /-- `unsubscribe` is called. -/
  | unsubscribe (ns : NamespaceId) (sub : PushSubscription)
  /-- A sweep begins. -/
  | sweep (now : Nat)
  /-- The docs engine's downloader succeeds. -/
  | land (bytes : Bytes)

/-- A node, the calls of `register` on it, its watchers and its sweeps. -/
abbrev GrantPool (hashNew : Bytes → ContentHash) := Pool (Joining hashNew) GrantTask

/-- One step of the pool. -/
inductive GrantStep : GrantPool hashNew → GrantEvent → GrantPool hashNew → Prop
  | fire {σ σ' : Joining hashNew} {t t' : GrantTask} (before after : List GrantTask)
      (h : GrantMicro σ t σ' t') :
      GrantStep ⟨σ, before ++ t :: after⟩ (.fire t t') ⟨σ', t.spawned ++ (before ++ t' :: after)⟩
  | call {σ : Joining hashNew} {ts : List GrantTask} (id : Nat) (ns : NamespaceId)
      (sub : Option PushSubscription) (hnew : ∀ t ∈ ts, t.isCall id = false) :
      GrantStep ⟨σ, ts⟩ (.call id ns sub) ⟨σ, .call id ns sub .start :: ts⟩
  | insert {σ : Joining hashNew} {ts : List GrantTask} (d : Delivery) (replaced : Entry → Bool)
      (hopen : d.ns ∈ σ.opened) :
      GrantStep ⟨σ, ts⟩ (.insert d replaced)
        ⟨{ σ with node := σ.node.replicate d.ns d.entry replaced }, ts.map (GrantTask.deliver d)⟩
  | unsubscribe {σ : Joining hashNew} {ts : List GrantTask} (ns : NamespaceId)
      (sub : PushSubscription) :
      GrantStep ⟨σ, ts⟩ (.unsubscribe ns sub)
        ⟨{ σ with node := { σ.node with registry := (σ.node.registry.unsubscribe ns sub).2 } }, ts⟩
  | sweep {σ : Joining hashNew} {ts : List GrantTask} (now : Nat) :
      GrantStep ⟨σ, ts⟩ (.sweep now) ⟨σ, .sweep now .start 0 :: ts⟩
  | land {σ : Joining hashNew} {ts : List GrantTask} (bytes : Bytes) :
      GrantStep ⟨σ, ts⟩ (.land bytes) ⟨{ σ with node := σ.node.land bytes }, ts⟩

/-- The pool at boot. -/
def bootGrants (hashNew : Bytes → ContentHash) (retention : RetentionPolicy) : GrantPool hashNew :=
  ⟨⟨⟨.boot hashNew retention, false⟩, false, ∅⟩, []⟩

/-! ## Where a call is -/

/-- The call holds the handles lock. -/
def RegisterPc.holds : RegisterPc → Bool
  | .importing | .imported | .syncing => true
  | _ => false

/-- The call has its handle. -/
def RegisterPc.hasHandle : RegisterPc → Bool
  | .opened | .recorded _ | .returned true => true
  | _ => false

/-- The call has recorded its grant. -/
def RegisterPc.hasRecorded : RegisterPc → Bool
  | .recorded _ | .returned true => true
  | _ => false

/-- The call has neither returned nor been dropped. -/
def RegisterPc.inProgress : RegisterPc → Bool
  | .returned _ | .abandoned => false
  | _ => true

/-- The namespaces that a sweep has still to visit. -/
def SweepPc.queue : SweepPc → List NamespaceId
  | .visiting queue => queue
  | .reading _ queue => queue
  | .forgetting _ _ queue => queue
  | .untracking _ _ _ queue => queue
  | _ => []

/-- The task holds the handles lock. -/
def GrantTask.holds : GrantTask → Bool
  | .call _ _ _ pc => pc.holds
  | _ => false

/-- The task is about to spawn the watcher of the namespace. -/
def GrantTask.awaitsSpawn (ns : NamespaceId) : GrantTask → Bool
  | .call _ ns' _ (.recorded true) => ns' = ns
  | _ => false

/-- The task is the watcher of the namespace. -/
def GrantTask.watches (ns : NamespaceId) : GrantTask → Bool
  | .watch ns' _ => ns' = ns
  | _ => false

/-- The task is the call with this number, and it has its handle. -/
def GrantTask.committed (id : Nat) : GrantTask → Bool
  | .call id' _ _ pc => id' = id && pc.hasHandle
  | _ => false

/-- The watcher that the task is. -/
def GrantTask.watcher? : GrantTask → Option (NamespaceId × WatchPc)
  | .watch ns pc => some (ns, pc)
  | _ => none

/-- The watchers of a pool. -/
def GrantPool.watchers (p : GrantPool hashNew) : List (NamespaceId × WatchPc) :=
  p.tasks.filterMap GrantTask.watcher?

/-- What a task relies on. -/
def GrantTask.Sound (node : StashNode hashNew) : GrantTask → Prop
  | .call _ ns _ pc =>
    (pc.holds = true → ns ∉ node.handles) ∧ (pc.hasHandle = true → ns ∈ node.handles) ∧
      (pc.hasRecorded = true → node.registry.isKnown ns = true)
  | .watch ns pc => node.registry.isKnown ns = true ∧ ∀ d ∈ pc.deliveries, d.ns = ns
  | .sweep _ pc _ => ∀ ns ∈ pc.queue, node.registry.isKnown ns = true

/-- What holds in every reachable state. -/
structure Granted (p : GrantPool hashNew) : Prop where
  /-- The lock is held by one call, or by none. -/
  lock : p.tasks.countP GrantTask.holds = p.shared.handlesHeld.toNat
  /-- Every task is right about what it relies on. -/
  sound : ∀ t ∈ p.tasks, t.Sound p.shared.node
  /-- Only known namespaces are referenced. -/
  known : ∀ ns h, p.shared.node.content.isTrackedFor ns h = true →
    p.shared.node.registry.isKnown ns = true
  /-- Known namespaces have a handle. -/
  handled : ∀ ns, p.shared.node.registry.isKnown ns = true → ns ∈ p.shared.node.handles

/-! ## What one step can change -/

variable {σ σ' : Joining hashNew} {t t' : GrantTask} {p p' : GrantPool hashNew}
  {ev : GrantEvent} {evs : List GrantEvent} {retention : RetentionPolicy}

/-- The step inserts the handle of the namespace. -/
def GrantEvent.insertsHandle (ns : NamespaceId) : GrantEvent → Bool
  | .fire (.call _ ns' _ .syncing) (.call _ _ _ .opened) => ns' = ns
  | _ => false

/-- The step spawns the watcher of the namespace. -/
def GrantEvent.spawnsWatch (ns : NamespaceId) : GrantEvent → Bool
  | .fire t _ => t.awaitsSpawn ns
  | _ => false

namespace GrantMicro

/-- **Who adds a handle**: a call that has imported the namespace, and it lets go of the lock. -/
theorem handles_cases (hm : GrantMicro σ t σ' t') :
    (∃ id ns sub, t = .call id ns sub .syncing ∧ t' = .call id ns sub .opened ∧
      σ'.node.handles = insert ns σ.node.handles ∧ σ'.handlesHeld = false) ∨
    ((∀ ns, GrantEvent.insertsHandle ns (.fire t t') = false) ∧
      σ'.node.handles = σ.node.handles) := by
  cases hm with
  | call h =>
    cases h with
    | joins => exact Or.inl ⟨_, _, _, rfl, rfl, rfl, rfl⟩
    | _ => exact Or.inr ⟨fun _ ↦ rfl, rfl⟩
  | spawns => exact Or.inr ⟨fun _ ↦ rfl, rfl⟩
  | watch h => exact Or.inr ⟨fun _ ↦ rfl, h.frame.handles⟩
  | sweep hfree h => exact Or.inr ⟨fun _ ↦ rfl, (Micro.sweep h).frame.handles⟩

/-- **Who grants a namespace**: a call that has the handle, and it then spawns the watcher if it is
the first. -/
theorem registry_cases (hm : GrantMicro σ t σ' t') :
    (∃ id ns sub, t = .call id ns sub .opened ∧
      t' = .call id ns sub (.recorded (σ.node.registry.register ns sub).1) ∧
      σ'.node.registry = (σ.node.registry.register ns sub).2) ∨
    ((∀ ns, t'.awaitsSpawn ns = false) ∧ σ'.node.registry = σ.node.registry) := by
  cases hm with
  | call h =>
    cases h with
    | records => exact Or.inl ⟨_, _, _, rfl, rfl, rfl⟩
    | _ => exact Or.inr ⟨fun _ ↦ rfl, rfl⟩
  | spawns => exact Or.inr ⟨fun _ ↦ rfl, rfl⟩
  | watch h => exact Or.inr ⟨fun _ ↦ rfl, h.frame.registry⟩
  | sweep hfree h => exact Or.inr ⟨fun _ ↦ rfl, (Micro.sweep h).frame.registry⟩

/-- **Who references a hash**: a watcher that handles an event of that namespace. -/
theorem references_cases (hm : GrantMicro σ t σ' t')
    (ht : σ'.node.content.isTrackedFor ns h = true) :
    (∃ ns₀ d queue, t = .watch ns₀ (.handling d .start queue) ∧ ns = d.ns) ∨
      σ.node.content.isTrackedFor ns h = true := by
  cases hm with
  | call hstep => cases hstep <;> exact Or.inr ht
  | spawns => exact Or.inr ht
  | watch hstep =>
    rcases hstep.references_cases with ⟨d, queue, rfl, -, hiff⟩ | hsame
    · exact ((hiff ns h).mp ht).imp_left fun hns ↦ ⟨_, d, queue, rfl, hns.1⟩
    · exact Or.inr ((hsame ns h).symm.trans ht)
  | sweep hfree hstep =>
    rcases (Micro.sweep hstep).references_cases with
      ⟨d, hd, -⟩ | ⟨now, ns₀, h₀, hs, queue, n, -, -, hiff⟩ | hsame
    · exact absurd hd nofun
    · exact Or.inr ((hiff ns h).mp ht).1
    · exact Or.inr ((hsame ns h).symm.trans ht)

/-- A task takes the lock only when it is free, and lets go only of a lock it holds. -/
theorem handlesHeld (hm : GrantMicro σ t σ' t')
    (hheld : t.holds = true → σ.handlesHeld = true) :
    σ'.handlesHeld.toNat + t.holds.toNat = σ.handlesHeld.toNat + t'.holds.toNat := by
  cases hm with
  | call h =>
    cases h with
    | lock hfree => rw [hfree]; rfl
    | importFails => rw [hheld rfl]; rfl
    | syncFails => rw [hheld rfl]; rfl
    | joins => rw [hheld rfl]; rfl
    | dropImport => rw [hheld rfl]; rfl
    | dropSync => rw [hheld rfl]; rfl
    | _ => rfl
  | spawns => rfl
  | watch h => cases h <;> rfl
  | sweep => rfl

/-- Handles are for good. -/
theorem handles_subset (hm : GrantMicro σ t σ' t') : σ.node.handles ⊆ σ'.node.handles := by
  rcases hm.handles_cases with ⟨_, _, _, -, -, heq, -⟩ | ⟨-, heq⟩
  · exact heq ▸ Finset.subset_insert _ _
  · exact heq ▸ Finset.Subset.refl _

/-- Grants are for good. -/
theorem isKnown_of_isKnown (hm : GrantMicro σ t σ' t')
    (hknown : σ.node.registry.isKnown ns = true) : σ'.node.registry.isKnown ns = true := by
  rcases hm.registry_cases with ⟨_, _, _, -, -, heq⟩ | ⟨-, heq⟩
  · rw [heq]
    exact NamespaceRegistry.isKnown_register.mpr (Or.inr hknown)
  · rw [heq]
    exact hknown

/-- **The first import.**  The step that inserts the handle is counted when the namespace gets
one. -/
theorem handles_count (hm : GrantMicro σ t σ' t') (hs : t.Sound σ.node) (ns : NamespaceId) :
    (decide (ns ∈ σ'.node.handles)).toNat =
      (decide (ns ∈ σ.node.handles)).toNat + (GrantEvent.insertsHandle ns (.fire t t')).toNat := by
  rcases hm.handles_cases with ⟨_, ns', _, rfl, rfl, heq, -⟩ | ⟨hnone, heq⟩
  · have hnew : ns' ∉ σ.node.handles := hs.1 rfl
    rw [heq, GrantEvent.insertsHandle]
    by_cases hns : ns' = ns
    · subst hns
      simp [hnew]
    · simp [hns, Ne.symm hns]
  · rw [heq, hnone, Bool.toNat_false, Nat.add_zero]

/-- **The first watch.**  A task comes to owe a watcher when the namespace becomes known. -/
theorem known_count (hm : GrantMicro σ t σ' t') (ns : NamespaceId) :
    (σ'.node.registry.isKnown ns).toNat =
      (σ.node.registry.isKnown ns).toNat + (t'.awaitsSpawn ns).toNat := by
  rcases hm.registry_cases with ⟨_, ns', sub, rfl, rfl, heq⟩ | ⟨hnone, heq⟩
  · rw [heq]
    cases hfirst : (σ.node.registry.register ns' sub).1 with
    | true =>
      have hnew : σ.node.registry.isKnown ns' = false := by
        simpa using NamespaceRegistry.fst_register.mp hfirst
      by_cases hns : ns' = ns
      · subst hns
        have hknown : (σ.node.registry.register ns' sub).2.isKnown ns' = true :=
          NamespaceRegistry.isKnown_register.mpr (Or.inl rfl)
        simp [hnew, hknown, GrantTask.awaitsSpawn]
      · have hsame : (σ.node.registry.register ns' sub).2.isKnown ns =
            σ.node.registry.isKnown ns := by
          rw [Bool.eq_iff_iff, NamespaceRegistry.isKnown_register]
          exact or_iff_right (Ne.symm hns)
        simp [hsame, hns, GrantTask.awaitsSpawn]
    | false =>
      have hold : σ.node.registry.isKnown ns' = true := by
        by_contra hnew
        exact absurd (NamespaceRegistry.fst_register.mpr hnew) (hfirst ▸ Bool.false_ne_true)
      have hsame : (σ.node.registry.register ns' sub).2.isKnown ns =
          σ.node.registry.isKnown ns := by
        rw [Bool.eq_iff_iff, NamespaceRegistry.isKnown_register]
        exact or_iff_right_of_imp fun hns ↦ hns ▸ hold
      rw [hsame]
      rfl
  · rw [heq, hnone, Bool.toNat_false, Nat.add_zero]

end GrantMicro

/-! ## What holds in every reachable state -/

/-- A sweep visits what it found in the registry. -/
theorem SweepStep.queue_known {now n n' : Nat} {σ σ' : Shared hashNew} {pc pc' : SweepPc}
    (hstep : SweepStep now σ (pc, n) σ' (pc', n'))
    (hq : ∀ ns ∈ pc.queue, σ.node.registry.isKnown ns = true) :
    ∀ ns ∈ pc'.queue, σ.node.registry.isKnown ns = true := by
  cases hstep with
  | list => exact fun ns ↦ NamespaceRegistry.mem_knownNamespaces.mp
  | pass => exact fun ns hns ↦ hq ns (List.mem_cons_of_mem _ hns)
  | enter => exact fun ns hns ↦ hq ns (List.mem_cons_of_mem _ hns)
  | finish => exact nofun
  | fault => exact nofun
  | _ => exact hq

/-- The handle that a call has just opened is there, the grant it has just recorded is known. -/
theorem RegisterStep.sound {pc pc' : RegisterPc} (hstep : RegisterStep ns sub σ pc σ' pc')
    (hs : (GrantTask.call id ns sub pc).Sound σ.node) :
    (GrantTask.call id ns sub pc').Sound σ'.node := by
  cases hstep with
  | present hfree hhandle => exact ⟨nofun, fun _ ↦ hhandle, nofun⟩
  | lock hfree hhandle => exact ⟨fun _ ↦ hhandle, nofun, nofun⟩
  | imports => exact ⟨fun _ ↦ hs.1 rfl, nofun, nofun⟩
  | syncs => exact ⟨fun _ ↦ hs.1 rfl, nofun, nofun⟩
  | joins => exact ⟨nofun, fun _ ↦ Finset.mem_insert_self _ _, nofun⟩
  | records =>
    refine ⟨nofun, fun _ ↦ hs.2.1 rfl, fun _ ↦ ?_⟩
    exact NamespaceRegistry.isKnown_register.mpr (Or.inl rfl)
  | skips => exact ⟨nofun, fun _ ↦ hs.2.1 rfl, fun _ ↦ hs.2.2 rfl⟩
  | _ => exact ⟨nofun, nofun, nofun⟩

/-- The task that takes a step is right afterwards. -/
theorem GrantMicro.sound (hm : GrantMicro σ t σ' t') (hs : t.Sound σ.node) :
    t'.Sound σ'.node := by
  cases hm with
  | call h => exact h.sound hs
  | spawns => exact ⟨nofun, fun _ ↦ hs.2.1 rfl, fun _ ↦ hs.2.2 rfl⟩
  | @watch _ ns pc pc' h =>
    have hm : GrantMicro σ (.watch ns pc) σ' (.watch ns pc') := .watch h
    exact ⟨hm.isKnown_of_isKnown hs.1, fun d hd ↦ hs.2 d (h.deliveries_subset hd)⟩
  | sweep hfree h =>
    intro ns hns
    rw [(Micro.sweep h).frame.registry]
    exact h.queue_known hs ns hns

/-- Handles and grants are for good, so a task stays right about what it relies on as long as
nobody adds a handle while it holds the lock. -/
theorem GrantTask.Sound.mono {node node' : StashNode hashNew} (hs : t.Sound node)
    (hknown : ∀ ns, node.registry.isKnown ns = true → node'.registry.isKnown ns = true)
    (hsub : node.handles ⊆ node'.handles) (hsame : t.holds = true → node'.handles = node.handles) :
    t.Sound node' := by
  cases t with
  | call id ns sub pc =>
    refine ⟨fun hholds ↦ ?_, fun hpc ↦ hsub (hs.2.1 hpc), fun hpc ↦ hknown ns (hs.2.2 hpc)⟩
    rw [hsame hholds]
    exact hs.1 hholds
  | watch ns pc => exact ⟨hknown ns hs.1, hs.2⟩
  | sweep now pc n => exact fun ns hns ↦ hknown ns (hs ns hns)

theorem Granted.fired (hs : Granted p) (hf : Fired GrantMicro p t p' t') : Granted p' := by
  have hsound := hs.sound t hf.mem
  have hlock : p'.tasks.countP GrantTask.holds = p'.shared.handlesHeld.toNat := by
    have hcount := hf.count GrantTask.holds
    have hheld : t.holds = true → p.shared.handlesHeld = true := by
      intro hholds
      have hpos : 0 < p.tasks.countP GrantTask.holds :=
        List.countP_pos_iff.mpr ⟨t, hf.mem, hholds⟩
      by_contra hfree
      rw [hs.lock, Bool.eq_false_iff.mpr hfree] at hpos
      exact absurd hpos (Nat.lt_irrefl 0)
    have := hf.micro.handlesHeld hheld
    have := hs.lock
    omega
  refine ⟨hlock, fun u hu ↦ ?_, fun ns h ht ↦ ?_, fun ns hknown ↦ ?_⟩
  · rcases hf.news u hu with rfl | hold
    · exact hf.micro.sound hsound
    · refine (hs.sound u hold).mono (fun ns ↦ hf.micro.isKnown_of_isKnown)
        hf.micro.handles_subset fun hholds ↦ ?_
      rcases hf.micro.handles_cases with ⟨_, _, _, -, -, -, hfree⟩ | ⟨-, hsame⟩
      · -- the call that adds the handle has let go of the lock, so no task holds it
        rw [hfree, Bool.toNat_false, List.countP_eq_zero] at hlock
        exact absurd hholds (hlock u hu)
      · exact hsame
  · refine hf.micro.isKnown_of_isKnown ?_
    rcases hf.micro.references_cases ht with ⟨ns₀, d, queue, rfl, rfl⟩ | ht
    · rw [hsound.2 d List.mem_cons_self]
      exact hsound.1
    · exact hs.known ns h ht
  · refine hf.micro.handles_subset ?_
    rcases hf.micro.registry_cases with ⟨_, ns', sub, rfl, -, heq⟩ | ⟨-, heq⟩
    · rw [heq, NamespaceRegistry.isKnown_register] at hknown
      rcases hknown with rfl | hknown
      · exact hsound.2.1 rfl
      · exact hs.handled ns hknown
    · exact hs.handled ns (heq ▸ hknown)

/-- A task more that does not hold the lock. -/
theorem Granted.cons {σ : Joining hashNew} {ts : List GrantTask} (hs : Granted ⟨σ, ts⟩)
    (hfree : t.holds = false) (ht : t.Sound σ.node) : Granted ⟨σ, t :: ts⟩ :=
  ⟨(List.countP_cons_of_neg (by simp [hfree])).trans hs.lock,
    List.forall_mem_cons.mpr ⟨ht, hs.sound⟩, hs.known, hs.handled⟩

/-- A first call that has recorded its grant spawns a watcher, and nothing else does. -/
theorem GrantTask.spawned_cases (t : GrantTask) :
    ((∀ ns, t.awaitsSpawn ns = false) ∧ t.spawned = []) ∨
      ∃ id ns sub, t = .call id ns sub (.recorded true) ∧ t.spawned = [.watch ns .spawned] := by
  cases t with
  | call id ns sub pc =>
    cases pc with
    | recorded first =>
      cases first with
      | true => exact Or.inr ⟨id, ns, sub, rfl, rfl⟩
      | false => exact Or.inl ⟨fun _ ↦ rfl, rfl⟩
    | _ => exact Or.inl ⟨fun _ ↦ rfl, rfl⟩
  | _ => exact Or.inl ⟨fun _ ↦ rfl, rfl⟩

theorem GrantTask.eq_of_awaitsSpawn (hawaits : t.awaitsSpawn ns = true) :
    ∃ id sub, t = .call id ns sub (.recorded true) := by
  rcases t.spawned_cases with ⟨hnever, -⟩ | ⟨id, ns', sub, rfl, -⟩
  · exact absurd hawaits (by simp [hnever])
  · obtain rfl : ns' = ns := of_decide_eq_true hawaits
    exact ⟨id, sub, rfl⟩

theorem granted_step (hs : Granted p) (hstep : GrantStep p ev p') : Granted p' := by
  cases hstep with
  | @fire σ σ' t t' before after h =>
    have hs' : Granted ⟨σ', before ++ t' :: after⟩ := hs.fired (.intro before after h)
    rcases t.spawned_cases with ⟨-, hnone⟩ | ⟨id, ns, sub, rfl, hspawned⟩
    · rw [hnone]
      exact hs'
    · -- the new watcher relies on the grant that the call has recorded
      have hsound : (GrantTask.call id ns sub (.recorded true)).Sound σ.node :=
        hs.sound _ (by simp)
      rw [hspawned]
      exact hs'.cons rfl ⟨h.isKnown_of_isKnown (hsound.2.2 rfl), nofun⟩
  | call id ns sub hnew => exact hs.cons rfl ⟨nofun, nofun, nofun⟩
  | @insert σ ts d replaced =>
    have hholds : ∀ t : GrantTask, (t.deliver d).holds = t.holds := by
      intro t
      cases t <;> rfl
    refine ⟨?_, fun u hu ↦ ?_, hs.known, hs.handled⟩
    · have hcount : (ts.map (GrantTask.deliver d)).countP GrantTask.holds =
          ts.countP GrantTask.holds := by
        rw [List.countP_map]
        exact List.countP_congr fun t _ ↦ by simp [hholds]
      exact hcount.trans hs.lock
    · obtain ⟨t, ht, rfl⟩ := List.mem_map.mp hu
      have hsound := hs.sound t ht
      cases t with
      | watch ns pc =>
        refine ⟨hsound.1, fun d' hd ↦ ?_⟩
        split at hd
        · next hns => exact (mem_deliveries_take hd).elim (fun heq ↦ heq ▸ hns) (hsound.2 d')
        · exact hsound.2 d' hd
      | _ => exact hsound
  | unsubscribe ns sub => exact ⟨hs.lock, hs.sound, hs.known, hs.handled⟩
  | sweep now => exact hs.cons rfl nofun
  | land bytes => exact ⟨hs.lock, hs.sound, hs.known, hs.handled⟩

/-! ## What the steps add up to -/

/-- What a run has done for each namespace. -/
structure Counted (evs : List GrantEvent) (p : GrantPool hashNew) : Prop where
  /-- A handle was inserted once for each namespace that has one. -/
  inserts : ∀ ns, evs.countP (GrantEvent.insertsHandle ns) =
    (decide (ns ∈ p.shared.node.handles)).toNat
  /-- A watcher was or will be spawned once for each namespace that is known. -/
  spawns : ∀ ns, evs.countP (GrantEvent.spawnsWatch ns) +
    p.tasks.countP (GrantTask.awaitsSpawn ns) = (p.shared.node.registry.isKnown ns).toNat
  /-- The watchers are those that were spawned. -/
  watchers : ∀ ns, p.tasks.countP (GrantTask.watches ns) =
    evs.countP (GrantEvent.spawnsWatch ns)

theorem countP_snoc {α : Type*} {q : α → Bool} {l : List α} {a : α} :
    (l ++ [a]).countP q = l.countP q + (q a).toNat := by
  rw [List.countP_append, List.countP_singleton]
  cases q a <;> rfl

/-- A step that does nothing of what is counted. -/
theorem Counted.snoc (hc : Counted evs p) (hi : ∀ ns, ev.insertsHandle ns = false)
    (hsp : ∀ ns, ev.spawnsWatch ns = false) (hh : p'.shared.node.handles = p.shared.node.handles)
    (hk : p'.shared.node.registry.known = p.shared.node.registry.known)
    (ha : ∀ ns, p'.tasks.countP (GrantTask.awaitsSpawn ns) =
      p.tasks.countP (GrantTask.awaitsSpawn ns))
    (hw : ∀ ns, p'.tasks.countP (GrantTask.watches ns) = p.tasks.countP (GrantTask.watches ns)) :
    Counted (evs ++ [ev]) p' := by
  have hknown : ∀ ns, p'.shared.node.registry.isKnown ns = p.shared.node.registry.isKnown ns := by
    intro ns
    rw [NamespaceRegistry.isKnown, hk]
    rfl
  refine ⟨fun ns ↦ ?_, fun ns ↦ ?_, fun ns ↦ ?_⟩
  · rw [countP_snoc, hi, hh]
    exact hc.inserts ns
  · rw [countP_snoc, hsp, ha, hknown]
    exact hc.spawns ns
  · rw [countP_snoc, hsp, hw]
    exact hc.watchers ns

/-- How many tasks pass a test after a step of the task `t`. -/
theorem GrantMicro.countP (hm : GrantMicro σ t σ' t') (before after : List GrantTask)
    (q : GrantTask → Bool) :
    (t.spawned ++ (before ++ t' :: after)).countP q + (q t).toNat =
      t.spawned.countP q + (before ++ t :: after).countP q + (q t').toNat := by
  have hcount : (before ++ t' :: after).countP q + (q t).toNat =
      (before ++ t :: after).countP q + (q t').toNat := (Fired.intro before after hm).count q
  rw [List.countP_append]
  omega

/-- No step makes a watcher of a task that was none. -/
theorem GrantMicro.watches_eq (hm : GrantMicro σ t σ' t') : t'.watches ns = t.watches ns := by
  cases hm <;> rfl

theorem counted_step (hs : Granted p) (hc : Counted evs p) (hstep : GrantStep p ev p') :
    Counted (evs ++ [ev]) p' := by
  cases hstep with
  | @fire σ σ' t t' before after h =>
    have hspawned : ∀ ns, t.spawned.countP (GrantTask.awaitsSpawn ns) = 0 ∧
        t.spawned.countP (GrantTask.watches ns) = (t.awaitsSpawn ns).toNat := by
      intro ns
      rcases t.spawned_cases with ⟨hnever, hnone⟩ | ⟨id, ns', sub, rfl, hone⟩
      · rw [hnone, hnever]
        exact ⟨rfl, rfl⟩
      · rw [hone]
        refine ⟨rfl, ?_⟩
        rw [List.countP_singleton, GrantTask.watches, GrantTask.awaitsSpawn]
        cases decide (ns' = ns) <;> rfl
    refine ⟨fun ns ↦ ?_, fun ns ↦ ?_, fun ns ↦ ?_⟩
    · rw [countP_snoc, hc.inserts]
      exact (h.handles_count (hs.sound t (by simp)) ns).symm
    · have hcount := h.countP before after (GrantTask.awaitsSpawn ns)
      have hspawns := hc.spawns ns
      have hknown := h.known_count ns
      rw [(hspawned ns).1] at hcount
      rw [countP_snoc, GrantEvent.spawnsWatch]
      dsimp only at hspawns ⊢
      omega
    · have hcount := h.countP before after (GrantTask.watches ns)
      have hwatchers := hc.watchers ns
      rw [(hspawned ns).2, h.watches_eq] at hcount
      rw [countP_snoc, GrantEvent.spawnsWatch]
      dsimp only at hwatchers ⊢
      omega
  | call => exact hc.snoc (fun _ ↦ rfl) (fun _ ↦ rfl) rfl rfl (fun _ ↦ rfl) fun _ ↦ rfl
  | @insert σ ts d replaced =>
    refine hc.snoc (fun _ ↦ rfl) (fun _ ↦ rfl) rfl rfl (fun ns ↦ ?_) fun ns ↦ ?_
    · rw [List.countP_map]
      exact List.countP_congr fun t _ ↦ by cases t <;> exact Iff.rfl
    · rw [List.countP_map]
      exact List.countP_congr fun t _ ↦ by cases t <;> exact Iff.rfl
  | unsubscribe => exact hc.snoc (fun _ ↦ rfl) (fun _ ↦ rfl) rfl rfl (fun _ ↦ rfl) fun _ ↦ rfl
  | sweep => exact hc.snoc (fun _ ↦ rfl) (fun _ ↦ rfl) rfl rfl (fun _ ↦ rfl) fun _ ↦ rfl
  | land => exact hc.snoc (fun _ ↦ rfl) (fun _ ↦ rfl) rfl rfl (fun _ ↦ rfl) fun _ ↦ rfl

/-! ## A call that fails -/

/-- No two calls have the same number. -/
def Numbered (p : GrantPool hashNew) : Prop := ∀ id, p.tasks.countP (GrantTask.isCall id) ≤ 1

theorem GrantMicro.isCall_eq (hm : GrantMicro σ t σ' t') : t'.isCall id = t.isCall id := by
  cases hm <;> rfl

theorem GrantTask.isCall_of_committed (hc : t.committed id = true) : t.isCall id = true := by
  cases t with
  | call id' ns sub pc =>
    rw [GrantTask.committed, Bool.and_eq_true] at hc
    exact hc.1
  | _ => exact absurd hc Bool.false_ne_true

/-- A call that has its handle will not fail any more. -/
theorem GrantMicro.committed (hm : GrantMicro σ t σ' t') (hc : t.committed id = true) :
    t'.committed id = true := by
  cases hm with
  | call h =>
    cases h with
    | records => exact hc
    | skips => exact hc
    | _ => exact absurd hc (by simp [GrantTask.committed, RegisterPc.hasHandle])
  | spawns => exact hc
  | _ => exact absurd hc Bool.false_ne_true

theorem numbered_step (hs : Numbered p) (hstep : GrantStep p ev p') : Numbered p' := by
  intro id
  cases hstep with
  | @fire σ σ' t t' before after h =>
    have hcount := h.countP before after (GrantTask.isCall id)
    rw [h.isCall_eq] at hcount
    have hspawned : t.spawned.countP (GrantTask.isCall id) = 0 := by
      rcases t.spawned_cases with ⟨-, hnone⟩ | ⟨_, _, _, -, hone⟩
      · rw [hnone]
        rfl
      · rw [hone]
        rfl
    have := hs id
    rw [hspawned] at hcount
    dsimp only at this ⊢
    omega
  | @call σ ts id' ns sub hnew =>
    by_cases hid : id' = id
    · subst hid
      have hzero : ts.countP (GrantTask.isCall id') = 0 :=
        List.countP_eq_zero.mpr fun t ht ↦ by simp [hnew t ht]
      have hle : ∀ t : GrantTask, (t :: ts).countP (GrantTask.isCall id') ≤ 1 := by
        intro t
        rw [List.countP_cons, hzero]
        split <;> simp
      exact hle _
    · exact (List.countP_cons_of_neg (by simp [GrantTask.isCall, hid])).trans_le (hs id)
  | @insert σ ts d replaced =>
    rw [List.countP_map, List.countP_congr (q := GrantTask.isCall id)
      fun t _ ↦ by cases t <;> exact Iff.rfl]
    exact hs id
  | unsubscribe => exact hs id
  | sweep => exact hs id
  | land => exact hs id

theorem committed_step (hc : p.Any fun t ↦ t.committed id = true) (hstep : GrantStep p ev p') :
    p'.Any fun t ↦ t.committed id = true := by
  cases hstep with
  | @fire σ σ' t t' before after h =>
    have hf : Fired GrantMicro ⟨σ, before ++ t :: after⟩ t ⟨σ', before ++ t' :: after⟩ t' :=
      .intro before after h
    obtain ⟨u, hu, hcu⟩ : (Pool.mk σ' (before ++ t' :: after)).Any fun t ↦ t.committed id = true :=
      (hf.any_or hc).elim (fun ht ↦ hf.any_new (h.committed ht)) fun h ↦ h
    exact ⟨u, List.mem_append_right _ hu, hcu⟩
  | @insert σ ts d replaced =>
    obtain ⟨t, ht, hct⟩ := hc
    refine ⟨t.deliver d, List.mem_map_of_mem ht, ?_⟩
    cases t with
    | call => exact hct
    | _ => exact absurd hct Bool.false_ne_true
  | call =>
    obtain ⟨t, ht, hct⟩ := hc
    exact ⟨t, List.mem_cons_of_mem _ ht, hct⟩
  | sweep =>
    obtain ⟨t, ht, hct⟩ := hc
    exact ⟨t, List.mem_cons_of_mem _ ht, hct⟩
  | unsubscribe => exact hc
  | land => exact hc

/-- A call that has no handle has not touched the node, and spawned no watcher. -/
theorem GrantStep.of_call {pc : RegisterPc}
    (hstep : GrantStep p (.fire (.call id ns sub pc) t') p') : t' ∈ p'.tasks ∧
      (t'.committed id = true ∨
        (p'.shared.node = p.shared.node ∧ p'.watchers = p.watchers)) := by
  cases hstep with
  | @fire σ σ' _ _ before after h =>
    refine ⟨by simp, ?_⟩
    cases h with
    | call h =>
      have hwatchers : ∀ pc', (before ++ .call id ns sub pc' :: after).filterMap
          GrantTask.watcher? = (before ++ .call id ns sub pc :: after).filterMap
            GrantTask.watcher? := by
        intro pc'
        simp [List.filterMap_append, List.filterMap_cons, GrantTask.watcher?]
      cases h with
      | present => exact Or.inl (by simp [GrantTask.committed, RegisterPc.hasHandle])
      | joins => exact Or.inl (by simp [GrantTask.committed, RegisterPc.hasHandle])
      | records => exact Or.inl (by simp [GrantTask.committed, RegisterPc.hasHandle])
      | skips => exact Or.inl (by simp [GrantTask.committed, RegisterPc.hasHandle])
      | _ => exact Or.inr ⟨rfl, hwatchers _⟩
    | spawns => exact Or.inl (by simp [GrantTask.committed, RegisterPc.hasHandle])

/-- **A call that fails has added nothing.**  None of its steps changed the node, and none spawned
a watcher. -/
theorem failed_adds_nothing {evs₁ evs₂ : List GrantEvent} {p₁ p₂ : GrantPool hashNew}
    {pc pc' : RegisterPc} (hboot : Run GrantStep (bootGrants hashNew retention) evs₁ p₁)
    (hstep : GrantStep p₁ (.fire (.call id ns sub pc) t') p₂) (hrest : Run GrantStep p₂ evs₂ p)
    (hend : .call id ns sub pc' ∈ p.tasks) (hpc' : pc'.hasHandle = false) :
    p₂.shared.node = p₁.shared.node ∧ p₂.watchers = p₁.watchers := by
  obtain ⟨hmem, hcases⟩ := hstep.of_call
  refine hcases.resolve_left fun hcommitted ↦ ?_
  -- if the step got the handle, the call still has it at the end
  obtain ⟨u, hu, hcu⟩ := hrest.invariant
    (I := fun p ↦ p.Any fun t ↦ t.committed id = true)
    (fun _ _ _ hc hstep ↦ committed_step hc hstep) ⟨t', hmem, hcommitted⟩
  have hnumbered : Numbered p := by
    refine (hboot.append (.cons hstep hrest)).invariant
      (fun _ _ _ hs hstep ↦ numbered_step hs hstep) fun id ↦ ?_
    exact Nat.zero_le _
  obtain rfl := Pool.eq_of_countP_le_one (hnumbered id) hu hend
    (GrantTask.isCall_of_committed hcu) (by simp [GrantTask.isCall])
  rw [GrantTask.committed, hpc', Bool.and_false] at hcu
  exact absurd hcu Bool.false_ne_true

/-! ## The grants of a reachable state -/

theorem granted_boot : Granted (bootGrants hashNew retention) :=
  ⟨rfl, nofun, nofun, nofun⟩

theorem counted_boot : Counted [] (bootGrants hashNew retention) :=
  ⟨fun _ ↦ rfl, fun _ ↦ rfl, fun _ ↦ rfl⟩

/-- **Grants are kept in step.**  In every reachable state the referenced namespaces are known and
the known ones have a handle, so that no sweep passes over one; no namespace had its handle
inserted or its watcher spawned twice, and once it is known and no call on it is in progress both
were done once; and no step of a call that returned an error changed the node or spawned a
watcher. -/
theorem grants_consistent
    (hrun : Run GrantStep (bootGrants hashNew retention) evs p) :
    ((∀ ns h, p.shared.node.content.isTrackedFor ns h = true →
        p.shared.node.registry.isKnown ns = true) ∧
      (∀ ns, p.shared.node.registry.isKnown ns = true → ns ∈ p.shared.node.handles) ∧
      ∀ now ns queue n, .sweep now (.visiting (ns :: queue)) n ∈ p.tasks →
        ns ∈ p.shared.node.handles) ∧
    (∀ ns, evs.countP (GrantEvent.insertsHandle ns) ≤ 1 ∧
      evs.countP (GrantEvent.spawnsWatch ns) ≤ 1 ∧
      p.tasks.countP (GrantTask.watches ns) = evs.countP (GrantEvent.spawnsWatch ns) ∧
      (p.shared.node.registry.isKnown ns = true →
        (∀ id sub pc, .call id ns sub pc ∈ p.tasks → pc.inProgress = false) →
        evs.countP (GrantEvent.insertsHandle ns) = 1 ∧
          evs.countP (GrantEvent.spawnsWatch ns) = 1)) ∧
    ∀ id ns sub, .call id ns sub (.returned false) ∈ p.tasks →
      ∀ evs₁ evs₂ p₁ p₂ pc t', Run GrantStep (bootGrants hashNew retention) evs₁ p₁ →
        GrantStep p₁ (.fire (.call id ns sub pc) t') p₂ → Run GrantStep p₂ evs₂ p →
          p₂.shared.node = p₁.shared.node ∧ p₂.watchers = p₁.watchers := by
  have hinv : Granted p ∧ Counted evs p := hrun.invariant_labels
    (I := fun evs p ↦ Granted p ∧ Counted evs p)
    (fun _ _ _ _ hs hstep ↦ ⟨granted_step hs.1 hstep, counted_step hs.1 hs.2 hstep⟩)
    ⟨granted_boot, counted_boot⟩
  obtain ⟨hs, hc⟩ := hinv
  refine ⟨⟨hs.known, hs.handled, fun now ns queue n hmem ↦ ?_⟩, fun ns ↦ ?_, ?_⟩
  · exact hs.handled ns (hs.sound _ hmem ns List.mem_cons_self)
  · have hinserts := hc.inserts ns
    have hspawns := hc.spawns ns
    have hle : ∀ b : Bool, b.toNat ≤ 1 := Bool.toNat_le
    refine ⟨hinserts.trans_le (hle _), ?_, hc.watchers ns, fun hknown hquiet ↦ ⟨?_, ?_⟩⟩
    · have := hle (p.shared.node.registry.isKnown ns)
      omega
    · rw [hinserts, decide_eq_true (hs.handled ns hknown)]
      rfl
    · have hnone : p.tasks.countP (GrantTask.awaitsSpawn ns) = 0 := by
        refine List.countP_eq_zero.mpr fun t ht hawaits ↦ ?_
        obtain ⟨id, sub, rfl⟩ := GrantTask.eq_of_awaitsSpawn hawaits
        exact absurd (hquiet id sub _ ht) nofun
      rw [hnone, hknown] at hspawns
      exact hspawns
  · intro id ns sub hend evs₁ evs₂ p₁ p₂ pc t' hboot hstep hrest
    exact failed_adds_nothing hboot hstep hrest hend rfl

/-- A first call has failed to import the namespace and a second one has succeeded; its watcher has
handled a fix, and a sweep begins. -/
def afterCalls : GrantPool sampleHash :=
  ⟨⟨⟨fixOnly, false⟩, false, {idOf 1}⟩,
    [.sweep 200000000 (.visiting [idOf 1]) 0, .watch (idOf 1) (.listening []),
      .call 1 (idOf 1) none (.returned true), .call 0 (idOf 1) none (.returned false)]⟩

/-- The first call alone, before it fails and after. -/
def afterImport (held : Bool) (pc : RegisterPc) : GrantPool sampleHash :=
  ⟨⟨⟨.boot sampleHash (.fromHours 24), false⟩, held, ∅⟩, [.call 0 (idOf 1) none pc]⟩

theorem run_importing : ∃ evs, Run GrantStep (bootGrants sampleHash (.fromHours 24)) evs
    (afterImport true .importing) :=
  ⟨_, .cons (.call 0 (idOf 1) none nofun)
    (.cons (.fire [] [] (.call (.lock rfl (by decide)))) (.nil _))⟩

theorem fails_importing : GrantStep (afterImport true .importing)
    (.fire (.call 0 (idOf 1) none .importing) (.call 0 (idOf 1) none (.returned false)))
    (afterImport false (.returned false)) := .fire [] [] (.call .importFails)

theorem run_afterCalls :
    ∃ evs, Run GrantStep (afterImport false (.returned false)) evs afterCalls := by
  refine Run.exists_cons (.call 1 (idOf 1) none (by decide)) ?_
  refine Run.exists_cons (.fire [] [_] (.call (.lock rfl (by decide)))) ?_
  refine Run.exists_cons (.fire [] [_] (.call .imports)) ?_
  refine Run.exists_cons (.fire [] [_] (.call .syncs)) ?_
  refine Run.exists_cons (.fire [] [_] (.call .joins)) ?_
  refine Run.exists_cons (.fire [] [_] (.call .records)) ?_
  refine Run.exists_cons (.fire [] [_] .spawns) ?_
  refine Run.exists_cons (.fire [] [_, _] (.watch .subscribes)) ?_
  refine Run.exists_cons (.insert oldFix (fun _ ↦ false) (by decide)) ?_
  refine Run.exists_cons (.fire [] [_, _] (.watch .next)) ?_
  refine Run.exists_cons (.fire [] [_, _] (.watch (.handles .want))) ?_
  refine Run.exists_cons (.fire [] [_, _] (.watch (.handles (.has false nofun)))) ?_
  refine Run.exists_cons (.fire [] [_, _] (.watch (.handles (.insert 1000 rfl)))) ?_
  refine Run.exists_cons (.fire [] [_, _] (.watch (.handles .skip))) ?_
  refine Run.exists_cons (.fire [] [_, _] (.watch .finishes)) ?_
  refine Run.exists_cons (.sweep 200000000) ?_
  exact Run.exists_cons (.fire [] [_, _, _] (.sweep nofun list_fixOnly)) ⟨[], .nil _⟩

theorem inProgress_afterCalls (id : Nat) (sub : Option PushSubscription) (pc : RegisterPc)
    (hmem : .call id (idOf 1) sub pc ∈ afterCalls.tasks) : pc.inProgress = false := by
  simp only [afterCalls, List.mem_cons, List.not_mem_nil, or_false, reduceCtorEq, false_or,
    GrantTask.call.injEq] at hmem
  rcases hmem with ⟨-, -, -, rfl⟩ | ⟨-, -, -, rfl⟩ <;> rfl

/-- Of the two calls one inserted the handle and spawned the watcher, and the failing step of the
other left the node as it was. -/
theorem grants_afterCalls :
    (fixOnly.registry.isKnown (idOf 1) = true ∧ idOf 1 ∈ fixOnly.handles ∧
      ∃ evs, Run GrantStep (bootGrants sampleHash (.fromHours 24)) evs afterCalls ∧
        evs.countP (GrantEvent.insertsHandle (idOf 1)) = 1 ∧
        evs.countP (GrantEvent.spawnsWatch (idOf 1)) = 1) ∧
    (afterImport false (.returned false)).shared.node =
      (afterImport true .importing).shared.node := by
  obtain ⟨evs₁, hboot⟩ := run_importing
  obtain ⟨evs₂, hrest⟩ := run_afterCalls
  have hrun := hboot.append (.cons fails_importing hrest)
  obtain ⟨⟨hknown, hhandled, hvisits⟩, hcounts, hfailed⟩ := grants_consistent hrun
  have hfix := hknown (idOf 1) zeroHash (by decide)
  obtain ⟨-, -, -, hone⟩ := hcounts (idOf 1)
  have hsweep := hvisits 200000000 (idOf 1) [] 0 List.mem_cons_self
  have hsame := hfailed 0 (idOf 1) none (by simp [afterCalls]) _ _ _ _ _ _ hboot fails_importing
    hrest
  exact ⟨⟨hfix, hsweep, _, hrun, hone hfix inProgress_afterCalls⟩, hsame.1⟩

end TrailStash
