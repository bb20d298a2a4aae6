import TrailStash.Lib.Run
import TrailStash.Settle
import TrailStash.Sweep

/-!
# The node over time

The operations of the node, each taken as one atomic step, in any order.  A `System` is the node
together with two things that only the proofs look at: the wakes issued so far, and the time of
the latest sweep.  An `Op` is an operation with everything it is given from outside — the answers
of the blob store and of the network, the clock, the order in which hash tables are walked — so a
run is determined by its operations.

An arrival is a record entering the replica of a watched namespace together with the handling of
its `InsertRemote` event.  Which older records it replaces is the replica's business: none for a
new key, the one under the same key for an overwrite, the ones it covers for a deletion, which is
an arrival whose own content is empty.
-/

set_option autoImplicit false

namespace TrailStash

open Runs StashNode

/-- The node, the wakes issued so far, and the time of the latest sweep. -/
structure System (hashNew : Bytes → ContentHash) where
  /-- The node. -/
  node : StashNode hashNew
  /-- The calls of `wake_for`, the latest last. -/
  wakes : List Wake
  /-- The time the latest sweep was given. -/
  sweptAt : Nat

/-- An operation, with all it is given from outside. -/
inductive Op (hashNew : Bytes → ContentHash)
  /-- A registration. -/
  | grant (ns : NamespaceId) (sub : Option PushSubscription)
  /-- A record arrives in the replica of a watched namespace, and its event is handled. -/
  | arrive (ns : NamespaceId) (e : Entry) (replaced : Entry → Bool) (deliveredBy : EndpointId)
      (present : Bool) (now : Nat)
  /-- A settle pass. -/
  | settle (now : Nat) (order : IterOrder ContentHash) (has : ContentHash → Bool)
      (fetch : ∀ h, Option {bytes // hashNew bytes = h})
  /-- An upload. -/
  | put (ns : NamespaceId) (expected : ContentHash) (bytes : Bytes) (fails : Bool)
  /-- A retention sweep. -/
  | prune (now : Nat) (faulty : NamespaceId → Bool) (nsOrder : IterOrder NamespaceId)
      (order : IterOrder ContentHash)

/-- Whether an operation leaves the replicas alone: all but the arrivals do. -/
def Op.Quiet {hashNew : Bytes → ContentHash} : Op hashNew → Prop
  | .arrive .. => False
  | _ => True

theorem Op.quiet_or_arrive {hashNew : Bytes → ContentHash} (op : Op hashNew) : op.Quiet ∨
    ∃ ns e replaced deliveredBy present now,
      op = .arrive ns e replaced deliveredBy present now := by
  cases op with
  | arrive ns e replaced deliveredBy present now =>
    exact Or.inr ⟨ns, e, replaced, deliveredBy, present, now, rfl⟩
  | _ => exact Or.inl trivial

namespace System

variable {hashNew : Bytes → ContentHash}

/-- The system at boot. -/
def boot (hashNew : Bytes → ContentHash) (retention : RetentionPolicy) : System hashNew :=
  ⟨.boot hashNew retention, [], 0⟩

/-- Run the node's part of an operation, and collect the wakes it issues. -/
def advance (s : System hashNew) (out : StashNode hashNew × List Wake) : System hashNew :=
  { s with node := out.1, wakes := s.wakes ++ out.2 }

/-- What an operation does. -/
def apply (s : System hashNew) : Op hashNew → System hashNew
  | .grant ns sub => { s with node := s.node.register ns sub }
  | .arrive ns e replaced deliveredBy present now =>
    s.advance ((s.node.replicate ns e replaced).onInsertRemote ns e deliveredBy present now)
  | .settle now order has fetch => s.advance (s.node.settleOnce now order has fetch)
  | .put ns expected bytes fails => { s with node := (s.node.putContent ns expected bytes fails).1 }
  | .prune now faulty nsOrder order =>
    { s with node := (s.node.pruneOnce now faulty nsOrder order).1, sweptAt := now }

/-- Events come from watched namespaces only. -/
def Enabled (s : System hashNew) : Op hashNew → Prop
  | .arrive ns _ _ _ _ _ => s.node.registry.isKnown ns = true
  | _ => True

/-- One step. -/
def Step (s : System hashNew) (op : Op hashNew) (t : System hashNew) : Prop :=
  Enabled s op ∧ t = s.apply op

variable {s t : System hashNew} {op : Op hashNew} {ops : List (Op hashNew)} {ns ns' : NamespaceId}
  {h : ContentHash} {e : Entry} {policy : RetentionPolicy}

/-- The record an arrival brings is in the replica afterwards, with those it does not replace. -/
theorem mem_docs_replicate {node : StashNode hashNew} {replaced : Entry → Bool} {e' : Entry} :
    e' ∈ (node.replicate ns e replaced).docs ns' ↔
      if ns' = ns then e' = e ∨ (e' ∈ node.docs ns ∧ replaced e' = false)
      else e' ∈ node.docs ns' := by
  by_cases hns : ns' = ns
  · subst hns
    simp [replicate, or_comm]
  · simp [replicate, hns]

theorem docs_replicate_of_ne {node : StashNode hashNew} {replaced : Entry → Bool}
    (hns : ns' ≠ ns) : (node.replicate ns e replaced).docs ns' = node.docs ns' :=
  Function.update_of_ne hns _ _

/-- Only an arrival changes a replica. -/
theorem docs_apply (hop : op.Quiet) : (s.apply op).node.docs = s.node.docs := by
  cases op with
  | grant => rfl
  | arrive => exact hop.elim
  | settle => exact frame_settleOnce.docs
  | put => exact frame_putContent.docs
  | prune => exact frame_pruneOnce.docs

theorem docs_apply_arrive {replaced : Entry → Bool} {deliveredBy : EndpointId} {present : Bool}
    {now : Nat} : (s.apply (.arrive ns e replaced deliveredBy present now)).node.docs =
      (s.node.replicate ns e replaced).docs := frame_onInsertRemote.docs

theorem retention_apply : (s.apply op).node.retention = s.node.retention := by
  cases op with
  | grant => rfl
  | arrive => exact frame_onInsertRemote.retention
  | settle => exact frame_settleOnce.retention
  | put => exact frame_putContent.retention
  | prune => exact frame_pruneOnce.retention

/-- Only a registration changes the grants and the handles. -/
theorem registry_apply (hop : ∀ ns sub, op ≠ .grant ns sub) :
    (s.apply op).node.registry = s.node.registry ∧ (s.apply op).node.handles = s.node.handles := by
  cases op with
  | grant ns sub => exact absurd rfl (hop ns sub)
  | arrive =>
    exact ⟨frame_onInsertRemote.registry, frame_onInsertRemote.handles⟩
  | settle => exact ⟨frame_settleOnce.registry, frame_settleOnce.handles⟩
  | put => exact ⟨frame_putContent.registry, frame_putContent.handles⟩
  | prune => exact ⟨frame_pruneOnce.registry, frame_pruneOnce.handles⟩

theorem handlesOpen_apply (hs : HandlesOpen s.node) : HandlesOpen (s.apply op).node := by
  by_cases hop : ∃ ns sub, op = .grant ns sub
  · obtain ⟨ns, sub, rfl⟩ := hop
    intro ns' hns'
    rcases NamespaceRegistry.isKnown_register.mp hns' with rfl | hns'
    · exact Finset.mem_insert_self ns' _
    · exact Finset.mem_insert_of_mem (hs ns' hns')
  · obtain ⟨hreg, hhandles⟩ := registry_apply (s := s) fun ns sub h ↦ hop ⟨ns, sub, h⟩
    rw [HandlesOpen, hreg, hhandles]
    exact hs

/-- In every reachable state the granted namespaces have their handles. -/
theorem handlesOpen_of_run (hrun : Run Step (boot hashNew policy) ops s) : HandlesOpen s.node := by
  have hboot : HandlesOpen (boot hashNew policy).node :=
    fun ns hns ↦ absurd hns (by simp [boot, StashNode.boot])
  refine hrun.invariant (I := fun s ↦ HandlesOpen s.node) (fun s op t hs hstep ↦ ?_) hboot
  rw [hstep.2]
  exact handlesOpen_apply hs

/-- Nothing but an arrival adds references. -/
theorem isTrackedFor_of_apply (hop : op.Quiet)
    (ht : (s.apply op).node.content.isTrackedFor ns h = true) :
    s.node.content.isTrackedFor ns h = true := by
  cases op with
  | grant => exact ht
  | arrive => exact hop.elim
  | settle now order has fetch => exact isTrackedFor_settleOnce ▸ ht
  | put ns expected bytes fails => exact isTrackedFor_putContent ▸ ht
  | prune now faulty nsOrder order =>
    obtain ⟨swept, -, hrel⟩ := pruneOnce_spec s.node now faulty nsOrder order
    exact ((hrel ns h).mp ht).1

theorem isTrackedFor_apply_arrive {replaced : Entry → Bool} {deliveredBy : EndpointId}
    {present : Bool} {now : Nat} :
    (s.apply (.arrive ns e replaced deliveredBy present now)).node.content.isTrackedFor ns' h =
        true ↔
      (ns' = ns ∧ h = e.contentHash) ∨ s.node.content.isTrackedFor ns' h = true :=
  isTrackedFor_onInsertRemote

/-! ## Runs on fixed inputs -/

/-- The system after a list of operations. -/
def after (s : System hashNew) (ops : List (Op hashNew)) : System hashNew := ops.foldl apply s

/-- A stand-in for the hash function, for runs in which no bytes are hashed. -/
def noHash : Bytes → ContentHash := fun _ ↦ emptyHash

/-- The system at boot with a window of one day. -/
def dayStash : System noHash := boot _ (.fromHours 24)

/-- The hex form of an author whose 32 bytes are all `0xaa`. -/
def hexAuthor : Bytes := List.replicate 64 'a'.toUInt8

/-- The key of that author's fix number `d`, for a digit `d`. -/
def fixKeyOf (d : UInt8) : Bytes :=
  hexAuthor ++ keySep :: List.replicate 19 '0'.toUInt8 ++ ['0'.toUInt8 + d]

/-- The key of that author's control slot, `ctl/hex(author)`. -/
def ctlKeyOf : Bytes := ['c', 't', 'l', '/'].map Char.toUInt8 ++ hexAuthor

end System

end TrailStash
