import TrailStash.Basic
import TrailStash.Lib.SetMap

/-!
# The registry of grants and wake subscriptions

Who wants to be woken about which namespace.  `known` is the set of namespaces the stash was ever
asked to replicate, and nothing takes a namespace out of it; `subs` holds the wake targets of each
namespace, and a namespace whose last target is dropped has no entry.  The second half is what
`SetMap` says of itself.

The functions here are the critical sections of one mutex, so each is one atomic step.
-/

set_option autoImplicit false

namespace TrailStash

/-- Which push transport a token belongs to. -/
inductive Platform
  /-- Apple Push Notification service (iOS). -/
  | apns
  /-- Firebase Cloud Messaging (Android). -/
  | fcm
  deriving DecidableEq, Repr

/-- A device's silent-push destination. -/
structure PushSubscription where
  /-- The transport. -/
  platform : Platform
  /-- The device token. -/
  token : String
  deriving DecidableEq, Repr

/-- The registry: grants, and wake targets per namespace. -/
structure NamespaceRegistry where
  /-- Namespaces we have been asked to replicate at least once. -/
  known : Finset NamespaceId
  /-- Wake targets per namespace. -/
  subs : SetMap NamespaceId PushSubscription

namespace NamespaceRegistry

/-- The empty registry. -/
def new : NamespaceRegistry := ⟨∅, ∅⟩

/-- Record interest in `ns`, optionally adding a push subscription.  The flag says whether this is
the first time `ns` is seen. -/
def register (g : NamespaceRegistry) (ns : NamespaceId) (sub : Option PushSubscription) :
    Bool × NamespaceRegistry :=
  let isNew := decide (ns ∉ g.known)
  (isNew,
    { known := insert ns g.known
      subs := match sub with
        | some sub => g.subs.add ns sub
        | none => g.subs })

/-- Drop one device's push subscription from `ns`.  The flag says whether it was present. -/
def unsubscribe (g : NamespaceRegistry) (ns : NamespaceId) (sub : PushSubscription) :
    Bool × NamespaceRegistry :=
  ((g.subs.remove ns sub).1, { g with subs := (g.subs.remove ns sub).2 })

/-- The wake targets for a namespace that just changed, in the order the hash set is walked. -/
def wakeTargets (g : NamespaceRegistry) (ns : NamespaceId) (order : IterOrder PushSubscription) :
    List PushSubscription := order.list (g.subs.get ns)

/-- Every namespace we have been granted, in the order the hash set is walked. -/
def knownNamespaces (g : NamespaceRegistry) (order : IterOrder NamespaceId) : List NamespaceId :=
  order.list g.known

/-- Whether `ns` was granted. -/
def isKnown (g : NamespaceRegistry) (ns : NamespaceId) : Bool := decide (ns ∈ g.known)

variable {g : NamespaceRegistry} {ns ns' : NamespaceId} {sub : Option PushSubscription}
  {order : IterOrder NamespaceId}

theorem isKnown_iff : g.isKnown ns = true ↔ ns ∈ g.known := decide_eq_true_iff

@[simp] theorem isKnown_new : new.isKnown ns = false := rfl

@[simp] theorem isKnown_register :
    (g.register ns sub).2.isKnown ns' = true ↔ ns' = ns ∨ g.isKnown ns' = true := by
  rw [isKnown_iff, isKnown_iff]
  exact Finset.mem_insert

/-- The first registration of a namespace is told so. -/
theorem fst_register : (g.register ns sub).1 = true ↔ ¬ g.isKnown ns = true := by
  rw [isKnown_iff]
  exact decide_eq_true_iff

theorem mem_knownNamespaces : ns ∈ g.knownNamespaces order ↔ g.isKnown ns = true := by
  rw [isKnown_iff]
  exact order.mem_list g.known ns

theorem mem_wakeTargets {order : IterOrder PushSubscription} {sub : PushSubscription} :
    sub ∈ g.wakeTargets ns order ↔ g.subs.contains ns sub = true := by
  rw [wakeTargets, order.mem_list, SetMap.mem_get]

end NamespaceRegistry

end TrailStash
