import TrailStash.Lib.Run
import TrailStash.Subscriptions

/-!
# The registry over time

Calls of `register` and `unsubscribe`, one after the other, starting from the empty registry.  What
they leave behind is a set of grants, which only grows, and a set of subscriptions in which the last
call that names a pair of a namespace and a subscription has its way.

The registry keeps the subscriptions in a nested table and drops a namespace's table with its last
entry.  `contains_apply` is all that is needed to see through that: a call decides about one pair,
if it names one, and leaves the others alone.
-/

set_option autoImplicit false

namespace TrailStash

open Runs

/-- A call on the registry. -/
inductive RegistryCall
  /-- `register` -/
  | register (ns : NamespaceId) (sub : Option PushSubscription)
  /-- `unsubscribe` -/
  | unsubscribe (ns : NamespaceId) (sub : PushSubscription)
  deriving DecidableEq

namespace RegistryCall

/-- The namespace a call is about. -/
def ns : RegistryCall → NamespaceId
  | .register ns _ => ns
  | .unsubscribe ns _ => ns

/-- Whether a call is a `register`. -/
def isRegister : RegistryCall → Bool
  | .register _ _ => true
  | .unsubscribe _ _ => false

/-- Whether a call names this subscription of this namespace. -/
def names (ns : NamespaceId) (sub : PushSubscription) : RegistryCall → Bool
  | .register ns' sub' => decide (ns' = ns) && decide (sub' = some sub)
  | .unsubscribe ns' sub' => decide (ns' = ns) && decide (sub' = sub)

end RegistryCall

namespace NamespaceRegistry

/-- The answer of a call, and what it leaves behind. -/
def call (g : NamespaceRegistry) : RegistryCall → Bool × NamespaceRegistry
  | .register ns sub => g.register ns sub
  | .unsubscribe ns sub => g.unsubscribe ns sub

/-- The registry after a call. -/
def apply (g : NamespaceRegistry) (c : RegistryCall) : NamespaceRegistry := (g.call c).2

variable {g : NamespaceRegistry} {c : RegistryCall} {ns : NamespaceId} {sub : PushSubscription}

/-- **What a call does to the subscriptions**: it decides about the pair it names. -/
theorem contains_apply : (g.apply c).subs.contains ns sub =
    if c.names ns sub then c.isRegister else g.subs.contains ns sub := by
  rw [Bool.eq_iff_iff]
  cases c with
  | register ns' sub' =>
    cases sub' with
    | none => simp [apply, call, register, RegistryCall.names]
    | some sub' =>
      simp only [apply, call, register, SetMap.contains_add, RegistryCall.names,
        RegistryCall.isRegister, Option.some_inj, Bool.and_eq_true, decide_eq_true_eq,
        Bool.if_true_left, Bool.or_eq_true]
      exact or_congr_left (and_congr eq_comm eq_comm)
  | unsubscribe ns' sub' =>
    simp only [apply, call, unsubscribe, SetMap.contains_remove, RegistryCall.names,
      RegistryCall.isRegister, Bool.and_eq_true, decide_eq_true_eq, Bool.if_false_left,
      Bool.not_eq_true', decide_eq_false_iff_not, and_comm (a := _ = true)]
    exact and_congr_left fun _ ↦ not_congr (and_congr eq_comm eq_comm)

theorem isKnown_apply : (g.apply c).isKnown ns = true ↔
    (∃ sub, c = .register ns sub) ∨ g.isKnown ns = true := by
  cases c with
  | register ns' sub' =>
    rw [apply, call, isKnown_register]
    refine or_congr_left ⟨fun h ↦ ⟨sub', by rw [h]⟩, ?_⟩
    exact fun ⟨_, h⟩ ↦ (RegistryCall.register.inj h).1.symm
  | unsubscribe ns' sub' =>
    exact (or_iff_right fun ⟨_, h⟩ ↦ RegistryCall.noConfusion h).symm

/-- The registry after a sequence of calls. -/
def after (calls : List RegistryCall) : NamespaceRegistry := calls.foldl apply .new

variable {calls : List RegistryCall}

theorem after_concat : after (calls ++ [c]) = (after calls).apply c := by
  rw [after, after, List.foldl_append, List.foldl_cons, List.foldl_nil]

theorem isKnown_after : (after calls).isKnown ns = true ↔ ∃ sub, .register ns sub ∈ calls := by
  induction calls using List.reverseRecOn with
  | nil => simp [after]
  | append_singleton calls c ih =>
    rw [after_concat, isKnown_apply, ih, ← exists_or]
    refine exists_congr fun sub ↦ ?_
    rw [List.mem_append, List.mem_singleton, or_comm, eq_comm]

/-- The last call that names a pair decides whether it is there. -/
theorem contains_after : (after calls).subs.contains ns sub =
    ((calls.filter (·.names ns sub)).getLast?.map RegistryCall.isRegister).getD false := by
  have happly : ∀ (g : NamespaceRegistry) (c : RegistryCall), (g.apply c).subs.contains ns sub =
      if c.names ns sub then c.isRegister else g.subs.contains ns sub := fun _ _ ↦ contains_apply
  exact flag_foldl (q := fun g ↦ g.subs.contains ns sub) happly new calls

/-- **The registry is a set of grants and a set of subscriptions.**  Whatever calls were made: the
known namespaces are the registered ones, and stay; the wake targets of a namespace are the
subscriptions whose last call was a `register`; the answers of the calls are what they say; a call
leaves the other namespaces' targets alone; and no empty set is stored. -/
theorem registry_lastCall (calls : List RegistryCall) (nsOrder : IterOrder NamespaceId)
    (order : IterOrder PushSubscription) :
    ((after calls).knownNamespaces nsOrder).Nodup ∧
    (∀ ns, ns ∈ (after calls).knownNamespaces nsOrder ↔ ∃ sub, .register ns sub ∈ calls) ∧
    (∀ c, (after calls).knownNamespaces nsOrder ⊆
      ((after calls).apply c).knownNamespaces nsOrder) ∧
    (∀ ns, ((after calls).wakeTargets ns order).Nodup) ∧
    (∀ ns sub, sub ∈ (after calls).wakeTargets ns order ↔
      ∃ c, (calls.filter (·.names ns sub)).getLast? = some c ∧ c.isRegister = true) ∧
    (∀ ns sub, ((after calls).register ns sub).1 = true ↔ ∀ sub', .register ns sub' ∉ calls) ∧
    (∀ ns sub, ((after calls).unsubscribe ns sub).1 = true ↔
      sub ∈ (after calls).wakeTargets ns order) ∧
    (∀ c ns, ns ≠ c.ns → ((after calls).apply c).wakeTargets ns order =
      (after calls).wakeTargets ns order) ∧
    ∀ ns s, (after calls).subs.map.lookup ns = some s → s.Nonempty := by
  refine ⟨nsOrder.nodup _, fun ns ↦ ?_, fun c ns hns ↦ ?_, fun ns ↦ order.nodup _, fun ns sub ↦ ?_,
    fun ns sub ↦ ?_, fun ns sub ↦ ?_, fun c ns hne ↦ ?_, (after calls).subs.nonempty⟩
  · rw [mem_knownNamespaces, isKnown_after]
  · rw [mem_knownNamespaces] at hns ⊢
    exact isKnown_apply.mpr (Or.inr hns)
  · rw [mem_wakeTargets, contains_after]
    cases (calls.filter (·.names ns sub)).getLast? <;> simp
  · rw [fst_register, isKnown_after, not_exists]
  · rw [mem_wakeTargets]
    exact Bool.eq_iff_iff.mp SetMap.fst_remove
  · -- the set of another namespace is the same set, so it is walked in the same order
    have hget : ((after calls).apply c).subs.get ns = (after calls).subs.get ns := by
      ext sub
      have hnames : c.names ns sub = false := by
        cases c <;> simp [RegistryCall.names] <;> exact fun h ↦ absurd h.symm hne
      rw [SetMap.mem_get, SetMap.mem_get, contains_apply, hnames]
      rfl
    rw [wakeTargets, wakeTargets, hget]

end NamespaceRegistry

end TrailStash
