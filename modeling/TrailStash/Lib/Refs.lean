import Mathlib.Data.Set.Insert

/-!
# Counted references

Owners refer to objects; an object that somebody refers to may be held.  `Refs α β` is the state of
such a scheme as a mathematician would write it down: the set of pairs of an owner and an object,
and the set of objects that are held, all of which somebody refers to.  Three operations change it:
an owner takes up a reference, an object is held, an owner lets a reference go.

Letting a reference go ends the holding of an object exactly when it was the last pair that names
the object (`Refs.Last`).  An implementation keeps something else — counters, or nested tables —
and has to agree with this after every operation.
-/

set_option autoImplicit false

/-- Who refers to what, and what of it is held. -/
@[ext] structure Refs (α β : Type*) where
  /-- The references. -/
  pairs : Set (α × β)
  /-- The objects that are held. -/
  held : Set β
  /-- Nothing is held that nobody refers to. -/
  named_of_held : ∀ b ∈ held, ∃ a, (a, b) ∈ pairs

/-- An operation on references. -/
inductive RefOp (α β : Type*)
  /-- The owner takes up a reference. -/
  | want (a : α) (b : β)
  /-- The object is held from now on. -/
  | mark (b : β)
  /-- The owner lets a reference go. -/
  | forget (a : α) (b : β)

namespace Refs

variable {α β : Type*} {r : Refs α β} {a a' : α} {b b' : β}

/-- The objects that somebody refers to. -/
def named (r : Refs α β) : Set β := {b | ∃ a, (a, b) ∈ r.pairs}

/-- Nobody refers to anything. -/
def empty : Refs α β := ⟨∅, ∅, fun _ h ↦ h.elim⟩

/-- The pair is there, and it is the last one that names its object. -/
def Last (r : Refs α β) (a : α) (b : β) : Prop :=
  (a, b) ∈ r.pairs ∧ ∀ a', (a', b) ∈ r.pairs → a' = a

/-- Take up a reference. -/
def want (r : Refs α β) (a : α) (b : β) : Refs α β where
  pairs := insert (a, b) r.pairs
  held := r.held
  named_of_held b' hb' := by
    obtain ⟨a', ha'⟩ := r.named_of_held b' hb'
    exact ⟨a', Set.mem_insert_of_mem _ ha'⟩

/-- Hold an object, if somebody refers to it. -/
def mark (r : Refs α β) (b : β) : Refs α β where
  pairs := r.pairs
  held := {b' | b' ∈ r.held ∨ (b' = b ∧ b ∈ r.named)}
  named_of_held b' hb' := by
    rcases hb' with hb' | ⟨rfl, hb'⟩
    · exact r.named_of_held b' hb'
    · exact hb'

/-- Let a reference go, and with the last one to an object the object. -/
def forget (r : Refs α β) (a : α) (b : β) : Refs α β where
  pairs := r.pairs \ {(a, b)}
  held := {b' | b' ∈ r.held ∧ ¬ (b' = b ∧ r.Last a b)}
  named_of_held b' hb' := by
    obtain ⟨a', ha'⟩ := r.named_of_held b' hb'.1
    by_cases heq : (a', b') = (a, b)
    · -- the pair that goes is one of several
      obtain ⟨rfl, rfl⟩ := Prod.mk.inj heq
      have hmore : ¬ ∀ a'', (a'', b') ∈ r.pairs → a'' = a' := fun h ↦ hb'.2 ⟨rfl, ha', h⟩
      push Not at hmore
      obtain ⟨a'', hmem, hne⟩ := hmore
      exact ⟨a'', hmem, fun h ↦ hne (Prod.mk.inj h).1⟩
    · exact ⟨a', ha', heq⟩

/-- What an operation does. -/
def apply (r : Refs α β) : RefOp α β → Refs α β
  | .want a b => r.want a b
  | .mark b => r.mark b
  | .forget a b => r.forget a b

theorem mem_pairs_want : (a', b') ∈ (r.want a b).pairs ↔
    (a' = a ∧ b' = b) ∨ (a', b') ∈ r.pairs := by
  rw [want, Set.mem_insert_iff, Prod.mk.injEq]

theorem mem_pairs_forget : (a', b') ∈ (r.forget a b).pairs ↔
    (a', b') ∈ r.pairs ∧ ¬ (a' = a ∧ b' = b) := by
  rw [forget, Set.mem_sdiff, Set.mem_singleton_iff, Prod.mk.injEq]

end Refs
