import Mathlib.Data.Finmap
import Mathlib.Data.Finset.Basic

/-!
# Maps from keys to non-empty sets

A `SetMap α β` is a finite map whose values are finite sets, none of them empty: the shape of a
`HashMap<α, HashSet<β>>` that is only ever changed by adding one element to the set of a key and
by removing one element, dropping the key with the last of them.  That no empty set is ever stored
is a field of the structure, so it does not have to be assumed or re-proved by whoever holds one.

As a consequence a `SetMap` is the same thing as the finite relation `m.contains a b`: two of them
with the same relation are equal (`SetMap.ext_contains`).  The relation is also what every lemma
about the operations speaks of, so nothing outside this file needs to know how the pairs are
stored.
-/

set_option autoImplicit false

/-- A finite map from keys to non-empty finite sets. -/
structure SetMap (α β : Type*) [DecidableEq α] where
  /-- The underlying map. -/
  map : Finmap fun _ : α ↦ Finset β
  /-- A key whose set ran empty is not kept. -/
  nonempty : ∀ a s, map.lookup a = some s → s.Nonempty

namespace SetMap

variable {α β : Type*} [DecidableEq α] [DecidableEq β]

instance : EmptyCollection (SetMap α β) := ⟨⟨∅, by simp⟩⟩

/-- The set of a key; a key that is not kept has the empty set. -/
def get (m : SetMap α β) (a : α) : Finset β := (m.map.lookup a).getD ∅

/-- Whether the set of `a` is kept and has `b` in it. -/
def contains (m : SetMap α β) (a : α) (b : β) : Bool :=
  (m.map.lookup a).any fun s ↦ decide (b ∈ s)

/-- Whether `b` is in the set of some key. -/
def anyContains (m : SetMap α β) (b : β) : Bool := decide (∃ a ∈ m.map.keys, m.contains a b = true)

/-- Add `b` to the set of `a`, starting the set if there is none. -/
def add (m : SetMap α β) (a : α) (b : β) : SetMap α β where
  map := m.map.insert a (insert b (m.get a))
  nonempty a' s hs := by
    by_cases h : a' = a
    · subst h
      rw [Finmap.lookup_insert, Option.some_inj] at hs
      exact hs ▸ Finset.insert_nonempty b _
    · rw [Finmap.lookup_insert_of_ne _ h] at hs
      exact m.nonempty a' s hs

/-- Take `b` out of the set of `a`, dropping the set if that leaves it empty.  The flag says
whether `b` was there. -/
def remove (m : SetMap α β) (a : α) (b : β) : Bool × SetMap α β :=
  match h : m.map.lookup a with
  | none => (false, m)
  | some s =>
    if hs : s.erase b = ∅ then
      (decide (b ∈ s), ⟨m.map.erase a, fun a' s' hs' ↦ by
        by_cases ha : a' = a
        · subst ha
          rw [Finmap.lookup_erase] at hs'
          exact absurd hs' (by simp)
        · rw [Finmap.lookup_erase_ne ha] at hs'
          exact m.nonempty a' s' hs'⟩)
    else
      (decide (b ∈ s), ⟨m.map.insert a (s.erase b), fun a' s' hs' ↦ by
        by_cases ha : a' = a
        · subst ha
          rw [Finmap.lookup_insert, Option.some_inj] at hs'
          exact hs' ▸ Finset.nonempty_iff_ne_empty.mpr hs
        · rw [Finmap.lookup_insert_of_ne _ ha] at hs'
          exact m.nonempty a' s' hs'⟩)

variable {m m' : SetMap α β} {a a' : α} {b b' : β}

theorem contains_iff : m.contains a b = true ↔ ∃ s, m.map.lookup a = some s ∧ b ∈ s := by
  simp [contains, Option.any_eq_true]

theorem mem_get : b ∈ m.get a ↔ m.contains a b = true := by
  rw [contains_iff, get]
  cases m.map.lookup a <;> simp

@[simp] theorem contains_empty : (∅ : SetMap α β).contains a b = false := rfl

theorem anyContains_iff : m.anyContains b = true ↔ ∃ a, m.contains a b = true := by
  simp only [anyContains, decide_eq_true_eq]
  constructor
  · rintro ⟨a, -, h⟩
    exact ⟨a, h⟩
  · rintro ⟨a, h⟩
    obtain ⟨s, hs, -⟩ := contains_iff.mp h
    exact ⟨a, Finmap.mem_keys.mpr (Finmap.mem_of_lookup_eq_some hs), h⟩

/-- A `SetMap` is determined by its relation. -/
theorem ext_contains (h : ∀ a b, m.contains a b = m'.contains a b) : m = m' := by
  have hsub : ∀ m₁ m₂ : SetMap α β, (∀ a b, m₁.contains a b = m₂.contains a b) → ∀ a s,
      m₁.map.lookup a = some s → m₂.map.lookup a = some s := by
    intro m₁ m₂ h a s hs
    obtain ⟨b, hb⟩ := m₁.nonempty a s hs
    obtain ⟨s', hs', -⟩ := contains_iff.mp ((h a b) ▸ contains_iff.mpr ⟨s, hs, hb⟩)
    have hget : m₁.get a = m₂.get a := by
      ext b
      rw [mem_get, mem_get, h]
    rw [get, get, hs, hs', Option.getD_some, Option.getD_some] at hget
    rw [hs', hget]
  have hmap : m.map = m'.map := Finmap.ext_lookup fun a ↦ Option.ext fun s ↦
    ⟨hsub m m' h a s, hsub m' m (fun a b ↦ (h a b).symm) a s⟩
  cases m
  cases m'
  cases hmap
  rfl

@[simp] theorem contains_add : (m.add a b).contains a' b' = true ↔
    (a' = a ∧ b' = b) ∨ m.contains a' b' = true := by
  rw [contains_iff, add]
  by_cases ha : a' = a
  · subst ha
    simp [mem_get]
  · rw [Finmap.lookup_insert_of_ne _ ha, ← contains_iff]
    simp [ha]

/-- Adding a pair that is there changes nothing. -/
theorem add_of_contains (h : m.contains a b = true) : m.add a b = m := by
  refine ext_contains fun a' b' ↦ ?_
  rw [Bool.eq_iff_iff, contains_add, or_iff_right_iff_imp]
  rintro ⟨rfl, rfl⟩
  exact h

/-- The flag of `remove` is whether the pair was there. -/
theorem fst_remove : (m.remove a b).1 = m.contains a b := by
  rw [contains, remove]
  split
  · next h => simp [h]
  · next s h => split <;> simp [h]

@[simp] theorem contains_remove : (m.remove a b).2.contains a' b' = true ↔
    m.contains a' b' = true ∧ ¬ (a' = a ∧ b' = b) := by
  rw [remove]
  split
  · next h =>
    refine ⟨fun hc ↦ ⟨hc, ?_⟩, And.left⟩
    rintro ⟨rfl, -⟩
    obtain ⟨s, hs, -⟩ := contains_iff.mp hc
    exact absurd hs (by simp [h])
  · next s h =>
    by_cases ha : a' = a
    · subst ha
      have hmem : m.contains a' b' = true ↔ b' ∈ s := by simp [contains_iff, h]
      rw [hmem]
      split
      · next hs =>
        have : b' ∈ s ∧ ¬ b' = b ↔ b' ∈ s.erase b := by rw [Finset.mem_erase, and_comm]
        simp [contains_iff, this, hs]
      · simp [contains_iff, Finset.mem_erase, and_comm]
    · split <;> simp [contains_iff, ha, Finmap.lookup_erase_ne, Finmap.lookup_insert_of_ne]

/-- Removing a pair that is not there changes nothing. -/
theorem remove_of_not_contains (h : m.contains a b = false) : (m.remove a b).2 = m := by
  refine ext_contains fun a' b' ↦ ?_
  rw [Bool.eq_iff_iff, contains_remove]
  refine ⟨And.left, fun hc ↦ ⟨hc, ?_⟩⟩
  rintro ⟨rfl, rfl⟩
  exact absurd hc (by simp [h])

end SetMap
