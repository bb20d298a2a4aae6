import Mathlib.Data.Finmap
import Mathlib.Order.Bounds.Basic

/-!
# A running maximum per key

One pass over a list of pairs that keeps, for every key, the largest value seen so far in a finite
map.  `lookup_runningMax` is what the pass computes: the entry of a key is the greatest of the
values the list pairs it with, and a key has no entry exactly when it does not occur.
-/

set_option autoImplicit false

namespace RunningMax

variable {α β : Type*} [DecidableEq α] [LinearOrder β]

/-- Raise the entry of `a` to at least `b`, creating it if need be. -/
def keepMax (m : Finmap fun _ : α ↦ β) (a : α) (b : β) : Finmap fun _ : α ↦ β :=
  m.insert a (match m.lookup a with
    | some c => max c b
    | none => b)

/-- The largest value of each key of the list. -/
def runningMax (l : List (α × β)) : Finmap fun _ : α ↦ β :=
  l.foldl (fun m p ↦ keepMax m p.1 p.2) ∅

/-- A set and a subset of it that has something above each of its elements have the same greatest
element. -/
theorem isGreatest_iff_of_cofinal {S T : Set β} (hST : S ⊆ T) (hT : ∀ t ∈ T, ∃ s ∈ S, t ≤ s)
    {b : β} : IsGreatest S b ↔ IsGreatest T b := by
  constructor
  · rintro ⟨hb, hle⟩
    refine ⟨hST hb, fun t ht ↦ ?_⟩
    obtain ⟨s, hs, hts⟩ := hT t ht
    exact hts.trans (hle hs)
  · rintro ⟨hb, hle⟩
    obtain ⟨s, hs, hbs⟩ := hT b hb
    obtain rfl : s = b := le_antisymm (hle (hST hs)) hbs
    exact ⟨hs, fun t ht ↦ hle (hST ht)⟩

theorem isGreatest_option_iff {o : Option β} {b : β} :
    IsGreatest {c | o = some c} b ↔ o = some b := by
  refine ⟨fun h ↦ h.1, fun h ↦ ⟨h, fun c hc ↦ ?_⟩⟩
  exact (Option.some.inj (h.symm.trans hc)).ge

/-- The entry of the key just read: one of the old entry and the new value, and above both. -/
theorem lookup_keepMax_self (m : Finmap fun _ : α ↦ β) (a : α) (b : β) :
    ∃ c, (keepMax m a b).lookup a = some c ∧ (c = b ∨ m.lookup a = some c) ∧ b ≤ c ∧
      ∀ d, m.lookup a = some d → d ≤ c := by
  cases hm : m.lookup a with
  | none => exact ⟨b, by simp [keepMax, hm], Or.inl rfl, le_rfl, by simp⟩
  | some d =>
    refine ⟨max d b, by simp [keepMax, hm], ?_, le_max_right d b, ?_⟩
    · rcases max_choice d b with h | h
      · exact Or.inr (by rw [h])
      · exact Or.inl h
    · intro e he
      exact Option.some.inj he ▸ le_max_left d b

/-- The pass started from a map `m` rather than from nothing. -/
theorem lookup_foldl_keepMax {a : α} {b : β} (l : List (α × β)) (m : Finmap fun _ : α ↦ β) :
    (l.foldl (fun m p ↦ keepMax m p.1 p.2) m).lookup a = some b ↔
      IsGreatest {c | m.lookup a = some c ∨ (a, c) ∈ l} b := by
  induction l generalizing m with
  | nil => simpa using isGreatest_option_iff.symm
  | cons p l ih =>
    obtain ⟨a', b'⟩ := p
    rw [List.foldl_cons, ih]
    by_cases ha : a = a'
    · subst ha
      -- the new entry of `a` stands for both the old one and the pair just read
      obtain ⟨c, hc, hor, hb', hold⟩ := lookup_keepMax_self m a b'
      refine isGreatest_iff_of_cofinal ?_ ?_
      · rintro x (hx | hx)
        · obtain rfl : c = x := Option.some.inj (hc.symm.trans hx)
          rcases hor with rfl | hor
          · exact Or.inr List.mem_cons_self
          · exact Or.inl hor
        · exact Or.inr (List.mem_cons_of_mem _ hx)
      · rintro x (hx | hx)
        · exact ⟨c, Or.inl hc, hold x hx⟩
        · rcases List.mem_cons.mp hx with hx | hx
          · exact ⟨c, Or.inl hc, (Prod.mk.inj hx).2 ▸ hb'⟩
          · exact ⟨x, Or.inr hx, le_rfl⟩
    · have hset : {c | (keepMax m a' b').lookup a = some c ∨ (a, c) ∈ l} =
          {c | m.lookup a = some c ∨ (a, c) ∈ (a', b') :: l} := by
        ext c
        simp [keepMax, Finmap.lookup_insert_of_ne _ ha, ha]
      rw [hset]

/-- **What the pass computes**: the greatest value the list pairs with the key. -/
theorem lookup_runningMax {a : α} {b : β} {l : List (α × β)} :
    (runningMax l).lookup a = some b ↔ IsGreatest {c | (a, c) ∈ l} b := by
  rw [runningMax, lookup_foldl_keepMax]
  simp

theorem mem_foldl_keepMax {a : α} (l : List (α × β)) (m : Finmap fun _ : α ↦ β) :
    a ∈ l.foldl (fun m p ↦ keepMax m p.1 p.2) m ↔ a ∈ m ∨ ∃ b, (a, b) ∈ l := by
  induction l generalizing m with
  | nil => simp
  | cons p l ih =>
    obtain ⟨a', b'⟩ := p
    rw [List.foldl_cons, ih, keepMax, Finmap.mem_insert]
    simp only [List.mem_cons, Prod.mk.injEq, exists_or, exists_and_left, exists_eq, and_true]
    tauto

/-- The keys of the map are the keys of the list. -/
theorem mem_runningMax {a : α} {l : List (α × β)} : a ∈ runningMax l ↔ ∃ b, (a, b) ∈ l := by
  rw [runningMax, mem_foldl_keepMax]
  exact or_iff_right Finmap.notMem_empty

/-- Something lies strictly below the maximum of its key exactly when the list has something
larger for that key. -/
theorem exists_lookup_runningMax_gt {a : α} {b : β} {l : List (α × β)} :
    (∃ c, (runningMax l).lookup a = some c ∧ b < c) ↔ ∃ c, (a, c) ∈ l ∧ b < c := by
  constructor
  · rintro ⟨c, hc, hbc⟩
    exact ⟨c, (lookup_runningMax.mp hc).1, hbc⟩
  · rintro ⟨c, hc, hbc⟩
    obtain ⟨d, hd⟩ := Finmap.mem_iff.mp (mem_runningMax.mpr ⟨c, hc⟩)
    exact ⟨d, hd, hbc.trans_le ((lookup_runningMax.mp hd).2 hc)⟩

end RunningMax
