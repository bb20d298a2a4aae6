import Mathlib.Data.Set.Card
import TrailStash.Content
import TrailStash.Lib.Refs
import TrailStash.Lib.Run

/-!
# The content index counts references

`ContentIndex` keeps two nested tables and finds the last reference to a hash by looking through
all namespaces after a removal.  What it is for is simpler: namespaces refer to hashes, and of the
hashes that are referred to some are known to be in the store.  That is `Refs`, and
`represents_apply` says that the index stays in step with it through every operation.

`Represents` lists what being in step means, observer by observer; `index_refines` states it for
every sequence of operations, together with what the answers of `forget` are good for.
-/

set_option autoImplicit false

namespace TrailStash

open Runs

namespace ContentIndex

/-- What an operation does to the index. -/
def apply (ix : ContentIndex) : RefOp NamespaceId ContentHash → ContentIndex
  | .want ns h => ix.want ns h
  | .mark h => ix.markPresent h
  | .forget ns h => (ix.forget ns h).2

/-- The operation is a call of `forget` for `h` that answers `true`. -/
def releases (h : ContentHash) (ix : ContentIndex) : RefOp NamespaceId ContentHash → Bool
  | .forget ns h' => decide (h' = h) && (ix.forget ns h').1
  | _ => false

/-- Every observer of the index says what `r` says, and the tables are tidy. -/
structure Represents (ix : ContentIndex) (r : Refs NamespaceId ContentHash) : Prop where
  /-- `is_tracked` -/
  isTracked : ∀ h, ix.isTracked h = true ↔ h ∈ r.named
  /-- `is_tracked_for` -/
  isTrackedFor : ∀ ns h, ix.isTrackedFor ns h = true ↔ (ns, h) ∈ r.pairs
  /-- `is_present` -/
  isPresent : ∀ h, ix.isPresent h = true ↔ h ∈ r.held
  /-- `is_present_for` -/
  isPresentFor : ∀ ns h, ix.isPresentFor ns h = true ↔ (ns, h) ∈ r.pairs ∧ h ∈ r.held
  /-- `referenced` -/
  referenced : ↑ix.referenced = r.named
  /-- `missing_count` -/
  missingCount : ix.missingCount = (r.named \ r.held).ncard
  /-- `tracked_count` -/
  trackedCount : ix.trackedCount = r.named.ncard
  /-- The keys of `state` are the hashes that are referred to. -/
  mem_state : ∀ h, h ∈ ix.state ↔ h ∈ r.named
  /-- `by_namespace` holds no empty set. -/
  nonempty : ∀ ns s, ix.byNamespace.map.lookup ns = some s → s.Nonempty

variable {ix : ContentIndex} {r : Refs NamespaceId ContentHash} {ns : NamespaceId}
  {h : ContentHash} {op : RefOp NamespaceId ContentHash}

/-- The two relations of the index determine all it says. -/
theorem Represents.of_relations
    (htracked : ∀ ns h, ix.isTrackedFor ns h = true ↔ (ns, h) ∈ r.pairs)
    (hpresent : ∀ h, ix.isPresent h = true ↔ h ∈ r.held) : Represents ix r := by
  have hnamed : ∀ h, ix.isTracked h = true ↔ h ∈ r.named := fun h ↦
    isTracked_iff.trans (exists_congr fun ns ↦ htracked ns h)
  have hreferenced : ↑ix.referenced = r.named := by
    ext h
    exact mem_referenced.trans (hnamed h)
  refine ⟨hnamed, htracked, hpresent, fun ns h ↦ ?_, hreferenced, ?_, ?_, fun h ↦ ?_,
    ix.byNamespace.nonempty⟩
  · exact isPresentFor_iff.trans (and_congr (htracked ns h) (hpresent h))
  · -- a referenced hash is counted as missing when it is not marked present
    rw [missingCount_eq, ← Set.ncard_coe_finset]
    congr 1
    ext h
    rw [Finset.mem_coe, Finset.mem_filter, mem_referenced, hnamed, Set.mem_sdiff, ← hpresent]
    refine and_congr_right fun hn ↦ ?_
    constructor
    · intro hlook hp
      rw [isPresent_iff, hlook] at hp
      exact absurd hp (by simp)
    · intro hp
      exact lookup_of_not_isPresent ((hnamed h).mpr hn) (Bool.eq_false_iff.mpr hp)
  · rw [← hreferenced, Set.ncard_coe_finset, ContentIndex.referenced,
      ContentIndex.trackedCount]
    exact (Multiset.card_map _ _).symm
  · rw [← hnamed, ContentIndex.isTracked, decide_eq_true_iff]

theorem represents_new : Represents new .empty :=
  .of_relations (fun _ _ ↦ iff_of_false (by simp) id) fun _ ↦ iff_of_false (by simp) id

/-- `forget` answers `true` for the last reference. -/
theorem Represents.fst_forget (hr : Represents ix r) :
    (ix.forget ns h).1 = true ↔ r.Last ns h := by
  have hpairs : ∀ ns', (ix.forget ns h).2.isTrackedFor ns' h = true ↔
      (ns', h) ∈ r.pairs ∧ ns' ≠ ns := by
    intro ns'
    rw [isTrackedFor_forget, hr.isTrackedFor]
    simp
  rw [ContentIndex.fst_forget, hr.isTrackedFor, Refs.Last, Bool.eq_false_iff, Ne, isTracked_iff]
  refine and_congr_right fun _ ↦ ?_
  simp only [hpairs, not_exists, not_and, not_not]

/-- **One operation.**  The index stays in step. -/
theorem represents_apply (hr : Represents ix r) (op : RefOp NamespaceId ContentHash) :
    Represents (ix.apply op) (r.apply op) := by
  cases op with
  | want ns h =>
    refine .of_relations (fun ns' h' ↦ ?_) fun h' ↦ ?_
    · rw [ContentIndex.apply, isTrackedFor_want, hr.isTrackedFor]
      exact Refs.mem_pairs_want.symm
    · rw [ContentIndex.apply, isPresent_want]
      exact hr.isPresent h'
  | mark h =>
    refine .of_relations hr.isTrackedFor fun h' ↦ ?_
    rw [ContentIndex.apply, isPresent_markPresent, hr.isPresent, hr.isTracked]
    exact or_comm
  | forget ns h =>
    refine .of_relations (fun ns' h' ↦ ?_) fun h' ↦ ?_
    · rw [ContentIndex.apply, isTrackedFor_forget, hr.isTrackedFor]
      exact Refs.mem_pairs_forget.symm
    · rw [ContentIndex.apply, isPresent_forget, hr.isPresent]
      refine and_congr_right fun hheld ↦ ?_
      have hnamed : ix.isTracked h' = true :=
        (hr.isTracked h').mpr (r.named_of_held h' hheld)
      by_cases hh : h' = h
      · subst hh
        rw [← hr.fst_forget, ContentIndex.fst_forget]
        simp only [true_and, not_and, Bool.not_eq_false]
        refine ⟨fun ht _ ↦ ht, fun himp ↦ ?_⟩
        cases hpair : ix.isTrackedFor ns h' with
        | true => exact himp hpair
        | false =>
          obtain ⟨ns', hns'⟩ := isTracked_iff.mp hnamed
          refine isTracked_of_isTrackedFor (isTrackedFor_forget.mpr ⟨hns', ?_⟩)
          rintro ⟨rfl, -⟩
          exact absurd hns' (by simp [hpair])
      · rw [isTracked_forget_of_ne hh]
        exact iff_of_true hnamed fun hc ↦ hh hc.1

/-- A call of `forget` answers `true` exactly when it ends a hash's being referenced, and no other
operation does that. -/
theorem releases_eq : releases h ix op = (ix.isTracked h && !(ix.apply op).isTracked h) := by
  rw [Bool.eq_iff_iff, Bool.and_eq_true, Bool.not_eq_true']
  cases op with
  | want ns h' =>
    refine iff_of_false (by simp [releases]) fun hc ↦ ?_
    exact absurd hc.2 (by simp [apply, hc.1])
  | mark h' =>
    refine iff_of_false (by simp [releases]) fun hc ↦ ?_
    exact absurd hc.2 (by simp [apply, hc.1])
  | forget ns h' =>
    rw [releases, Bool.and_eq_true, decide_eq_true_iff, apply]
    constructor
    · rintro ⟨rfl, hlast⟩
      obtain ⟨htracked, hgone⟩ := ContentIndex.fst_forget.mp hlast
      exact ⟨isTracked_of_isTrackedFor htracked, hgone⟩
    · rintro ⟨htracked, hgone⟩
      have hlast : (ix.forget ns h').1 = true := by
        by_contra hnot
        rw [isTracked_forget_of_not_last (Bool.eq_false_iff.mpr hnot), htracked] at hgone
        exact absurd hgone (by simp)
      refine ⟨?_, hlast⟩
      by_contra hne
      rw [isTracked_forget_of_ne (Ne.symm hne), htracked] at hgone
      exact absurd hgone (by simp)

/-- **The content index is a refcount.**  After every sequence of operations it represents the
references that are left; `forget` answers `true` on the call that drops the last reference to a
hash; and it has done so as often as the hash came to be referenced, less one if it is referenced
now. -/
theorem index_refines (ops : List (RefOp NamespaceId ContentHash)) :
    Represents (ops.foldl apply new) (ops.foldl Refs.apply .empty) ∧
    (∀ ns h, ((ops.foldl apply new).forget ns h).1 = true ↔
      (ops.foldl Refs.apply .empty).Last ns h) ∧
    ∀ h, countAlong (releases h) apply new ops + ((ops.foldl apply new).isTracked h).toNat =
      countAlong (fun ix op ↦ !ix.isTracked h && (ix.apply op).isTracked h) apply new ops := by
  have hrep : Represents (ops.foldl apply new) (ops.foldl Refs.apply .empty) := by
    induction ops using List.reverseRecOn with
    | nil => exact represents_new
    | append_singleton ops op ih =>
      rw [List.foldl_append, List.foldl_append]
      exact represents_apply ih op
  refine ⟨hrep, fun ns h ↦ hrep.fst_forget, fun h ↦ ?_⟩
  have hnew : new.isTracked h = false := Bool.eq_false_iff.mpr fun ht ↦ by
    obtain ⟨ns, hns⟩ := isTracked_iff.mp ht
    exact absurd hns (by simp)
  rw [countAlong_congr fun _ _ ↦ releases_eq]
  have hrises := countAlong_rises apply (fun ix ↦ ix.isTracked h) new ops
  rw [hnew, Bool.toNat_false, Nat.add_zero] at hrises
  exact hrises.symm

end ContentIndex

end TrailStash
