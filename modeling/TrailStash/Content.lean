import TrailStash.Basic
import TrailStash.Lib.SetMap

/-!
# The content index

Replication moves entry records; the bytes they name are a separate transfer.  `ContentIndex`
turns "do we have the bytes?" into state: which content hashes the entries of each namespace
reference, and for each referenced hash whether its bytes have landed.  It has three operations —
`want` when an entry arrives, `markPresent` when bytes are found, `forget` when retention lets go
of a namespace's last use for a hash — and its `referenced` set is what protects blobs from the
garbage collector.

The two maps of the index name the same hashes: `state` has an entry for exactly the hashes that
some namespace references.  This is a field of the structure, so an index that is out of step with
itself cannot be built.  Every other module sees the index through two relations only,
`isTrackedFor ns hash` and `isPresent hash`; the lemmas below say what each operation does to them.
-/

set_option autoImplicit false

namespace TrailStash

/-- What the stash knows about one referenced blob. -/
inductive State
  /-- An entry references it; the bytes are not here yet. -/
  | wanted
  /-- The bytes are in the local store. -/
  | present
  deriving DecidableEq, Repr

/-- Tracks, per namespace, the content hashes entries reference and whether the bytes landed. -/
structure ContentIndex where
  /-- The hashes referenced by any namespace. -/
  state : Finmap fun _ : ContentHash ↦ State
  /-- The hashes referenced by each namespace. -/
  byNamespace : SetMap NamespaceId ContentHash
  /-- The two maps name the same hashes. -/
  mem_state_iff : ∀ h, h ∈ state ↔ byNamespace.anyContains h = true

namespace ContentIndex

/-- The empty index. -/
def new : ContentIndex := ⟨∅, ∅, fun h ↦ by simp [SetMap.anyContains_iff, Finmap.notMem_empty]⟩

/-- Record that an entry in `ns` references `hash`.  Idempotent, and never downgrades a hash that
is already present. -/
def want (ix : ContentIndex) (ns : NamespaceId) (hash : ContentHash) : ContentIndex where
  byNamespace := ix.byNamespace.add ns hash
  state := if hash ∈ ix.state then ix.state else ix.state.insert hash .wanted
  mem_state_iff h := by
    have hadd : (ix.byNamespace.add ns hash).anyContains h = true ↔
        h = hash ∨ ix.byNamespace.anyContains h = true := by
      simp only [SetMap.anyContains_iff, SetMap.contains_add, exists_or]
      exact or_congr_left ⟨fun ⟨_, h⟩ ↦ h.2, fun h ↦ ⟨ns, rfl, h⟩⟩
    rw [hadd, ← ix.mem_state_iff]
    split
    · next hmem => exact ⟨Or.inr, fun h' ↦ h'.elim (fun e ↦ e ▸ hmem) id⟩
    · exact Finmap.mem_insert

/-- Record that the bytes for `hash` are now in the local store.  Ignores hashes nobody asked
for. -/
def markPresent (ix : ContentIndex) (hash : ContentHash) : ContentIndex where
  byNamespace := ix.byNamespace
  state := if hash ∈ ix.state then ix.state.insert hash .present else ix.state
  mem_state_iff h := by
    rw [← ix.mem_state_iff]
    split
    · next hmem =>
      rw [Finmap.mem_insert]
      exact ⟨fun h' ↦ h'.elim (fun e ↦ e ▸ hmem) id, Or.inr⟩
    · rfl

/-- Whether an entry references this hash at all. -/
def isTracked (ix : ContentIndex) (hash : ContentHash) : Bool := decide (hash ∈ ix.state)

/-- Whether `ns` currently references `hash`, regardless of whether its bytes have arrived. -/
def isTrackedFor (ix : ContentIndex) (ns : NamespaceId) (hash : ContentHash) : Bool :=
  ix.byNamespace.contains ns hash

/-- Whether the bytes have landed. -/
def isPresent (ix : ContentIndex) (hash : ContentHash) : Bool :=
  decide (ix.state.lookup hash = some .present)

/-- Whether `ns` still references `hash` and the bytes are locally servable. -/
def isPresentFor (ix : ContentIndex) (ns : NamespaceId) (hash : ContentHash) : Bool :=
  ix.byNamespace.contains ns hash && ix.isPresent hash

/-- Drop `hash` from `ns`.  The hash stays referenced while any other namespace still names it.
The flag says whether this call dropped the last reference. -/
def forget (ix : ContentIndex) (ns : NamespaceId) (hash : ContentHash) : Bool × ContentIndex :=
  if hremoved : (ix.byNamespace.remove ns hash).1 = true then
    let byNamespace := (ix.byNamespace.remove ns hash).2
    let stillReferenced := byNamespace.anyContains hash
    (!stillReferenced,
      { byNamespace := byNamespace
        state := if stillReferenced then ix.state else ix.state.erase hash
        mem_state_iff := fun h ↦ by
          have hdrop : byNamespace.anyContains h = true ↔
              ∃ ns', ix.byNamespace.contains ns' h = true ∧ ¬ (ns' = ns ∧ h = hash) := by
            simp only [byNamespace, SetMap.anyContains_iff, SetMap.contains_remove]
          by_cases hh : h = hash
          · subst hh
            cases hstill : stillReferenced with
            | false =>
              have : byNamespace.anyContains h = false := hstill
              simp [this]
            | true =>
              have htrue : byNamespace.anyContains h = true := hstill
              obtain ⟨ns', hns', -⟩ := hdrop.mp htrue
              simp only [htrue, iff_true, if_true]
              exact (ix.mem_state_iff h).mpr (SetMap.anyContains_iff.mpr ⟨ns', hns'⟩)
          · have hsame : byNamespace.anyContains h = true ↔ h ∈ ix.state := by
              rw [hdrop, ix.mem_state_iff, SetMap.anyContains_iff]
              simp [hh]
            rw [hsame]
            split
            · rfl
            · simp [Finmap.mem_erase, hh] })
  else
    (false,
      { ix with
        byNamespace := (ix.byNamespace.remove ns hash).2
        mem_state_iff := fun h ↦ by
          rw [SetMap.remove_of_not_contains (by simpa [SetMap.fst_remove] using hremoved)]
          exact ix.mem_state_iff h })

/-- How many referenced blobs are still missing their bytes. -/
def missingCount (ix : ContentIndex) : Nat := ix.state.entries.countP fun e ↦ e.2 = .wanted

/-- Total referenced blobs, present or not. -/
def trackedCount (ix : ContentIndex) : Nat := ix.state.entries.card

/-- Every hash still referenced: the liveness set of the blob collector. -/
def referenced (ix : ContentIndex) : Finset ContentHash := ix.state.keys

/-! ## What the operations do to the two relations -/

variable {ix : ContentIndex} {ns ns' : NamespaceId} {h h' : ContentHash}

theorem isPresent_iff : ix.isPresent h = true ↔ ix.state.lookup h = some .present :=
  decide_eq_true_iff

theorem state_markPresent :
    (ix.markPresent h).state = if h ∈ ix.state then ix.state.insert h .present else ix.state := rfl

/-- `forget` touches `state` only when it drops the last reference. -/
theorem state_forget : (ix.forget ns h).2.state =
    if (ix.forget ns h).1 then ix.state.erase h else ix.state := by
  rw [forget]
  split
  · simp only [Bool.not_eq_true']
    cases (ix.byNamespace.remove ns h).2.anyContains h <;> rfl
  · rfl

theorem isTracked_iff : ix.isTracked h = true ↔ ∃ ns, ix.isTrackedFor ns h = true := by
  rw [isTracked, decide_eq_true_iff, ix.mem_state_iff, SetMap.anyContains_iff]
  rfl

theorem isTracked_eq_false : ix.isTracked h = false ↔ ∀ ns, ix.isTrackedFor ns h = false := by
  rw [Bool.eq_false_iff, Ne, isTracked_iff, not_exists]
  simp only [Bool.not_eq_true]

theorem isTracked_of_isTrackedFor (ht : ix.isTrackedFor ns h = true) : ix.isTracked h = true :=
  isTracked_iff.mpr ⟨ns, ht⟩

theorem isTracked_of_isPresent (hp : ix.isPresent h = true) : ix.isTracked h = true := by
  rw [isPresent, decide_eq_true_iff] at hp
  exact decide_eq_true (Finmap.mem_of_lookup_eq_some hp)

theorem isPresentFor_iff : ix.isPresentFor ns h = true ↔
    ix.isTrackedFor ns h = true ∧ ix.isPresent h = true := Bool.and_eq_true _ _ ▸ Iff.rfl

theorem mem_referenced : h ∈ ix.referenced ↔ ix.isTracked h = true := by
  rw [referenced, Finmap.mem_keys, isTracked, decide_eq_true_iff]

@[simp] theorem isTrackedFor_new : new.isTrackedFor ns h = false := rfl

@[simp] theorem isPresent_new : new.isPresent h = false := by
  simp [new, isPresent]

@[simp] theorem isTrackedFor_want : (ix.want ns h).isTrackedFor ns' h' = true ↔
    (ns' = ns ∧ h' = h) ∨ ix.isTrackedFor ns' h' = true :=
  SetMap.contains_add

@[simp] theorem isPresent_want : (ix.want ns h).isPresent h' = ix.isPresent h' := by
  rw [isPresent, isPresent, want]
  split
  · rfl
  · next hmem =>
    by_cases hh : h' = h
    · subst hh
      simp [Finmap.lookup_eq_none.mpr hmem]
    · rw [Finmap.lookup_insert_of_ne _ hh]

@[simp] theorem isTracked_want : (ix.want ns h).isTracked h' = true ↔
    h' = h ∨ ix.isTracked h' = true := by
  simp only [isTracked_iff, isTrackedFor_want, exists_or]
  exact or_congr_left ⟨fun ⟨_, e⟩ ↦ e.2, fun e ↦ ⟨ns, rfl, e⟩⟩

@[simp] theorem isTrackedFor_markPresent :
    (ix.markPresent h).isTrackedFor ns h' = ix.isTrackedFor ns h' := rfl

@[simp] theorem isTracked_markPresent : (ix.markPresent h).isTracked h' = ix.isTracked h' := by
  rw [Bool.eq_iff_iff, isTracked_iff, isTracked_iff]
  rfl

@[simp] theorem isPresent_markPresent : (ix.markPresent h).isPresent h' = true ↔
    (h' = h ∧ ix.isTracked h = true) ∨ ix.isPresent h' = true := by
  rw [isPresent_iff, isPresent_iff, state_markPresent]
  by_cases hmem : h ∈ ix.state
  · rw [if_pos hmem]
    by_cases hh : h' = h
    · subst hh
      simp [isTracked, hmem]
    · simp [Finmap.lookup_insert_of_ne _ hh, hh]
  · simp [isTracked, hmem]

/-- `forget` answers `true` exactly when the pair was there and was the last one of its hash. -/
theorem fst_forget : (ix.forget ns h).1 = true ↔
    ix.isTrackedFor ns h = true ∧ (ix.forget ns h).2.isTracked h = false := by
  rw [Bool.eq_false_iff, Ne, isTracked_iff, forget]
  split
  · next hremoved =>
    rw [SetMap.fst_remove] at hremoved
    rw [Bool.not_eq_true', Bool.eq_false_iff, Ne, SetMap.anyContains_iff]
    exact ⟨fun hn ↦ ⟨hremoved, hn⟩, And.right⟩
  · next hremoved =>
    rw [SetMap.fst_remove] at hremoved
    exact ⟨fun hf ↦ absurd hf (by simp), fun hc ↦ absurd hc.1 hremoved⟩

@[simp] theorem isTrackedFor_forget : (ix.forget ns h).2.isTrackedFor ns' h' = true ↔
    ix.isTrackedFor ns' h' = true ∧ ¬ (ns' = ns ∧ h' = h) := by
  rw [forget]
  split <;> exact SetMap.contains_remove

/-- Letting go of a reference that is not there changes nothing. -/
theorem forget_of_not_isTrackedFor (ht : ix.isTrackedFor ns h = false) :
    ix.forget ns h = (false, ix) := by
  have hremoved : ¬ (ix.byNamespace.remove ns h).1 = true := by
    rw [SetMap.fst_remove]
    exact Bool.eq_false_iff.mp ht
  have hsame : (ix.byNamespace.remove ns h).2 = ix.byNamespace := SetMap.remove_of_not_contains ht
  rw [forget, dif_neg hremoved]
  cases ix
  simp_all

theorem isTracked_of_isTracked_forget (ht : (ix.forget ns h).2.isTracked h' = true) :
    ix.isTracked h' = true := by
  obtain ⟨ns', hns'⟩ := isTracked_iff.mp ht
  exact isTracked_iff.mpr ⟨ns', (isTrackedFor_forget.mp hns').1⟩

theorem isTracked_forget_of_ne (hne : h' ≠ h) :
    (ix.forget ns h).2.isTracked h' = ix.isTracked h' := by
  rw [Bool.eq_iff_iff, isTracked_iff, isTracked_iff]
  simp [hne]

/-- Only the call that drops the last reference loses the hash. -/
theorem isTracked_forget_of_not_last (hlast : (ix.forget ns h).1 = false) :
    (ix.forget ns h).2.isTracked h' = ix.isTracked h' := by
  by_cases hne : h' = h
  · subst hne
    rw [Bool.eq_iff_iff]
    refine ⟨isTracked_of_isTracked_forget, fun ht ↦ ?_⟩
    by_contra hc
    have hns : ix.isTrackedFor ns h' = false := by
      by_contra hns
      have := fst_forget.mpr ⟨by simpa using hns, by simpa using hc⟩
      simp [hlast] at this
    obtain ⟨ns', hns'⟩ := isTracked_iff.mp ht
    refine hc (isTracked_iff.mpr ⟨ns', isTrackedFor_forget.mpr ⟨hns', ?_⟩⟩)
    rintro ⟨rfl, -⟩
    simp [hns] at hns'
  · exact isTracked_forget_of_ne hne

/-- Presence is lost only with the last reference. -/
@[simp] theorem isPresent_forget : (ix.forget ns h).2.isPresent h' = true ↔
    ix.isPresent h' = true ∧ (ix.forget ns h).2.isTracked h' = true := by
  refine ⟨fun hp ↦ ⟨?_, isTracked_of_isPresent hp⟩, fun ⟨hp, ht⟩ ↦ ?_⟩
  · rw [isPresent_iff, state_forget] at hp
    split at hp
    · by_cases hne : h' = h
      · subst hne
        exact absurd hp (by simp)
      · rw [Finmap.lookup_erase_ne hne] at hp
        exact isPresent_iff.mpr hp
    · exact isPresent_iff.mpr hp
  · rw [isPresent_iff, state_forget]
    split
    · next hlast =>
      have hne : h' ≠ h := by
        rintro rfl
        exact absurd ht (by simp [(fst_forget.mp hlast).2])
      rw [Finmap.lookup_erase_ne hne]
      exact isPresent_iff.mp hp
    · exact isPresent_iff.mp hp

/-! ## Counting what is missing -/

/-- A referenced hash whose bytes have not landed is wanted. -/
theorem lookup_of_not_isPresent (ht : ix.isTracked h = true) (hp : ix.isPresent h = false) :
    ix.state.lookup h = some .wanted := by
  obtain ⟨s, hs⟩ := Finmap.mem_iff.mp (of_decide_eq_true ht)
  cases s with
  | wanted => exact hs
  | present => exact absurd (isPresent_iff.mpr hs) (by simp [hp])

/-- An index is determined by its two relations. -/
theorem ext_relations {ix ix' : ContentIndex}
    (href : ∀ ns h, ix.isTrackedFor ns h = ix'.isTrackedFor ns h)
    (hpresent : ∀ h, ix.isPresent h = ix'.isPresent h) : ix = ix' := by
  have htracked : ∀ h, ix.isTracked h = ix'.isTracked h := fun h ↦ by
    rw [Bool.eq_iff_iff, isTracked_iff, isTracked_iff]
    exact exists_congr fun ns ↦ by rw [href]
  have hstate : ix.state = ix'.state := by
    refine Finmap.ext_lookup fun h ↦ ?_
    cases hp : ix.isPresent h with
    | true => rw [isPresent_iff.mp hp, isPresent_iff.mp (hpresent h ▸ hp)]
    | false =>
      cases ht : ix.isTracked h with
      | true =>
        rw [lookup_of_not_isPresent ht hp,
          lookup_of_not_isPresent (htracked h ▸ ht) (hpresent h ▸ hp)]
      | false =>
        have hnot : ∀ {ix : ContentIndex}, ix.isTracked h = false → ix.state.lookup h = none :=
          fun hf ↦ Finmap.lookup_eq_none.mpr (of_decide_eq_false hf)
        rw [hnot ht, hnot (htracked h ▸ ht)]
  have hmap : ix.byNamespace = ix'.byNamespace := SetMap.ext_contains href
  cases ix
  cases ix'
  cases hstate
  cases hmap
  rfl

/-- Marking what is marked changes nothing. -/
theorem markPresent_of_isPresent (hp : ix.isPresent h = true) : ix.markPresent h = ix := by
  refine ext_relations (fun _ _ ↦ rfl) fun h' ↦ ?_
  rw [Bool.eq_iff_iff, isPresent_markPresent, or_iff_right_iff_imp]
  rintro ⟨rfl, -⟩
  exact hp

/-- The count of missing blobs is the number of referenced hashes that are wanted. -/
theorem missingCount_eq : ix.missingCount =
    (ix.referenced.filter fun h ↦ ix.state.lookup h = some .wanted).card := by
  have hlook : ∀ e ∈ ix.state.entries, e.2 = .wanted ↔ ix.state.lookup e.1 = some .wanted := by
    intro e he
    rw [Finmap.mem_lookup_iff.mpr he, Option.some_inj]
  calc ix.missingCount
      = ix.state.entries.countP fun e ↦ ix.state.lookup e.1 = some .wanted := by
        exact Multiset.countP_congr rfl fun e he ↦ propext (hlook e he)
    _ = (ix.state.entries.map Sigma.fst).countP fun h ↦ ix.state.lookup h = some .wanted := by
        rw [Multiset.countP_map, Multiset.countP_eq_card_filter]
    _ = (ix.referenced.filter fun h ↦ ix.state.lookup h = some .wanted).card := by
        rw [Multiset.countP_eq_card_filter]
        rfl

/-- **No more blobs are counted as missing than are.**  If the bytes of every hash marked present
are stored, then each referenced hash whose bytes are not stored is counted. -/
theorem card_absent_le {has : ContentHash → Bool}
    (hheld : ∀ h, ix.isPresent h = true → has h = true) :
    (ix.referenced.filter fun h ↦ has h = false).card ≤ ix.missingCount := by
  rw [missingCount_eq]
  refine Finset.card_le_card fun h hh ↦ ?_
  obtain ⟨href, habsent⟩ := Finset.mem_filter.mp hh
  refine Finset.mem_filter.mpr ⟨href, lookup_of_not_isPresent (mem_referenced.mp href) ?_⟩
  exact Bool.eq_false_iff.mpr fun hp ↦ by simp [hheld h hp] at habsent

end ContentIndex

end TrailStash
