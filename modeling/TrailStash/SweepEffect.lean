import TrailStash.Retained

/-!
# What one sweep does

`Sweep.lean` says which references a sweep drops.  Here is the rest of its effect, when nothing
happens at the same time and no read fails: what becomes of the marks, of the ledger and of the
count it returns, and that a second sweep finds nothing to do.

The loops visit namespaces and hashes in the order of two hash tables, and a hash may be shared by
entries, namespaces and verdicts.  `Sheds node node' k` describes what any part of a sweep leads to
without an order: some references are gone, with the last one to a hash its mark and its ledger
entry, and `k` hashes have lost their last one.  It composes (`Sheds.trans`), so it is proved of one
step and holds of both loops.
-/

set_option autoImplicit false

namespace TrailStash

open StashNode

variable {hashNew : Bytes → ContentHash} {node node' node'' : StashNode hashNew} {now k k' : Nat}
  {order : IterOrder ContentHash} {ns : NamespaceId} {h : ContentHash} {hs : List ContentHash}
  {nss : List NamespaceId} {n : Nat} {faulty : NamespaceId → Bool}

/-- The hashes that are referenced in `node` and not in `node'`. -/
def shed (node node' : StashNode hashNew) : Finset ContentHash :=
  node.content.referenced.filter fun h ↦ node'.content.isTracked h = false

theorem mem_shed : h ∈ shed node node' ↔
    node.content.isTracked h = true ∧ node'.content.isTracked h = false := by
  rw [shed, Finset.mem_filter, ContentIndex.mem_referenced]

/-- From `node` to `node'` references are dropped, and with the last reference to a hash its mark
and its ledger entry; `k` hashes lose their last one. -/
structure Sheds (node node' : StashNode hashNew) (k : Nat) : Prop where
  /-- Grants, handles, replicas and policy are the same. -/
  frame : Frame node node'
  /-- The blob store is the same. -/
  blobs : node'.blobs = node.blobs
  /-- No reference is new. -/
  tracked : ∀ ns h, node'.content.isTrackedFor ns h = true → node.content.isTrackedFor ns h = true
  /-- A mark stays as long as a reference does. -/
  present : ∀ h, node'.content.isPresent h = true ↔
    node.content.isPresent h = true ∧ node'.content.isTracked h = true
  /-- The ledger loses the hashes that lose their last reference. -/
  ledger : ∀ h, node'.tracked.lookup h = if h ∈ shed node node' then none else node.tracked.lookup h
  /-- And these are counted. -/
  count : (shed node node').card = k

theorem Sheds.isTracked (hs : Sheds node node' k) (ht : node'.content.isTracked h = true) :
    node.content.isTracked h = true := by
  obtain ⟨ns, hns⟩ := ContentIndex.isTracked_iff.mp ht
  exact ContentIndex.isTracked_of_isTrackedFor (hs.tracked ns h hns)

theorem Sheds.refl (node : StashNode hashNew) : Sheds node node 0 := by
  have hnone : shed node node = ∅ := by
    refine Finset.eq_empty_of_forall_notMem fun h hh ↦ ?_
    obtain ⟨ht, hf⟩ := mem_shed.mp hh
    exact absurd ht (by simp [hf])
  refine ⟨Frame.refl node, rfl, fun _ _ ht ↦ ht, fun h ↦ ?_, fun h ↦ ?_, ?_⟩
  · exact (and_iff_left_of_imp ContentIndex.isTracked_of_isPresent).symm
  · rw [hnone, if_neg (Finset.notMem_empty h)]
  · rw [hnone, Finset.card_empty]

/-- What is shed in two stages. -/
theorem Sheds.shed_eq (hs : Sheds node node' k) (hs' : Sheds node' node'' k') :
    shed node node'' = shed node node' ∪ shed node' node'' := by
  ext h
  rw [Finset.mem_union, mem_shed, mem_shed, mem_shed]
  cases hmid : node'.content.isTracked h with
  | true =>
    have hold : node.content.isTracked h = true := hs.isTracked hmid
    simp [hold]
  | false =>
    have hnew : node''.content.isTracked h = false :=
      Bool.eq_false_iff.mpr fun ht ↦ by simp [hs'.isTracked ht] at hmid
    simp [hnew]

theorem Sheds.trans (hs : Sheds node node' k) (hs' : Sheds node' node'' k') :
    Sheds node node'' (k + k') := by
  have heq := hs.shed_eq hs'
  refine ⟨hs.frame.trans hs'.frame, hs'.blobs.trans hs.blobs,
    fun ns h ht ↦ hs.tracked ns h (hs'.tracked ns h ht), fun h ↦ ?_, fun h ↦ ?_, ?_⟩
  · rw [hs'.present, hs.present, and_assoc]
    exact and_congr_right fun _ ↦ and_iff_right_of_imp hs'.isTracked
  · rw [hs'.ledger, hs.ledger, heq]
    by_cases hlate : h ∈ shed node' node'' <;> simp [hlate]
  · -- a hash is shed once
    rw [heq, ← hs.count, ← hs'.count]
    refine Finset.card_union_of_disjoint (Finset.disjoint_left.mpr fun h hh hh' ↦ ?_)
    exact absurd (mem_shed.mp hh').1 (by simp [(mem_shed.mp hh).2])

/-! ## One step, and the loops -/

/-- **One hash.**  It is shed if the answer of `forget` is that this was the last reference. -/
theorem sheds_forgetOne (ns : NamespaceId) (h : ContentHash) (node : StashNode hashNew) (n : Nat) :
    ∃ k, (forgetOne ns h node n).2 = n + k ∧ Sheds node (forgetOne ns h node n).1 k := by
  have hpresent : ∀ h', (forgetOne ns h node n).1.content.isPresent h' = true ↔
      node.content.isPresent h' = true ∧ (forgetOne ns h node n).1.content.isTracked h' = true := by
    intro h'
    rw [forgetOne_eq]
    split <;> exact ContentIndex.isPresent_forget
  have htracked : ∀ ns' h', (forgetOne ns h node n).1.content.isTrackedFor ns' h' = true →
      node.content.isTrackedFor ns' h' = true := fun ns' h' ht ↦ (isTrackedFor_forgetOne.mp ht).1
  cases hlast : (node.forget ns h).1 with
  | true =>
    obtain ⟨hwas, hgone⟩ := ContentIndex.fst_forget.mp hlast
    have hone : forgetOne ns h node n = ((node.forget ns h).2.untrack h, n + 1) := by
      simp [forgetOne, hlast]
    have hshed : shed node (forgetOne ns h node n).1 = {h} := by
      ext h'
      rw [mem_shed, Finset.mem_singleton, hone]
      constructor
      · rintro ⟨ht, hf⟩
        by_contra hne
        have hsame : (node.content.forget ns h).2.isTracked h' = node.content.isTracked h' :=
          ContentIndex.isTracked_forget_of_ne hne
        exact absurd (hsame.trans ht) (Bool.eq_false_iff.mp hf)
      · rintro rfl
        exact ⟨ContentIndex.isTracked_of_isTrackedFor hwas, hgone⟩
    refine ⟨1, by rw [hone], frame_forgetOne, by rw [hone]; rfl, htracked, hpresent,
      fun h' ↦ ?_, ?_⟩
    · rw [hshed, hone]
      by_cases hh : h' = h
      · subst hh
        rw [if_pos (Finset.mem_singleton_self _)]
        exact Finmap.lookup_erase _ _
      · rw [if_neg (by simpa using hh)]
        exact Finmap.lookup_erase_ne hh
    · rw [hshed, Finset.card_singleton]
  | false =>
    have hone : forgetOne ns h node n = ((node.forget ns h).2, n) := by simp [forgetOne, hlast]
    have hshed : shed node (forgetOne ns h node n).1 = ∅ := by
      refine Finset.eq_empty_of_forall_notMem fun h' hh' ↦ ?_
      rw [mem_shed, hone] at hh'
      have hsame : (node.content.forget ns h).2.isTracked h' = node.content.isTracked h' :=
        ContentIndex.isTracked_forget_of_not_last hlast
      exact absurd (hsame.trans hh'.1) (Bool.eq_false_iff.mp hh'.2)
    refine ⟨0, by rw [hone, Nat.add_zero], frame_forgetOne, by rw [hone]; rfl, htracked, hpresent,
      fun h' ↦ ?_, ?_⟩
    · rw [hshed, hone, if_neg (Finset.notMem_empty h')]
      rfl
    · rw [hshed, Finset.card_empty]

theorem sheds_forgetAll (ns : NamespaceId) (hs : List ContentHash) (node : StashNode hashNew)
    (n : Nat) :
    ∃ k, (forgetAll ns hs node n).2 = n + k ∧ Sheds node (forgetAll ns hs node n).1 k := by
  induction hs generalizing node n with
  | nil => exact ⟨0, rfl, .refl node⟩
  | cons h hs ih =>
    obtain ⟨k, hk, hone⟩ := sheds_forgetOne ns h node n
    obtain ⟨k', hk', hrest⟩ := ih (forgetOne ns h node n).1 (forgetOne ns h node n).2
    exact ⟨k + k', by rw [forgetAll, hk', hk, Nat.add_assoc], hone.trans hrest⟩

/-- **A sweep**, also one that ends early.  One that succeeds returns its count. -/
theorem sheds_pruneLoop (nss : List NamespaceId) (node : StashNode hashNew) (n : Nat) :
    ∃ k, (∀ n', (pruneLoop now faulty order nss node n).2 = .ok n' → n' = n + k) ∧
      Sheds node (pruneLoop now faulty order nss node n).1 k := by
  induction nss generalizing node n with
  | nil => exact ⟨0, fun n' hok ↦ (Except.ok.inj hok).symm, .refl node⟩
  | cons ns rest ih =>
    rw [pruneLoop]
    split
    · exact ih node n
    · split
      · exact ⟨0, fun n' hok ↦ absurd hok (by simp), .refl node⟩
      · let hashes := order.list (releasable node.retention now (node.docs ns))
        obtain ⟨k, hk, hall⟩ := sheds_forgetAll ns hashes node n
        obtain ⟨k', hk', hrest⟩ := ih (forgetAll ns hashes node n).1 (forgetAll ns hashes node n).2
        refine ⟨k + k', fun n' hok ↦ ?_, hall.trans hrest⟩
        rw [hk' n' hok, hk, Nat.add_assoc]

/-- The part of the effect of a sweep that does not depend on its success. -/
theorem sheds_pruneOnce (node : StashNode hashNew) (now : Nat) (faulty : NamespaceId → Bool)
    (nsOrder : IterOrder NamespaceId) (order : IterOrder ContentHash) :
    ∃ k, Sheds node (node.pruneOnce now faulty nsOrder order).1 k :=
  (sheds_pruneLoop _ node 0).imp fun _ h ↦ h.2

/-! ## A sweep with nothing to do -/

theorem forgetAll_of_untracked (hnone : ∀ h ∈ hs, node.content.isTrackedFor ns h = false) :
    forgetAll ns hs node n = (node, n) := by
  induction hs with
  | nil => rfl
  | cons h hs ih =>
    have hforget : node.forget ns h = (false, node) := by
      rw [StashNode.forget,
        ContentIndex.forget_of_not_isTrackedFor (hnone h List.mem_cons_self)]
    have hone : forgetOne ns h node n = (node, n) := by
      rw [forgetOne, hforget]
      rfl
    rw [forgetAll, hone]
    exact ih fun h' hh' ↦ hnone h' (List.mem_cons_of_mem h hh')

theorem pruneLoop_of_untracked (hread : ∀ ns, faulty ns = false)
    (hnone : ∀ ns ∈ nss, ∀ h ∈ releasable node.retention now (node.docs ns),
      node.content.isTrackedFor ns h = false) :
    pruneLoop now faulty order nss node n = (node, .ok n) := by
  induction nss with
  | nil => rfl
  | cons ns rest ih =>
    have hrest := ih fun ns' hns' ↦ hnone ns' (List.mem_cons_of_mem ns hns')
    rw [pruneLoop]
    split
    · exact hrest
    · rw [if_neg (by simp [hread])]
      have hall : forgetAll ns (order.list (releasable node.retention now (node.docs ns))) node n =
          (node, n) :=
        forgetAll_of_untracked fun h hh ↦
          hnone ns List.mem_cons_self h ((order.mem_list _ _).mp hh)
      dsimp only
      rw [hall]
      exact hrest

/-! ## The sweep as a whole -/

/-- The sweep at `now` is to drop the reference of `ns` to `h`: the namespace is granted, its
replica has entries with this hash, and the decision on each of them is to release it. -/
def Releases (node : StashNode hashNew) (now : Nat) (ns : NamespaceId) (h : ContentHash) : Prop :=
  node.registry.isKnown ns = true ∧ (∃ e ∈ getMany (node.docs ns), e.contentHash = h) ∧
    ∀ e decision, (e, decision) ∈ (getMany (node.docs ns)).zip (releaseDecisions
      ((getMany (node.docs ns)).map fun e ↦ ⟨e.key, entryWrittenMs e⟩) node.retention now) →
        e.contentHash = h → decision.isSome = true

theorem releases_iff : Releases node now ns h ↔
    node.registry.isKnown ns = true ∧ h ∈ releasable node.retention now (node.docs ns) := by
  rw [Releases, mem_releasable]
  refine and_congr_right fun _ ↦ and_congr_right fun _ ↦ ?_
  constructor
  · rintro hall ⟨e, hkept, hh⟩
    exact absurd (hall e none hkept hh) (by simp)
  · intro hnone e decision hmem hh
    cases decision with
    | none => exact absurd ⟨e, hmem, hh⟩ hnone
    | some reason => rfl

/-- **What one sweep does.**  It succeeds, and drops exactly the references it is to drop.  The mark
of a hash that is still referenced stays; the ledger loses exactly the hashes that lost their last
reference, whose number it returns.  A second sweep at the same time finds nothing to do. -/
theorem pruneOnce_effect (now : Nat) (nsOrder : IterOrder NamespaceId)
    (order : IterOrder ContentHash) (hopen : HandlesOpen node) (hread : ∀ ns, faulty ns = false) :
    let node' := (node.pruneOnce now faulty nsOrder order).1
    (∀ ns h, node'.content.isTrackedFor ns h = true ↔
      node.content.isTrackedFor ns h = true ∧ ¬ Releases node now ns h) ∧
    (∀ h, node'.content.isTracked h = true →
      node'.content.isPresent h = node.content.isPresent h) ∧
    (∀ h, node'.tracked.lookup h =
      if node.content.isTracked h = true ∧ node'.content.isTracked h = false then none
      else node.tracked.lookup h) ∧
    (node.pruneOnce now faulty nsOrder order).2 = .ok (node.content.referenced.filter fun h ↦
      node'.content.isTracked h = false).card ∧
    ∀ nsOrder' order', node'.pruneOnce now faulty nsOrder' order' = (node', .ok 0) := by
  intro node'
  obtain ⟨n, hok⟩ : ∃ n, (node.pruneOnce now faulty nsOrder order).2 = .ok n := pruneOnce_ok hread
  obtain ⟨k, hcount, hsheds⟩ :=
    sheds_pruneLoop (node.registry.knownNamespaces nsOrder) node 0
  obtain rfl := hcount n hok
  have hsheds : Sheds node node' k := hsheds
  have hrel : ∀ ns h, node'.content.isTrackedFor ns h = true ↔
      node.content.isTrackedFor ns h = true ∧ ¬ Releases node now ns h := by
    intro ns h
    rw [releases_iff]
    exact isTrackedFor_pruneOnce hopen hok
  refine ⟨hrel, fun h ht ↦ ?_, fun h ↦ ?_, ?_, fun nsOrder' order' ↦ ?_⟩
  · rw [Bool.eq_iff_iff, hsheds.present]
    exact and_iff_left ht
  · rw [hsheds.ledger]
    exact if_congr mem_shed rfl rfl
  · rw [hok, Nat.zero_add, ← hsheds.count]
    rfl
  · -- what it would let go of is gone
    refine pruneLoop_of_untracked hread fun ns hns h hh ↦ Bool.eq_false_iff.mpr fun ht ↦ ?_
    rw [NamespaceRegistry.mem_knownNamespaces, hsheds.frame.registry] at hns
    rw [hsheds.frame.retention, hsheds.frame.docs] at hh
    exact ((hrel ns h).mp ht).2 (releases_iff.mpr ⟨hns, hh⟩)

/-- The sweep of a replica with two fixes of one author drops the older fix, and a second sweep does
nothing. -/
theorem pruneOnce_effect_twoFixes :
    let node := (System.dayStash.after (System.twoFixes _)).node
    let node' := (node.pruneOnce 3000 (fun _ ↦ false) (.any _) (.any _)).1
    node'.content.isTrackedFor (idOf 1) (idOf 7) = false ∧
      node'.content.isTrackedFor (idOf 1) (idOf 8) = true ∧
        node'.pruneOnce 3000 (fun _ ↦ false) (.any _) (.any _) = (node', .ok 0) := by
  intro node node'
  have hopen : HandlesOpen node := System.handlesOpen_of_run
    (Runs.Run.of_allAlong (fun _ _ h ↦ ⟨h, rfl⟩) ⟨trivial, rfl, rfl, trivial⟩)
  obtain ⟨hrel, -, -, -, hagain⟩ := pruneOnce_effect 3000 (.any _) (.any _) hopen fun _ ↦ rfl
  refine ⟨Bool.eq_false_iff.mpr fun ht ↦ ?_, (hrel _ _).mpr ⟨by decide, fun hc ↦ ?_⟩, hagain _ _⟩
  · exact ((hrel _ _).mp ht).2 (releases_iff.mpr ⟨by decide, by decide⟩)
  · exact absurd (releases_iff.mp hc).2 (by decide)

end TrailStash
