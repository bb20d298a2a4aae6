import TrailStash.Node

/-!
# The retention sweep

`pruneOnce` visits every granted namespace in turn: it reads the entries of the replica, decides
about each of them, and lets go of every hash that is named by an entry to release and by none to
keep.  A hash that nobody names any more is taken off the ledger as well.  A read that fails ends
the sweep where it is.

The decisions are about entries and the references about hashes.  `Kept` is the decision read off
one entry, and `mem_releasable` says what that makes of a hash.  With these, `pruneOnce_spec`
describes the sweep as a whole without an order: there is a set of namespaces it got round to —
all granted ones, if it succeeds — and the references it drops are the released hashes of those.
-/

set_option autoImplicit false

namespace TrailStash

/-! ## What the sweep decides about one replica -/

/-- A docs entry reduced to the fields the sweep needs. -/
structure PruneCandidate where
  /-- The content hash. -/
  hash : ContentHash
  /-- The docs key. -/
  key : Bytes
  /-- When it was written, in milliseconds. -/
  writtenMs : Nat
  deriving DecidableEq

/-- The candidates that reading a replica yields. -/
def candidates (doc : List Entry) : List PruneCandidate :=
  (getMany doc).map fun e ↦ ⟨e.contentHash, e.key, entryWrittenMs e⟩

/-- The candidates with the decision on each. -/
def verdicts (policy : RetentionPolicy) (now : Nat) (cs : List PruneCandidate) :
    List (PruneCandidate × Option ReleaseReason) :=
  cs.zip (releaseDecisions (cs.map fun c ↦ ⟨c.key, c.writtenMs⟩) policy now)

/-- The hashes of the candidates that are kept. -/
def keptHashes (vs : List (PruneCandidate × Option ReleaseReason)) : Finset ContentHash :=
  (vs.filterMap fun (c, decision) ↦ if decision.isNone then some c.hash else none).toFinset

/-- The hashes of the candidates that are released, less those a kept one shares. -/
def forgetHashes (vs : List (PruneCandidate × Option ReleaseReason)) : Finset ContentHash :=
  (vs.filterMap fun (c, decision) ↦
    if decision.isNone then none
    else if c.hash ∈ keptHashes vs then none
    else some c.hash).toFinset

/-- The hashes a sweep at `now` lets go of in a replica. -/
def releasable (policy : RetentionPolicy) (now : Nat) (doc : List Entry) : Finset ContentHash :=
  forgetHashes (verdicts policy now (candidates doc))

/-- The replica holds the entry, and the decision on it at `now` is to keep it. -/
def Kept (policy : RetentionPolicy) (now : Nat) (doc : List Entry) (e : Entry) : Prop :=
  (e, none) ∈ (getMany doc).zip
    (releaseDecisions ((getMany doc).map fun e ↦ ⟨e.key, entryWrittenMs e⟩) policy now)

/-- The keys of the entries of a replica. -/
def keys (doc : List Entry) : List Bytes := (getMany doc).map (·.key)

variable {policy : RetentionPolicy} {now : Nat} {doc doc' : List Entry} {e : Entry}
  {h : ContentHash}

theorem mem_getMany : e ∈ getMany doc ↔ e ∈ doc ∧ e.contentHash ≠ emptyHash := by
  simp [getMany, Entry.isEmpty]

theorem decisions_eq_map : releaseDecisions ((getMany doc).map fun e ↦ ⟨e.key, entryWrittenMs e⟩)
    policy now = (getMany doc).map fun e ↦
      decisionOn (keys doc) policy now ⟨e.key, entryWrittenMs e⟩ := by
  rw [releaseDecisions_eq_map, List.map_map, List.map_map]
  rfl

/-- **When an entry is kept**: no later fix of its author is there, and it is within the window. -/
theorem kept_iff : Kept policy now doc e ↔ e ∈ getMany doc ∧ ¬ Superseded (keys doc) e.key ∧
    policy.isExpired (entryWrittenMs e) now = false := by
  rw [Kept, decisions_eq_map, ← List.map_prod_left_eq_zip, List.mem_map]
  constructor
  · rintro ⟨e', he', heq⟩
    obtain ⟨rfl, hdecision⟩ := Prod.mk.inj heq
    exact ⟨he', decisionOn_eq_none.mp hdecision⟩
  · rintro ⟨he, hnone⟩
    exact ⟨e, he, Prod.ext rfl (decisionOn_eq_none.mpr hnone)⟩

instance : Decidable (Kept policy now doc e) := decidable_of_iff _ kept_iff.symm

/-- An entry that is kept was kept while there were fewer entries. -/
theorem Kept.anti (hsub : getMany doc ⊆ getMany doc') (he : e ∈ getMany doc)
    (hkept : Kept policy now doc' e) : Kept policy now doc e := by
  obtain ⟨-, hsup, hexp⟩ := kept_iff.mp hkept
  exact kept_iff.mpr ⟨he, fun h ↦ hsup (h.mono (List.map_subset _ hsub)), hexp⟩

theorem verdicts_candidates : verdicts policy now (candidates doc) = (getMany doc).map fun e ↦
    (⟨e.contentHash, e.key, entryWrittenMs e⟩,
      decisionOn (keys doc) policy now ⟨e.key, entryWrittenMs e⟩) := by
  have hdec : releaseDecisions ((candidates doc).map fun c ↦ ⟨c.key, c.writtenMs⟩) policy now =
      (getMany doc).map fun e ↦ decisionOn (keys doc) policy now ⟨e.key, entryWrittenMs e⟩ := by
    rw [← decisions_eq_map, candidates, List.map_map]
    rfl
  rw [verdicts, hdec, candidates, List.zip_map']

theorem mem_keptHashes : h ∈ keptHashes (verdicts policy now (candidates doc)) ↔
    ∃ e, Kept policy now doc e ∧ e.contentHash = h := by
  rw [keptHashes, verdicts_candidates, List.mem_toFinset, List.filterMap_map, List.mem_filterMap]
  simp only [Function.comp, Option.ite_none_right_eq_some, Option.some_inj,
    Option.isNone_iff_eq_none, decisionOn_eq_none, kept_iff, and_assoc]

/-- **What a sweep makes of a hash**: it lets go of it when the replica names it and keeps none of
the entries that do. -/
theorem mem_releasable : h ∈ releasable policy now doc ↔
    (∃ e ∈ getMany doc, e.contentHash = h) ∧ ¬ ∃ e, Kept policy now doc e ∧ e.contentHash = h := by
  rw [releasable, forgetHashes, List.mem_toFinset, List.mem_filterMap, ← mem_keptHashes]
  constructor
  · rintro ⟨⟨c, decision⟩, hmem, hif⟩
    rw [verdicts_candidates] at hmem
    obtain ⟨e, he, heq⟩ := List.mem_map.mp hmem
    obtain ⟨rfl, -⟩ := Prod.mk.inj heq
    dsimp only at hif
    split at hif
    · exact absurd hif (by simp)
    · split at hif
      · exact absurd hif (by simp)
      · next hnot =>
        obtain rfl : e.contentHash = h := Option.some.inj hif
        exact ⟨⟨e, he, rfl⟩, hnot⟩
  · rintro ⟨⟨e, he, rfl⟩, hnot⟩
    -- the decision on `e` cannot be to keep it, or its hash would be among the kept ones
    have hdecision : decisionOn (keys doc) policy now ⟨e.key, entryWrittenMs e⟩ ≠ none :=
      fun hnone ↦ hnot (mem_keptHashes.mpr
        ⟨e, kept_iff.mpr ⟨he, decisionOn_eq_none.mp hnone⟩, rfl⟩)
    refine ⟨_, verdicts_candidates ▸ List.mem_map_of_mem he, ?_⟩
    simp [hdecision, hnot]

/-! ## The sweep -/

/-- Why a sweep ends early. -/
inductive PruneError
  /-- The entries of a namespace could not be read. -/
  | read (ns : NamespaceId)
  deriving DecidableEq

namespace StashNode

variable {hashNew : Bytes → ContentHash}

/-- Let go of one hash: drop the reference, and with the last one the ledger entry.  `released`
counts the latter. -/
def forgetOne (ns : NamespaceId) (h : ContentHash) (node : StashNode hashNew) (released : Nat) :
    StashNode hashNew × Nat :=
  let (lastReference, node) := node.forget ns h
  if lastReference then (node.untrack h, released + 1) else (node, released)

/-- The loop over the hashes to let go of. -/
def forgetAll (ns : NamespaceId) :
    List ContentHash → StashNode hashNew → Nat → StashNode hashNew × Nat
  | [], node, released => (node, released)
  | h :: hs, node, released =>
    let (node, released) := forgetOne ns h node released
    forgetAll ns hs node released

/-- The loop over the namespaces.  `faulty` are the namespaces whose entries cannot be read. -/
def pruneLoop (now : Nat) (faulty : NamespaceId → Bool) (order : IterOrder ContentHash) :
    List NamespaceId → StashNode hashNew → Nat → StashNode hashNew × Except PruneError Nat
  | [], node, released => (node, .ok released)
  | ns :: rest, node, released =>
    if ns ∉ node.handles then pruneLoop now faulty order rest node released
    else if faulty ns then (node, .error (.read ns))
    else
      let hashes := order.list (releasable node.retention now (node.docs ns))
      let (node, released) := forgetAll ns hashes node released
      pruneLoop now faulty order rest node released

/-- One retention sweep across every granted namespace. -/
def pruneOnce (node : StashNode hashNew) (now : Nat) (faulty : NamespaceId → Bool)
    (nsOrder : IterOrder NamespaceId) (order : IterOrder ContentHash) :
    StashNode hashNew × Except PruneError Nat :=
  pruneLoop now faulty order (node.registry.knownNamespaces nsOrder) node 0

/-! ## What the sweep does -/

variable {node : StashNode hashNew} {faulty : NamespaceId → Bool} {nsOrder : IterOrder NamespaceId}
  {order : IterOrder ContentHash} {ns ns' : NamespaceId} {h' : ContentHash} {hs : List ContentHash}
  {released : Nat}

theorem forgetOne_eq : (forgetOne ns h node released).1 =
    if (node.forget ns h).1 then (node.forget ns h).2.untrack h else (node.forget ns h).2 :=
  apply_ite Prod.fst _ _ _

theorem frame_forgetOne : Frame node (forgetOne ns h node released).1 := by
  rw [forgetOne_eq]
  split <;> exact ⟨rfl, rfl, rfl, rfl⟩

theorem isTrackedFor_forgetOne :
    (forgetOne ns h node released).1.content.isTrackedFor ns' h' = true ↔
      node.content.isTrackedFor ns' h' = true ∧ ¬ (ns' = ns ∧ h' = h) := by
  rw [forgetOne_eq]
  split <;> exact ContentIndex.isTrackedFor_forget

theorem lookup_forgetOne (hmem : h' ∈ (forgetOne ns h node released).1.tracked) :
    (forgetOne ns h node released).1.tracked.lookup h' = node.tracked.lookup h' := by
  rw [forgetOne_eq] at hmem ⊢
  split
  · next hlast =>
    rw [if_pos hlast] at hmem
    exact Finmap.lookup_erase_ne (Finmap.mem_erase.mp hmem).1
  · rfl

theorem frame_forgetAll : Frame node (forgetAll ns hs node released).1 := by
  induction hs generalizing node released with
  | nil => exact Frame.refl node
  | cons h hs ih => exact frame_forgetOne.trans ih

theorem isTrackedFor_forgetAll :
    (forgetAll ns hs node released).1.content.isTrackedFor ns' h' = true ↔
      node.content.isTrackedFor ns' h' = true ∧ ¬ (ns' = ns ∧ h' ∈ hs) := by
  induction hs generalizing node released with
  | nil => simp [forgetAll]
  | cons h hs ih =>
    rw [forgetAll, ih, isTrackedFor_forgetOne, and_assoc, ← not_or, ← and_or_left, List.mem_cons]

theorem lookup_forgetAll (hmem : h' ∈ (forgetAll ns hs node released).1.tracked) :
    (forgetAll ns hs node released).1.tracked.lookup h' = node.tracked.lookup h' := by
  induction hs generalizing node released with
  | nil => rfl
  | cons h hs ih =>
    have hrest := ih hmem
    refine hrest.trans (lookup_forgetOne ?_)
    obtain ⟨live, hlive⟩ := Finmap.mem_iff.mp hmem
    exact Finmap.mem_of_lookup_eq_some (hrest.symm.trans hlive)

/-- **What a sweep does to the references.**  It gets round to some of the granted namespaces, to
all of them if it succeeds, and drops exactly what these have to release. -/
theorem pruneLoop_spec (nss : List NamespaceId) (node : StashNode hashNew) (released : Nat) :
    ∃ swept ⊆ nss,
      (∀ n, (pruneLoop now faulty order nss node released).2 = .ok n → swept = nss) ∧
      ∀ ns h, (pruneLoop now faulty order nss node released).1.content.isTrackedFor ns h = true ↔
        node.content.isTrackedFor ns h = true ∧ ¬ (ns ∈ swept ∧ ns ∈ node.handles ∧
          h ∈ releasable node.retention now (node.docs ns)) := by
  induction nss generalizing node released with
  | nil => exact ⟨[], by simp, by simp, by simp [pruneLoop]⟩
  | cons ns rest ih =>
    rw [pruneLoop]
    split
    · next hno =>
      -- no handle: the namespace is passed over
      obtain ⟨swept, hsub, hok, hrel⟩ := ih node released
      refine ⟨ns :: swept, List.cons_subset_cons ns hsub, fun n hn ↦ by rw [hok n hn], ?_⟩
      intro ns' h
      rw [hrel]
      refine and_congr_right fun _ ↦ not_congr ⟨fun hc ↦ ⟨List.mem_cons_of_mem ns hc.1, hc.2⟩, ?_⟩
      rintro ⟨hmem, hhandle, hrelease⟩
      rcases List.mem_cons.mp hmem with rfl | hmem
      · exact absurd hhandle hno
      · exact ⟨hmem, hhandle, hrelease⟩
    · next hhandle =>
      rw [not_not] at hhandle
      split
      · exact ⟨[], by simp, by simp, by simp⟩
      · -- swept, and the rest of the loop runs on the node that leaves
        let hashes := order.list (releasable node.retention now (node.docs ns))
        let next := forgetAll ns hashes node released
        have hframe : Frame node next.1 := frame_forgetAll
        obtain ⟨swept, hsub, hok, hrel⟩ := ih next.1 next.2
        refine ⟨ns :: swept, List.cons_subset_cons ns hsub, fun n hn ↦ by rw [hok n hn], ?_⟩
        intro ns' h
        have hnext : next.1.content.isTrackedFor ns' h = true ↔ _ := isTrackedFor_forgetAll
        refine (hrel ns' h).trans ?_
        rw [hnext, order.mem_list, hframe.docs, hframe.handles, hframe.retention, and_assoc,
          ← not_or, List.mem_cons]
        refine and_congr_right fun _ ↦ not_congr ?_
        constructor
        · rintro (⟨rfl, hrelease⟩ | ⟨hmem, hrest⟩)
          · exact ⟨Or.inl rfl, hhandle, hrelease⟩
          · exact ⟨Or.inr hmem, hrest⟩
        · rintro ⟨rfl | hmem, hrest⟩
          · exact Or.inl ⟨rfl, hrest.2⟩
          · exact Or.inr ⟨hmem, hrest⟩

theorem pruneOnce_spec (node : StashNode hashNew) (now : Nat) (faulty : NamespaceId → Bool)
    (nsOrder : IterOrder NamespaceId) (order : IterOrder ContentHash) :
    ∃ swept : List NamespaceId,
      (∀ n, (node.pruneOnce now faulty nsOrder order).2 = .ok n →
        ∀ ns, ns ∈ swept ↔ node.registry.isKnown ns = true) ∧
      ∀ ns h, (node.pruneOnce now faulty nsOrder order).1.content.isTrackedFor ns h = true ↔
        node.content.isTrackedFor ns h = true ∧ ¬ (ns ∈ swept ∧ ns ∈ node.handles ∧
          h ∈ releasable node.retention now (node.docs ns)) := by
  obtain ⟨swept, -, hok, hrel⟩ :=
    pruneLoop_spec (node.registry.knownNamespaces nsOrder) node 0
  refine ⟨swept, fun n hn ns ↦ ?_, hrel⟩
  rw [hok n hn]
  exact NamespaceRegistry.mem_knownNamespaces

/-- A sweep that succeeds drops what the granted namespaces have to release, and nothing else. -/
theorem isTrackedFor_pruneOnce (hopen : HandlesOpen node) {n : Nat}
    (hok : (node.pruneOnce now faulty nsOrder order).2 = .ok n) :
    (node.pruneOnce now faulty nsOrder order).1.content.isTrackedFor ns h = true ↔
      node.content.isTrackedFor ns h = true ∧
        ¬ (node.registry.isKnown ns = true ∧ h ∈ releasable node.retention now (node.docs ns)) := by
  obtain ⟨swept, hswept, hrel⟩ := pruneOnce_spec node now faulty nsOrder order
  rw [hrel, hswept n hok ns]
  refine and_congr_right fun _ ↦ not_congr ⟨fun hc ↦ ⟨hc.1, hc.2.2⟩, ?_⟩
  exact fun hc ↦ ⟨hc.1, hopen ns hc.1, hc.2⟩

theorem pruneLoop_ok (hread : ∀ ns, faulty ns = false) (nss : List NamespaceId)
    (node : StashNode hashNew) (released : Nat) :
    ∃ n, (pruneLoop now faulty order nss node released).2 = .ok n := by
  induction nss generalizing node released with
  | nil => exact ⟨released, rfl⟩
  | cons ns rest ih =>
    rw [pruneLoop]
    split
    · exact ih node released
    · rw [if_neg (by simp [hread])]
      exact ih _ _

/-- A sweep whose reads all succeed succeeds. -/
theorem pruneOnce_ok (hread : ∀ ns, faulty ns = false) :
    ∃ n, (node.pruneOnce now faulty nsOrder order).2 = .ok n :=
  pruneLoop_ok hread _ node 0

theorem frame_pruneLoop {nss : List NamespaceId} :
    Frame node (pruneLoop now faulty order nss node released).1 := by
  induction nss generalizing node released with
  | nil => exact Frame.refl node
  | cons ns rest ih =>
    rw [pruneLoop]
    split
    · exact ih
    · split
      · exact Frame.refl node
      · exact frame_forgetAll.trans ih

theorem frame_pruneOnce : Frame node (node.pruneOnce now faulty nsOrder order).1 := frame_pruneLoop

theorem lookup_pruneLoop {nss : List NamespaceId}
    (hmem : h ∈ (pruneLoop now faulty order nss node released).1.tracked) :
    (pruneLoop now faulty order nss node released).1.tracked.lookup h = node.tracked.lookup h := by
  induction nss generalizing node released with
  | nil => rfl
  | cons ns rest ih =>
    rw [pruneLoop] at hmem ⊢
    split
    · next hno =>
      rw [if_pos hno] at hmem
      exact ih hmem
    · next hhandle =>
      rw [if_neg hhandle] at hmem
      split
      · rfl
      · next hread =>
        rw [if_neg hread] at hmem
        have hrest := ih hmem
        refine hrest.trans (lookup_forgetAll ?_)
        obtain ⟨live, hlive⟩ := Finmap.mem_iff.mp hmem
        exact Finmap.mem_of_lookup_eq_some (hrest.symm.trans hlive)

/-- A sweep takes entries off the ledger and leaves those that stay as they are. -/
theorem lookup_pruneOnce (hmem : h ∈ (node.pruneOnce now faulty nsOrder order).1.tracked) :
    (node.pruneOnce now faulty nsOrder order).1.tracked.lookup h = node.tracked.lookup h :=
  lookup_pruneLoop hmem

end StashNode

end TrailStash
