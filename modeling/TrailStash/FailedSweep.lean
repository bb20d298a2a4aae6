import TrailStash.SweepEffect

/-!
# Sweeps that fail

Opening the stream of entries of a replica can fail, and so can any item of it.  A sweep ends with
the first such error.  `pruneOnceReading` is the sweep with these reads; `pruneOnceReading_eq` says
that all that matters is whether a namespace can be read to the end, so no decision rests on a part
of a replica.

Two consequences.  A sweep that fails has done a part of its work and nothing else, and a later one
does the rest (`pruneOnceReading_failed`).  But the namespaces that come after the first unreadable
one are not visited at all: what they have to release stays (`unreadable_exempts_iff`).
-/

set_option autoImplicit false

namespace TrailStash

/-- Where the reading of a replica fails. -/
inductive ReadFault
  /-- `get_many` fails. -/
  | opening
  /-- The stream yields this many entries and then an error. -/
  | item (n : Nat)
  deriving DecidableEq

/-- `get_many`: the stream of the entries of a replica. -/
def entryStream (ns : NamespaceId) (fault : Option ReadFault) (doc : List Entry) :
    Except PruneError (List (Except PruneError Entry)) :=
  match fault with
  | none => .ok ((getMany doc).map .ok)
  | some .opening => .error (.read ns)
  | some (.item n) => .ok (((getMany doc).take n).map .ok ++ [.error (.read ns)])

/-- The loop that collects the candidates of a stream. -/
def collectCandidates : List (Except PruneError Entry) → List PruneCandidate →
    Except PruneError (List PruneCandidate)
  | [], cs => .ok cs
  | .error e :: _, _ => .error e
  | .ok entry :: stream, cs =>
    collectCandidates stream (cs ++ [⟨entry.contentHash, entry.key, entryWrittenMs entry⟩])

namespace StashNode

variable {hashNew : Bytes → ContentHash}

/-- The loop over the namespaces, with its reads. -/
def pruneLoopReading (now : Nat) (fault : NamespaceId → Option ReadFault)
    (order : IterOrder ContentHash) :
    List NamespaceId → StashNode hashNew → Nat → StashNode hashNew × Except PruneError Nat
  | [], node, released => (node, .ok released)
  | ns :: rest, node, released =>
    if ns ∉ node.handles then pruneLoopReading now fault order rest node released
    else
      match entryStream ns (fault ns) (node.docs ns) with
      | .error e => (node, .error e)
      | .ok stream =>
        match collectCandidates stream [] with
        | .error e => (node, .error e)
        | .ok cs =>
          let hashes := order.list (forgetHashes (verdicts node.retention now cs))
          let (node, released) := forgetAll ns hashes node released
          pruneLoopReading now fault order rest node released

/-- One retention sweep, with its reads. -/
def pruneOnceReading (node : StashNode hashNew) (now : Nat) (fault : NamespaceId → Option ReadFault)
    (nsOrder : IterOrder NamespaceId) (order : IterOrder ContentHash) :
    StashNode hashNew × Except PruneError Nat :=
  pruneLoopReading now fault order (node.registry.knownNamespaces nsOrder) node 0

end StashNode

open StashNode

variable {hashNew : Bytes → ContentHash} {node : StashNode hashNew} {now n : Nat}
  {fault : NamespaceId → Option ReadFault} {nsOrder : IterOrder NamespaceId}
  {order : IterOrder ContentHash} {ns : NamespaceId} {h : ContentHash}
  {before later nss : List NamespaceId}

/-! ## Partial reads -/

theorem collectCandidates_ok (es : List Entry) (cs : List PruneCandidate) :
    collectCandidates (es.map .ok) cs =
      .ok (cs ++ es.map fun e ↦ ⟨e.contentHash, e.key, entryWrittenMs e⟩) := by
  induction es generalizing cs with
  | nil => rw [List.map_nil, collectCandidates, List.map_nil, List.append_nil]
  | cons e es ih =>
    rw [List.map_cons, collectCandidates, ih, List.map_cons, List.append_assoc,
      List.singleton_append]

theorem collectCandidates_error (es : List Entry) (err : PruneError) (cs : List PruneCandidate) :
    collectCandidates (es.map .ok ++ [.error err]) cs = .error err := by
  induction es generalizing cs with
  | nil => rfl
  | cons e es ih => rw [List.map_cons, List.cons_append, collectCandidates, ih]

/-- **No decision rests on a part of a replica.**  An error at any item is the same as one at the
start. -/
theorem pruneLoopReading_eq (nss : List NamespaceId) (node : StashNode hashNew) (n : Nat) :
    pruneLoopReading now fault order nss node n =
      pruneLoop now (fun ns ↦ (fault ns).isSome) order nss node n := by
  induction nss generalizing node n with
  | nil => rfl
  | cons ns rest ih =>
    rw [pruneLoopReading, pruneLoop]
    split
    · exact ih node n
    · cases hfault : fault ns with
      | none =>
        rw [entryStream]
        dsimp only
        rw [collectCandidates_ok]
        exact ih _ _
      | some place =>
        cases place with
        | opening => rfl
        | item k =>
          rw [entryStream]
          dsimp only
          rw [collectCandidates_error]
          rfl

theorem pruneOnceReading_eq : node.pruneOnceReading now fault nsOrder order =
    node.pruneOnce now (fun ns ↦ (fault ns).isSome) nsOrder order :=
  pruneLoopReading_eq _ node 0

/-! ## Where a sweep ends -/

/-- A sweep of namespaces that can be read, and of what comes after them. -/
theorem pruneLoop_append {faulty : NamespaceId → Bool} (order : IterOrder ContentHash)
    (later : List NamespaceId) (n : Nat)
    (hread : ∀ ns ∈ before, ns ∈ node.handles → faulty ns = false) :
    ∃ node' n', pruneLoop now faulty order before node n = (node', .ok n') ∧
      pruneLoop now faulty order (before ++ later) node n =
        pruneLoop now faulty order later node' n' := by
  induction before generalizing node n with
  | nil => exact ⟨node, n, rfl, rfl⟩
  | cons ns before ih =>
    have hrest : ∀ ns ∈ before, ns ∈ node.handles → faulty ns = false :=
      fun ns' hns' ↦ hread ns' (List.mem_cons_of_mem ns hns')
    rw [List.cons_append, pruneLoop, pruneLoop]
    split
    · exact ih _ hrest
    · next hhandle =>
      have hfine : ¬ faulty ns = true := by
        rw [hread ns List.mem_cons_self (not_not.mp hhandle)]
        exact Bool.false_ne_true
      rw [if_neg hfine, if_neg hfine]
      have hframe : Frame node (forgetAll ns
          (order.list (releasable node.retention now (node.docs ns))) node n).1 := frame_forgetAll
      exact ih _ fun ns' hns' hh ↦ hrest ns' hns' (hframe.handles ▸ hh)

/-- **A sweep ends at the first namespace that cannot be read.** -/
theorem pruneLoop_failed {faulty : NamespaceId → Bool} (order : IterOrder ContentHash)
    (later : List NamespaceId) (n : Nat)
    (hread : ∀ ns ∈ before, ns ∈ node.handles → faulty ns = false) (hhandle : ns ∈ node.handles)
    (hfaulty : faulty ns = true) :
    ∃ node' n', pruneLoop now faulty order before node n = (node', .ok n') ∧
      pruneLoop now faulty order (before ++ ns :: later) node n = (node', .error (.read ns)) := by
  obtain ⟨node', n', hbefore, hall⟩ := pruneLoop_append order (ns :: later) n hread
  have hframe : Frame node node' := by
    have hpart : Frame node (pruneLoop now faulty order before node n).1 := frame_pruneLoop
    rwa [hbefore] at hpart
  refine ⟨node', n', hbefore, ?_⟩
  rw [hall, pruneLoop, if_neg (not_not.mpr (hframe.handles ▸ hhandle)), if_pos hfaulty]

/-- What two sweeps of one node leave is the same if the same references are left. -/
theorem Sheds.eq_of_isTrackedFor {node₁ node₂ : StashNode hashNew} {k₁ k₂ : Nat}
    (h₁ : Sheds node node₁ k₁) (h₂ : Sheds node node₂ k₂)
    (href : ∀ ns h, node₁.content.isTrackedFor ns h = true ↔
      node₂.content.isTrackedFor ns h = true) :
    node₁.content = node₂.content ∧ node₁.tracked = node₂.tracked := by
  have htracked : ∀ h, node₁.content.isTracked h = node₂.content.isTracked h := by
    intro h
    rw [Bool.eq_iff_iff, ContentIndex.isTracked_iff, ContentIndex.isTracked_iff]
    exact exists_congr fun ns ↦ href ns h
  have hshed : shed node node₁ = shed node node₂ := by
    ext h
    rw [mem_shed, mem_shed, htracked]
  constructor
  · refine ContentIndex.ext_relations (fun ns h ↦ Bool.eq_iff_iff.mpr (href ns h)) fun h ↦ ?_
    rw [Bool.eq_iff_iff, h₁.present, h₂.present, htracked]
  · refine Finmap.ext_lookup fun h ↦ ?_
    rw [h₁.ledger, h₂.ledger, hshed]

/-- The sweep comes to a namespace and fails to read it. -/
def Fails (node : StashNode hashNew) (fault : NamespaceId → Option ReadFault) (ns : NamespaceId) :
    Prop :=
  ns ∈ node.handles ∧ fault ns ≠ none

/-- What a loop that ran to its end has done. -/
theorem pruneLoop_done {faulty : NamespaceId → Bool} {node' : StashNode hashNew} {n' : Nat}
    (hok : pruneLoop now faulty order before node n = (node', .ok n')) (ns : NamespaceId)
    (h : ContentHash) : node'.content.isTrackedFor ns h = true ↔
      node.content.isTrackedFor ns h = true ∧ ¬ (ns ∈ before ∧ ns ∈ node.handles ∧
        h ∈ releasable node.retention now (node.docs ns)) := by
  obtain ⟨swept, -, hswept, hrel⟩ : ∃ swept ⊆ before, (∀ n',
      (pruneLoop now faulty order before node n).2 = .ok n' → swept = before) ∧ _ :=
    pruneLoop_spec before node n
  rw [hok] at hswept hrel
  rw [hrel, hswept n' rfl]

/-- What is left when all reads succeed. -/
theorem pruneOnceReading_complete (node : StashNode hashNew) (nsOrder : IterOrder NamespaceId)
    (order : IterOrder ContentHash) (ns : NamespaceId) (h : ContentHash) :
    (node.pruneOnceReading now (fun _ ↦ none) nsOrder order).1.content.isTrackedFor ns h = true ↔
      node.content.isTrackedFor ns h = true ∧ ¬ (node.registry.isKnown ns = true ∧
        ns ∈ node.handles ∧ h ∈ releasable node.retention now (node.docs ns)) := by
  rw [pruneOnceReading_eq]
  obtain ⟨n, hok⟩ : ∃ n, (node.pruneOnce now (fun ns ↦ (none : Option ReadFault).isSome) nsOrder
      order).2 = .ok n := pruneOnce_ok fun _ ↦ rfl
  obtain ⟨swept, hswept, hrel⟩ := pruneOnce_spec node now
    (fun ns ↦ (none : Option ReadFault).isSome) nsOrder order
  rw [hrel, hswept n hok]

/-- The first namespace a sweep fails to read. -/
theorem exists_first_fault (nsOrder : IterOrder NamespaceId)
    (hfault : ∃ ns, node.registry.isKnown ns = true ∧ Fails node fault ns) :
    ∃ before ns later, node.registry.knownNamespaces nsOrder = before ++ ns :: later ∧
      (∀ ns' ∈ before, ¬ Fails node fault ns') ∧ Fails node fault ns := by
  classical
  obtain ⟨ns, hknown, hns⟩ := hfault
  have hfind : ((node.registry.knownNamespaces nsOrder).find? fun ns ↦
      decide (Fails node fault ns)).isSome := by
    rw [List.find?_isSome]
    exact ⟨ns, NamespaceRegistry.mem_knownNamespaces.mpr hknown, decide_eq_true hns⟩
  obtain ⟨first, hfirst⟩ := Option.isSome_iff_exists.mp hfind
  obtain ⟨hfails, before, later, hsplit, hbefore⟩ := List.find?_eq_some_iff_append.mp hfirst
  exact ⟨before, first, later, hsplit, fun ns' hns' ↦ by simpa using hbefore ns' hns',
    of_decide_eq_true hfails⟩

theorem sheds_pruneOnceReading (node : StashNode hashNew) (now : Nat)
    (fault : NamespaceId → Option ReadFault) (nsOrder : IterOrder NamespaceId)
    (order : IterOrder ContentHash) :
    ∃ k, Sheds node (node.pruneOnceReading now fault nsOrder order).1 k := by
  rw [pruneOnceReading_eq]
  exact sheds_pruneOnce node now _ nsOrder order

/-- **A sweep stops at the first namespace it fails to read.**  It has dropped what those before it
have to release. -/
theorem pruneOnceReading_stops (node : StashNode hashNew) (now : Nat)
    (nsOrder : IterOrder NamespaceId) (order : IterOrder ContentHash)
    (hfault : ∃ ns, node.registry.isKnown ns = true ∧ Fails node fault ns) :
    ∃ before ns later, node.registry.knownNamespaces nsOrder = before ++ ns :: later ∧
      (∀ ns' ∈ before, ¬ Fails node fault ns') ∧ Fails node fault ns ∧
      (node.pruneOnceReading now fault nsOrder order).2 = .error (.read ns) ∧
      ∀ ns' h,
        (node.pruneOnceReading now fault nsOrder order).1.content.isTrackedFor ns' h = true ↔
          node.content.isTrackedFor ns' h = true ∧
            ¬ (ns' ∈ before ∧ ns' ∈ node.handles ∧ Releases node now ns' h) := by
  obtain ⟨before, ns, later, hsplit, hbefore, hns⟩ := exists_first_fault nsOrder hfault
  have hread : ∀ ns' ∈ before, ns' ∈ node.handles → (fault ns').isSome = false := by
    intro ns' hns' hhandle
    by_contra hsome
    exact hbefore ns' hns' ⟨hhandle, by simpa [Option.isSome_iff_ne_none] using hsome⟩
  obtain ⟨stopped, n, hdone, hstop⟩ :=
    pruneLoop_failed order later 0 hread hns.1 (Option.isSome_iff_ne_none.mpr hns.2)
  have hsweep : node.pruneOnceReading now fault nsOrder order = (stopped, .error (.read ns)) := by
    rw [pruneOnceReading_eq, pruneOnce, hsplit]
    exact hstop
  refine ⟨before, ns, later, hsplit, hbefore, hns, congrArg Prod.snd hsweep, fun ns' h ↦ ?_⟩
  rw [hsweep, pruneLoop_done hdone, releases_iff]
  refine and_congr_right fun _ ↦ not_congr (and_congr_right fun hmem ↦ and_congr_right fun _ ↦ ?_)
  have hknown : node.registry.isKnown ns' = true :=
    NamespaceRegistry.mem_knownNamespaces.mp (hsplit ▸ List.mem_append_left _ hmem)
  exact (and_iff_right hknown).symm

/-- **A failed sweep is safe and can be retried.**  If a read of some granted namespace fails, the
sweep fails at the first such namespace it comes to.  What it visited before has been swept
completely, and no other reference is gone; a hash that is still referenced has its mark and its
ledger entry.  A later sweep whose reads succeed leaves what a single one would have left. -/
theorem pruneOnceReading_failed (node : StashNode hashNew) (now : Nat)
    (fault : NamespaceId → Option ReadFault) (nsOrder : IterOrder NamespaceId)
    (order : IterOrder ContentHash)
    (hfault : ∃ ns, node.registry.isKnown ns = true ∧ Fails node fault ns) :
    let node' := (node.pruneOnceReading now fault nsOrder order).1
    (∃ before ns later, node.registry.knownNamespaces nsOrder = before ++ ns :: later ∧
      before.Disjoint (ns :: later) ∧
      (∀ ns' ∈ before, ¬ Fails node fault ns') ∧ Fails node fault ns ∧
      (node.pruneOnceReading now fault nsOrder order).2 = .error (.read ns) ∧
      (∀ ns' ∈ before, ∀ h, node'.content.isTrackedFor ns' h = true ↔
        node.content.isTrackedFor ns' h = true ∧
          ¬ (ns' ∈ node.handles ∧ Releases node now ns' h)) ∧
      ∀ ns' ∉ before, ∀ h,
        node'.content.isTrackedFor ns' h = node.content.isTrackedFor ns' h) ∧
    (∀ h, node'.content.isTracked h = true →
      node'.content.isPresent h = node.content.isPresent h ∧
        node'.tracked.lookup h = node.tracked.lookup h) ∧
    ∀ nsOrder₁ order₁ nsOrder₂ order₂,
      let later := (node'.pruneOnceReading now (fun _ ↦ none) nsOrder₁ order₁).1
      let single := (node.pruneOnceReading now (fun _ ↦ none) nsOrder₂ order₂).1
      later.content = single.content ∧ later.tracked = single.tracked := by
  intro node'
  obtain ⟨before, ns, later, hsplit, hbefore, hns, herror, hrel⟩ :=
    pruneOnceReading_stops node now nsOrder order hfault
  obtain ⟨k, hsheds⟩ : ∃ k, Sheds node node' k :=
    sheds_pruneOnceReading node now fault nsOrder order
  refine ⟨⟨before, ns, later, hsplit, ?_, hbefore, hns, herror, fun ns' hns' h ↦ ?_,
    fun ns' hns' h ↦ ?_⟩, fun h ht ↦ ⟨?_, ?_⟩, ?_⟩
  · exact List.disjoint_of_nodup_append (hsplit ▸ nsOrder.nodup _)
  · rw [hrel]
    simp only [hns', true_and]
  · rw [Bool.eq_iff_iff, hrel]
    exact and_iff_left fun hc ↦ hns' hc.1
  · rw [Bool.eq_iff_iff, hsheds.present]
    exact and_iff_left ht
  · rw [hsheds.ledger, if_neg]
    intro hmem
    exact absurd ht (by simp [(mem_shed.mp hmem).2])
  · intro nsOrder₁ order₁ nsOrder₂ order₂ after single
    obtain ⟨k₁, hafter⟩ : ∃ k, Sheds node' after k :=
      sheds_pruneOnceReading node' now _ nsOrder₁ order₁
    obtain ⟨k₂, hsingle⟩ : ∃ k, Sheds node single k :=
      sheds_pruneOnceReading node now _ nsOrder₂ order₂
    refine (hsheds.trans hafter).eq_of_isTrackedFor hsingle fun ns' h ↦ ?_
    -- what the failed sweep dropped, the single one drops as well
    rw [pruneOnceReading_complete, pruneOnceReading_complete, hrel, hsheds.frame.registry,
      hsheds.frame.handles, hsheds.frame.retention, hsheds.frame.docs, and_assoc]
    refine and_congr_right fun _ ↦ and_iff_right_of_imp fun hnot hc ↦ ?_
    obtain ⟨hknown, hrelease⟩ := releases_iff.mp hc.2.2
    exact hnot ⟨hknown, hc.2.1, hrelease⟩

/-- Two granted namespaces, with two fixes of one author in the first. -/
def twoGrants (hashNew : Bytes → ContentHash) : List (Op hashNew) :=
  System.twoFixes _ ++ [.grant (idOf 2) none]

/-- The stream of the entries of the second namespace ends with an error. -/
def secondUnreadable (ns : NamespaceId) : Option ReadFault :=
  if ns = idOf 2 then some (.item 0) else none

/-- A sweep of these namespaces fails at the second. -/
theorem pruneOnceReading_failed_twoGrants :
    ((System.dayStash.after (twoGrants _)).node.pruneOnceReading 3000 secondUnreadable (.any _)
      (.any _)).2 = .error (.read (idOf 2)) := by
  obtain ⟨⟨before, ns, later, -, -, -, hns, herror, -⟩, -⟩ :=
    pruneOnceReading_failed (System.dayStash.after (twoGrants _)).node 3000 secondUnreadable
      (.any _) (.any _) ⟨idOf 2, by decide, by decide, by decide⟩
  obtain rfl : ns = idOf 2 := by
    by_contra hne
    exact hns.2 (if_neg hne)
  exact herror

/-! ## What an unreadable namespace does to the others -/

/-- The namespaces from the first unreadable one on. -/
def fromFirstUnreadable (fault : NamespaceId → Option ReadFault) (nss : List NamespaceId) :
    List NamespaceId :=
  nss.dropWhile fun ns ↦ (fault ns).isNone

/-- **When an unreadable namespace does not exempt the others.**  After a sweep in which some read
fails, the readable namespaces are rid of all that was to be released exactly when those that come
after the first unreadable one had nothing of it. -/
theorem unreadable_exempts_iff (node : StashNode hashNew) (now : Nat)
    (fault : NamespaceId → Option ReadFault) (nsOrder : IterOrder NamespaceId)
    (order : IterOrder ContentHash) (hopen : HandlesOpen node)
    (hfault : ∃ ns, node.registry.isKnown ns = true ∧ fault ns ≠ none) :
    (∀ ns h, node.registry.isKnown ns = true → fault ns = none → Releases node now ns h →
      (node.pruneOnceReading now fault nsOrder order).1.content.isTrackedFor ns h = false) ↔
    ∀ ns ∈ fromFirstUnreadable fault (node.registry.knownNamespaces nsOrder), fault ns = none →
      ∀ h, Releases node now ns h → node.content.isTrackedFor ns h = false := by
  obtain ⟨first, hknown, hfirst⟩ := hfault
  obtain ⟨before, ns, later, hsplit, hbefore, hns, -, hrel⟩ := pruneOnceReading_stops node now
    nsOrder order ⟨first, hknown, hopen first hknown, hfirst⟩
  have hreadable : ∀ ns' ∈ before, fault ns' = none := by
    intro ns' hns'
    by_contra hne
    have hknown' := NamespaceRegistry.mem_knownNamespaces.mp
      (hsplit ▸ List.mem_append_left (ns :: later) hns')
    exact hbefore ns' hns' ⟨hopen ns' hknown', hne⟩
  have hfrom : fromFirstUnreadable fault (node.registry.knownNamespaces nsOrder) = ns :: later := by
    rw [hsplit, fromFirstUnreadable,
      List.dropWhile_append_of_pos fun ns' hns' ↦ by simp [hreadable ns' hns'],
      List.dropWhile_cons_of_neg (by simpa using hns.2)]
  have hdisjoint : before.Disjoint (ns :: later) :=
    List.disjoint_of_nodup_append (hsplit ▸ nsOrder.nodup _)
  rw [hfrom]
  constructor
  · intro hrid ns' hmem hread h hrelease
    refine Bool.eq_false_iff.mpr fun ht ↦ ?_
    -- the sweep did not come to this namespace
    have hstill := (hrel ns' h).mpr ⟨ht, fun hc ↦ hdisjoint hc.1 hmem⟩
    exact Bool.eq_false_iff.mp (hrid ns' h (releases_iff.mp hrelease).1 hread hrelease) hstill
  · intro hclean ns' h hknown' hread hrelease
    refine Bool.eq_false_iff.mpr fun ht ↦ ?_
    obtain ⟨hwas, hnot⟩ := (hrel ns' h).mp ht
    have hmem : ns' ∈ before ++ ns :: later :=
      hsplit ▸ NamespaceRegistry.mem_knownNamespaces.mpr hknown'
    rcases List.mem_append.mp hmem with hmem | hmem
    · exact hnot ⟨hmem, hopen ns' hknown', hrelease⟩
    · exact Bool.eq_false_iff.mp (hclean ns' hmem hread h hrelease) hwas

theorem handlesOpen_twoGrants : HandlesOpen (System.dayStash.after (twoGrants _)).node :=
  @System.handlesOpen_of_run _ _ _ (.fromHours 24)
    (Runs.Run.of_allAlong (fun _ _ h ↦ ⟨h, rfl⟩) ⟨trivial, rfl, rfl, trivial, trivial⟩)

theorem known_twoGrants :
    (System.dayStash.after (twoGrants _)).node.registry.known = {idOf 1, idOf 2} := by decide

/-- The first namespace is swept if it is visited first. -/
theorem unreadable_exempts_iff_second : ((System.dayStash.after (twoGrants _)).node.pruneOnceReading
    3000 secondUnreadable (.first (idOf 1)) (.any _)).1.content.isTrackedFor (idOf 1) (idOf 7) =
      false := by
  refine (unreadable_exempts_iff _ 3000 secondUnreadable (.first (idOf 1)) (.any _)
    handlesOpen_twoGrants ⟨idOf 2, by decide, by decide⟩).mpr ?_ (idOf 1) (idOf 7) (by decide)
      (by decide) (releases_iff.mpr ⟨by decide, by decide⟩)
  intro ns hns hread
  rw [NamespaceRegistry.knownNamespaces, known_twoGrants, IterOrder.list_first (by decide)] at hns
  have hlist : fromFirstUnreadable secondUnreadable [idOf 1, idOf 2] = [idOf 2] := by decide
  rw [hlist, List.mem_singleton] at hns
  subst hns
  exact absurd hread (by decide)

/-- **An unreadable namespace exempts the others.**  The older of two fixes in the first namespace
is superseded; the second namespace is visited before and cannot be read. -/
theorem exists_exempted_namespace : ¬ ∀ (node : StashNode System.noHash) (now : Nat)
    (fault : NamespaceId → Option ReadFault) (nsOrder : IterOrder NamespaceId)
    (order : IterOrder ContentHash), HandlesOpen node →
      (∃ ns, node.registry.isKnown ns = true ∧ fault ns ≠ none) →
        ∀ ns h, node.registry.isKnown ns = true → fault ns = none → Releases node now ns h →
          (node.pruneOnceReading now fault nsOrder order).1.content.isTrackedFor ns h = false := by
  intro hall
  let node := (System.dayStash.after (twoGrants _)).node
  have hgone := hall node 3000 secondUnreadable (.first (idOf 2)) (.any _) handlesOpen_twoGrants
    ⟨idOf 2, by decide, by decide⟩ (idOf 1) (idOf 7) (by decide) (by decide)
    (releases_iff.mpr ⟨by decide, by decide⟩)
  -- the sweep ends at once
  have hstop : node.pruneOnceReading 3000 secondUnreadable (.first (idOf 2)) (.any _) =
      (node, .error (.read (idOf 2))) := by
    have hknown : node.registry.known = {idOf 2, idOf 1} := known_twoGrants.trans (by decide)
    rw [pruneOnceReading, NamespaceRegistry.knownNamespaces, hknown,
      IterOrder.list_first (by decide), pruneLoopReading, if_neg (by decide)]
    rfl
  rw [hstop] at hgone
  exact absurd hgone (by decide)

end TrailStash
