import TrailStash.FailedSweep
import TrailStash.Health

/-!
# What the schedule does not change

Two things about the way the stash goes about its work are accidents.  One is the order in which it
walks its hash tables, which differs from process to process.  A settle pass visits each missing
blob once, and visits of different hashes commute; a sweep is described by what it leaves without an
order (`Sheds`).  So a run of whole operations in which every table is walked in another order leads
to the same node and issues the same wakes (`order_unobservable`).  It does so because no handler is
at work in the middle of a pass or a sweep.

The other is how often the sweep runs.  While no record arrives, what the sweeps leave is what the
last one would have left on its own, however many there were before it and wherever they failed
(`last_sweep_decides`).
-/

set_option autoImplicit false

namespace TrailStash

open Runs

variable {hashNew : Bytes → ContentHash}

namespace BlobStore

/-- Bytes of different hashes land in any order. -/
theorem land_comm {s : BlobStore hashNew} {b b' : Bytes} (hne : hashNew b ≠ hashNew b') :
    (s.land b).land b' = (s.land b').land b := by
  have hblob : ((s.land b).land b').blob = ((s.land b').land b).blob := by
    funext h
    simp only [land]
    by_cases hb : h = hashNew b
    · simp [hb, hne]
    · simp [hb]
  cases hs : (s.land b).land b'
  cases hs' : (s.land b').land b
  rw [hs, hs'] at hblob
  cases hblob
  have htags : ((s.land b).land b').tags = ((s.land b').land b).tags := rfl
  rw [hs, hs'] at htags
  cases htags
  rfl

end BlobStore

/-- Marks are set in any order. -/
theorem ContentIndex.markPresent_comm {ix : ContentIndex} {h h' : ContentHash} :
    (ix.markPresent h).markPresent h' = (ix.markPresent h').markPresent h := by
  refine ext_relations (fun _ _ ↦ rfl) fun h₀ ↦ ?_
  rw [Bool.eq_iff_iff]
  simp only [isPresent_markPresent, isTracked_markPresent]
  exact or_left_comm

namespace StashNode

variable {node node₁ node₂ : StashNode hashNew} {now : Nat} {has : ContentHash → Bool}
  {fetch : ∀ h, Option {bytes // hashNew bytes = h}} {h h' : ContentHash}
  {entry entry' : TrackedEntry} {present : Bool} {ns : NamespaceId}
  {l : List (ContentHash × TrackedEntry)} {order order' : IterOrder ContentHash}
  {nsOrder nsOrder' : IterOrder NamespaceId} {faulty : NamespaceId → Bool} {n : Nat}

/-- Two operations lead to the same node if they lead to the same ledgers and blobs. -/
theorem Frame.unique (h₁ : Frame node node₁) (h₂ : Frame node node₂)
    (hblobs : node₁.blobs = node₂.blobs) (hcontent : node₁.content = node₂.content)
    (htracked : ∀ h, node₁.tracked.lookup h = node₂.tracked.lookup h) : node₁ = node₂ := by
  have hledger := Finmap.ext_lookup htracked
  have hregistry := h₁.registry.trans h₂.registry.symm
  have hhandles := h₁.handles.trans h₂.handles.symm
  have hdocs := h₁.docs.trans h₂.docs.symm
  have hretention := h₁.retention.trans h₂.retention.symm
  cases node₁
  cases node₂
  simp_all

/-! ## Settle passes -/

theorem content_writeBack_eq : (node.writeBack now h entry present).1.content =
    if h ∈ node.tracked ∧ present = true then node.content.markPresent h else node.content := by
  rw [writeBack]
  cases hlive : node.tracked.lookup h with
  | none => rw [if_neg fun hc ↦ Finmap.lookup_eq_none.mp hlive hc.1]
  | some live =>
    have hmem := Finmap.mem_of_lookup_eq_some hlive
    cases present with
    | true =>
      rw [if_pos ⟨hmem, rfl⟩]
      rfl
    | false =>
      rw [if_neg fun hc ↦ Bool.false_ne_true hc.2]
      rfl

theorem content_settleVisit : (node.settleVisit now has fetch h entry).1.content =
    if h ∈ node.tracked ∧ visitAnswer now has fetch h entry = true then
      node.content.markPresent h else node.content := by
  obtain ⟨node', hnode', heq⟩ := settleVisit_eq node now has fetch h entry
  rw [heq, content_writeBack_eq]
  rcases hnode' with rfl | ⟨bytes, rfl⟩ <;> rfl

theorem lookup_settleVisit_self : (node.settleVisit now has fetch h entry).1.tracked.lookup h =
    (node.tracked.lookup h).map fun live ↦
      live.visited entry now (visitAnswer now has fetch h entry) := by
  cases hlive : node.tracked.lookup h with
  | some live => exact (settleVisit_spec now has fetch entry hlive).1
  | none =>
    obtain ⟨node', hnode', heq⟩ := settleVisit_eq node now has fetch h entry
    have hnone : node'.tracked.lookup h = none := by
      rcases hnode' with rfl | ⟨bytes, rfl⟩ <;> exact hlive
    rw [heq, tracked_writeBack_of_none hnone, hnone]
    rfl

theorem mem_tracked_settleVisit :
    h' ∈ (node.settleVisit now has fetch h entry).1.tracked ↔ h' ∈ node.tracked := by
  obtain ⟨node', hnode', heq⟩ := settleVisit_eq node now has fetch h entry
  rw [heq, mem_tracked_writeBack]
  rcases hnode' with rfl | ⟨bytes, rfl⟩ <;> rfl

/-- What a visit lands does not depend on the node. -/
theorem blobs_settleVisit_eq (now : Nat) (has : ContentHash → Bool)
    (fetch : ∀ h, Option {bytes // hashNew bytes = h}) (h : ContentHash) (entry : TrackedEntry) :
    (∀ node : StashNode hashNew, (node.settleVisit now has fetch h entry).1.blobs = node.blobs) ∨
    ∃ b, hashNew b = h ∧ ∀ node : StashNode hashNew,
      (node.settleVisit now has fetch h entry).1.blobs = node.blobs.land b := by
  by_cases hhas : has h = true
  · refine Or.inl fun node ↦ ?_
    rw [settleVisit, if_pos hhas, blobs_writeBack]
  · by_cases hdue : entry.nextAttemptMs ≤ now
    · cases hfetch : fetch h with
      | none =>
        refine Or.inl fun node ↦ ?_
        rw [settleVisit, if_neg hhas, if_pos hdue, hfetch]
        exact blobs_writeBack
      | some bytes =>
        refine Or.inr ⟨bytes.1, bytes.2, fun node ↦ ?_⟩
        rw [settleVisit, if_neg hhas, if_pos hdue, hfetch]
        exact blobs_writeBack
    · refine Or.inl fun node ↦ ?_
      rw [settleVisit, if_neg hhas, if_neg hdue, blobs_writeBack]

/-- **Visits of different hashes commute.** -/
theorem settleVisit_comm (hne : h ≠ h') :
    ((node.settleVisit now has fetch h entry).1.settleVisit now has fetch h' entry').1 =
      ((node.settleVisit now has fetch h' entry').1.settleVisit now has fetch h entry).1 := by
  refine (frame_settleVisit.trans frame_settleVisit).unique
    (frame_settleVisit.trans frame_settleVisit) ?_ ?_ fun h₀ ↦ ?_
  · rcases blobs_settleVisit_eq now has fetch h entry with hb | ⟨b, hb, hland⟩ <;>
      rcases blobs_settleVisit_eq now has fetch h' entry' with hb' | ⟨b', hb', hland'⟩
    · rw [hb', hb, hb, hb']
    · rw [hland', hb, hb, hland']
    · rw [hb', hland, hland, hb']
    · rw [hland', hland, hland, hland']
      exact BlobStore.land_comm fun heq ↦ hne (hb.symm.trans (heq.trans hb'))
  · rw [content_settleVisit, content_settleVisit, content_settleVisit, content_settleVisit]
    simp only [mem_tracked_settleVisit]
    split <;> split <;> first | rfl | exact ContentIndex.markPresent_comm
  · by_cases hh : h₀ = h
    · subst hh
      rw [lookup_settleVisit_of_ne hne, lookup_settleVisit_self, lookup_settleVisit_self,
        lookup_settleVisit_of_ne hne]
    · by_cases hh' : h₀ = h'
      · subst hh'
        rw [lookup_settleVisit_self, lookup_settleVisit_of_ne hh, lookup_settleVisit_of_ne hh,
          lookup_settleVisit_self]
      · rw [lookup_settleVisit_of_ne hh', lookup_settleVisit_of_ne hh, lookup_settleVisit_of_ne hh,
          lookup_settleVisit_of_ne hh']

theorem settleLoop_fst : (settleLoop now has fetch l node).1 =
    l.foldl (fun node p ↦ (node.settleVisit now has fetch p.1 p.2).1) node := by
  induction l generalizing node with
  | nil => rfl
  | cons p rest ih => exact ih

theorem outstanding_perm : (node.outstanding order).Perm (node.outstanding order') := by
  refine (List.perm_ext_iff_of_nodup nodup_outstanding.of_map nodup_outstanding.of_map).mpr ?_
  exact fun ⟨h, entry⟩ ↦ mem_outstanding.trans mem_outstanding.symm

/-- **The order of a pass does not matter.** -/
theorem settleOnce_order (node : StashNode hashNew) (now : Nat) (has : ContentHash → Bool)
    (fetch : ∀ h, Option {bytes // hashNew bytes = h}) (order order' : IterOrder ContentHash) :
    (node.settleOnce now order has fetch).1 = (node.settleOnce now order' has fetch).1 ∧
      (node.settleOnce now order has fetch).2.Perm (node.settleOnce now order' has fetch).2 := by
  constructor
  · rw [settleOnce, settleOnce, settleLoop_fst, settleLoop_fst]
    refine outstanding_perm.foldl_eq' (fun p hp q hq node' ↦ ?_) node
    by_cases hkey : p.1 = q.1
    · rw [List.inj_on_of_nodup_map nodup_outstanding hp hq hkey]
    · exact settleVisit_comm hkey
  · -- each hash gets the same wakes
    have hwakes : ∀ h, wakesFor h (node.settleOnce now order has fetch).2 =
        wakesFor h (node.settleOnce now order' has fetch).2 := by
      intro h
      cases hlive : node.tracked.lookup h with
      | none => rw [(settleOnce_of_none hlive).2, (settleOnce_of_none hlive).2]
      | some live =>
        rw [(settleOnce_spec now order has fetch hlive).2,
          (settleOnce_spec now order' has fetch hlive).2]
    have hcount : ∀ (w : Wake) ws, (wakesFor w.hash ws).count w = ws.count w := fun w ws ↦
      List.count_filter (by simp)
    refine List.perm_iff_count.mpr fun w ↦ ?_
    exact (hcount w _).symm.trans ((congrArg (List.count w) (hwakes w.hash)).trans (hcount w _))

end StashNode

/-! ## Sweeps -/

open StashNode

variable {node node₁ node₂ : StashNode hashNew} {now k₁ k₂ n : Nat} {ns : NamespaceId}
  {h : ContentHash} {hs hs' : List ContentHash} {order order' : IterOrder ContentHash}
  {nsOrder nsOrder' : IterOrder NamespaceId} {faulty : NamespaceId → Bool}

/-- What sweeps of one node leave, and what they count, is determined by the references left. -/
theorem Sheds.unique (h₁ : Sheds node node₁ k₁) (h₂ : Sheds node node₂ k₂)
    (href : ∀ ns h, node₁.content.isTrackedFor ns h = true ↔
      node₂.content.isTrackedFor ns h = true) : node₁ = node₂ ∧ k₁ = k₂ := by
  obtain ⟨hcontent, htracked⟩ := h₁.eq_of_isTrackedFor h₂ href
  have heq := h₁.frame.unique h₂.frame (h₁.blobs.trans h₂.blobs.symm) hcontent fun h ↦ by
    rw [htracked]
  subst heq
  exact ⟨rfl, h₁.count.symm.trans h₂.count⟩

/-- It does not matter in which order hashes are let go of. -/
theorem forgetAll_congr (hmem : ∀ h, h ∈ hs ↔ h ∈ hs') :
    forgetAll ns hs node n = forgetAll ns hs' node n := by
  obtain ⟨k, hk, hsheds⟩ := sheds_forgetAll ns hs node n
  obtain ⟨k', hk', hsheds'⟩ := sheds_forgetAll ns hs' node n
  obtain ⟨heq, rfl⟩ := hsheds.unique hsheds' fun ns' h ↦ by
    rw [isTrackedFor_forgetAll, isTrackedFor_forgetAll, hmem]
  exact Prod.ext heq (hk.trans hk'.symm)

/-- **The order of the hashes does not matter to a sweep**, also to one that fails. -/
theorem pruneLoop_order (nss : List NamespaceId) (node : StashNode hashNew) (n : Nat) :
    pruneLoop now faulty order nss node n = pruneLoop now faulty order' nss node n := by
  induction nss generalizing node n with
  | nil => rfl
  | cons ns rest ih =>
    have hsame : forgetAll ns (order.list (releasable node.retention now (node.docs ns))) node n =
        forgetAll ns (order'.list (releasable node.retention now (node.docs ns))) node n :=
      forgetAll_congr fun h ↦ (order.mem_list _ _).trans (order'.mem_list _ _).symm
    dsimp only [pruneLoop]
    rw [hsame]
    simp only [ih]

/-- A sweep in which no read fails, as a whole. -/
theorem pruneOnce_clean (node : StashNode hashNew) (now : Nat) (nsOrder : IterOrder NamespaceId)
    (order : IterOrder ContentHash) (hread : ∀ ns, faulty ns = false) :
    ∃ k, (node.pruneOnce now faulty nsOrder order).2 = .ok k ∧
      Sheds node (node.pruneOnce now faulty nsOrder order).1 k ∧
      ∀ ns h, (node.pruneOnce now faulty nsOrder order).1.content.isTrackedFor ns h = true ↔
        node.content.isTrackedFor ns h = true ∧ ¬ (node.registry.isKnown ns = true ∧
          ns ∈ node.handles ∧ h ∈ releasable node.retention now (node.docs ns)) := by
  obtain ⟨n, hok⟩ : ∃ n, (node.pruneOnce now faulty nsOrder order).2 = .ok n := pruneOnce_ok hread
  obtain ⟨k, hcount, hsheds⟩ := sheds_pruneLoop (node.registry.knownNamespaces nsOrder) node 0
  obtain ⟨swept, hswept, hrel⟩ := pruneOnce_spec node now faulty nsOrder order
  obtain rfl : n = 0 + k := hcount n hok
  rw [Nat.zero_add] at hok
  exact ⟨k, hok, hsheds, fun ns h ↦ by rw [hrel, hswept k hok]⟩

/-- **Nor does the order of the namespaces to one that succeeds.** -/
theorem pruneOnce_nsOrder (hread : ∀ ns, faulty ns = false) :
    node.pruneOnce now faulty nsOrder order = node.pruneOnce now faulty nsOrder' order' := by
  obtain ⟨k, hok, hsheds, hrel⟩ := pruneOnce_clean node now nsOrder order hread
  obtain ⟨k', hok', hsheds', hrel'⟩ := pruneOnce_clean node now nsOrder' order' hread
  obtain ⟨heq, rfl⟩ := hsheds.unique hsheds' fun ns h ↦ by rw [hrel, hrel']
  exact Prod.ext heq (hok.trans hok'.symm)

/-! ## Runs in another order -/

/-- The same operation, with its hash tables walked in other orders.  A sweep that may fail keeps
the order of the namespaces, since it ends at the first that cannot be read. -/
inductive StoreOp.Reordered : StoreOp hashNew → StoreOp hashNew → Prop
  | same (o : StoreOp hashNew) : Reordered o o
  | settle (now : Nat) (order order' : IterOrder ContentHash) (has : ContentHash → Bool)
      (fetch : ∀ h, Option {bytes // hashNew bytes = h}) :
      Reordered (.op (.settle now order has fetch)) (.op (.settle now order' has fetch))
  | sweep (now : Nat) (faulty : NamespaceId → Bool) (nsOrder : IterOrder NamespaceId)
      (order order' : IterOrder ContentHash) :
      Reordered (.op (.prune now faulty nsOrder order)) (.op (.prune now faulty nsOrder order'))
  | cleanSweep (now : Nat) {faulty : NamespaceId → Bool} (hread : ∀ ns, faulty ns = false)
      (nsOrder nsOrder' : IterOrder NamespaceId) (order order' : IterOrder ContentHash) :
      Reordered (.op (.prune now faulty nsOrder order)) (.op (.prune now faulty nsOrder' order'))

/-- The same node, and the same wakes in some order. -/
structure SameOutcome (s s' : System hashNew) : Prop where
  /-- The nodes are equal. -/
  node : s.node = s'.node
  /-- The wakes are the same, each as often. -/
  wakes : s.wakes.Perm s'.wakes
  /-- The latest sweep was given the same time. -/
  sweptAt : s.sweptAt = s'.sweptAt

variable {s s' t : System hashNew} {o o' : StoreOp hashNew} {ops ops' : List (StoreOp hashNew)}

/-- An operation does the same to the same. -/
theorem SameOutcome.store (hs : SameOutcome s s') (o : StoreOp hashNew) :
    SameOutcome (s.store o) (s'.store o) := by
  obtain ⟨hnode, hwakes, hswept⟩ := hs
  cases o with
  | land bytes => exact ⟨congrArg (·.land bytes) hnode, hwakes, hswept⟩
  | collect spared => exact ⟨congrArg (·.collect spared) hnode, hwakes, hswept⟩
  | op op =>
    cases op with
    | grant ns sub => exact ⟨congrArg (·.register ns sub) hnode, hwakes, hswept⟩
    | put ns expected bytes fails =>
      exact ⟨congrArg (fun node ↦ (node.putContent ns expected bytes fails).1) hnode, hwakes,
        hswept⟩
    | prune now faulty nsOrder order =>
      exact ⟨congrArg (fun node ↦ (node.pruneOnce now faulty nsOrder order).1) hnode, hwakes, rfl⟩
    | arrive ns e replaced peer present now =>
      dsimp only [System.store, System.apply, System.advance]
      rw [hnode]
      exact ⟨rfl, hwakes.append_right _, hswept⟩
    | settle now order has fetch =>
      dsimp only [System.store, System.apply, System.advance]
      rw [hnode]
      exact ⟨rfl, hwakes.append_right _, hswept⟩

/-- The same operation in another order leads to the same outcome. -/
theorem StoreOp.Reordered.store (ho : o.Reordered o') (s : System hashNew) :
    SameOutcome (s.store o) (s.store o') := by
  cases ho with
  | same => exact ⟨rfl, .refl _, rfl⟩
  | settle now order order' has fetch =>
    obtain ⟨hnode, hwakes⟩ := settleOnce_order s.node now has fetch order order'
    exact ⟨hnode, hwakes.append_left s.wakes, rfl⟩
  | sweep now faulty nsOrder order order' =>
    exact ⟨congrArg Prod.fst (pruneLoop_order _ s.node 0), .refl _, rfl⟩
  | cleanSweep now hread nsOrder nsOrder' order order' =>
    exact ⟨congrArg Prod.fst (pruneOnce_nsOrder hread), .refl _, rfl⟩

/-- **A step in another order.** -/
theorem SameOutcome.step (hs : SameOutcome s s') (ho : o.Reordered o')
    (hstep : System.StoreStep s o t) :
    System.StoreStep s' o' (s'.store o') ∧ SameOutcome t (s'.store o') := by
  obtain ⟨hallowed, rfl⟩ := hstep
  refine ⟨⟨fun op hop ↦ ?_, rfl⟩, ?_⟩
  · have hsame : ∀ op, System.Enabled s op ∧ System.Truthful s op →
        System.Enabled s' op ∧ System.Truthful s' op := by
      intro op h
      cases op <;> simpa only [System.Enabled, System.Truthful, hs.node] using h
    subst hop
    cases ho with
    | same => exact hsame op (hallowed op rfl)
    | settle now order order' has fetch =>
      have hfirst := hallowed (.settle now order has fetch) rfl
      exact hsame (.settle now order' has fetch) hfirst
    | sweep => exact ⟨trivial, trivial⟩
    | cleanSweep => exact ⟨trivial, trivial⟩
  · obtain ⟨hnode, hwakes, hswept⟩ := hs.store o
    obtain ⟨hnode', hwakes', hswept'⟩ := ho.store s'
    exact ⟨hnode.trans hnode', hwakes.trans hwakes', hswept.trans hswept'⟩

/-- **Nobody can tell in which order the hash tables are walked**, as long as nothing comes in
between.  Take any run of whole operations, and walk the hash tables of its settle passes and sweeps
in any other orders; only the order of the namespaces in a
sweep with a failing read is kept.  That is a run as well, to the same node, with the same wakes,
each as often. -/
theorem order_unobservable (hrun : Run System.StoreStep s ops t)
    (hops : List.Forall₂ StoreOp.Reordered ops ops') :
    ∃ t', Run System.StoreStep s ops' t' ∧ t'.node = t.node ∧ t'.wakes.Perm t.wakes := by
  have key : ∀ s', SameOutcome s s' →
      ∃ t', Run System.StoreStep s' ops' t' ∧ SameOutcome t t' := by
    induction hrun generalizing ops' with
    | nil s =>
      intro s' hs
      cases hops
      exact ⟨s', .nil s', hs⟩
    | cons hst _ ih =>
      intro s' hs
      cases hops with
      | cons ho hrest =>
        obtain ⟨hst', hs'⟩ := hs.step ho hst
        obtain ⟨t', hrun', ht'⟩ := ih hrest _ hs'
        exact ⟨t', .cons hst' hrun', ht'⟩
  obtain ⟨t', hrun', ht'⟩ := key s ⟨rfl, .refl _, rfl⟩
  exact ⟨t', hrun', ht'.node.symm, ht'.wakes.symm⟩

/-- A pass and a sweep after the arrival of `oldFix`, in two orders. -/
theorem order_unobservable_fix :
    let ops (order : IterOrder ContentHash) (nsOrder : IterOrder NamespaceId) :
        List (StoreOp sampleHash) :=
      [.op (.settle 60000 order (fun _ ↦ false) fun _ ↦ none),
        .op (.prune 200000000 (fun _ ↦ false) nsOrder order)]
    ∃ t', Run System.StoreStep System.fixSystem (ops (.first zeroHash) (.first (idOf 1))) t' ∧
      t'.node = ((ops (.any _) (.any _)).foldl System.store System.fixSystem).node := by
  intro ops
  have hrun : Run System.StoreStep System.fixSystem (ops (.any _) (.any _)) _ :=
    .cons (.intro trivial nofun) (.cons (.intro trivial trivial) (.nil _))
  obtain ⟨t', hrun', hnode, -⟩ := order_unobservable hrun
    (.cons (.settle 60000 (.any _) (.first zeroHash) _ _)
      (.cons (.cleanSweep 200000000 (fun _ ↦ rfl) (.any _) (.first (idOf 1)) _ _) .nil))
  exact ⟨t', hrun', hnode⟩

/-! ## Runs with more sweeps -/

/-- The operation brings no record, and if it is a sweep it is not later than `now`. -/
def StoreOp.QuietBy (now : Nat) : StoreOp hashNew → Prop
  | .op (.arrive ..) => False
  | .op (.prune now' _ _ _) => now' ≤ now
  | _ => True

/-- What can be released can be released later. -/
theorem releasable_mono {policy : RetentionPolicy} {now now' : Nat} {doc : List Entry}
    (hle : now ≤ now') (hh : h ∈ releasable policy now doc) : h ∈ releasable policy now' doc := by
  rw [mem_releasable] at hh ⊢
  refine ⟨hh.1, fun ⟨e, hkept, heq⟩ ↦ hh.2 ⟨e, ?_, heq⟩⟩
  obtain ⟨he, hsup, hexp⟩ := kept_iff.mp hkept
  refine kept_iff.mpr ⟨he, hsup, Bool.eq_false_iff.mpr fun hc ↦ ?_⟩
  exact absurd (RetentionPolicy.isExpired_mono hle hc) (by simp [hexp])

/-- Since `s`, references were only dropped, and only such as a sweep at `now` would drop. -/
structure Receded (now : Nat) (s t : System hashNew) : Prop where
  /-- The replicas are the same. -/
  docs : t.node.docs = s.node.docs
  /-- So is the policy. -/
  retention : t.node.retention = s.node.retention
  /-- No reference is new. -/
  tracked : ∀ ns h, t.node.content.isTrackedFor ns h = true →
    s.node.content.isTrackedFor ns h = true
  /-- What was dropped is due at `now`. -/
  dropped : ∀ ns h, s.node.content.isTrackedFor ns h = true →
    t.node.content.isTrackedFor ns h = false → t.node.registry.isKnown ns = true ∧
      h ∈ releasable s.node.retention now (s.node.docs ns)

theorem Receded.refl (now : Nat) (s : System hashNew) : Receded now s s :=
  ⟨rfl, rfl, fun _ _ ↦ id, fun _ _ ht hnot ↦ absurd ht (by simp [hnot])⟩

/-- A step that leaves the references alone. -/
theorem Receded.mono {u : System hashNew} (hs : Receded now s t)
    (hdocs : u.node.docs = t.node.docs) (hretention : u.node.retention = t.node.retention)
    (hrefs : ∀ ns h, u.node.content.isTrackedFor ns h = t.node.content.isTrackedFor ns h)
    (hknown : ∀ ns, t.node.registry.isKnown ns = true → u.node.registry.isKnown ns = true) :
    Receded now s u := by
  refine ⟨hdocs.trans hs.docs, hretention.trans hs.retention, fun ns h ht ↦ ?_,
    fun ns h ht hnot ↦ ?_⟩
  · exact hs.tracked ns h ((hrefs ns h).symm.trans ht)
  · exact (hs.dropped ns h ht ((hrefs ns h).symm.trans hnot)).imp_left (hknown ns)

/-- **Every quiet step keeps this.** -/
theorem Receded.store (hs : Receded now s t) (hquiet : o.QuietBy now) :
    Receded now s (t.store o) := by
  cases o with
  | land bytes => exact hs.mono rfl rfl (fun _ _ ↦ rfl) fun _ ↦ id
  | collect spared => exact hs.mono rfl rfl (fun _ _ ↦ rfl) fun _ ↦ id
  | op op =>
    cases op with
    | arrive => exact hquiet.elim
    | grant ns sub =>
      exact hs.mono rfl rfl (fun _ _ ↦ rfl) fun ns' hns' ↦
        NamespaceRegistry.isKnown_register.mpr (Or.inr hns')
    | settle now' order has fetch =>
      have hframe : Frame t.node (t.node.settleOnce now' order has fetch).1 := frame_settleOnce
      exact hs.mono hframe.docs hframe.retention (fun _ _ ↦ isTrackedFor_settleOnce) fun ns hns ↦
        hframe.registry ▸ hns
    | put ns expected bytes fails =>
      have hframe : Frame t.node (t.node.putContent ns expected bytes fails).1 := frame_putContent
      exact hs.mono hframe.docs hframe.retention (fun _ _ ↦ isTrackedFor_putContent) fun ns hns ↦
        hframe.registry ▸ hns
    | prune now' faulty nsOrder order =>
      have hframe : Frame t.node (t.node.pruneOnce now' faulty nsOrder order).1 := frame_pruneOnce
      obtain ⟨swept, hsub, hrel⟩ : ∃ swept ⊆ t.node.registry.knownNamespaces nsOrder, ∀ ns h,
          (t.node.pruneOnce now' faulty nsOrder order).1.content.isTrackedFor ns h = true ↔ _ := by
        obtain ⟨swept, hsub, -, hrel⟩ :=
          pruneLoop_spec (t.node.registry.knownNamespaces nsOrder) t.node 0
        exact ⟨swept, hsub, hrel⟩
      refine ⟨hframe.docs.trans hs.docs, hframe.retention.trans hs.retention,
        fun ns h ht ↦ hs.tracked ns h ((hrel ns h).mp ht).1, fun ns h ht hnot ↦ ?_⟩
      have hknown : (t.store (.op (.prune now' faulty nsOrder order))).node.registry =
        t.node.registry := hframe.registry
      rw [hknown]
      cases hmid : t.node.content.isTrackedFor ns h with
      | false => exact hs.dropped ns h ht hmid
      | true =>
        -- this sweep dropped it
        have hswept : ns ∈ swept ∧ ns ∈ t.node.handles ∧
            h ∈ releasable t.node.retention now' (t.node.docs ns) := by
          by_contra hc
          exact absurd ((hrel ns h).mpr ⟨hmid, hc⟩) (Bool.eq_false_iff.mp hnot)
        have hdue := releasable_mono hquiet hswept.2.2
        rw [hs.docs, hs.retention] at hdue
        exact ⟨NamespaceRegistry.mem_knownNamespaces.mp (hsub hswept.1), hdue⟩

/-- The granted namespaces have their handles, whatever is stored. -/
theorem handlesOpen_store (hs : HandlesOpen s.node) : HandlesOpen (s.store o).node := by
  cases o with
  | op op => exact System.handlesOpen_apply hs
  | land bytes => exact hs
  | collect spared => exact hs

theorem handlesOpen_of_boot {policy : RetentionPolicy}
    (hrun : Run System.StoreStep (System.boot hashNew policy) ops s) : HandlesOpen s.node := by
  have hboot : HandlesOpen (System.boot hashNew policy).node :=
    fun ns hns ↦ absurd hns (by simp [System.boot, StashNode.boot])
  exact hrun.invariant (I := fun s ↦ HandlesOpen s.node)
    (fun _ _ _ hs hst ↦ hst.2 ▸ handlesOpen_store hs) hboot

/-- **The last sweep decides.**  From any state of a run, let anything happen but arrivals: any
number of sweeps, failing anywhere, with registrations, passes, uploads, downloads and collections
in between.  Then comes a sweep that is not earlier than these and in which no read fails.  It
leaves the references it would have left on its own: those there were, less those it is to
release. -/
theorem last_sweep_decides {policy : RetentionPolicy} {before : List (StoreOp hashNew)}
    {u : System hashNew} (hboot : Run System.StoreStep (System.boot hashNew policy) before s)
    (hrun : Run (Guarded (fun _ o ↦ o.QuietBy now) System.StoreStep) s ops t)
    (hread : ∀ ns, faulty ns = false)
    (hlast : System.StoreStep t (.op (.prune now faulty nsOrder order)) u) (ns : NamespaceId)
    (h : ContentHash) : u.node.content.isTrackedFor ns h = true ↔
      s.node.content.isTrackedFor ns h = true ∧ ¬ (t.node.registry.isKnown ns = true ∧
        h ∈ releasable s.node.retention now (s.node.docs ns)) := by
  have hreceded : Receded now s t := hrun.invariant (I := Receded now s)
    (fun _ _ _ hs hst ↦ by
      obtain ⟨hquiet, -, rfl⟩ := hst
      exact hs.store hquiet) (.refl now s)
  have hopen : HandlesOpen t.node := hrun.of_guarded.invariant (I := fun s ↦ HandlesOpen s.node)
    (fun _ _ _ hs hst ↦ hst.2 ▸ handlesOpen_store hs) (handlesOpen_of_boot hboot)
  obtain ⟨-, rfl⟩ := hlast
  obtain ⟨n, hok⟩ : ∃ n, (t.node.pruneOnce now faulty nsOrder order).2 = .ok n := pruneOnce_ok hread
  have hsweep :
      (t.node.pruneOnce now faulty nsOrder order).1.content.isTrackedFor ns h = true ↔ _ :=
    isTrackedFor_pruneOnce hopen hok
  refine hsweep.trans ?_
  rw [hreceded.docs, hreceded.retention]
  refine and_congr_left fun hnot ↦ ⟨hreceded.tracked ns h, fun ht ↦ ?_⟩
  by_contra hgone
  exact hnot (hreceded.dropped ns h ht (Bool.eq_false_iff.mpr hgone))

/-- A sweep of `fixSystem` that fails at once, then one that does not. -/
theorem last_sweep_decides_fix :
    let failed : StoreOp sampleHash := .op (.prune 150000000 (fun _ ↦ true) (.any _) (.any _))
    let clean : StoreOp sampleHash := .op (.prune 200000000 (fun _ ↦ false) (.any _) (.any _))
    ((System.fixSystem.store failed).store clean).node.content.isTrackedFor (idOf 1) zeroHash =
      false := by
  intro failed clean
  have hfailed : System.StoreStep System.fixSystem failed (System.fixSystem.store failed) :=
    .intro trivial trivial
  have hearlier : failed.QuietBy 200000000 := by
    change 150000000 ≤ 200000000
    decide
  have hclean : System.StoreStep _ clean ((System.fixSystem.store failed).store clean) :=
    .intro trivial trivial
  have hiff := last_sweep_decides System.run_fixArrived.of_guarded
    (.cons ⟨hearlier, hfailed⟩ (.nil _)) (fun _ ↦ rfl) hclean (idOf 1) zeroHash
  have hkept : (System.fixSystem.store failed).node.registry = System.fixSystem.node.registry :=
    frame_pruneOnce.registry
  refine Bool.eq_false_iff.mpr fun ht ↦ (hiff.mp ht).2 ?_
  rw [hkept]
  decide

end TrailStash
