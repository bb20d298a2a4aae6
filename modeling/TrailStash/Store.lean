import TrailStash.SweepEffect
import TrailStash.Tasks

/-!
# The node and its blob store over time

`System.lean` runs the node's own operations.  Two things happen to the blob store besides: the
docs engine's downloader lands bytes whenever it likes, and collections delete blobs that are
neither protected by the content index nor tagged.  A `StoreOp` is one of these or an operation,
each as one atomic step, and in `StoreStep` the answers of the blob store are true.

What a step can do to the content of the node is in three lemmas: `isTrackedFor_store` for the
references, `isPresent_store` for the marks, and `blob_store` and `mem_tags_store` for the store.
A run of these steps is one of the interleavings of `Tasks.lean` (`exists_poolRun`).
-/

set_option autoImplicit false

namespace TrailStash

open Runs StashNode

variable {hashNew : Bytes → ContentHash}

/-- A collection: dead blobs are deleted, except for those it spares. -/
def StashNode.collect (node : StashNode hashNew) (spared : ContentHash → Bool) :
    StashNode hashNew :=
  { node with blobs := node.blobs.collect fun h ↦ deadBlobs node h && !spared h }

/-- What happens to the node and its blob store. -/
inductive StoreOp (hashNew : Bytes → ContentHash)
  /-- An operation of the node. -/
  | op (o : Op hashNew)
  /-- The docs engine's downloader succeeds. -/
  | land (bytes : Bytes)
  /-- A collection.  Of the blobs it may delete it deletes those it does not spare. -/
  | collect (spared : ContentHash → Bool)

namespace StoreOp

/-- A handler takes up a reference of the namespace to the hash. -/
def Wants (ns : NamespaceId) (h : ContentHash) : StoreOp hashNew → Prop
  | .op (.arrive ns' e _ _ _ _) => ns' = ns ∧ e.contentHash = h
  | _ => False

/-- The bytes that an operation is given: by the network or by an uploader. -/
def Brings (b : Bytes) : StoreOp hashNew → Prop
  | .op (.settle _ _ _ fetch) => ∃ h bytes, fetch h = some bytes ∧ bytes.1 = b
  | .op (.put _ _ bytes _) => bytes = b
  | .land bytes => bytes = b
  | _ => False

end StoreOp

namespace System

/-- What becomes of the system. -/
def store (s : System hashNew) : StoreOp hashNew → System hashNew
  | .op o => s.apply o
  | .land bytes => { s with node := s.node.land bytes }
  | .collect spared => { s with node := s.node.collect spared }

/-- The blob store says that it has bytes only when it does; an error counts as no. -/
def Truthful (s : System hashNew) : Op hashNew → Prop
  | .arrive _ e _ _ present _ => present = true → s.node.blobs.has e.contentHash = true
  | .settle _ _ has _ => ∀ h, has h = true → s.node.blobs.has h = true
  | _ => True

/-- One step. -/
def StoreStep (s : System hashNew) (o : StoreOp hashNew) (t : System hashNew) : Prop :=
  (∀ op, o = .op op → Enabled s op ∧ Truthful s op) ∧ t = s.store o

/-- An upload of the hash that is answered with `Stored`. -/
def Uploads (h : ContentHash) (s : System hashNew) : StoreOp hashNew → Prop
  | .op (.put ns expected bytes fails) =>
    expected = h ∧ (s.node.putContent ns expected bytes fails).2 = some .stored
  | _ => False

/-- A sweep that drops the reference of the namespace to the hash. -/
def Forgets (ns : NamespaceId) (h : ContentHash) (s : System hashNew) : StoreOp hashNew → Prop
  | .op (.prune now faulty nsOrder order) => s.node.content.isTrackedFor ns h = true ∧
    (s.node.pruneOnce now faulty nsOrder order).1.content.isTrackedFor ns h = false
  | _ => False

variable {s t : System hashNew} {o : StoreOp hashNew} {op : Op hashNew} {ns : NamespaceId}
  {h : ContentHash} {b : Bytes} {policy : RetentionPolicy}

/-- An operation takes a step if it may and if the blob store answers it truthfully. -/
theorem StoreStep.intro (henabled : Enabled s op) (htrue : Truthful s op) :
    StoreStep s (.op op) (s.store (.op op)) := by
  refine ⟨fun op' hop ↦ ?_, rfl⟩
  obtain rfl := StoreOp.op.inj hop
  exact ⟨henabled, htrue⟩

/-! ## The references and the marks -/

/-- Handlers add references, and sweeps drop them. -/
theorem isTrackedFor_store : (s.store o).node.content.isTrackedFor ns h = true ↔
    o.Wants ns h ∨ (s.node.content.isTrackedFor ns h = true ∧ ¬ Forgets ns h s o) := by
  cases o with
  | land bytes => simp [store, StoreOp.Wants, Forgets, StashNode.land]
  | collect spared => simp [store, StoreOp.Wants, Forgets, StashNode.collect]
  | op o =>
    cases o with
    | grant ns' sub => simp [store, apply, StoreOp.Wants, Forgets, StashNode.register]
    | arrive ns' e replaced deliveredBy present now =>
      rw [store, isTrackedFor_apply_arrive]
      simp only [StoreOp.Wants, Forgets, not_false_iff, and_true]
      exact or_congr_left (and_congr eq_comm eq_comm)
    | settle now order has fetch =>
      simp [store, apply, advance, StoreOp.Wants, Forgets, isTrackedFor_settleOnce]
    | put ns' expected bytes fails =>
      simp [store, apply, StoreOp.Wants, Forgets, isTrackedFor_putContent]
    | prune now faulty nsOrder order =>
      obtain ⟨swept, -, hrel⟩ := pruneOnce_spec s.node now faulty nsOrder order
      have hsub := fun ht ↦ ((hrel ns h).mp ht).1
      simp only [store, apply, StoreOp.Wants, Forgets, false_or, not_and, Bool.not_eq_false]
      exact ⟨fun ht ↦ ⟨hsub ht, fun _ ↦ ht⟩, fun hc ↦ hc.2 hc.1⟩

/-- What is not referenced stays so until it is wanted. -/
theorem untracked_store (hnot : s.node.content.isTrackedFor ns h = false) (hop : ¬ o.Wants ns h) :
    (s.store o).node.content.isTrackedFor ns h = false := by
  refine Bool.eq_false_iff.mpr fun ht ↦ ?_
  rcases isTrackedFor_store.mp ht with hw | ⟨ht, -⟩
  · exact hop hw
  · exact absurd ht (by simp [hnot])

/-- What a sweep has let go of is not referenced. -/
theorem Forgets.untracked_store (hforgets : Forgets ns h s o) :
    (s.store o).node.content.isTrackedFor ns h = false := by
  cases o with
  | op o =>
    cases o with
    | prune => exact hforgets.2
    | _ => exact hforgets.elim
  | _ => exact hforgets.elim

end System

/-- A pass loses no mark. -/
theorem StashNode.isPresent_settleLoop {node : StashNode hashNew} {now : Nat}
    {has : ContentHash → Bool} {fetch : ∀ h, Option {bytes // hashNew bytes = h}}
    {l : List (ContentHash × TrackedEntry)} {h : ContentHash}
    (hp : node.content.isPresent h = true) :
    (settleLoop now has fetch l node).1.content.isPresent h = true := by
  induction l generalizing node with
  | nil => exact hp
  | cons p rest ih =>
    rw [settleLoop_cons]
    refine ih ?_
    obtain ⟨node', hnode', heq⟩ := settleVisit_eq node now has fetch p.1 p.2
    have hp' : node'.content.isPresent h = true := by
      rcases hnode' with rfl | ⟨bytes, rfl⟩ <;> exact hp
    rw [heq]
    exact isPresent_writeBack_of_isPresent hp'

namespace System

variable {s t : System hashNew} {o : StoreOp hashNew} {op : Op hashNew} {ns : NamespaceId}
  {h : ContentHash} {b : Bytes} {policy : RetentionPolicy}

/-- A mark stays as long as the hash is referenced. -/
theorem isPresent_store (hp : s.node.content.isPresent h = true)
    (ht : (s.store o).node.content.isTracked h = true) :
    (s.store o).node.content.isPresent h = true := by
  cases o with
  | land bytes => exact hp
  | collect spared => exact hp
  | op o =>
    cases o with
    | grant ns sub => exact hp
    | arrive ns e replaced deliveredBy present now =>
      have hwant : (s.node.content.want ns e.contentHash).isPresent h = true := by
        rwa [ContentIndex.isPresent_want]
      cases present with
      | false => exact hwant
      | true => exact ContentIndex.isPresent_markPresent.mpr (Or.inr hwant)
    | settle now order has fetch => exact isPresent_settleLoop hp
    | put ns expected bytes fails =>
      rcases putContent_cases s.node ns expected bytes fails with ⟨heq, -⟩ | ⟨-, -, -, -, heq⟩
      · rw [store, apply, heq]
        exact hp
      · rw [store, apply, heq]
        exact ContentIndex.isPresent_markPresent.mpr (Or.inr hp)
    | prune now faulty nsOrder order =>
      obtain ⟨k, hsheds⟩ := sheds_pruneOnce s.node now faulty nsOrder order
      exact (hsheds.present h).mpr ⟨hp, ht⟩

end System

/-! ## The blob store -/

namespace StashNode

variable {node : StashNode hashNew} {now : Nat} {has : ContentHash → Bool}
  {fetch : ∀ h, Option {bytes // hashNew bytes = h}} {l : List (ContentHash × TrackedEntry)}
  {h h' : ContentHash} {entry : TrackedEntry}

/-- A visit stores what it has fetched, and nothing else. -/
theorem blobs_settleVisit (node : StashNode hashNew) (now : Nat) (has : ContentHash → Bool)
    (fetch : ∀ h, Option {bytes // hashNew bytes = h}) (h : ContentHash) (entry : TrackedEntry) :
    (node.settleVisit now has fetch h entry).1.blobs = node.blobs ∨
    ∃ bytes, fetch h = some bytes ∧
      (node.settleVisit now has fetch h entry).1.blobs = node.blobs.land bytes.1 := by
  rw [settleVisit]
  split
  · exact Or.inl blobs_writeBack
  · split
    · cases hfetch : fetch h with
      | none => exact Or.inl blobs_writeBack
      | some bytes => exact Or.inr ⟨bytes, rfl, blobs_writeBack⟩
    · exact Or.inl blobs_writeBack

theorem tags_settleLoop : (settleLoop now has fetch l node).1.blobs.tags = node.blobs.tags := by
  induction l generalizing node with
  | nil => rfl
  | cons p rest ih =>
    rw [settleLoop_cons]
    refine ih.trans ?_
    rcases blobs_settleVisit node now has fetch p.1 p.2 with heq | ⟨bytes, -, heq⟩
    · rw [heq]
    · rw [heq]
      rfl

theorem blob_settleLoop (l : List (ContentHash × TrackedEntry)) (node : StashNode hashNew) :
    (settleLoop now has fetch l node).1.blobs.blob h = node.blobs.blob h ∨
    ∃ bytes, fetch h = some bytes ∧
      (settleLoop now has fetch l node).1.blobs.blob h = some bytes.1 := by
  induction l generalizing node with
  | nil => exact Or.inl rfl
  | cons p rest ih =>
    rw [settleLoop_cons]
    rcases ih (node.settleVisit now has fetch p.1 p.2).1 with hrest | hrest
    · rw [hrest]
      rcases blobs_settleVisit node now has fetch p.1 p.2 with heq | ⟨bytes, hbytes, heq⟩
      · exact Or.inl (by rw [heq])
      · rw [heq, BlobStore.land]
        dsimp only
        split
        · next hh =>
          obtain rfl : h = p.1 := hh.trans bytes.2
          exact Or.inr ⟨bytes, hbytes, rfl⟩
        · exact Or.inl rfl
    · exact Or.inr hrest

theorem blobs_onInsertRemote {ns : NamespaceId} {e : Entry} {deliveredBy : EndpointId}
    {present : Bool} : (node.onInsertRemote ns e deliveredBy present now).1.blobs = node.blobs := by
  cases present <;> rfl

end StashNode

namespace System

variable {s t : System hashNew} {o : StoreOp hashNew} {op : Op hashNew}
  {ops : List (StoreOp hashNew)} {ns : NamespaceId} {h : ContentHash} {b : Bytes}
  {policy : RetentionPolicy}

/-- **What becomes of the bytes of a hash**: they stay, or are brought, or are collected, and then
the hash was neither referenced nor tagged. -/
theorem blob_store (s : System hashNew) (o : StoreOp hashNew) (h : ContentHash) :
    (s.store o).node.blobs.blob h = s.node.blobs.blob h ∨
    (∃ b, o.Brings b ∧ hashNew b = h ∧ (s.store o).node.blobs.blob h = some b) ∨
    (∃ spared, o = .collect spared) ∧ s.node.content.isTracked h = false ∧
      h ∉ s.node.blobs.tags := by
  have hland : ∀ (blobs : BlobStore hashNew) (bytes : Bytes),
      (blobs.land bytes).blob h = blobs.blob h ∨
        (hashNew bytes = h ∧ (blobs.land bytes).blob h = some bytes) := by
    intro blobs bytes
    rw [BlobStore.land]
    dsimp only
    split
    · next hh => exact Or.inr ⟨hh.symm, rfl⟩
    · exact Or.inl rfl
  cases o with
  | land bytes =>
    exact (hland s.node.blobs bytes).imp_right fun hb ↦ Or.inl ⟨bytes, rfl, hb⟩
  | collect spared =>
    rw [store, StashNode.collect, BlobStore.collect]
    dsimp only
    split
    · next hdead =>
      simp only [deadBlobs, Bool.and_eq_true, Bool.not_eq_true', decide_eq_false_iff_not,
        ContentIndex.mem_referenced, Bool.not_eq_true] at hdead
      exact Or.inr (Or.inr ⟨⟨spared, rfl⟩, hdead.1.1.2, hdead.2⟩)
    · exact Or.inl rfl
  | op o =>
    cases o with
    | grant ns sub => exact Or.inl rfl
    | arrive ns e replaced deliveredBy present now =>
      exact Or.inl (by rw [store, apply, advance, blobs_onInsertRemote]; rfl)
    | settle now order has fetch =>
      rcases blob_settleLoop _ s.node with heq | ⟨bytes, hbytes, heq⟩
      · exact Or.inl heq
      · exact Or.inr (Or.inl ⟨bytes.1, ⟨h, bytes, hbytes, rfl⟩, bytes.2, heq⟩)
    | put ns expected bytes fails =>
      rcases putContent_cases s.node ns expected bytes fails with ⟨heq, -⟩ | ⟨-, -, -, -, heq⟩
      · exact Or.inl (by rw [store, apply, heq])
      · rw [store, apply, heq]
        exact (hland s.node.blobs bytes).imp_right fun hb ↦ Or.inl ⟨bytes, rfl, hb⟩
    | prune now faulty nsOrder order =>
      obtain ⟨k, hsheds⟩ := sheds_pruneOnce s.node now faulty nsOrder order
      exact Or.inl (by rw [store, apply, hsheds.blobs])

/-- **Tags are made by uploads, and are for good.** -/
theorem mem_tags_store : h ∈ (s.store o).node.blobs.tags ↔
    Uploads h s o ∨ h ∈ s.node.blobs.tags := by
  cases o with
  | land bytes => exact (or_iff_right id).symm
  | collect spared => exact (or_iff_right id).symm
  | op o =>
    cases o with
    | grant ns sub => exact (or_iff_right id).symm
    | arrive ns e replaced deliveredBy present now =>
      rw [store, apply, advance, blobs_onInsertRemote]
      exact (or_iff_right id).symm
    | settle now order has fetch =>
      rw [store, apply, advance, settleOnce, tags_settleLoop]
      exact (or_iff_right id).symm
    | put ns expected bytes fails =>
      rcases putContent_cases s.node ns expected bytes fails with
        ⟨heq, hnot⟩ | ⟨-, -, hhash, -, heq⟩
      · rw [store, apply, heq]
        exact (or_iff_right fun hup ↦ hnot hup.2).symm
      · rw [store, apply, Uploads, heq]
        refine Finset.mem_insert.trans (or_congr_left ?_)
        rw [hhash, eq_comm]
        exact (and_iff_left rfl).symm
    | prune now faulty nsOrder order =>
      obtain ⟨k, hsheds⟩ := sheds_pruneOnce s.node now faulty nsOrder order
      rw [store, apply, hsheds.blobs]
      exact (or_iff_right id).symm

/-- A collection that spares nothing leaves the blobs that are referenced or tagged. -/
theorem has_collect : (s.store (.collect fun _ ↦ false)).node.blobs.has h = true ↔
    s.node.blobs.has h = true ∧ (s.node.content.isTracked h = true ∨ h ∈ s.node.blobs.tags) := by
  refine BlobStore.has_collect.trans (and_congr_right fun hhas ↦ ?_)
  simp only [deadBlobs, hhas, ContentIndex.mem_referenced, Bool.true_and, Bool.not_false,
    Bool.and_true, Bool.not_eq_true', decide_eq_false_iff_not, not_and, not_not]
  exact (Decidable.or_iff_not_imp_left).symm

/-! ## A run of steps is an interleaving -/

/-- **The collection.**  Run alone, the collector's task spares nothing. -/
theorem collect_alone (node : StashNode hashNew) : Pool.Alone Micro (idle node) (.gc .start)
    (idle (node.collect fun _ ↦ false)) (.gc .done) := by
  have heq : node.collect (fun _ ↦ false) =
      { node with blobs := node.blobs.collect (deadBlobs node) } := by
    simp [StashNode.collect]
  rw [heq]
  exact .step (.gc .protect) (.step (.gc .delete) (.refl _ _))

/-- A step, taken by one task of a pool from its start to its end or by the environment. -/
theorem exists_poolStep (ts : List Task) (hfull : ∀ spared, o = .collect spared →
    spared = fun _ ↦ false) (hstep : StoreStep s o t) :
    ∃ evs ts', Run PoolStep ⟨idle s.node, ts⟩ evs ⟨idle t.node, ts'⟩ := by
  obtain ⟨hallowed, rfl⟩ := hstep
  have hspawn : ∀ {node node' : StashNode hashNew} {t t' : Task},
      Pool.Alone Micro (idle node) t (idle node') t' → t.AtStart →
        ∃ evs ts', Run PoolStep ⟨idle node, ts⟩ evs ⟨idle node', ts'⟩ := by
    intro node node' t t' halone ht
    obtain ⟨evs, h⟩ := run_of_alone [] ts halone
    exact ⟨_, _, .cons (.spawn ht) h⟩
  cases o with
  | land bytes => exact ⟨_, _, .cons (.land bytes) (.nil _)⟩
  | collect spared =>
    obtain rfl := hfull spared rfl
    exact hspawn (collect_alone s.node) trivial
  | op o =>
    obtain ⟨henabled, htrue⟩ := hallowed o rfl
    cases o with
    | grant ns sub => exact ⟨_, _, .cons (.grant ns sub) (.nil _)⟩
    | arrive ns e replaced deliveredBy present now =>
      have htrue' : present = true →
          (s.node.replicate ns e replaced).blobs.has e.contentHash = true := htrue
      obtain ⟨evs, h⟩ := run_of_alone [] ts
        (handler_alone ⟨ns, e, deliveredBy⟩ present now htrue')
      exact ⟨_, _, .cons (.arrive ⟨ns, e, deliveredBy⟩ replaced henabled) h⟩
    | settle now order has fetch => exact hspawn (settle_alone now order has fetch htrue) rfl
    | put ns expected bytes fails => exact hspawn (put_alone ns expected bytes fails) trivial
    | prune now faulty nsOrder order =>
      obtain ⟨n, halone⟩ := @sweep_alone _ s.node now faulty nsOrder order
      exact hspawn halone rfl

/-- **A run of atomic operations is one of the interleavings.** -/
theorem exists_poolRun (ts : List Task) (hrun : Run (Guarded (fun _ o ↦ ∀ spared,
    o = .collect spared → spared = fun _ ↦ false) StoreStep) s ops t) :
    ∃ evs ts', Run PoolStep ⟨idle s.node, ts⟩ evs ⟨idle t.node, ts'⟩ := by
  induction hrun generalizing ts with
  | nil s => exact ⟨[], ts, .nil _⟩
  | cons hst _ ih =>
    obtain ⟨evs, ts', hfirst⟩ := exists_poolStep ts hst.1 hst.2
    obtain ⟨evs', ts'', hrest⟩ := ih ts'
    exact ⟨evs ++ evs', ts'', hfirst.append hrest⟩

/-! ## A run on fixed inputs -/

/-- A namespace is granted, and `oldFix` arrives without its bytes. -/
def fixArrived : List (StoreOp sampleHash) :=
  [.op (.grant (idOf 1) none),
    .op (.arrive (idOf 1) oldFix.entry (fun _ ↦ false) oldFix.deliveredBy false 1000)]

/-- The system after `fixArrived`. -/
def fixSystem : System sampleHash := ⟨fixOnly, [], 0⟩

theorem run_fixArrived : Run (Guarded (fun s o ↦ ¬ Uploads zeroHash s o) StoreStep)
    (boot sampleHash (.fromHours 24)) fixArrived fixSystem := by
  have hgrant : StoreStep (boot sampleHash (.fromHours 24)) (.op (.grant (idOf 1) none)) _ :=
    .intro trivial trivial
  exact .cons ⟨id, hgrant⟩ (.cons ⟨id, .intro rfl nofun⟩ (.nil _))

end System

end TrailStash
