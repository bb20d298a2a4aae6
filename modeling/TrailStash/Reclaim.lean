import TrailStash.Store

/-!
# What a collection reclaims

Once the last reference to a hash is gone the next collection should free its bytes.  It does, if
they were downloaded.  Uploading creates a tag, nothing ever removes one, and the collector keeps
what is tagged: `reclaimed_iff` says that the bytes of a released hash are freed exactly if no
upload of them was ever answered with `Stored`.
-/

set_option autoImplicit false

namespace TrailStash

open Runs StashNode TrailStash.System

variable {hashNew : Bytes → ContentHash} {policy : RetentionPolicy} {s t u : System hashNew}
  {o : StoreOp hashNew} {before after : List (StoreOp hashNew)} {h : ContentHash}

/-- An upload of a hash that nobody references is refused. -/
theorem not_uploads (hnot : s.node.content.isTracked h = false) : ¬ Uploads h s o := by
  intro hup
  cases o with
  | op o =>
    cases o with
    | put ns expected bytes fails =>
      obtain ⟨rfl, hstored⟩ := hup
      rcases putContent_cases s.node ns expected bytes fails with
        ⟨-, hnot'⟩ | ⟨-, htracked, -⟩
      · exact hnot' hstored
      · exact absurd htracked (by simp [ContentIndex.isTracked_eq_false.mp hnot ns])
    | _ => exact hup
  | _ => exact hup

/-- What nobody references stays so until it is wanted, and gets no tag. -/
theorem untouched_of_run (hnot : s.node.content.isTracked h = false)
    (hrun : Run (Guarded (fun _ o ↦ ∀ ns, ¬ o.Wants ns h) StoreStep) s after t) :
    t.node.content.isTracked h = false ∧
      (h ∈ t.node.blobs.tags ↔ h ∈ s.node.blobs.tags) := by
  induction hrun with
  | nil => exact ⟨hnot, Iff.rfl⟩
  | @cons s t u o after hst _ ih =>
    obtain ⟨hop, -, rfl⟩ := hst
    have hnot' : (s.store o).node.content.isTracked h = false :=
      ContentIndex.isTracked_eq_false.mpr fun ns ↦
        untracked_store (ContentIndex.isTracked_eq_false.mp hnot ns) (hop ns)
    obtain ⟨huntracked, htags⟩ := ih hnot'
    refine ⟨huntracked, htags.trans ?_⟩
    exact mem_tags_store.trans (or_iff_right (not_uploads hnot))

/-- **When released ciphertext is reclaimed.**  After any run a sweep drops the last reference to a
hash, and no later step wants it again.  A collection then leaves the blob store without its bytes,
if and only if no upload of it was ever stored. -/
theorem reclaimed_iff (hrun : Run StoreStep (boot hashNew policy) before s) {now : Nat}
    {faulty : NamespaceId → Bool} {nsOrder : IterOrder NamespaceId} {order : IterOrder ContentHash}
    (hprune : StoreStep s (.op (.prune now faulty nsOrder order)) t)
    (hlast : s.node.content.isTracked h = true ∧ t.node.content.isTracked h = false)
    (hafter : Run (Guarded (fun _ o ↦ ∀ ns, ¬ o.Wants ns h) StoreStep) t after u) :
    (u.store (.collect fun _ ↦ false)).node.blobs.has h = false ↔
      Run (Guarded (fun s o ↦ ¬ Uploads h s o) StoreStep) (boot hashNew policy) before s := by
  obtain ⟨huntracked, htags⟩ := untouched_of_run hlast.2 hafter
  have hswept : h ∈ t.node.blobs.tags ↔ h ∈ s.node.blobs.tags := by
    rw [hprune.2]
    exact mem_tags_store.trans (or_iff_right id)
  have hcollected : (u.store (.collect fun _ ↦ false)).node.blobs.has h = false ↔
      h ∉ s.node.blobs.tags := by
    rw [Bool.eq_false_iff, Ne, has_collect, huntracked, ← hswept, ← htags]
    refine not_congr ⟨fun hc ↦ hc.2.resolve_left (by simp), fun htag ↦ ⟨?_, Or.inr htag⟩⟩
    exact BlobStore.has_of_mem_tags htag
  rw [hcollected, hrun.not_iff_guarded (q := fun s ↦ h ∈ s.node.blobs.tags)
    fun _ _ _ hst ↦ hst.2 ▸ mem_tags_store]
  exact and_iff_right (Finset.notMem_empty h)

/-! ## Downloaded and uploaded -/

/-- A sweep two days after `oldFix` arrived. -/
noncomputable def lateSweep : StoreOp sampleHash :=
  .op (.prune 200000000 (fun _ ↦ false) (.any _) (.any _))

/-- Whatever happened to the bytes of the fix, the sweep drops the only reference to them. -/
theorem isTracked_lateSweep {s : System sampleHash} (hframe : Frame fixOnly s.node)
    (hrefs : ∀ ns h, s.node.content.isTrackedFor ns h = fixOnly.content.isTrackedFor ns h) :
    (s.store lateSweep).node.content.isTracked zeroHash = false := by
  have hopen : HandlesOpen s.node := fun ns hns ↦ by
    rw [hframe.registry] at hns
    rw [hframe.handles]
    exact NamespaceRegistry.isKnown_iff.mp hns
  obtain ⟨n, hok⟩ : ∃ n, (s.node.pruneOnce 200000000 (fun _ ↦ false) (.any _) (.any _)).2 = .ok n :=
    pruneOnce_ok fun _ ↦ rfl
  refine ContentIndex.isTracked_eq_false.mpr fun ns ↦ Bool.eq_false_iff.mpr fun ht ↦ ?_
  obtain ⟨hwas, hnot⟩ := (isTrackedFor_pruneOnce hopen hok).mp ht
  rw [hrefs] at hwas
  obtain ⟨rfl, -⟩ : ns = idOf 1 ∧ zeroHash = oldFix.hash := by
    rcases isTrackedFor_onInsertRemote.mp hwas with hns | hnone
    · exact hns
    · exact absurd hnone (by simp [StashNode.replicate, StashNode.register, StashNode.boot])
  rw [hframe.registry, hframe.retention, hframe.docs] at hnot
  exact hnot (by decide)

/-- Bytes that the downloader has landed are gone after the sweep and a collection. -/
theorem reclaimed_downloaded : (((fixSystem.store (.land [0])).store lateSweep).store
    (.collect fun _ ↦ false)).node.blobs.has zeroHash = false := by
  have hrun : Run (Guarded (fun s o ↦ ¬ Uploads zeroHash s o) StoreStep)
      (boot sampleHash (.fromHours 24)) (fixArrived ++ [.land [0]])
      (fixSystem.store (.land [0])) := run_fixArrived.snoc ⟨id, nofun, rfl⟩
  have hprune : StoreStep (fixSystem.store (.land [0])) lateSweep
      ((fixSystem.store (.land [0])).store lateSweep) := .intro trivial trivial
  exact (reclaimed_iff hrun.of_guarded hprune
    ⟨by decide, isTracked_lateSweep ⟨rfl, rfl, rfl, rfl⟩ fun _ _ ↦ rfl⟩ (.nil _)).mpr hrun

/-- **Uploaded bytes are kept for ever.** -/
theorem exists_unreclaimed : ¬ ∀ (before after : List (StoreOp sampleHash))
    (s t u : System sampleHash) (now : Nat) (faulty : NamespaceId → Bool)
    (nsOrder : IterOrder NamespaceId) (order : IterOrder ContentHash) (h : ContentHash),
    Run StoreStep (boot sampleHash (.fromHours 24)) before s →
    StoreStep s (.op (.prune now faulty nsOrder order)) t →
    s.node.content.isTracked h = true ∧ t.node.content.isTracked h = false →
    Run (Guarded (fun s o ↦ (∀ ns, ¬ o.Wants ns h) ∧ ¬ Uploads h s o) StoreStep) t after u →
      (u.store (.collect fun _ ↦ false)).node.blobs.has h = false := by
  intro hall
  let upload : StoreOp sampleHash := .op (.put (idOf 1) zeroHash [0] false)
  have hrun : Run StoreStep (boot sampleHash (.fromHours 24)) (fixArrived ++ [upload])
      (fixSystem.store upload) := run_fixArrived.of_guarded.snoc (.intro trivial trivial)
  have hprune : StoreStep (fixSystem.store upload) lateSweep
      ((fixSystem.store upload).store lateSweep) := .intro trivial trivial
  have hgone := isTracked_lateSweep (s := fixSystem.store upload) frame_putContent
    fun _ _ ↦ isTrackedFor_putContent
  have hfreed := hall _ [] _ _ _ _ _ _ _ zeroHash hrun hprune ⟨by decide, hgone⟩ (.nil _)
  -- the upload has tagged the bytes
  have htag : zeroHash ∈ ((fixSystem.store upload).store lateSweep).node.blobs.tags :=
    mem_tags_store.mpr (Or.inr (mem_tags_store.mpr (Or.inl ⟨rfl, by decide⟩)))
  have hhas : (((fixSystem.store upload).store lateSweep).store
      (.collect fun _ ↦ false)).node.blobs.has zeroHash = true :=
    has_collect.mpr ⟨BlobStore.has_of_mem_tags htag, Or.inr htag⟩
  exact absurd hfreed (by rw [hhas]; simp)

end TrailStash
