import TrailStash.Store

/-!
# Receipts and downloads

An upload that is answered with `Stored` is a receipt: from then on a download of the hash by the
namespace yields the uploaded bytes, until a sweep lets go of the hash, and nothing after that until
the hash is wanted again.  A download yields bytes of the hash it asks for, and only to a namespace
that references it; an upload that is not stored changes nothing.

What carries the receipt through a run is `Served`: the reference, the mark, the bytes, and the tag
that keeps them from the collector.
-/

set_option autoImplicit false

namespace TrailStash

open Runs StashNode TrailStash.System

variable {hashNew : Bytes → ContentHash} {node : StashNode hashNew} {s t u v : System hashNew}
  {o : StoreOp hashNew} {ops ops' : List (StoreOp hashNew)} {ns : NamespaceId} {h : ContentHash}
  {b : Bytes} {fails : Bool}

/-- **What a download yields.** -/
theorem contentBytes_eq_some : node.contentBytes ns h = some b ↔
    node.content.isTrackedFor ns h = true ∧ node.content.isPresent h = true ∧
      node.blobs.blob h = some b := by
  rw [contentBytes, Option.ite_none_right_eq_some, ContentIndex.isPresentFor_iff, and_assoc]

theorem contentBytes_of_untracked (hnot : node.content.isTrackedFor ns h = false) :
    node.contentBytes ns h = none := by
  refine Option.eq_none_iff_forall_ne_some.mpr fun b hb ↦ ?_
  exact absurd (contentBytes_eq_some.mp hb).1 (by simp [hnot])

/-- The namespace references the hash, whose bytes are marked present, stored and tagged. -/
structure Served (ns : NamespaceId) (h : ContentHash) (b : Bytes) (node : StashNode hashNew) :
    Prop where
  /-- The reference. -/
  tracked : node.content.isTrackedFor ns h = true
  /-- The mark. -/
  present : node.content.isPresent h = true
  /-- The bytes. -/
  blob : node.blobs.blob h = some b
  /-- The tag. -/
  tagged : h ∈ node.blobs.tags

theorem Served.contentBytes (hs : Served ns h b node) : node.contentBytes ns h = some b :=
  contentBytes_eq_some.mpr ⟨hs.tracked, hs.present, hs.blob⟩

/-- An upload that is stored is served. -/
theorem served_putContent (hstored : (node.putContent ns h b fails).2 = some .stored) :
    Served ns h b (node.putContent ns h b fails).1 := by
  rcases putContent_cases node ns h b fails with ⟨-, hnot⟩ | ⟨-, htracked, hhash, -, heq⟩
  · exact absurd hstored hnot
  · rw [heq]
    have hblob : (node.blobs.addBytes b).blob h = some b := if_pos hhash.symm
    refine ⟨htracked, ContentIndex.isPresent_markPresent.mpr (Or.inl ⟨rfl, ?_⟩), hblob, ?_⟩
    · exact ContentIndex.isTracked_of_isTrackedFor htracked
    · exact hhash ▸ Finset.mem_insert_self _ _

/-- **A step keeps what is served**, unless a sweep lets go of it, if no other bytes have its
hash. -/
theorem Served.store (hs : Served ns h b s.node) (hop : ¬ Forgets ns h s o)
    (hsame : ∀ b', o.Brings b' → hashNew b' = h → b' = b) :
    Served ns h b (s.store o).node := by
  have htracked : (s.store o).node.content.isTrackedFor ns h = true :=
    isTrackedFor_store.mpr (Or.inr ⟨hs.tracked, hop⟩)
  refine ⟨htracked, ?_, ?_, mem_tags_store.mpr (Or.inr hs.tagged)⟩
  · exact isPresent_store hs.present (ContentIndex.isTracked_of_isTrackedFor htracked)
  · rcases blob_store s o h with hblob | ⟨b', hbrings, hhash, hblob⟩ | ⟨-, -, htag⟩
    · exact hblob.trans hs.blob
    · rw [hblob, hsame b' hbrings hhash]
    · exact absurd hs.tagged htag

theorem Served.run (hs : Served ns h b s.node)
    (hrun : Run (Guarded (fun s o ↦ ¬ Forgets ns h s o) StoreStep) s ops t)
    (hsame : ∀ o ∈ ops, ∀ b', o.Brings b' → hashNew b' = h → b' = b) : Served ns h b t.node := by
  induction hrun with
  | nil => exact hs
  | cons hst _ ih =>
    obtain ⟨hop, -, rfl⟩ := hst
    refine ih (hs.store hop (hsame _ List.mem_cons_self)) fun o ho ↦ ?_
    exact hsame o (List.mem_cons_of_mem _ ho)

/-- **Receipts are kept, and downloads are scoped.**  In every state a download yields bytes of the
hash it asks for, to a namespace that references it.  An upload that is not stored changes nothing
a client can see.  After one that is stored, a download yields the uploaded bytes in every state up
to the sweep that lets go of the hash, and nothing from then until it is wanted again; provided that
no two of the byte strings involved have the same hash. -/
theorem contentBytes_along_runs (s : System hashNew) :
    (∀ ns h b, s.node.contentBytes ns h = some b →
      s.node.content.isTrackedFor ns h = true ∧ hashNew b = h) ∧
    (∀ ns h b fails, (s.node.putContent ns h b fails).2 ≠ some .stored →
      let node := (s.node.putContent ns h b fails).1
      node.content = s.node.content ∧ node.tracked = s.node.tracked ∧
        ∀ ns' h', node.contentBytes ns' h' = s.node.contentBytes ns' h') ∧
    ∀ ns h b fails ops t, (s.node.putContent ns h b fails).2 = some .stored →
      Set.InjOn hashNew {b' | b' = b ∨ ∃ o ∈ ops, o.Brings b'} →
      Run (Guarded (fun s o ↦ ¬ Forgets ns h s o) StoreStep) (s.store (.op (.put ns h b fails)))
        ops t →
      t.node.contentBytes ns h = some b ∧
      ∀ o u ops' v, Forgets ns h t o → StoreStep t o u →
        Run (Guarded (fun _ o ↦ ¬ o.Wants ns h) StoreStep) u ops' v →
          v.node.contentBytes ns h = none := by
  refine ⟨fun ns h b hb ↦ ?_, fun ns h b fails hnot ↦ ?_,
    fun ns h b fails ops t hstored hinj hrun ↦ ⟨?_, fun o u ops' v hforgets hst hrest ↦ ?_⟩⟩
  · obtain ⟨htracked, -, hblob⟩ := contentBytes_eq_some.mp hb
    exact ⟨htracked, s.node.blobs.addressed h b hblob⟩
  · rcases putContent_cases s.node ns h b fails with ⟨heq, -⟩ | ⟨-, -, -, -, heq⟩
    · rw [heq]
      exact ⟨rfl, rfl, fun _ _ ↦ rfl⟩
    · exact absurd (by rw [heq]) hnot
  · have hserved : Served ns h b (s.store (.op (.put ns h b fails))).node :=
      served_putContent hstored
    have hhash : hashNew b = h := BlobStore.addressed _ h b hserved.blob
    refine (hserved.run hrun fun o ho b' hbrings hhash' ↦ ?_).contentBytes
    exact hinj (Or.inr ⟨o, ho, hbrings⟩) (Or.inl rfl) (hhash'.trans hhash.symm)
  · obtain ⟨-, rfl⟩ := hst
    have hgone : (t.store o).node.content.isTrackedFor ns h = false := hforgets.untracked_store
    have hstay : v.node.content.isTrackedFor ns h = false :=
      hrest.invariant (I := fun s ↦ s.node.content.isTrackedFor ns h = false)
        (fun s o t hs hst ↦ by
          obtain ⟨hop, -, rfl⟩ := hst
          exact untracked_store hs hop) hgone
    exact contentBytes_of_untracked hstay

/-- A fix arrives without its bytes; they are uploaded, the downloader lands them again, and the
store is collected.  Two days later a sweep lets go of the fix, and the bytes land once more. -/
theorem contentBytes_fixUploaded :
    let t := ((fixSystem.store (.op (.put (idOf 1) zeroHash [0] false))).store (.land [0])).store
      (.collect fun _ ↦ false)
    let u := t.store (.op (.prune 200000000 (fun _ ↦ false) (.any _) (.any _)))
    t.node.contentBytes (idOf 1) zeroHash = some [0] ∧
      (u.store (.land [0])).node.contentBytes (idOf 1) zeroHash = none := by
  intro t u
  have hinj : Set.InjOn sampleHash {b' | b' = [0] ∨
      ∃ o ∈ ([.land [0], .collect fun _ ↦ false] : List (StoreOp sampleHash)), o.Brings b'} := by
    have honly : ∀ b', (b' = [0] ∨ ∃ o ∈ ([.land [0], .collect fun _ ↦ false] :
        List (StoreOp sampleHash)), o.Brings b') → b' = [0] := by
      simp [StoreOp.Brings, eq_comm]
    exact fun b₁ h₁ b₂ h₂ _ ↦ (honly b₁ h₁).trans (honly b₂ h₂).symm
  have hforgets : Forgets (idOf 1) zeroHash t
      (.op (.prune 200000000 (fun _ ↦ false) (.any _) (.any _))) := by
    refine ⟨by decide, Bool.eq_false_iff.mpr fun ht ↦ ?_⟩
    have hopen : HandlesOpen t.node := fun ns hns ↦ NamespaceRegistry.isKnown_iff.mp hns
    obtain ⟨n, hok⟩ : ∃ n, (t.node.pruneOnce 200000000 (fun _ ↦ false) (.any _) (.any _)).2 =
        .ok n := pruneOnce_ok fun _ ↦ rfl
    exact ((isTrackedFor_pruneOnce hopen hok).mp ht).2 (by decide)
  obtain ⟨hkept, hgone⟩ := (contentBytes_along_runs fixSystem).2.2 (idOf 1) zeroHash [0] false
    [.land [0], .collect fun _ ↦ false] t (by decide) hinj
    (.cons ⟨id, nofun, rfl⟩ (.cons ⟨id, nofun, rfl⟩ (.nil _)))
  exact ⟨hkept, hgone _ u [.land [0]] _ hforgets (.intro trivial trivial)
    (.cons ⟨id, nofun, rfl⟩ (.nil _))⟩

end TrailStash
