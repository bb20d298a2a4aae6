import TrailStash.System

/-!
# What is referenced after a sweep

Two laws relate the references of the content index to the entries of the replicas, right after a
sweep.  The **bound** says that nothing is referenced without need: a namespace's reference is
owed to an entry the sweep kept.  The **guarantee** says the converse: an entry the sweep kept has
its reference, so it is served or counted as missing.

Neither holds of every run.  References are added per event and dropped per entry that a sweep
still sees, so the bound fails when the last record that names a referenced hash leaves the
replica in another way (`exists_unbounded_run`).  And a dropped reference does not come back, so
the guarantee fails when a record that was superseded is the newest again
(`exists_stranding_run`).  The two conditions below rule out exactly these arrivals, and under
them the laws hold over whole runs.
-/

set_option autoImplicit false

namespace TrailStash

open Runs StashNode

namespace System

variable {hashNew : Bytes → ContentHash} {node : StashNode hashNew} {s t : System hashNew}
  {op : Op hashNew} {ops : List (Op hashNew)} {policy : RetentionPolicy} {now n : Nat}
  {faulty : NamespaceId → Bool} {nsOrder : IterOrder NamespaceId} {order : IterOrder ContentHash}

/-- Some entry of the replica has the content hash `h`. -/
def Named (doc : List Entry) (h : ContentHash) : Prop := ∃ e ∈ getMany doc, e.contentHash = h

instance (doc : List Entry) (h : ContentHash) : Decidable (Named doc h) :=
  inferInstanceAs (Decidable (∃ e ∈ getMany doc, e.contentHash = h))

/-! ## The bound -/

/-- Every reference of a granted namespace is owed to an entry that is kept at `now`. -/
def RetentionBound (now : Nat) (node : StashNode hashNew) : Prop :=
  ∀ ns, node.registry.isKnown ns = true → ∀ h, node.content.isTrackedFor ns h = true →
    ∃ e, Kept node.retention now (node.docs ns) e ∧ e.contentHash = h

/-- A sweep establishes the bound exactly when no reference had lost its entries before it. -/
theorem retentionBound_pruneOnce_iff (hopen : HandlesOpen node)
    (hok : (node.pruneOnce now faulty nsOrder order).2 = .ok n) :
    RetentionBound now (node.pruneOnce now faulty nsOrder order).1 ↔
      ∀ ns, node.registry.isKnown ns = true → ∀ h, node.content.isTrackedFor ns h = true →
        Named (node.docs ns) h := by
  have hframe : Frame node (node.pruneOnce now faulty nsOrder order).1 := frame_pruneOnce
  rw [RetentionBound, hframe.registry, hframe.docs, hframe.retention]
  refine forall₂_congr fun ns hknown ↦ forall_congr' fun h ↦ ?_
  rw [isTrackedFor_pruneOnce hopen hok, mem_releasable]
  constructor
  · intro hbound ht
    by_contra hnamed
    obtain ⟨e, hkept, rfl⟩ := hbound ⟨ht, fun hc ↦ hnamed hc.2.1⟩
    exact hnamed ⟨e, (kept_iff.mp hkept).1, rfl⟩
  · rintro hnamed ⟨ht, hnot⟩
    by_contra hkept
    exact hnot ⟨hknown, hnamed ht, hkept⟩

/-- An arrival leaves every hash the namespace references, and the one it brings itself, named by
an entry of the replica. -/
def KeepsNames (s : System hashNew) : Op hashNew → Prop
  | .arrive ns e replaced _ _ _ => ∀ h,
      h = e.contentHash ∨ s.node.content.isTrackedFor ns h = true →
        Named ((s.node.replicate ns e replaced).docs ns) h
  | _ => True

/-- Every reference has an entry. -/
def AllNamed (node : StashNode hashNew) : Prop :=
  ∀ ns h, node.content.isTrackedFor ns h = true → Named (node.docs ns) h

theorem allNamed_step (hs : AllNamed s.node) (hguard : KeepsNames s op) :
    AllNamed (s.apply op).node := by
  intro ns' h ht
  rcases op.quiet_or_arrive with hop | ⟨ns, e, replaced, deliveredBy, present, now, rfl⟩
  · rw [docs_apply hop]
    exact hs ns' h (isTrackedFor_of_apply hop ht)
  · rw [docs_apply_arrive]
    rw [isTrackedFor_apply_arrive] at ht
    by_cases hns : ns' = ns
    · subst hns
      exact hguard h (ht.imp_left And.right)
    · rw [docs_replicate_of_ne hns]
      exact hs ns' h (ht.resolve_left fun hc ↦ hns hc.1)

/-- **The memory bound of retention.**  In a run whose arrivals take the last name of no
referenced hash away, every sweep that succeeds leaves only references that are owed to an entry
it kept. -/
theorem retentionBound_of_namesKept
    (hrun : Run (Guarded KeepsNames Step) (boot hashNew policy) ops s)
    (hok : (s.node.pruneOnce now faulty nsOrder order).2 = .ok n) :
    RetentionBound now (s.node.pruneOnce now faulty nsOrder order).1 := by
  have hnamed : AllNamed s.node := by
    refine hrun.invariant (I := fun s ↦ AllNamed s.node) (fun s op t hs hstep ↦ ?_) ?_
    · rw [hstep.2.2]
      exact allNamed_step hs hstep.1
    · intro ns h ht
      exact absurd ht (by simp [boot, StashNode.boot])
  rw [retentionBound_pruneOnce_iff (handlesOpen_of_run hrun.of_guarded) hok]
  exact fun ns _ h ht ↦ hnamed ns h ht

/-- An arrival that replaces nothing and has content keeps every name. -/
theorem keepsNames_of_insert {ns : NamespaceId} {e : Entry} {replaced : Entry → Bool}
    {deliveredBy : EndpointId} {present : Bool} (hs : AllNamed s.node)
    (hcontent : e.contentHash ≠ emptyHash) (hnew : ∀ e', replaced e' = false) :
    KeepsNames s (.arrive ns e replaced deliveredBy present now) := by
  have hdoc : ∀ e', e' ∈ (s.node.replicate ns e replaced).docs ns ↔
      e' = e ∨ e' ∈ s.node.docs ns := by
    intro e'
    rw [mem_docs_replicate, if_pos rfl, hnew, eq_self, and_true]
  rintro h (rfl | ht)
  · exact ⟨e, mem_getMany.mpr ⟨(hdoc e).mpr (Or.inl rfl), hcontent⟩, rfl⟩
  · obtain ⟨e', he', rfl⟩ := hs ns h ht
    obtain ⟨hmem, hne⟩ := mem_getMany.mp he'
    exact ⟨e', mem_getMany.mpr ⟨(hdoc e').mpr (Or.inr hmem), hne⟩, rfl⟩

/-- A granted namespace in which two fixes of one author arrived, the second a second later. -/
def twoFixes (hashNew : Bytes → ContentHash) : List (Op hashNew) :=
  [.grant (idOf 1) none,
    .arrive (idOf 1) ⟨fixKeyOf 1, idOf 7, 1000000⟩ (fun _ ↦ false) (idOf 9) false 1000,
    .arrive (idOf 1) ⟨fixKeyOf 2, idOf 8, 2000000⟩ (fun _ ↦ false) (idOf 9) false 2000]

theorem allNamed_dayStash : AllNamed dayStash.node :=
  fun ns h ht ↦ absurd ht (by simp [dayStash, boot, StashNode.boot])

/-- The bound after a sweep of two fixes, of which it releases the older. -/
theorem retentionBound_after_twoFixes : RetentionBound 3000
    ((dayStash.after (twoFixes _)).node.pruneOnce 3000 (fun _ ↦ false) (.any _) (.any _)).1 := by
  have hrun : Run (Guarded KeepsNames Step) dayStash (twoFixes _)
      (dayStash.after (twoFixes _)) := by
    have hgrant : AllNamed (dayStash.apply (.grant (idOf 1) none)).node :=
      allNamed_step allNamed_dayStash trivial
    refine Run.of_allAlong (P := fun s op ↦ KeepsNames s op ∧ Enabled s op)
      (fun s op h ↦ ⟨h.1, h.2, rfl⟩) ⟨⟨trivial, trivial⟩, ⟨?_, rfl⟩, ⟨?_, rfl⟩, trivial⟩
    · exact keepsNames_of_insert hgrant (by decide) fun _ ↦ rfl
    · refine keepsNames_of_insert (allNamed_step hgrant ?_) (by decide) fun _ ↦ rfl
      exact keepsNames_of_insert hgrant (by decide) fun _ ↦ rfl
  have hok : ∃ n, ((dayStash.after (twoFixes _)).node.pruneOnce 3000 (fun _ ↦ false) (.any _)
      (.any _)).2 = .ok n := pruneOnce_ok fun _ ↦ rfl
  obtain ⟨n, hn⟩ := hok
  exact retentionBound_of_namesKept hrun hn

/-- A granted namespace in which a control slot is written and then overwritten. -/
def slotOverwritten (hashNew : Bytes → ContentHash) : List (Op hashNew) :=
  [.grant (idOf 1) none,
    .arrive (idOf 1) ⟨ctlKeyOf, idOf 7, 1000000⟩ (fun _ ↦ false) (idOf 9) false 1000,
    .arrive (idOf 1) ⟨ctlKeyOf, idOf 8, 2000000⟩ (fun e ↦ e.key = ctlKeyOf) (idOf 9) false 2000]

set_option maxRecDepth 4000 in
/-- **The bound fails.**  The content of a control slot stays referenced after the slot has been
overwritten, and no sweep drops it. -/
theorem exists_unbounded_run : ¬ ∀ (ops : List (Op noHash)) (s : System noHash) (now n : Nat)
    (faulty : NamespaceId → Bool) (nsOrder : IterOrder NamespaceId)
    (order : IterOrder ContentHash), Run Step dayStash ops s →
      (s.node.pruneOnce now faulty nsOrder order).2 = .ok n →
        RetentionBound now (s.node.pruneOnce now faulty nsOrder order).1 := by
  intro hall
  have hrun : Run Step dayStash (slotOverwritten _) (dayStash.after (slotOverwritten _)) :=
    Run.of_allAlong (fun _ _ h ↦ ⟨h, rfl⟩) ⟨trivial, rfl, rfl, trivial⟩
  have hok : ∃ n, ((dayStash.after (slotOverwritten _)).node.pruneOnce 3000 (fun _ ↦ false) (.any _)
      (.any _)).2 = .ok n := pruneOnce_ok fun _ ↦ rfl
  obtain ⟨n, hn⟩ := hok
  have hnamed := (retentionBound_pruneOnce_iff (handlesOpen_of_run hrun) hn).mp
    (hall _ _ _ _ _ _ _ hrun hn) (idOf 1) (by decide) (idOf 7) (by decide)
  exact absurd hnamed (by decide)

/-! ## The guarantee -/

/-- Every entry of a granted namespace that is kept at `now` has its reference. -/
def NoneStranded (now : Nat) (node : StashNode hashNew) : Prop :=
  ∀ ns, node.registry.isKnown ns = true → ∀ e, Kept node.retention now (node.docs ns) e →
    node.content.isTrackedFor ns e.contentHash = true

/-- Sweeps do not go back in time. -/
def InOrder (s : System hashNew) : Op hashNew → Prop
  | .prune now _ _ _ => s.sweptAt ≤ now
  | _ => True

/-- An arrival uncovers no entry: one whose hash the namespace no longer references is still
superseded afterwards, unless the latest sweep already found it expired. -/
def UncoversNothing (s : System hashNew) : Op hashNew → Prop
  | .arrive ns e replaced _ _ _ =>
    ∀ e' ∈ getMany ((s.node.replicate ns e replaced).docs ns), e'.contentHash ≠ e.contentHash →
      s.node.content.isTrackedFor ns e'.contentHash = false →
        Superseded (keys ((s.node.replicate ns e replaced).docs ns)) e'.key ∨
          s.node.retention.isExpired (entryWrittenMs e') s.sweptAt = true
  | _ => True

instance (s : System hashNew) : (op : Op hashNew) → Decidable (UncoversNothing s op)
  | .arrive ns e replaced _ _ _ => inferInstanceAs (Decidable
      (∀ e' ∈ getMany ((s.node.replicate ns e replaced).docs ns), _))
  | .grant .. | .settle .. | .put .. | .prune .. => isTrue trivial

/-- Every entry has its reference, or a reason why no later sweep keeps it. -/
def AllCovered (s : System hashNew) : Prop :=
  ∀ ns, ∀ e ∈ getMany (s.node.docs ns), s.node.content.isTrackedFor ns e.contentHash = true ∨
    Superseded (keys (s.node.docs ns)) e.key ∨
      s.node.retention.isExpired (entryWrittenMs e) s.sweptAt = true

theorem allCovered_arrive {ns : NamespaceId} {e : Entry} {replaced : Entry → Bool}
    {deliveredBy : EndpointId} {present : Bool} (hs : AllCovered s)
    (hguard : UncoversNothing s (.arrive ns e replaced deliveredBy present now)) :
    AllCovered (s.apply (.arrive ns e replaced deliveredBy present now)) := by
  intro ns' e' he'
  rw [retention_apply, docs_apply_arrive, isTrackedFor_apply_arrive]
  rw [docs_apply_arrive] at he'
  by_cases hns : ns' = ns
  · subst hns
    by_cases hh : e'.contentHash = e.contentHash
    · exact Or.inl (Or.inl ⟨rfl, hh⟩)
    · cases ht : s.node.content.isTrackedFor ns' e'.contentHash with
      | true => exact Or.inl (Or.inr rfl)
      | false => exact Or.inr (hguard e' he' hh ht)
  · rw [docs_replicate_of_ne hns] at he' ⊢
    exact (hs ns' e' he').imp_left Or.inr

theorem allCovered_prune (hs : AllCovered s) (hle : s.sweptAt ≤ now) :
    AllCovered (s.apply (.prune now faulty nsOrder order)) := by
  obtain ⟨swept, -, hrel⟩ := pruneOnce_spec s.node now faulty nsOrder order
  have hframe : Frame s.node (s.node.pruneOnce now faulty nsOrder order).1 := frame_pruneOnce
  intro ns e he
  have hdocs : (s.apply (.prune now faulty nsOrder order)).node.docs = s.node.docs := hframe.docs
  rw [hdocs] at he ⊢
  rw [retention_apply]
  by_cases hkept : Kept s.node.retention now (s.node.docs ns) e
  · -- a kept entry shields its hash from the sweep
    obtain ⟨-, hsup, hexp⟩ := kept_iff.mp hkept
    rcases hs ns e he with ht | hsup' | hexp'
    · refine Or.inl ((hrel ns e.contentHash).mpr ⟨ht, fun hc ↦ ?_⟩)
      exact (mem_releasable.mp hc.2.2).2 ⟨e, hkept, rfl⟩
    · exact absurd hsup' hsup
    · exact absurd (RetentionPolicy.isExpired_mono hle hexp') (by simp [hexp])
  · rw [kept_iff, not_and] at hkept
    by_cases hsup : Superseded (keys (s.node.docs ns)) e.key
    · exact Or.inr (Or.inl hsup)
    · refine Or.inr (Or.inr ?_)
      by_contra hexp
      exact hkept he ⟨hsup, Bool.eq_false_iff.mpr hexp⟩

/-- What leaves replicas, references and clock alone keeps every entry covered. -/
theorem AllCovered.frame (hs : AllCovered s) (hframe : Frame s.node t.node)
    (hrel : ∀ ns h, t.node.content.isTrackedFor ns h = s.node.content.isTrackedFor ns h)
    (hat : t.sweptAt = s.sweptAt) : AllCovered t := by
  intro ns e he
  rw [hframe.docs] at he ⊢
  rw [hframe.retention, hrel, hat]
  exact hs ns e he

theorem allCovered_step (hs : AllCovered s) (horder : InOrder s op)
    (hguard : UncoversNothing s op) : AllCovered (s.apply op) := by
  cases op with
  | grant => exact hs
  | arrive => exact allCovered_arrive hs hguard
  | settle => exact hs.frame frame_settleOnce (fun _ _ ↦ isTrackedFor_settleOnce) rfl
  | put => exact hs.frame frame_putContent (fun _ _ ↦ isTrackedFor_putContent) rfl
  | prune => exact allCovered_prune hs horder

/-- **No sweep strands a live entry.**  In a run whose arrivals uncover nothing and whose sweeps do
not go back in time, every entry that a sweep keeps has its reference after it. -/
theorem noneStranded_of_uncoversNothing
    (hrun : Run (Guarded (fun s op ↦ InOrder s op ∧ UncoversNothing s op) Step)
      (boot hashNew policy) ops s) (hle : s.sweptAt ≤ now) :
    NoneStranded now (s.node.pruneOnce now faulty nsOrder order).1 := by
  have hinv : AllCovered s := by
    refine hrun.invariant (I := AllCovered) (fun s op t hs hstep ↦ ?_) ?_
    · rw [hstep.2.2]
      exact allCovered_step hs hstep.1.1 hstep.1.2
    · intro ns e he
      exact absurd he (by simp [boot, StashNode.boot, getMany])
  have hcovered : AllCovered (s.apply (.prune now faulty nsOrder order)) :=
    allCovered_prune hinv hle
  intro ns _ e hkept
  obtain ⟨he, hsup, hexp⟩ := kept_iff.mp hkept
  rcases hcovered ns e he with ht | hsup' | hexp'
  · exact ht
  · exact absurd hsup' hsup
  · exact absurd hexp' (Bool.eq_false_iff.mp hexp)

/-- A sweep without read faults. -/
noncomputable def sweepAt (hashNew : Bytes → ContentHash) (now : Nat) : Op hashNew :=
  .prune now (fun _ ↦ false) (.any _) (.any _)

set_option maxRecDepth 4000 in
/-- The guarantee after two fixes and two sweeps, of which the first releases the older fix. -/
theorem noneStranded_after_twoFixes : NoneStranded 4000
    ((dayStash.after (twoFixes _ ++ [sweepAt _ 3000])).node.pruneOnce 4000 (fun _ ↦ false) (.any _)
      (.any _)).1 := by
  have hrun : Run (Guarded (fun s op ↦ InOrder s op ∧ UncoversNothing s op) Step) dayStash
      (twoFixes _ ++ [sweepAt _ 3000]) (dayStash.after (twoFixes _ ++ [sweepAt _ 3000])) := by
    refine Run.of_allAlong (P := fun s op ↦ (InOrder s op ∧ UncoversNothing s op) ∧ Enabled s op)
      (fun s op h ↦ ⟨h.1, h.2, rfl⟩) ?_
    exact ⟨⟨⟨trivial, trivial⟩, trivial⟩, ⟨⟨trivial, by decide⟩, rfl⟩, ⟨⟨trivial, by decide⟩, rfl⟩,
      ⟨⟨Nat.zero_le _, trivial⟩, trivial⟩, trivial⟩
  exact noneStranded_of_uncoversNothing hrun (by decide : 3000 ≤ 4000)

/-- Two fixes, a sweep that releases the older one, and the deletion of the newer one. -/
noncomputable def newerDeleted (hashNew : Bytes → ContentHash) : List (Op hashNew) :=
  twoFixes _ ++ [sweepAt _ 3000,
    .arrive (idOf 1) ⟨fixKeyOf 2, emptyHash, 4000000⟩ (fun e ↦ e.key = fixKeyOf 2) (idOf 9) true
      4000]

set_option maxRecDepth 4000 in
/-- **The guarantee fails.**  A sweep lets go of a superseded fix; then its author deletes the
newer one.  The next sweep keeps the older fix, and nothing references its content. -/
theorem exists_stranding_run : ¬ ∀ (ops : List (Op noHash)) (s : System noHash) (now n : Nat)
    (faulty : NamespaceId → Bool) (nsOrder : IterOrder NamespaceId) (order : IterOrder ContentHash),
    Run (Guarded InOrder Step) dayStash ops s → s.sweptAt ≤ now →
      (s.node.pruneOnce now faulty nsOrder order).2 = .ok n →
        NoneStranded now (s.node.pruneOnce now faulty nsOrder order).1 := by
  intro hall
  let fixes := dayStash.after (twoFixes _)
  let swept := fixes.apply (sweepAt _ 3000)
  let deleted := dayStash.after (newerDeleted _)
  have hopen : HandlesOpen fixes.node :=
    handlesOpen_of_run (Run.of_allAlong (fun _ _ h ↦ ⟨h, rfl⟩) ⟨trivial, rfl, rfl, trivial⟩)
  have hframe : Frame fixes.node swept.node := frame_pruneOnce
  have hok : ∀ (s : System noHash) now,
      ∃ n, (s.node.pruneOnce now (fun _ ↦ false) (.any _) (.any _)).2 = .ok n :=
    fun _ _ ↦ pruneOnce_ok fun _ ↦ rfl
  have hrun : Run (Guarded InOrder Step) dayStash (newerDeleted _) deleted := by
    have hknown : swept.node.registry.isKnown (idOf 1) = true := by
      rw [hframe.registry]
      decide
    exact Run.of_allAlong (P := fun s op ↦ InOrder s op ∧ Enabled s op)
      (fun s op h ↦ ⟨h.1, h.2, rfl⟩) ⟨⟨trivial, trivial⟩, ⟨trivial, rfl⟩, ⟨trivial, rfl⟩,
        ⟨Nat.zero_le _, trivial⟩, ⟨trivial, hknown⟩, trivial⟩
  -- the first sweep drops the reference to the older fix
  have hdropped : swept.node.content.isTrackedFor (idOf 1) (idOf 7) ≠ true := by
    intro ht
    obtain ⟨n, hn⟩ := hok fixes 3000
    exact ((isTrackedFor_pruneOnce hopen hn).mp ht).2 ⟨by decide, by decide⟩
  -- the replica that the second sweep reads
  have hdocs : deleted.node.docs (idOf 1) = (fixes.node.replicate (idOf 1)
      ⟨fixKeyOf 2, emptyHash, 4000000⟩ fun e ↦ e.key = fixKeyOf 2).docs (idOf 1) := by
    have harrive : deleted.node.docs = (swept.node.replicate (idOf 1) _ _).docs := docs_apply_arrive
    rw [harrive, replicate, replicate, hframe.docs]
  have hret : deleted.node.retention = .fromHours 24 := retention_apply.trans retention_apply
  obtain ⟨n, hn⟩ := hok deleted 5000
  have hlast : Frame deleted.node (deleted.node.pruneOnce 5000 (fun _ ↦ false) (.any _)
      (.any _)).1 := frame_pruneOnce
  have hknown : (deleted.node.pruneOnce 5000 (fun _ ↦ false) (.any _)
      (.any _)).1.registry.isKnown (idOf 1) = true := by
    have harrive : deleted.node.registry = swept.node.registry := frame_onInsertRemote.registry
    rw [hlast.registry, harrive, hframe.registry]
    decide
  have htracked := hall _ deleted 5000 n _ _ _ hrun (by decide : 3000 ≤ 5000) hn (idOf 1) hknown
    ⟨fixKeyOf 1, idOf 7, 1000000⟩ (by
      rw [hlast.docs, hdocs, hlast.retention, hret]
      decide)
  have hbefore := ((isTrackedFor_pruneOnce (handlesOpen_of_run hrun.of_guarded) hn).mp htracked).1
  exact hdropped ((isTrackedFor_apply_arrive.mp hbefore).resolve_left (by decide))

end System

end TrailStash
