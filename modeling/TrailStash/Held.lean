import TrailStash.Steps

/-!
# What the index promises and what the blob store holds

Two promises are made in terms of the content index and have to be kept by the blob store.

* A client whose upload is answered with `Stored` goes to sleep on it.  The upload checks that its
  namespace references the hash, then awaits the blob store, then marks the hash present; the mark
  is silently ignored when a sweep has let go of the hash in the meantime (`exists_idle_receipt`).
  `receipt_iff` says when a receipt is good.
* A hash that is marked present is not fetched and not counted as missing.  Whoever marks it has
  been *told* a moment before that its bytes are stored, and references it by then; but a collection
  that has taken its set of live hashes earlier still deletes them (`exists_phantom`).  What such a
  set spares is referenced, so it is enough that nobody takes up a hash of the others while the
  collection runs (`held_of_undisturbed`).

Uploaded bytes are safe from the collector because uploading creates a tag.
-/

set_option autoImplicit false

namespace TrailStash

open Runs StashNode
open Pool (Alone Owes Fired)

variable {hashNew : Bytes → ContentHash} {σ σ' : Shared hashNew} {p p' : TaskPool hashNew}
  {ev : Event} {evs : List Event} {t t' : Task} {ts : List Task} {policy : RetentionPolicy}
  {ns : NamespaceId} {h : ContentHash} {bytes : Bytes} {pc : PutPc}

/-! ## Receipts -/

/-- The bytes that an upload has added. -/
def Task.added : Task → Option ContentHash
  | .put _ _ _ (.added h) => some h
  | _ => none

/-- What an upload past its check found referenced. -/
def Task.checked : Task → Option (NamespaceId × ContentHash)
  | .put ns h _ .adding => some (ns, h)
  | .put ns h _ (.added _) => some (ns, h)
  | _ => none

theorem Task.AtStart.added (ht : t.AtStart) : t.added = none :=
  ht.elim (P := fun t ↦ t.added = none) (fun _ ↦ rfl) (fun _ _ _ ↦ rfl) (fun _ ↦ rfl) rfl

theorem Task.AtStart.checked (ht : t.AtStart) : t.checked = none :=
  ht.elim (P := fun t ↦ t.checked = none) (fun _ ↦ rfl) (fun _ _ _ ↦ rfl) (fun _ ↦ rfl) rfl

/-- What a task has just added is tagged. -/
theorem Micro.added_mem_tags (hm : Micro σ t σ' t') (ht : t'.added = some h) :
    h ∈ σ'.node.blobs.tags := by
  cases hm with
  | put hstep =>
    cases hstep with
    | add =>
      obtain rfl := Option.some.inj ht
      exact Finset.mem_insert_self _ _
    | _ => exact absurd ht (by simp [Task.added])
  | _ => exact absurd ht (by simp [Task.added])

/-- **An upload's bytes are tagged** from `add_bytes` on. -/
theorem tagged_step (hs : ∀ h, Owes Task.added p h → h ∈ p.shared.node.blobs.tags)
    (hstep : PoolStep p ev p') : ∀ h, Owes Task.added p' h → h ∈ p'.shared.node.blobs.tags := by
  intro h ho
  rcases hstep.owes_cases (fun _ ↦ Task.AtStart.added) (fun _ ↦ rfl) ho with
    ho | ⟨t, t', -, hf, hd⟩
  · exact hstep.tags_subset (hs h ho)
  · exact hf.micro.added_mem_tags hd

theorem tagged_of_run (hrun : Run PoolStep (bootPool hashNew policy) evs p)
    (ho : Owes Task.added p h) : h ∈ p.shared.node.blobs.tags := by
  have hs : ∀ h, Owes Task.added p h → h ∈ p.shared.node.blobs.tags :=
    hrun.invariant (I := fun p ↦ ∀ h, Owes Task.added p h → h ∈ p.shared.node.blobs.tags)
      (fun _ _ _ hs hstep ↦ tagged_step hs hstep) fun h ⟨_, ht, _⟩ ↦ absurd ht List.not_mem_nil
  exact hs h ho

/-- No sweep lets go of what an upload past its check is about to mark. -/
def SparesUploads (p : TaskPool hashNew) : Event → Prop
  | .fire (.sweep _ (.forgetting ns (h :: _) _) _) => ¬ Owes Task.checked p (ns, h)
  | _ => True

/-- An upload passes its check only when it finds the hash referenced. -/
theorem Micro.checked_cases (hm : Micro σ t σ' t') (ht : t'.checked = some (ns, h)) :
    t.checked = some (ns, h) ∨ σ'.node.content.isTrackedFor ns h = true := by
  cases hm with
  | put hstep =>
    cases hstep with
    | checked htracked =>
      obtain ⟨rfl, rfl⟩ := Prod.mk.inj (Option.some.inj ht)
      exact Or.inr htracked
    | add => exact Or.inl ht
    | _ => exact absurd ht (by simp [Task.checked])
  | _ => exact absurd ht (by simp [Task.checked])

/-- What an upload past its check found referenced is still referenced. -/
theorem referenced_step
    (hs : ∀ ns h, Owes Task.checked p (ns, h) → p.shared.node.content.isTrackedFor ns h = true)
    (hspares : SparesUploads p ev) (hstep : PoolStep p ev p') : ∀ ns h,
    Owes Task.checked p' (ns, h) → p'.shared.node.content.isTrackedFor ns h = true := by
  intro ns h ho
  have hkeep : Owes Task.checked p (ns, h) →
      p'.shared.node.content.isTrackedFor ns h = true := by
    intro ho
    rcases hstep.references_cases with
      ⟨d, -, hiff⟩ | ⟨now, ns₀, h₀, rest, queue, n, rfl, hiff⟩ | hsame
    · exact (hiff ns h).mpr (Or.inr (hs ns h ho))
    · refine (hiff ns h).mpr ⟨hs ns h ho, ?_⟩
      rintro ⟨rfl, rfl⟩
      exact hspares ho
    · exact (hsame ns h).trans (hs ns h ho)
  rcases hstep.owes_cases (fun _ ↦ Task.AtStart.checked) (fun _ ↦ rfl) ho with
    ho | ⟨t, t', -, hf, hd⟩
  · exact hkeep ho
  · exact (hf.micro.checked_cases hd).elim (fun hd ↦ hkeep ⟨t, hf.mem, hd⟩) id

theorem referenced_of_run
    (hrun : Run (Guarded SparesUploads PoolStep) (bootPool hashNew policy) evs p)
    (ho : Owes Task.checked p (ns, h)) : p.shared.node.content.isTrackedFor ns h = true := by
  have hs : ∀ ns h, Owes Task.checked p (ns, h) →
      p.shared.node.content.isTrackedFor ns h = true :=
    hrun.invariant (I := fun p ↦ ∀ ns h, Owes Task.checked p (ns, h) →
        p.shared.node.content.isTrackedFor ns h = true)
      (fun _ _ _ hs hstep ↦ referenced_step hs hstep.1 hstep.2)
      fun _ _ ⟨_, ht, _⟩ ↦ absurd ht List.not_mem_nil
  exact hs ns h ho

/-- The namespace may read the hash, and a request for it is answered with bytes of this hash. -/
def Servable (node : StashNode hashNew) (ns : NamespaceId) (h : ContentHash) : Prop :=
  node.content.isPresentFor ns h = true ∧ ∃ b, node.contentBytes ns h = some b ∧ hashNew b = h

/-- **When a `Stored` receipt is truthful.**  In any interleaving an upload that is about to answer
`Stored` leaves its hash servable exactly when its namespace references the hash at that moment;
and it does so always if no sweep lets go of a hash while an upload of it is past its check. -/
theorem receipt_iff (hrun : Run PoolStep (bootPool hashNew policy) evs p)
    (hmem : Task.put ns h bytes pc ∈ p.tasks)
    (hret : PutStep ns h bytes p.shared pc σ' (.done (some .stored))) :
    (Servable σ'.node ns h ↔ p.shared.node.content.isTrackedFor ns h = true) ∧
      (Run (Guarded SparesUploads PoolStep) (bootPool hashNew policy) evs p →
        Servable σ'.node ns h) := by
  cases hret with
  | @mark tagHash htag =>
    subst htag
    have hiff : Servable (p.shared.node.markPresent tagHash) ns tagHash ↔
        p.shared.node.content.isTrackedFor ns tagHash = true := by
      refine ⟨fun hs ↦ (ContentIndex.isPresentFor_iff.mp hs.1).1, fun ht ↦ ?_⟩
      have hpresent :
          (p.shared.node.content.markPresent tagHash).isPresentFor ns tagHash = true := by
        refine ContentIndex.isPresentFor_iff.mpr ⟨ht, ContentIndex.isPresent_markPresent.mpr ?_⟩
        exact Or.inl ⟨rfl, ContentIndex.isTracked_of_isTrackedFor ht⟩
      have htagged : tagHash ∈ p.shared.node.blobs.tags := tagged_of_run hrun ⟨_, hmem, rfl⟩
      obtain ⟨b, hb⟩ := Option.isSome_iff_exists.mp (p.shared.node.blobs.tagged _ htagged)
      exact ⟨hpresent, b, (if_pos hpresent).trans hb, p.shared.node.blobs.addressed _ b hb⟩
    exact ⟨hiff, fun hspares ↦ hiff.mpr (referenced_of_run hspares ⟨_, hmem, rfl⟩)⟩

/-- An upload of the fix's content, past its check. -/
def fixUpload (pc : PutPc) : Task := .put (idOf 1) zeroHash [0] pc

/-- A fix is handled and its content uploaded: the receipt is truthful. -/
theorem receipt_fixUpload :
    Servable ((fixOnly.addBytes [0]).2.markPresent zeroHash) (idOf 1) zeroHash := by
  have hrun : ∃ evs, Run (Guarded SparesUploads PoolStep) (bootPool sampleHash (.fromHours 24)) evs
      ⟨idle (fixOnly.addBytes [0]).2,
        [fixUpload (.added zeroHash), .handler oldFix (.done [])]⟩ := by
    refine Run.exists_cons_guarded (.grant (idOf 1) none) trivial ?_
    refine Run.exists_cons_guarded (.arrive oldFix (fun _ ↦ false) rfl) trivial ?_
    refine exists_fire [] [] (.handler .want) trivial ?_
    refine exists_fire [] [] (.handler (.has false nofun)) trivial ?_
    refine exists_fire [] [] (.handler (.insert 1000 rfl)) trivial ?_
    refine exists_fire [] [] (.handler .skip) trivial ?_
    refine Run.exists_cons_guarded (.spawn (t := fixUpload .start) trivial) trivial ?_
    refine exists_fire [] _ (.put (.known rfl)) trivial ?_
    refine exists_fire [] _ (.put (.checked rfl rfl)) trivial ?_
    exact exists_fire [] _ (.put .add) trivial ⟨[], .nil _⟩
  obtain ⟨evs, hrun⟩ := hrun
  exact (receipt_iff hrun.of_guarded List.mem_cons_self (.mark rfl)).2 hrun

/-- **An idle receipt.**  While an upload awaits the blob store, a sweep lets go of the hash it has
checked.  The upload is answered with `Stored`, and nobody can read the bytes. -/
theorem exists_idle_receipt : ¬ ∀ (evs : List Event) (p : TaskPool sampleHash)
    (σ' : Shared sampleHash) (ns : NamespaceId) (h : ContentHash) (bytes : Bytes) (pc : PutPc),
    Run PoolStep (bootPool sampleHash (.fromHours 24)) evs p → Task.put ns h bytes pc ∈ p.tasks →
      PutStep ns h bytes p.shared pc σ' (.done (some .stored)) → Servable σ'.node ns h := by
  intro hall
  obtain ⟨_, ws, hfix⟩ := run_fixOnly
  let ts := [Task.handler oldFix (.done ws)]
  have hcheck : Alone Micro (idle fixOnly) (fixUpload .start) (idle fixOnly) (fixUpload .adding) :=
    .step (.put (.known rfl)) (.step (.put (.checked rfl rfl)) (.refl _ _))
  obtain ⟨_, hupload⟩ := run_of_alone [] ts hcheck
  have hprune : Alone Micro (idle fixOnly) (.sweep 200000000 .start 0)
      (idle (fixForgotten.untrack zeroHash)) (.sweep 200000000 (.done (.ok 1)) 1) :=
    read_alone.trans (.step forget_fixOnly (.step (.sweep (.untrack rfl))
      (.step (.sweep .leave) (.step (.sweep .finish) (.refl _ _)))))
  obtain ⟨_, hsweep⟩ := run_of_alone [] (fixUpload .adding :: ts) hprune
  have hadd : Alone Micro (idle (fixForgotten.untrack zeroHash)) (fixUpload .adding)
      (idle ((fixForgotten.untrack zeroHash).addBytes [0]).2) (fixUpload (.added zeroHash)) :=
    .step (.put .add) (.refl _ _)
  obtain ⟨_, hstore⟩ := run_of_alone [.sweep 200000000 (.done (.ok 1)) 1] ts hadd
  have hrun := hfix.append ((Run.cons (.spawn trivial) hupload).append
    ((Run.cons (.spawn rfl) hsweep).append hstore))
  have hlost : (((fixForgotten.untrack zeroHash).addBytes [0]).2.markPresent
      zeroHash).content.isPresentFor (idOf 1) zeroHash = false := by decide
  have hgood := hall _ _ _ _ _ _ _ hrun (List.mem_cons_of_mem _ List.mem_cons_self) (.mark rfl)
  exact absurd hgood.1 (hlost ▸ Bool.false_ne_true)

/-! ## Present means held -/

/-- What a task has been told is stored and is about to mark. -/
def Task.told : Task → Option ContentHash
  | .handler d (.found true) => some d.hash
  | .handler d (.inserted true _ _) => some d.hash
  | .settle _ (.found h _ true _) _ => some h
  | .settle _ (.holding h _ true _) _ => some h
  | _ => none

theorem Task.AtStart.told (ht : t.AtStart) : t.told = none :=
  ht.elim (P := fun t ↦ t.told = none) (fun _ ↦ rfl) (fun _ _ _ ↦ rfl) (fun _ ↦ rfl) rfl

/-- A task is told that bytes are stored only when they are. -/
theorem Micro.told_cases (hm : Micro σ t σ' t') (ht : t'.told = some h) :
    t.told = some h ∨ σ'.node.blobs.has h = true := by
  cases hm with
  | handler hstep =>
    cases hstep with
    | has present hhas =>
      cases present with
      | true => exact Or.inr (Option.some.inj ht ▸ hhas rfl)
      | false => exact absurd ht (by simp [Task.told])
    | @insert present now hfree =>
      cases present with
      | true => exact Or.inl ht
      | false => exact absurd ht (by simp [Task.told])
    | _ => exact absurd ht (by simp [Task.told])
  | settle hstep =>
    cases hstep with
    | has hhas => exact Or.inr (Option.some.inj ht ▸ hhas)
    | fetched bytes hbytes =>
      obtain rfl := Option.some.inj ht
      exact Or.inr (BlobStore.has_land.mpr (Or.inl hbytes.symm))
    | @lock ws h' entry present rest hfree =>
      cases present with
      | true => exact Or.inl ht
      | false => exact absurd ht (by simp [Task.told])
    | _ => exact absurd ht (by simp [Task.told])
  | _ => exact absurd ht (by simp [Task.told])

/-- Who marks a hash was told that its bytes are stored, or has uploaded them. -/
theorem Task.told_or_added_of_marks {node : StashNode hashNew} (ht : t.marks node = some h) :
    t.told = some h ∨ t.added = some h := by
  cases t with
  | handler d pc =>
    cases pc with
    | inserted present known entry =>
      cases present with
      | true => exact Or.inl ht
      | false => exact absurd ht (by simp [Task.marks])
    | _ => exact absurd ht (by simp [Task.marks])
  | settle now pc ws =>
    cases pc with
    | holding h' entry present rest =>
      cases present with
      | true =>
        rw [Task.marks, Option.ite_none_right_eq_some] at ht
        exact Or.inl ht.2
      | false => exact absurd ht (by simp [Task.marks])
    | _ => exact absurd ht (by simp [Task.marks])
  | put ns expected bytes pc =>
    cases pc with
    | added h' => exact Or.inr ht
    | _ => exact absurd ht (by simp [Task.marks])
  | _ => exact absurd ht (by simp [Task.marks])

/-- The set that a collection has taken and is about to delete. -/
def Task.deletes : Task → Option (ContentHash → Bool)
  | .gc (.marked dead) => some dead
  | _ => none

theorem Task.AtStart.deletes (ht : t.AtStart) : t.deletes = none :=
  ht.elim (P := fun t ↦ t.deletes = none) (fun _ ↦ rfl) (fun _ _ _ ↦ rfl) (fun _ ↦ rfl) rfl

/-- A collection that runs has found the blob dead, and no upload has tagged it. -/
def Condemned (p : TaskPool hashNew) (h : ContentHash) : Prop :=
  h ∉ p.shared.node.blobs.tags ∧ ∃ dead, Owes Task.deletes p dead ∧ dead h = true

/-- No handler takes up a hash while a collection runs that has found it dead; and nobody has been
told that a blob is stored, and has yet to act on it, when a collection deletes it. -/
def Undisturbed (p : TaskPool hashNew) : Event → Prop
  | .fire (.handler d .start) => ¬ Condemned p d.hash
  | .fire (.gc (.marked dead)) => ∀ h, dead h = true → h ∉ p.shared.node.blobs.tags →
    ¬ Owes Task.told p h
  | _ => True

/-- **What a collection takes is referenced by nobody**: the index protects the rest. -/
theorem Micro.deletes_cases {dead : ContentHash → Bool} (hm : Micro σ t σ' t')
    (ht : t'.deletes = some dead) (hdead : dead h = true) :
    σ'.node.content.isTracked h = false := by
  cases hm with
  | gc hstep =>
    cases hstep with
    | protect =>
      obtain rfl := Option.some.inj ht
      rw [deadBlobs, Bool.and_eq_true, Bool.not_eq_true', decide_eq_false_iff_not,
        ContentIndex.mem_referenced] at hdead
      exact Bool.eq_false_iff.mpr hdead.2
    | delete => exact absurd ht (by simp [Task.deletes])
  | _ => exact absurd ht (by simp [Task.deletes])

/-- What the index calls present and what a task has been told is stored is stored, and what is to
be deleted is referenced by nobody. -/
structure Held (p : TaskPool hashNew) : Prop where
  /-- Present means held. -/
  present : ∀ h, p.shared.node.content.isPresent h = true → p.shared.node.blobs.has h = true
  /-- The answers given are still true. -/
  told : ∀ h, Owes Task.told p h → p.shared.node.blobs.has h = true
  /-- The sets taken are still up to date. -/
  condemned : ∀ h, Condemned p h → p.shared.node.content.isTracked h = false

/-- **What was dead stays dead** until it is deleted, if no handler takes it up. -/
theorem condemned_step (hs : ∀ h, Condemned p h → p.shared.node.content.isTracked h = false)
    (hquiet : Undisturbed p ev) (hstep : PoolStep p ev p') :
    ∀ h, Condemned p' h → p'.shared.node.content.isTracked h = false := by
  rintro h ⟨htag, dead, ho, hdead⟩
  rcases hstep.owes_cases (fun _ ↦ Task.AtStart.deletes) (fun _ ↦ rfl) ho with
    ho | ⟨t, t', -, hf, hd⟩
  · have hcond : Condemned p h := ⟨fun hmem ↦ htag (hstep.tags_subset hmem), dead, ho, hdead⟩
    have hwas := ContentIndex.isTracked_eq_false.mp (hs h hcond)
    refine ContentIndex.isTracked_eq_false.mpr fun ns ↦ Bool.eq_false_iff.mpr fun ht ↦ ?_
    rcases hstep.references_cases with ⟨d, rfl, hiff⟩ | ⟨_, _, _, _, _, _, -, hiff⟩ | hsame
    · rcases (hiff ns h).mp ht with ⟨-, rfl⟩ | ht
      · exact hquiet hcond
      · exact absurd ht (by simp [hwas ns])
    · exact absurd ((hiff ns h).mp ht).1 (by simp [hwas ns])
    · exact absurd ((hsame ns h).symm.trans ht) (by simp [hwas ns])
  · exact hf.micro.deletes_cases hd hdead

/-- A blob that is present, or that somebody has been told is stored, survives every step. -/
theorem Held.has_step (hs : Held p) (hquiet : Undisturbed p ev) (hstep : PoolStep p ev p')
    (hor : p.shared.node.content.isPresent h = true ∨ Owes Task.told p h) :
    p'.shared.node.blobs.has h = true := by
  have hhas : p.shared.node.blobs.has h = true := hor.elim (hs.present h) (hs.told h)
  rcases hstep.has_of_has hhas with hhas' | ⟨dead, rfl, hdead, htag⟩
  · exact hhas'
  · rcases hor with hp | ho
    · -- what is present is referenced, and the index has protected it
      have huntracked := hs.condemned h ⟨htag, dead, ⟨_, hstep.mem_of_fire, rfl⟩, hdead⟩
      exact absurd (ContentIndex.isTracked_of_isPresent hp) (by simp [huntracked])
    · exact absurd ho (hquiet h hdead htag)

/-- **Every step keeps what is present held**, if it does not disturb a collection. -/
theorem held_step (hs : Held p)
    (htags : ∀ h, Owes Task.added p h → h ∈ p.shared.node.blobs.tags)
    (hquiet : Undisturbed p ev) (hstep : PoolStep p ev p') : Held p' := by
  have htagged : ∀ h, Owes Task.added p h → p'.shared.node.blobs.has h = true :=
    fun h ho ↦ BlobStore.has_of_mem_tags (hstep.tags_subset (htags h ho))
  refine ⟨fun h hp ↦ ?_, fun h ho ↦ ?_, condemned_step hs.condemned hquiet hstep⟩
  · rcases hstep.present_cases hp with hp | ⟨t, t', -, hf, hmarks⟩
    · exact hs.has_step hquiet hstep (Or.inl hp)
    · rcases Task.told_or_added_of_marks hmarks with hd | hd
      · exact hs.has_step hquiet hstep (Or.inr ⟨t, hf.mem, hd⟩)
      · exact htagged h ⟨t, hf.mem, hd⟩
  · rcases hstep.owes_cases (fun _ ↦ Task.AtStart.told) (fun _ ↦ rfl) ho with
      ho | ⟨t, t', -, hf, hd⟩
    · exact hs.has_step hquiet hstep (Or.inr ho)
    · rcases hf.micro.told_cases hd with hd | hhas
      · exact hs.has_step hquiet hstep (Or.inr ⟨t, hf.mem, hd⟩)
      · exact hhas

/-- **Present means held.**  In a run in which no handler takes up a hash that a running collection
has found dead, and no collection deletes a blob that a task has just been told is stored, whatever
the index calls present is stored, and at least as many blobs are counted as missing as are
referenced and not stored. -/
theorem held_of_undisturbed
    (hrun : Run (Guarded Undisturbed PoolStep) (bootPool hashNew policy) evs p) :
    (∀ h, p.shared.node.content.isPresent h = true → p.shared.node.blobs.has h = true) ∧
      (p.shared.node.content.referenced.filter fun h ↦ p.shared.node.blobs.has h = false).card ≤
        p.shared.node.content.missingCount := by
  have hs : Held p ∧ ∀ h, Owes Task.added p h → h ∈ p.shared.node.blobs.tags := by
    refine hrun.invariant
      (I := fun p ↦ Held p ∧ ∀ h, Owes Task.added p h → h ∈ p.shared.node.blobs.tags)
      (fun p ev p' hs hstep ↦ ?_) ?_
    · exact ⟨held_step hs.1 hs.2 hstep.1 hstep.2, tagged_step hs.2 hstep.2⟩
    · have hnone : ∀ {P : Task → Prop}, ¬ (bootPool hashNew policy).Any P :=
        fun ⟨_, ht, _⟩ ↦ absurd ht List.not_mem_nil
      exact ⟨⟨fun h hp ↦ absurd hp (by simp [bootPool, boot]), fun h ho ↦ (hnone ho).elim,
        fun h ⟨_, _, ho, _⟩ ↦ (hnone ho).elim⟩, fun h ho ↦ (hnone ho).elim⟩
  exact ⟨hs.1.present, ContentIndex.card_absent_le hs.1.present⟩

/-- A node whose downloader has landed the byte zero. -/
def landed : StashNode sampleHash := (boot sampleHash (.fromHours 24)).land [0]

/-- The same node after the fix that names this byte was handled. -/
def landedFix : StashNode sampleHash := (landed.register (idOf 1) none).took oldFix true 1000

/-- The same node after a collection of what was found dead before the fix arrived. -/
def collectedFix : StashNode sampleHash :=
  { landedFix with blobs := landedFix.blobs.collect (deadBlobs landed) }

theorem deadBlobs_landedFix (h : ContentHash) : deadBlobs landedFix h = false := by
  refine Bool.eq_false_iff.mpr fun hdead ↦ ?_
  obtain ⟨hhas, href⟩ := Bool.and_eq_true_iff.mp hdead
  rcases BlobStore.has_land.mp (show (landed.blobs).has h = true from hhas) with rfl | hnone
  · exact absurd href (by decide)
  · exact absurd hnone (by simp [boot])

/-- A fix whose bytes are there is handled, and then the store is collected. -/
theorem held_landedFix : (∀ h, landedFix.content.isPresent h = true →
    (landedFix.blobs.collect (deadBlobs landedFix)).has h = true) ∧
      (landedFix.content.referenced.filter fun h ↦
        (landedFix.blobs.collect (deadBlobs landedFix)).has h = false).card ≤
          landedFix.content.missingCount := by
  have hrun : ∃ evs, Run (Guarded Undisturbed PoolStep) (bootPool sampleHash (.fromHours 24)) evs
      ⟨idle { landedFix with blobs := landedFix.blobs.collect (deadBlobs landedFix) },
        [.gc .done, .handler oldFix (.done [])]⟩ := by
    refine Run.exists_cons_guarded (.land [0]) trivial ?_
    refine Run.exists_cons_guarded (.grant (idOf 1) none) trivial ?_
    refine Run.exists_cons_guarded (.arrive oldFix (fun _ ↦ false) rfl) trivial ?_
    refine exists_fire [] [] (.handler .want) (fun ⟨_, _, ⟨_, ht, hd⟩, _⟩ ↦ ?_) ?_
    · obtain rfl := List.mem_singleton.mp ht
      exact absurd hd (by simp [Task.deletes])
    refine exists_fire [] [] (.handler (.has true fun _ ↦ rfl)) trivial ?_
    refine exists_fire [] [] (.handler (.insert 1000 rfl)) trivial ?_
    refine exists_fire [] [] (.handler .mark) trivial ?_
    refine Run.exists_cons_guarded (.spawn (t := .gc .start) trivial) trivial ?_
    refine exists_fire [] _ (.gc .protect) trivial ?_
    refine exists_fire [] _ (.gc .delete) ?_ ⟨[], .nil _⟩
    exact fun h hdead ↦ absurd hdead (Bool.eq_false_iff.mp (deadBlobs_landedFix h))
  obtain ⟨evs, hrun⟩ := hrun
  exact held_of_undisturbed hrun

set_option maxRecDepth 4000 in
/-- **A phantom.**  A collection takes its live set, a fix arrives whose bytes are still there, and
its handler marks them present; then the collection deletes them. -/
theorem exists_phantom : ¬ ∀ (evs : List Event) (p : TaskPool sampleHash),
    Run PoolStep (bootPool sampleHash (.fromHours 24)) evs p →
      ∀ h, p.shared.node.content.isPresent h = true → p.shared.node.blobs.has h = true := by
  intro hall
  have hstart : Run PoolStep (bootPool sampleHash (.fromHours 24)) [.land [0], .spawn (.gc .start)]
      ⟨idle landed, [.gc .start]⟩ := .cons (.land [0]) (.cons (.spawn trivial) (.nil _))
  have hmark : Alone Micro (idle landed) (.gc .start) (idle landed)
      (.gc (.marked (deadBlobs landed))) := .step (.gc .protect) (.refl _ _)
  obtain ⟨_, hgc⟩ := run_of_alone [] [] hmark
  obtain ⟨_, ws, harrive⟩ := run_took (landed.register (idOf 1) none) oldFix true 1000
    [.gc (.marked (deadBlobs landed))] rfl fun _ ↦ rfl
  have hdelete : Alone Micro (idle landedFix) (.gc (.marked (deadBlobs landed)))
      (idle collectedFix) (.gc .done) := .step (.gc .delete) (.refl _ _)
  obtain ⟨_, hend⟩ := run_of_alone [.handler oldFix (.done ws)] [] hdelete
  have hrun := hstart.append (hgc.append (Run.cons (.grant (idOf 1) none) (harrive.append hend)))
  have hpresent : collectedFix.content.isPresent zeroHash = true := by decide
  have hgone : collectedFix.blobs.has zeroHash = false := by decide
  exact absurd (hall _ _ hrun zeroHash hpresent) (hgone ▸ Bool.false_ne_true)

end TrailStash
