import TrailStash.Held

/-!
# Downloads and uploads while others are at work

`content_bytes` asks the index under its lock and reads the blob store afterwards, and in between
anybody may take steps: handlers, passes, uploads, sweeps, collections.  `contentBytesAcross` is a
download in such an interleaving.

What the index says of a reference, at any moment, is what has happened to it so far: a handler has
taken it up, and no sweep has let go of it since (`isTrackedFor_iff_since`).  And a handler runs
only for a record that has arrived, which a record does only in a namespace that was granted before.
So a download yields something only for whom opted in, and what it yields has the hash that was
asked for; it misses bytes that were there only if a collection has deleted them
(`download_opted_in`).  Nor can the stash be filled by whom it pleases: an upload stores its bytes
only if they are the content of a record that its namespace had heard of when the upload was checked
(`upload_heard`).
-/

set_option autoImplicit false

namespace TrailStash

open Runs StashNode
open Pool (Alone Fired Owes)

variable {hashNew : Bytes → ContentHash} {σ σ' : Shared hashNew} {t t' : Task}
  {p p' q : TaskPool hashNew} {ev : Event} {evs evs' : List Event} {ns : NamespaceId}
  {h : ContentHash} {d : Delivery} {policy : RetentionPolicy}

/-- `content_bytes` that asks the index of one node and reads the blob store of another, later
one. -/
def StashNode.contentBytesAcross (asked read : StashNode hashNew) (ns : NamespaceId)
    (h : ContentHash) : Option Bytes :=
  if asked.content.isPresentFor ns h then read.blobs.blob h else none

/-- A download that nobody interrupts. -/
theorem StashNode.contentBytesAcross_self (node : StashNode hashNew) (ns : NamespaceId)
    (h : ContentHash) : node.contentBytesAcross node ns h = node.contentBytes ns h := rfl

/-! ## The history of a reference -/

/-- A handler calls `want`. -/
def Event.TakesUp (ns : NamespaceId) (h : ContentHash) : Event → Prop
  | .fire (.handler d .start) => d.ns = ns ∧ d.hash = h
  | _ => False

/-- A sweep calls `forget`. -/
def Event.LetsGo (ns : NamespaceId) (h : ContentHash) : Event → Prop
  | .fire (.sweep _ (.forgetting ns' (h' :: _) _) _) => ns' = ns ∧ h' = h
  | _ => False

theorem Event.TakesUp.exists_handler (hev : ev.TakesUp ns h) :
    ∃ d, ev = .fire (.handler d .start) ∧ d.ns = ns ∧ d.hash = h := by
  cases ev with
  | fire t =>
    cases t with
    | handler d pc =>
      cases pc with
      | start => exact ⟨d, rfl, hev⟩
      | _ => exact hev.elim
    | _ => exact hev.elim
  | _ => exact hev.elim

theorem Micro.isTrackedFor_iff (hm : Micro σ t σ' t') :
    σ'.node.content.isTrackedFor ns h = true ↔ (Event.fire t).TakesUp ns h ∨
      (σ.node.content.isTrackedFor ns h = true ∧ ¬ (Event.fire t).LetsGo ns h) := by
  cases hm with
  | handler hstep =>
    rcases hstep.references_cases with ⟨rfl, -, hiff⟩ | ⟨hpc, -, hsame⟩
    · refine (hiff ns h).trans (or_congr (and_congr eq_comm eq_comm) ?_)
      exact (and_iff_left not_false).symm
    · rw [hsame]
      simp [Event.TakesUp, Event.LetsGo, hpc]
  | settle hstep =>
    have hsame : σ'.node.content.isTrackedFor ns h = σ.node.content.isTrackedFor ns h := by
      cases hstep with
      | write => exact isTrackedFor_writeBack
      | _ => rfl
    simp [Event.TakesUp, Event.LetsGo, hsame]
  | put hstep =>
    have hsame : σ'.node.content.isTrackedFor ns h = σ.node.content.isTrackedFor ns h := by
      cases hstep with
      | mark => exact ContentIndex.isTrackedFor_markPresent
      | _ => rfl
    simp [Event.TakesUp, Event.LetsGo, hsame]
  | sweep hstep =>
    cases hstep with
    | forgetLast =>
      refine ContentIndex.isTrackedFor_forget.trans (Iff.trans ?_ (or_iff_right id).symm)
      exact and_congr_right fun _ ↦ not_congr (and_congr eq_comm eq_comm)
    | forget =>
      refine ContentIndex.isTrackedFor_forget.trans (Iff.trans ?_ (or_iff_right id).symm)
      exact and_congr_right fun _ ↦ not_congr (and_congr eq_comm eq_comm)
    | _ => simp [Event.TakesUp, Event.LetsGo, StashNode.untrack]
  | gc hstep => cases hstep <;> simp [Event.TakesUp, Event.LetsGo]

theorem PoolStep.isTrackedFor_iff (hstep : PoolStep p ev p') :
    p'.shared.node.content.isTrackedFor ns h = true ↔ ev.TakesUp ns h ∨
      (p.shared.node.content.isTrackedFor ns h = true ∧ ¬ ev.LetsGo ns h) := by
  cases hstep with
  | fire hfire =>
    obtain ⟨t', hf⟩ := hfire.fired
    exact hf.micro.isTrackedFor_iff
  | spawn => simp [Event.TakesUp, Event.LetsGo]
  | arrive => simp [Event.TakesUp, Event.LetsGo, StashNode.replicate]
  | grant => simp [Event.TakesUp, Event.LetsGo, StashNode.register]
  | land => simp [Event.TakesUp, Event.LetsGo, StashNode.land]

/-- **A reference is its history.**  In every state of every interleaving a namespace references a
hash exactly if a handler has taken it up, and no sweep has let go of it since. -/
theorem isTrackedFor_iff_since (hrun : Run PoolStep (bootPool hashNew policy) evs p) :
    p.shared.node.content.isTrackedFor ns h = true ↔
      Since (Event.TakesUp ns h) (Event.LetsGo ns h) evs :=
  hrun.iff_since (q := fun p ↦ p.shared.node.content.isTrackedFor ns h = true)
    (fun _ _ _ hstep ↦ hstep.isTrackedFor_iff) (by simp [bootPool, StashNode.boot])

/-! ## Where handlers come from -/

/-- The record that a handler was started for. -/
def Task.delivery : Task → Option Delivery
  | .handler d _ => some d
  | _ => none

/-- A handler stays with its record. -/
theorem Micro.delivery (hm : Micro σ t σ' t') : t'.delivery = t.delivery := by
  cases hm <;> rfl

theorem Task.AtStart.delivery (ht : t.AtStart) : t.delivery = none :=
  ht.elim (P := fun t ↦ t.delivery = none) (fun _ ↦ rfl) (fun _ _ _ ↦ rfl) (fun _ ↦ rfl) rfl

/-- What has been granted was granted by an event, and a record with a handler has arrived after its
namespace was granted. -/
structure Announced (evs : List Event) (p : TaskPool hashNew) : Prop where
  /-- The grants. -/
  granted : ∀ ns, p.shared.node.registry.isKnown ns = true → ∃ sub, .grant ns sub ∈ evs
  /-- The records. -/
  arrived : ∀ d, Owes Task.delivery p d →
    ∃ sub replaced, List.Sublist [.grant d.ns sub, .arrive d replaced] evs

theorem Announced.step (hs : Announced evs p) (hstep : PoolStep p ev p') :
    Announced (evs ++ [ev]) p' := by
  have hgranted : ∀ ns, p.shared.node.registry.isKnown ns = true →
      ∃ sub, .grant ns sub ∈ evs ++ [ev] := fun ns hns ↦
    (hs.granted ns hns).imp fun _ ↦ List.mem_append_left _
  have harrived : ∀ d, Owes Task.delivery p d →
      ∃ sub replaced, List.Sublist [.grant d.ns sub, .arrive d replaced] (evs ++ [ev]) :=
        fun d hd ↦ by
    obtain ⟨sub, replaced, hsub⟩ := hs.arrived d hd
    exact ⟨sub, replaced, hsub.trans (List.sublist_append_left _ _)⟩
  cases hstep with
  | fire hfire =>
    obtain ⟨t', hf⟩ := hfire.fired
    refine ⟨fun ns hns ↦ hgranted ns (hf.micro.frame.registry ▸ hns), fun d hd ↦ ?_⟩
    rcases hf.owes_old hd with hd | hd
    · exact harrived d ⟨_, hf.mem, hf.micro.delivery.symm.trans hd⟩
    · exact harrived d hd
  | spawn ht =>
    exact ⟨hgranted, fun d hd ↦ harrived d (hd.of_cons.resolve_left (by simp [ht.delivery]))⟩
  | arrive d replaced hwatched =>
    refine ⟨hgranted, fun d' hd ↦ ?_⟩
    rcases hd.of_cons with hnew | hold
    · obtain rfl := Option.some.inj hnew
      obtain ⟨sub, hsub⟩ := hs.granted d.ns hwatched
      exact ⟨sub, replaced, (List.singleton_sublist.mpr hsub).append (.refl _)⟩
    · exact harrived d' hold
  | grant ns sub =>
    refine ⟨fun ns' hns' ↦ ?_, harrived⟩
    rcases NamespaceRegistry.isKnown_register.mp hns' with rfl | hns'
    · exact ⟨sub, List.mem_append_right _ (List.mem_singleton_self _)⟩
    · exact hgranted ns' hns'
  | land bytes => exact ⟨hgranted, harrived⟩

theorem announced_of_run (hrun : Run PoolStep (bootPool hashNew policy) evs p) :
    Announced evs p := by
  refine hrun.invariant_labels (fun _ _ _ _ hs hstep ↦ hs.step hstep) ⟨fun ns hns ↦ ?_, ?_⟩
  · exact absurd hns (by simp [bootPool, StashNode.boot])
  · rintro d ⟨_, ht, _⟩
    exact absurd ht List.not_mem_nil

/-! ## Downloads -/

/-- Bytes that are stored stay until a collection that has marked them deletes them. -/
theorem has_of_run (hrun : Run PoolStep p evs q) (hhas : p.shared.node.blobs.has h = true)
    (hkept : ∀ dead, .fire (.gc (.marked dead)) ∈ evs → dead h = false) :
    q.shared.node.blobs.has h = true := by
  induction hrun with
  | nil => exact hhas
  | cons hstep _ ih =>
    rcases hstep.has_of_has hhas with hhas' | ⟨dead, rfl, hdead, -⟩
    · exact ih hhas' fun dead hmem ↦ hkept dead (List.mem_cons_of_mem _ hmem)
    · exact absurd hdead (by simp [hkept dead List.mem_cons_self])

/-- The namespace was granted; then a record of it with this hash arrived; then a handler took the
record up, and no sweep has let go of it since. -/
def Heard (evs : List Event) (ns : NamespaceId) (h : ContentHash) : Prop :=
  ∃ (d : Delivery) (sub : Option PushSubscription) (replaced : Entry → Bool)
    (before after : List Event), d.ns = ns ∧ d.hash = h ∧
      evs = before ++ .fire (.handler d .start) :: after ∧
      List.Sublist [.grant ns sub, .arrive d replaced] before ∧ ∀ ev ∈ after, ¬ ev.LetsGo ns h

/-- A reference was heard of. -/
theorem heard_of_isTrackedFor (hrun : Run PoolStep (bootPool hashNew policy) evs p)
    (htracked : p.shared.node.content.isTrackedFor ns h = true) : Heard evs ns h := by
  obtain ⟨before, ev, after, rfl, htakes, hnot⟩ := (isTrackedFor_iff_since hrun).mp htracked
  obtain ⟨d, rfl, rfl, rfl⟩ := htakes.exists_handler
  -- the handler was in the pool when it took its first step
  obtain ⟨p₁, hbefore, hrest⟩ := Run.append_iff.mp hrun
  cases hrest with
  | cons hstep _ =>
    cases hstep with
    | fire hfire =>
      obtain ⟨t', hf⟩ := hfire.fired
      obtain ⟨sub, replaced, hsub⟩ := (announced_of_run hbefore).arrived d ⟨_, hf.mem, rfl⟩
      exact ⟨d, sub, replaced, before, after, rfl, rfl, rfl, hsub, hnot⟩

/-- **Downloads are for those who opted in.**  Take any interleaving, and a download that asks the
index at one moment and reads the blob store at a later one.  If it yields bytes, they have the hash
that was asked for, and the namespace had been granted, had received a record with this hash, and
had not been relieved of it again when the index was asked.  If the index says that bytes are
present that were stored at that moment, the download yields them unless a collection deletes them
in between. -/
theorem download_opted_in (hrun : Run PoolStep (bootPool hashNew policy) evs p)
    (hlater : Run PoolStep p evs' q) (ns : NamespaceId) (h : ContentHash) :
    (∀ b, p.shared.node.contentBytesAcross q.shared.node ns h = some b →
      hashNew b = h ∧ Heard evs ns h) ∧
    (p.shared.node.content.isPresentFor ns h = true → p.shared.node.blobs.has h = true →
      p.shared.node.contentBytesAcross q.shared.node ns h = none →
        ∃ dead, .fire (.gc (.marked dead)) ∈ evs' ∧ dead h = true) := by
  constructor
  · intro b hb
    rw [contentBytesAcross, Option.ite_none_right_eq_some, ContentIndex.isPresentFor_iff] at hb
    obtain ⟨⟨htracked, -⟩, hblob⟩ := hb
    exact ⟨q.shared.node.blobs.addressed h b hblob, heard_of_isTrackedFor hrun htracked⟩
  · intro hpresent hhas hnone
    by_contra hnot
    push Not at hnot
    have hlate := has_of_run hlater hhas fun dead hmem ↦ by simpa using hnot dead hmem
    rw [contentBytesAcross, if_pos hpresent] at hnone
    exact absurd hlate (by simp [BlobStore.has, hnone])

/-- A fix whose bytes have landed is downloaded, while another namespace is being granted. -/
theorem download_landedFix : ∃ evs,
    landedFix.contentBytesAcross (landedFix.register (idOf 2) none) (idOf 1) zeroHash = some [0] ∧
      sampleHash [0] = zeroHash ∧ Heard evs (idOf 1) zeroHash := by
  obtain ⟨evs, ws, htook⟩ := run_took (landed.register (idOf 1) none) oldFix true 1000 [] rfl
    fun _ ↦ rfl
  let done : List Task := [.handler oldFix (.done ws)]
  have hrun : Run PoolStep (bootPool sampleHash (.fromHours 24))
      (.land [0] :: .grant (idOf 1) none :: evs) ⟨idle landedFix, done⟩ :=
    .cons (.land [0]) (.cons (.grant _ none) htook)
  have hlater : Run PoolStep ⟨idle landedFix, done⟩ [.grant (idOf 2) none]
      ⟨idle (landedFix.register (idOf 2) none), done⟩ := .cons (.grant (idOf 2) none) (.nil _)
  have hbytes : landedFix.contentBytesAcross (landedFix.register (idOf 2) none) (idOf 1) zeroHash =
      some [0] := by decide
  exact ⟨_, hbytes, (download_opted_in hrun hlater (idOf 1) zeroHash).1 [0] hbytes⟩

/-! ## Uploads -/

/-- What an upload stores, from the end of its checks on. -/
def Task.stores : Task → Option (NamespaceId × ContentHash × Bytes)
  | .put ns h bytes .adding => some (ns, h, bytes)
  | .put ns h bytes (.added _) => some (ns, h, bytes)
  | .put ns h bytes (.done (some .stored)) => some (ns, h, bytes)
  | _ => none

theorem Task.AtStart.stores (ht : t.AtStart) : t.stores = none :=
  ht.elim (P := fun t ↦ t.stores = none) (fun _ ↦ rfl) (fun _ _ _ ↦ rfl) (fun _ ↦ rfl) rfl

/-- An upload gets that far by a check, with content of a hash that its namespace references. -/
theorem Micro.stores_cases {bytes : Bytes} (hm : Micro σ t σ' t')
    (ht : t'.stores = some (ns, h, bytes)) : t.stores = some (ns, h, bytes) ∨
      (t = .put ns h bytes .known ∧ hashNew bytes = h ∧
        σ.node.content.isTrackedFor ns h = true) := by
  cases hm with
  | put hstep =>
    cases hstep with
    | checked htracked hhash =>
      obtain ⟨rfl, rfl, rfl⟩ : _ = ns ∧ _ = h ∧ _ = bytes := by simpa [Task.stores] using ht
      exact Or.inr ⟨rfl, hhash, htracked⟩
    | add => exact Or.inl ht
    | mark => exact Or.inl ht
    | _ => exact absurd ht (by simp [Task.stores])
  | _ => exact absurd ht (by simp [Task.stores])

/-- An upload was checked, and at that moment its namespace had heard of the hash. -/
def CheckedHeard (evs : List Event) (ns : NamespaceId) (h : ContentHash) (bytes : Bytes) : Prop :=
  ∃ before after, evs = before ++ .fire (.put ns h bytes .known) :: after ∧ Heard before ns h

/-- Uploads past their checks offer content of records that had been heard of when they were
checked. -/
def UploadsHeard (evs : List Event) (p : TaskPool hashNew) : Prop :=
  ∀ ns h bytes, Owes Task.stores p (ns, h, bytes) → hashNew bytes = h ∧ CheckedHeard evs ns h bytes

theorem UploadsHeard.step (hs : UploadsHeard evs p)
    (hrun : Run PoolStep (bootPool hashNew policy) evs p) (hstep : PoolStep p ev p') :
    UploadsHeard (evs ++ [ev]) p' := by
  intro ns h bytes ho
  have hold : Owes Task.stores p (ns, h, bytes) →
      hashNew bytes = h ∧ CheckedHeard (evs ++ [ev]) ns h bytes := by
    intro ho
    obtain ⟨hhash, before, after, rfl, hheard⟩ := hs ns h bytes ho
    exact ⟨hhash, before, after ++ [ev], by simp, hheard⟩
  rcases hstep.owes_cases (fun _ ↦ Task.AtStart.stores) (fun _ ↦ rfl) ho with
    ho | ⟨t, t', rfl, hf, hd⟩
  · exact hold ho
  · rcases hf.micro.stores_cases hd with hd | ⟨rfl, hhash, htracked⟩
    · exact hold ⟨t, hf.mem, hd⟩
    · exact ⟨hhash, evs, [], rfl, heard_of_isTrackedFor hrun htracked⟩

/-- **Nobody can leave anything else here.**  In any interleaving, an upload that stores its bytes
or has stored them offers the content of the hash it names, and it was checked: when it took the
step of its check, its namespace had been granted, had received a record with this hash, and had not
been relieved of it again. -/
theorem upload_heard {bytes : Bytes} (hrun : Run PoolStep (bootPool hashNew policy) evs p)
    (hmem : t ∈ p.tasks) (ht : t.stores = some (ns, h, bytes)) :
    hashNew bytes = h ∧ ∃ before after,
      evs = before ++ .fire (.put ns h bytes .known) :: after ∧ Heard before ns h := by
  have hs : Run PoolStep (bootPool hashNew policy) evs p ∧ UploadsHeard evs p :=
    hrun.invariant_labels
      (I := fun evs p ↦ Run PoolStep (bootPool hashNew policy) evs p ∧ UploadsHeard evs p)
      (fun _ _ _ _ hs hstep ↦ ⟨hs.1.snoc hstep, hs.2.step hs.1 hstep⟩)
      ⟨.nil _, fun _ _ _ ⟨_, ht, _⟩ ↦ absurd ht List.not_mem_nil⟩
  exact hs.2 ns h bytes ⟨t, hmem, ht⟩

/-- An upload of the content of a fix has passed its checks. -/
theorem upload_fix : ∃ evs, sampleHash [0] = zeroHash ∧ ∃ before after,
    evs = before ++ .fire (fixUpload .known) :: after ∧ Heard before (idOf 1) zeroHash := by
  obtain ⟨_, ws, hfix⟩ := run_fixOnly
  have hcheck : Alone Micro (idle fixOnly) (fixUpload .start) (idle fixOnly) (fixUpload .adding) :=
    .step (.put (.known rfl)) (.step (.put (.checked rfl rfl)) (.refl _ _))
  obtain ⟨_, hupload⟩ := run_of_alone [] [.handler oldFix (.done ws)] hcheck
  have hspawn : (fixUpload .start).AtStart := trivial
  have hrun := hfix.append (.cons (.spawn hspawn) hupload)
  exact ⟨_, upload_heard hrun List.mem_cons_self rfl⟩

end TrailStash
