import TrailStash.Tasks

/-!
# What one step can change

Inversion lemmas about the atomic steps of `Tasks.lean`, one for each part of the node that the
later modules follow through a run.

* `Micro.frame` — no task touches the grants, the handles, the replicas or the policy; these change
  by the events `arrive` and `grant` only.
* `Micro.references_cases` — a reference is added by a handler that calls `want` and dropped by a
  sweep that calls `forget`, and by nothing else.
* `Micro.present_cases` — a hash is marked present by a task that is about to, `Task.marks`.
* `PoolStep.blobs_cases` — bytes land or are uploaded, or a collection deletes; otherwise the blob
  store stays as it is.

`PoolStep.owes_cases` is the same for debts: only a task that takes a step takes one on.
-/

set_option autoImplicit false

namespace TrailStash

open Runs StashNode
open Pool (Owes Fired)

variable {hashNew : Bytes → ContentHash} {σ σ' : Shared hashNew} {t t' : Task}
  {p p' : TaskPool hashNew} {ev : Event} {ns : NamespaceId} {h : ContentHash}

/-- A handler adds its one reference in its first step. -/
theorem HandlerStep.references_cases {d : Delivery} {pc pc' : HandlerPc}
    (hstep : HandlerStep d σ pc σ' pc') :
    (pc = .start ∧ pc' = .wanted ∧ ∀ ns h, σ'.node.content.isTrackedFor ns h = true ↔
      (ns = d.ns ∧ h = d.hash) ∨ σ.node.content.isTrackedFor ns h = true) ∨
    (pc ≠ .start ∧ pc' ≠ .start ∧
      ∀ ns h, σ'.node.content.isTrackedFor ns h = σ.node.content.isTrackedFor ns h) := by
  cases hstep with
  | want => exact Or.inl ⟨rfl, rfl, fun _ _ ↦ ContentIndex.isTrackedFor_want⟩
  | mark => exact Or.inr ⟨nofun, nofun, fun _ _ ↦ ContentIndex.isTrackedFor_markPresent⟩
  | _ => exact Or.inr ⟨nofun, nofun, fun _ _ ↦ rfl⟩

/-- The hash that the next step of a task marks present. -/
def Task.marks (node : StashNode hashNew) : Task → Option ContentHash
  | .handler d (.inserted true _ _) => some d.hash
  | .settle _ (.holding h _ true _) _ => if h ∈ node.tracked then some h else none
  | .put _ _ _ (.added h) => some h
  | _ => none

namespace Micro

/-- **No task touches the replicas**, nor the grants, the handles or the policy. -/
theorem frame (hm : Micro σ t σ' t') : Frame σ.node σ'.node := by
  cases hm with
  | handler hstep => cases hstep <;> exact ⟨rfl, rfl, rfl, rfl⟩
  | settle hstep =>
    cases hstep with
    | write => exact frame_writeBack
    | _ => exact ⟨rfl, rfl, rfl, rfl⟩
  | put hstep => cases hstep <;> exact ⟨rfl, rfl, rfl, rfl⟩
  | sweep hstep => cases hstep <;> exact ⟨rfl, rfl, rfl, rfl⟩
  | gc hstep => cases hstep <;> exact ⟨rfl, rfl, rfl, rfl⟩

/-- **Who changes the references.** -/
theorem references_cases (hm : Micro σ t σ' t') :
    (∃ d, t = .handler d .start ∧ t' = .handler d .wanted ∧ ∀ ns h,
      σ'.node.content.isTrackedFor ns h = true ↔
        (ns = d.ns ∧ h = d.hash) ∨ σ.node.content.isTrackedFor ns h = true) ∨
    (∃ now ns₀ h₀ hs queue n, t = .sweep now (.forgetting ns₀ (h₀ :: hs) queue) n ∧
      (t' = .sweep now (.untracking ns₀ h₀ hs queue) n ∨
        t' = .sweep now (.forgetting ns₀ hs queue) n) ∧ ∀ ns h,
      σ'.node.content.isTrackedFor ns h = true ↔
        σ.node.content.isTrackedFor ns h = true ∧ ¬ (ns = ns₀ ∧ h = h₀)) ∨
    ∀ ns h, σ'.node.content.isTrackedFor ns h = σ.node.content.isTrackedFor ns h := by
  cases hm with
  | handler hstep =>
    rcases hstep.references_cases with ⟨rfl, rfl, hiff⟩ | ⟨-, -, hsame⟩
    · exact Or.inl ⟨_, rfl, rfl, hiff⟩
    · exact Or.inr (Or.inr hsame)
  | settle hstep =>
    cases hstep with
    | write => exact Or.inr (Or.inr fun _ _ ↦ isTrackedFor_writeBack)
    | _ => exact Or.inr (Or.inr fun _ _ ↦ rfl)
  | put hstep =>
    cases hstep with
    | mark => exact Or.inr (Or.inr fun _ _ ↦ ContentIndex.isTrackedFor_markPresent)
    | _ => exact Or.inr (Or.inr fun _ _ ↦ rfl)
  | sweep hstep =>
    cases hstep with
    | forgetLast =>
      exact Or.inr (Or.inl ⟨_, _, _, _, _, _, rfl, Or.inl rfl, fun _ _ ↦
        ContentIndex.isTrackedFor_forget⟩)
    | forget =>
      exact Or.inr (Or.inl ⟨_, _, _, _, _, _, rfl, Or.inr rfl, fun _ _ ↦
        ContentIndex.isTrackedFor_forget⟩)
    | _ => exact Or.inr (Or.inr fun _ _ ↦ rfl)
  | gc hstep => cases hstep <;> exact Or.inr (Or.inr fun _ _ ↦ rfl)

/-- **Who marks a hash present.** -/
theorem present_cases (hm : Micro σ t σ' t') (hp : σ'.node.content.isPresent h = true) :
    σ.node.content.isPresent h = true ∨ t.marks σ.node = some h := by
  cases hm with
  | handler hstep =>
    cases hstep with
    | want => exact Or.inl (ContentIndex.isPresent_want.symm.trans hp)
    | mark =>
      refine (ContentIndex.isPresent_markPresent.mp hp).symm.imp_right fun hh ↦ ?_
      exact congrArg some hh.1.symm
    | _ => exact Or.inl hp
  | settle hstep =>
    cases hstep with
    | @write ws h' entry present rest =>
      cases hlive : σ.node.tracked.lookup h' with
      | none =>
        rw [tracked_writeBack_of_none hlive] at hp
        exact Or.inl hp
      | some live =>
        refine (isPresent_writeBack hp).symm.imp_right ?_
        rintro ⟨rfl, rfl⟩
        exact if_pos (Finmap.mem_of_lookup_eq_some hlive)
    | _ => exact Or.inl hp
  | put hstep =>
    cases hstep with
    | mark htag =>
      refine (ContentIndex.isPresent_markPresent.mp hp).symm.imp_right fun hh ↦ ?_
      exact congrArg some (htag.trans hh.1.symm)
    | _ => exact Or.inl hp
  | sweep hstep =>
    cases hstep with
    | forgetLast => exact Or.inl (ContentIndex.isPresent_forget.mp hp).1
    | forget => exact Or.inl (ContentIndex.isPresent_forget.mp hp).1
    | _ => exact Or.inl hp
  | gc hstep => cases hstep <;> exact Or.inl hp

theorem blobs_cases (hm : Micro σ t σ' t') :
    σ'.node.blobs = σ.node.blobs ∨
    (∃ bytes, σ'.node.blobs = σ.node.blobs.land bytes ∨
      σ'.node.blobs = σ.node.blobs.addBytes bytes) ∨
    ∃ dead, t = .gc (.marked dead) ∧ σ'.node.blobs = σ.node.blobs.collect dead := by
  cases hm with
  | handler hstep => cases hstep <;> exact Or.inl rfl
  | settle hstep =>
    cases hstep with
    | fetched bytes => exact Or.inr (Or.inl ⟨bytes, Or.inl rfl⟩)
    | write => exact Or.inl blobs_writeBack
    | _ => exact Or.inl rfl
  | put hstep =>
    cases hstep with
    | add => exact Or.inr (Or.inl ⟨_, Or.inr rfl⟩)
    | _ => exact Or.inl rfl
  | sweep hstep => cases hstep <;> exact Or.inl rfl
  | gc hstep =>
    cases hstep with
    | protect => exact Or.inl rfl
    | delete => exact Or.inr (Or.inr ⟨_, rfl, rfl⟩)

end Micro

namespace PoolStep

/-- **Who changes the references**, of all that can happen to the pool. -/
theorem references_cases (hstep : PoolStep p ev p') :
    (∃ d, ev = .fire (.handler d .start) ∧ ∀ ns h,
      p'.shared.node.content.isTrackedFor ns h = true ↔
        (ns = d.ns ∧ h = d.hash) ∨ p.shared.node.content.isTrackedFor ns h = true) ∨
    (∃ now ns₀ h₀ hs queue n, ev = .fire (.sweep now (.forgetting ns₀ (h₀ :: hs) queue) n) ∧
      ∀ ns h, p'.shared.node.content.isTrackedFor ns h = true ↔
        p.shared.node.content.isTrackedFor ns h = true ∧ ¬ (ns = ns₀ ∧ h = h₀)) ∨
    ∀ ns h, p'.shared.node.content.isTrackedFor ns h =
      p.shared.node.content.isTrackedFor ns h := by
  cases hstep with
  | fire hfire =>
    obtain ⟨t', hf⟩ := hfire.fired
    rcases hf.micro.references_cases with
      ⟨d, rfl, -, hiff⟩ | ⟨now, ns₀, h₀, hs, queue, n, rfl, -, hiff⟩ | hsame
    · exact Or.inl ⟨d, rfl, hiff⟩
    · exact Or.inr (Or.inl ⟨now, ns₀, h₀, hs, queue, n, rfl, hiff⟩)
    · exact Or.inr (Or.inr hsame)
  | _ => exact Or.inr (Or.inr fun _ _ ↦ rfl)

/-- **Who marks a hash present**, of all that can happen to the pool. -/
theorem present_cases (hstep : PoolStep p ev p')
    (hp : p'.shared.node.content.isPresent h = true) : p.shared.node.content.isPresent h = true ∨
      ∃ t t', ev = .fire t ∧ Fired Micro p t p' t' ∧ t.marks p.shared.node = some h := by
  cases hstep with
  | @fire p p' t hfire =>
    obtain ⟨t', hf⟩ := hfire.fired
    exact (hf.micro.present_cases hp).imp_right fun hmarks ↦ ⟨t, t', rfl, hf, hmarks⟩
  | _ => exact Or.inl hp

/-- **Who takes on a debt**: a task that takes a step, if no task begins with one. -/
theorem owes_cases {δ : Type} {debt : Task → Option δ} {o : δ} (hstep : PoolStep p ev p')
    (hstart : ∀ t : Task, t.AtStart → debt t = none)
    (hheard : ∀ d, debt (.handler d .start) = none) (ho : Owes debt p' o) :
    Owes debt p o ∨ ∃ t t', ev = .fire t ∧ Fired Micro p t p' t' ∧ debt t' = some o := by
  cases hstep with
  | @fire p p' t hfire =>
    obtain ⟨t', hf⟩ := hfire.fired
    exact (hf.owes_old ho).symm.imp_right fun hd ↦ ⟨t, t', rfl, hf, hd⟩
  | spawn ht => exact Or.inl (ho.of_cons.resolve_left (by simp [hstart _ ht]))
  | arrive d => exact Or.inl (ho.of_cons.resolve_left (by simp [hheard]))
  | grant => exact Or.inl ho
  | land => exact Or.inl ho

/-- Who takes a step is in the pool. -/
theorem mem_of_fire (hstep : PoolStep p (.fire t) p') : t ∈ p.tasks := by
  cases hstep with
  | fire hfire =>
    obtain ⟨t', hf⟩ := hfire.fired
    exact hf.mem

/-- **Who changes the blob store.** -/
theorem blobs_cases (hstep : PoolStep p ev p') :
    p'.shared.node.blobs = p.shared.node.blobs ∨
    (∃ bytes, p'.shared.node.blobs = p.shared.node.blobs.land bytes ∨
      p'.shared.node.blobs = p.shared.node.blobs.addBytes bytes) ∨
    ∃ dead, ev = .fire (.gc (.marked dead)) ∧
      p'.shared.node.blobs = p.shared.node.blobs.collect dead := by
  cases hstep with
  | fire hfire =>
    obtain ⟨t', hf⟩ := hfire.fired
    rcases hf.micro.blobs_cases with hsame | hmore | ⟨dead, rfl, hless⟩
    · exact Or.inl hsame
    · exact Or.inr (Or.inl hmore)
    · exact Or.inr (Or.inr ⟨dead, rfl, hless⟩)
  | land bytes => exact Or.inr (Or.inl ⟨bytes, Or.inl rfl⟩)
  | _ => exact Or.inl rfl

/-- **Tags are for good.** -/
theorem tags_subset (hstep : PoolStep p ev p') :
    p.shared.node.blobs.tags ⊆ p'.shared.node.blobs.tags := by
  rcases hstep.blobs_cases with heq | ⟨bytes, heq | heq⟩ | ⟨dead, -, heq⟩
  · rw [heq]
  · rw [heq]
    exact subset_rfl
  · rw [heq]
    exact Finset.subset_insert _ _
  · rw [heq]
    exact subset_rfl

/-- **Bytes leave only by a collection.** -/
theorem has_of_has (hstep : PoolStep p ev p') (hhas : p.shared.node.blobs.has h = true) :
    p'.shared.node.blobs.has h = true ∨ ∃ dead, ev = .fire (.gc (.marked dead)) ∧
      dead h = true ∧ h ∉ p.shared.node.blobs.tags := by
  rcases hstep.blobs_cases with heq | ⟨bytes, heq | heq⟩ | ⟨dead, hev, heq⟩
  · exact Or.inl (heq ▸ hhas)
  · exact Or.inl (heq ▸ BlobStore.has_land.mpr (Or.inr hhas))
  · exact Or.inl (heq ▸ BlobStore.has_addBytes.mpr (Or.inr hhas))
  · by_cases hdead : dead h = true ∧ h ∉ p.shared.node.blobs.tags
    · exact Or.inr ⟨dead, hev, hdead⟩
    · exact Or.inl (heq ▸ BlobStore.has_collect.mpr ⟨hhas, hdead⟩)

end PoolStep

end TrailStash
