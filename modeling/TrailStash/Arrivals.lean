import TrailStash.Steps

/-!
# A sweep and the entries that arrive meanwhile

A sweep reads the entries of a namespace, decides, and then lets go of one hash after the other,
without looking again.  Meanwhile new entries arrive.  If one of them has the content of an entry
that the sweep has decided to let go of, its handler's `want` finds the reference still there and
does nothing, and then the sweep drops it: an entry that retention keeps is no longer referenced
(`exists_dropped_arrival`).

`notDropped_of_heardInTime` says that this is the only way.  In a run of one sweep and any number
of insert-only arrivals, an entry that is kept at the end is referenced, unless its event was heard
while the sweep was still going to let go of its hash.  The invariant behind it (`Arrival`) has two
halves: a kept entry is referenced or its event is still to be heard, and as long as the sweep is
going to let go of its hash, its event is still to be heard.
-/

set_option autoImplicit false

namespace TrailStash

open Runs StashNode
open Pool (Alone Owes Fired)

variable {hashNew : Bytes → ContentHash} {σ σ' : Shared hashNew} {p p' : TaskPool hashNew}
  {ev : Event} {evs : List Event} {t t' : Task} {ns : NamespaceId} {h : ContentHash} {e : Entry}
  {d : Delivery} {replaced : Entry → Bool} {node : StashNode hashNew} {now : Nat}

/-! ## The setting -/

/-- Records are only added, and no further sweep begins. -/
def InsertsOnly : Event → Prop
  | .arrive _ replaced => ∀ e, replaced e = false
  | .spawn (.sweep _ _ _) => False
  | _ => True

/-- The record whose event a task is about to be heard about. -/
def Task.unheard : Task → Option (NamespaceId × Entry)
  | .handler d .start => some (d.ns, d.entry)
  | _ => none

/-- The task is a sweep that is going to let go of `h` for `ns`. -/
def Task.LetsGo (ns : NamespaceId) (h : ContentHash) : Task → Prop
  | .sweep _ (.forgetting ns' hs _) _ => ns' = ns ∧ h ∈ hs
  | .sweep _ (.untracking ns' _ hs _) _ => ns' = ns ∧ h ∈ hs
  | _ => False

/-- If the task is a sweep, it is one at `now`. -/
def Task.SweepsAt (now : Nat) : Task → Prop
  | .sweep now' _ _ => now' = now
  | _ => True

/-- The event of `e` is not heard while `e` is kept and a sweep is still going to let go of its
hash. -/
def HeardInTime (now : Nat) (ns : NamespaceId) (e : Entry) (p : TaskPool hashNew) : Event → Prop
  | .fire (.handler d .start) => d.ns = ns → d.entry = e → p.Any (Task.LetsGo ns e.contentHash) →
    ¬ Kept p.shared.node.retention now (p.shared.node.docs ns) e
  | _ => True

theorem Task.AtEnd.unheard (ht : t.AtEnd) : t.unheard = none := by
  cases t with
  | handler d pc => cases pc <;> first | rfl | exact False.elim ht
  | _ => rfl

theorem Task.AtStart.not_letsGo (ht : t.AtStart) : ¬ t.LetsGo ns h :=
  ht.elim (P := fun t ↦ ¬ t.LetsGo ns h) (fun _ ↦ id) (fun _ _ _ ↦ id) (fun _ ↦ id) id

/-! ## What a step does to them -/

/-- A handler that is heard references its hash. -/
theorem Micro.isTrackedFor_of_unheard (hm : Micro σ t σ' t') (ht : t.unheard = some (ns, e)) :
    σ'.node.content.isTrackedFor ns e.contentHash = true := by
  cases hm with
  | handler hstep =>
    cases hstep with
    | want =>
      obtain ⟨rfl, rfl⟩ := Prod.mk.inj (Option.some.inj ht)
      exact ContentIndex.isTrackedFor_want.mpr (Or.inl ⟨rfl, rfl⟩)
    | _ => exact absurd ht (by simp [Task.unheard])
  | _ => exact absurd ht (by simp [Task.unheard])

/-- A sweep goes for the hashes that it has read as releasable. -/
theorem Micro.letsGo_cases (hm : Micro σ t σ' t') (hl : t'.LetsGo ns h) : t.LetsGo ns h ∨
    ∃ now queue n, t = .sweep now (.reading ns queue) n ∧
      h ∈ releasable σ.node.retention now (σ.node.docs ns) := by
  cases hm with
  | sweep hstep =>
    cases hstep with
    | read order =>
      obtain ⟨rfl, hmem⟩ := hl
      exact Or.inr ⟨_, _, _, rfl, (order.mem_list _ _).mp hmem⟩
    | forgetLast => exact Or.inl ⟨hl.1, List.mem_cons_of_mem _ hl.2⟩
    | forget => exact Or.inl ⟨hl.1, List.mem_cons_of_mem _ hl.2⟩
    | untrack => exact Or.inl hl
    | _ => exact hl.elim
  | _ => exact hl.elim

theorem Micro.sweepsAt (hm : Micro σ t σ' t') (ht : t.SweepsAt now) : t'.SweepsAt now := by
  cases hm <;> exact ht

/-- An added record is kept or not by itself; of the others no more are kept than before. -/
theorem kept_replicate (hadd : ∀ e, replaced e = false)
    (hkept : Kept node.retention now ((node.replicate d.ns d.entry replaced).docs ns) e) :
    (ns = d.ns ∧ e = d.entry) ∨ Kept node.retention now (node.docs ns) e := by
  by_cases hns : ns = d.ns
  · subst hns
    have hdoc : (node.replicate d.ns d.entry replaced).docs d.ns =
        node.docs d.ns ++ [d.entry] := by
      simp [replicate, hadd]
    rw [hdoc] at hkept
    obtain ⟨hmem, hnonempty⟩ := mem_getMany.mp (kept_iff.mp hkept).1
    rcases List.mem_append.mp hmem with hmem | hmem
    · refine Or.inr (hkept.anti (fun e he ↦ ?_) (mem_getMany.mpr ⟨hmem, hnonempty⟩))
      obtain ⟨he, hne⟩ := mem_getMany.mp he
      exact mem_getMany.mpr ⟨List.mem_append_left _ he, hne⟩
    · exact Or.inl ⟨rfl, List.mem_singleton.mp hmem⟩
  · have hdoc : (node.replicate d.ns d.entry replaced).docs ns = node.docs ns :=
      Function.update_of_ne hns _ _
    exact Or.inr (hdoc ▸ hkept)

/-! ## The invariant -/

/-- What holds for an entry while one sweep at `now` and any number of arrivals interleave. -/
structure Arrival (now : Nat) (ns : NamespaceId) (e : Entry) (p : TaskPool hashNew) : Prop where
  /-- If the entry is kept, it is referenced, or its event is still to be heard. -/
  kept : Kept p.shared.node.retention now (p.shared.node.docs ns) e →
    p.shared.node.content.isTrackedFor ns e.contentHash = true ∨ Owes Task.unheard p (ns, e)
  /-- If it is kept and the sweep is going to let go of its hash, its event is still to be heard. -/
  released : p.Any (Task.LetsGo ns e.contentHash) →
    Kept p.shared.node.retention now (p.shared.node.docs ns) e → Owes Task.unheard p (ns, e)
  /-- There is one clock. -/
  clock : ∀ t ∈ p.tasks, t.SweepsAt now

theorem arrival_fire (hs : Arrival now ns e p) (hheard : HeardInTime now ns e p (.fire t))
    (hf : Fired Micro p t p' t') : Arrival now ns e p' := by
  obtain ⟨-, -, hdocs, hretention⟩ := hf.micro.frame
  -- only the task that is heard stops being unheard, and then it references its hash
  have hstill : Owes Task.unheard p (ns, e) →
      p'.shared.node.content.isTrackedFor ns e.contentHash = true ∨
        Owes Task.unheard p' (ns, e) := fun ho ↦
    (hf.owes_or ho).imp_left hf.micro.isTrackedFor_of_unheard
  refine ⟨fun hkept ↦ ?_, fun hany hkept ↦ ?_, ?_⟩
  · rw [hretention, hdocs] at hkept
    rcases hs.kept hkept with ht | ho
    · rcases hf.micro.references_cases with
        ⟨d, -, -, hiff⟩ | ⟨now', ns₀, h₀, rest, queue, n, rfl, -, hiff⟩ | hsame
      · exact Or.inl ((hiff ns _).mpr (Or.inr ht))
      · by_cases heq : ns = ns₀ ∧ e.contentHash = h₀
        · -- the reference that is let go of is this one, so the event is still to be heard
          obtain ⟨rfl, rfl⟩ := heq
          exact hstill (hs.released ⟨_, hf.mem, rfl, List.mem_cons_self⟩ hkept)
        · exact Or.inl ((hiff ns _).mpr ⟨ht, heq⟩)
      · exact Or.inl ((hsame ns _).trans ht)
    · exact hstill ho
  · rw [hretention, hdocs] at hkept
    have hgoes : p.Any (Task.LetsGo ns e.contentHash) := by
      obtain ⟨u, hu, hl⟩ := hany
      rcases hf.news u hu with rfl | hu
      · rcases hf.micro.letsGo_cases hl with hl | ⟨now', queue, n, rfl, hmem⟩
        · exact ⟨t, hf.mem, hl⟩
        · -- it has just been read as releasable, so no kept entry has it
          obtain rfl : now' = now := hs.clock _ hf.mem
          exact absurd ⟨e, hkept, rfl⟩ (mem_releasable.mp hmem).2
      · exact ⟨u, hu, hl⟩
    refine (hf.owes_or (hs.released hgoes hkept)).resolve_left fun hd ↦ ?_
    -- the step is `want` for this very entry, which the condition rules out
    cases t with
    | handler d pc =>
      cases pc with
      | start =>
        obtain ⟨hns, he⟩ := Prod.mk.inj (Option.some.inj hd)
        exact hheard hns he hgoes hkept
      | _ => exact absurd hd (by simp [Task.unheard])
    | _ => exact absurd hd (by simp [Task.unheard])
  · exact hf.forall_tasks (J := fun _ u ↦ u.SweepsAt now) hs.clock
      (hf.micro.sweepsAt (hs.clock t hf.mem)) fun _ _ ↦ id

theorem arrival_step (hs : Arrival now ns e p) (hinserts : InsertsOnly ev)
    (hheard : HeardInTime now ns e p ev) (hstep : PoolStep p ev p') : Arrival now ns e p' := by
  cases hstep with
  | fire hfire =>
    obtain ⟨t', hf⟩ := hfire.fired
    exact arrival_fire hs hheard hf
  | @spawn σ ts t ht =>
    refine ⟨fun hkept ↦ (hs.kept hkept).imp_right fun ho ↦ ho.cons t, fun hany hkept ↦ ?_,
      fun u hu ↦ ?_⟩
    · obtain ⟨u, hu, hl⟩ := hany
      rcases List.mem_cons.mp hu with rfl | hu
      · exact (ht.not_letsGo hl).elim
      · exact (hs.released ⟨u, hu, hl⟩ hkept).cons t
    · rcases List.mem_cons.mp hu with rfl | hu
      · cases u with
        | sweep => exact hinserts.elim
        | _ => trivial
      · exact hs.clock u hu
  | @arrive σ ts d replaced hwatched =>
    have hnew : Owes Task.unheard (⟨{ σ with node := σ.node.replicate d.ns d.entry replaced },
        .handler d .start :: ts⟩ : TaskPool hashNew) (d.ns, d.entry) :=
      ⟨_, List.mem_cons_self, rfl⟩
    refine ⟨fun hkept ↦ ?_, fun hany hkept ↦ ?_, fun u hu ↦ ?_⟩
    · rcases kept_replicate hinserts hkept with ⟨rfl, rfl⟩ | hkept
      · exact Or.inr hnew
      · exact (hs.kept hkept).imp_right fun ho ↦ ho.cons (.handler d .start)
    · rcases kept_replicate hinserts hkept with ⟨rfl, rfl⟩ | hkept
      · exact hnew
      · obtain ⟨u, hu, hl⟩ := hany
        rcases List.mem_cons.mp hu with rfl | hu
        · exact hl.elim
        · exact (hs.released ⟨u, hu, hl⟩ hkept).cons (.handler d .start)
    · rcases List.mem_cons.mp hu with rfl | hu
      · trivial
      · exact hs.clock u hu
  | grant => exact ⟨hs.kept, hs.released, hs.clock⟩
  | land => exact ⟨hs.kept, hs.released, hs.clock⟩

/-- **A sweep drops no arrival that is heard in time.**  One sweep interleaves with any number of
insert-only arrivals and with anything else that is not a sweep.  An entry that was referenced when
the sweep began, if it was kept then, and whose event is not heard while the sweep is going to let
go of its hash is referenced when all are done, if it is kept. -/
theorem notDropped_of_heardInTime
    (hstart : Kept node.retention now (node.docs ns) e →
      node.content.isTrackedFor ns e.contentHash = true)
    (hrun : Run (Guarded (fun p ev ↦ InsertsOnly ev ∧ HeardInTime now ns e p ev) PoolStep)
      ⟨idle node, [.sweep now .start 0]⟩ evs p)
    (hend : ∀ t ∈ p.tasks, t.AtEnd)
    (hkept : Kept p.shared.node.retention now (p.shared.node.docs ns) e) :
    p.shared.node.content.isTrackedFor ns e.contentHash = true := by
  have hs : Arrival now ns e p := by
    refine hrun.invariant (I := Arrival now ns e)
      (fun p ev p' hs h ↦ arrival_step hs h.1.1 h.1.2 h.2) ?_
    refine ⟨fun hkept ↦ Or.inl (hstart hkept), fun ⟨u, hu, hl⟩ ↦ ?_, fun u hu ↦ ?_⟩
    · rw [List.mem_singleton.mp hu] at hl
      exact hl.elim
    · rw [List.mem_singleton.mp hu]
      exact rfl
  refine (hs.kept hkept).resolve_right ?_
  rintro ⟨t, ht, hd⟩
  rw [(hend t ht).unheard] at hd
  exact absurd hd (by simp)

/-- After two days nothing of `fixOnly` is kept. -/
theorem not_kept_fixOnly (ns : NamespaceId) (e : Entry) :
    ¬ Kept fixOnly.retention 200000000 (fixOnly.docs ns) e := by
  intro hkept
  by_cases hns : ns = idOf 1
  · subst hns
    obtain rfl : e = oldFix.entry := List.mem_singleton.mp (mem_getMany.mp (kept_iff.mp hkept).1).1
    exact absurd hkept (by decide)
  · have hdoc : fixOnly.docs ns = [] := Function.update_of_ne hns _ _
    rw [hdoc] at hkept
    exact absurd (kept_iff.mp hkept).1 List.not_mem_nil

/-- An entry with the content of `oldFix` that arrives after the sweep has let go of it is kept and
referenced. -/
theorem freshSlot_notDropped : ((fixForgotten.untrack zeroHash).took freshSlot false
    200000000).content.isTrackedFor (idOf 1) zeroHash = true := by
  have hrun : ∃ evs, Run (Guarded (fun p ev ↦ InsertsOnly ev ∧
        HeardInTime 200000000 (idOf 1) freshSlot.entry p ev) PoolStep)
      ⟨idle fixOnly, [.sweep 200000000 .start 0]⟩ evs
      ⟨idle ((fixForgotten.untrack zeroHash).took freshSlot false 200000000),
        [.handler freshSlot (.done []), .sweep 200000000 (.done (.ok 1)) 1]⟩ := by
    refine exists_fire [] [] (.sweep list_fixOnly) ⟨trivial, trivial⟩ ?_
    refine exists_fire [] [] (.sweep enter_fixOnly) ⟨trivial, trivial⟩ ?_
    refine exists_fire [] [] (.sweep read_fixOnly) ⟨trivial, trivial⟩ ?_
    refine exists_fire [] [] forget_fixOnly ⟨trivial, trivial⟩ ?_
    refine exists_fire [] [] (.sweep (.untrack rfl)) ⟨trivial, trivial⟩ ?_
    refine exists_fire [] [] (.sweep .leave) ⟨trivial, trivial⟩ ?_
    refine exists_fire [] [] (.sweep .finish) ⟨trivial, trivial⟩ ?_
    refine Run.exists_cons_guarded (.arrive freshSlot (fun _ ↦ false) (by decide))
      ⟨fun _ ↦ rfl, trivial⟩ ?_
    refine exists_fire [] _ (.handler .want) ⟨trivial, ?_⟩ ?_
    · rintro - - ⟨u, hu, hl⟩
      rcases List.mem_pair.mp hu with rfl | rfl <;> exact hl.elim
    refine exists_fire [] _ (.handler (.has false nofun)) ⟨trivial, trivial⟩ ?_
    refine exists_fire [] _ (.handler (.insert 200000000 rfl)) ⟨trivial, trivial⟩ ?_
    exact exists_fire [] _ (.handler .skip) ⟨trivial, trivial⟩ ⟨[], .nil _⟩
  obtain ⟨evs, hrun⟩ := hrun
  exact notDropped_of_heardInTime (fun hkept ↦ absurd hkept (not_kept_fixOnly _ _)) hrun
    (List.forall_mem_cons.mpr ⟨trivial, List.forall_mem_singleton.mpr trivial⟩) (by decide)

/-- **An arrival is dropped.**  After the sweep has read the namespace, and before it lets go of the
expired fix, a control slot with the same content arrives and is handled. -/
theorem exists_dropped_arrival : ¬ ∀ (evs : List Event) (p : TaskPool sampleHash),
    Run (Guarded (fun _ ev ↦ InsertsOnly ev) PoolStep)
      ⟨idle fixOnly, [.sweep 200000000 .start 0]⟩ evs p → (∀ t ∈ p.tasks, t.AtEnd) →
      ∀ ns e, (Kept fixOnly.retention 200000000 (fixOnly.docs ns) e →
        fixOnly.content.isTrackedFor ns e.contentHash = true) →
        p.shared.node.registry.isKnown ns = true →
          Kept p.shared.node.retention 200000000 (p.shared.node.docs ns) e →
            p.shared.node.content.isTrackedFor ns e.contentHash = true := by
  intro hall
  have hrun : ∃ evs, Run (Guarded (fun _ ev ↦ InsertsOnly ev) PoolStep)
      ⟨idle fixOnly, [.sweep 200000000 .start 0]⟩ evs
      ⟨idle (((fixOnly.took freshSlot false 200000000).forget (idOf 1) zeroHash).2.untrack
          zeroHash),
        [.handler freshSlot (.done []), .sweep 200000000 (.done (.ok 1)) 1]⟩ := by
    refine exists_fire [] [] (.sweep list_fixOnly) trivial ?_
    refine exists_fire [] [] (.sweep enter_fixOnly) trivial ?_
    refine exists_fire [] [] (.sweep read_fixOnly) trivial ?_
    refine Run.exists_cons_guarded (.arrive freshSlot (fun _ ↦ false) (by decide)) (fun _ ↦ rfl) ?_
    refine exists_fire [] _ (.handler .want) trivial ?_
    refine exists_fire [] _ (.handler (.has false nofun)) trivial ?_
    refine exists_fire [] _ (.handler (.insert 200000000 rfl)) trivial ?_
    refine exists_fire [] _ (.handler .skip) trivial ?_
    refine exists_fire [_] [] (.sweep (.forgetLast (by decide))) trivial ?_
    refine exists_fire [_] [] (.sweep (.untrack rfl)) trivial ?_
    refine exists_fire [_] [] (.sweep .leave) trivial ?_
    exact exists_fire [_] [] (.sweep .finish) trivial ⟨[], .nil _⟩
  obtain ⟨evs, hrun⟩ := hrun
  have href := hall evs _ hrun
    (List.forall_mem_cons.mpr ⟨trivial, List.forall_mem_singleton.mpr trivial⟩) (idOf 1)
    freshSlot.entry (fun hkept ↦ absurd hkept (not_kept_fixOnly _ _)) (by decide) (by decide)
  exact absurd href (by decide)

end TrailStash
