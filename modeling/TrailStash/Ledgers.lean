import TrailStash.Tasks

/-!
# The fetch ledger and the content index

The same hashes should be on the ledger `tracked` and in the content index, but the two sit behind
different locks and every operation updates them one after the other.  A task between its two
updates has a *debt*: a handler that has called `want` owes the ledger an entry, a sweep that has
called `forget` owes it a removal, and a handler that has put an entry down as present owes the
index the mark.  `Agree` says that the two maps differ by debts only.

The debts may be paid in the wrong order.  A sweep that removes a hash for which a handler has
meanwhile done both its updates takes away what that handler put there, and a handler that adds a
hash which a sweep has meanwhile forgotten and removed leaves it there for good
(`exists_disagreement`).  `PaysInOrder` rules out exactly these two steps.
-/

set_option autoImplicit false

namespace TrailStash

open Runs StashNode
open Pool (Alone Owes Fired)

/-! ## Debts -/

/-- What a task in the middle of its steps still owes. -/
inductive Debt
  /-- An entry on the ledger for a hash that is in the index. -/
  | insert (h : ContentHash)
  /-- A mark in the index for a hash that the ledger says is present. -/
  | mark (h : ContentHash)
  /-- The removal from the ledger of a hash that has left the index. -/
  | untrack (h : ContentHash)
  deriving DecidableEq

/-- The debt of a task. -/
def Task.debt : Task → Option Debt
  | .handler d .wanted => some (.insert d.hash)
  | .handler d (.found _) => some (.insert d.hash)
  | .handler d (.inserted true _ _) => some (.mark d.hash)
  | .sweep _ (.untracking _ h _ _) _ => some (.untrack h)
  | _ => none

/-- A task that is not in the middle of its steps; a collection is none of those that count. -/
def Task.Resting (t : Task) : Prop :=
  t.AtStart ∨ t.AtEnd ∨ (∃ d, t = .handler d .start) ∨ ∃ pc, t = .gc pc

theorem Task.Resting.debt {t : Task} (h : t.Resting) : t.debt = none := by
  rcases h with h | h | ⟨d, rfl⟩ | ⟨pc, rfl⟩
  · exact h.elim (P := fun t ↦ t.debt = none) (fun _ ↦ rfl) (fun _ _ _ ↦ rfl) (fun _ ↦ rfl) rfl
  · cases t with
    | sweep now pc n => cases pc <;> first | rfl | exact h.elim
    | handler d pc => cases pc <;> first | rfl | exact h.elim
    | _ => rfl
  · rfl
  · rfl

/-! ## The invariant, and what each update does to it -/

variable {hashNew : Bytes → ContentHash}

/-- The ledger and the index differ by debts only. -/
structure Agree (node : StashNode hashNew) (owes : Debt → Prop) : Prop where
  /-- A hash of the index is on the ledger or is about to be. -/
  index : ∀ h, node.content.isTracked h = true → h ∈ node.tracked ∨ owes (.insert h)
  /-- A hash on the ledger is in the index or is about to leave. -/
  ledger : ∀ h ∈ node.tracked, node.content.isTracked h = true ∨ owes (.untrack h)
  /-- A hash that the ledger calls present is marked, or is about to be, or to leave. -/
  bytes : ∀ h live, node.tracked.lookup h = some live → live.contentPresent = true →
    node.content.isPresent h = true ∨ owes (.untrack h) ∨ owes (.mark h)

namespace Agree

variable {node node' : StashNode hashNew} {owes owes' : Debt → Prop} {ns : NamespaceId}
  {h : ContentHash} {entry : TrackedEntry} {now : Nat} {present : Bool}

/-- Neither map changes, and no debt is lost. -/
theorem mono (hs : Agree node owes) (hcontent : node'.content = node.content)
    (htracked : node'.tracked = node.tracked) (hkeep : ∀ d, owes d → owes' d) :
    Agree node' owes' := by
  refine ⟨fun h ↦ ?_, fun h ↦ ?_, fun h live ↦ ?_⟩
  · rw [hcontent, htracked]
    exact fun ht ↦ (hs.index h ht).imp_right (hkeep _)
  · rw [hcontent, htracked]
    exact fun ht ↦ (hs.ledger h ht).imp_right (hkeep _)
  · rw [hcontent, htracked]
    exact fun hl hp ↦ (hs.bytes h live hl hp).imp_right (Or.imp (hkeep _) (hkeep _))

theorem want (hs : Agree node owes) (hkeep : ∀ d, owes d → owes' d) (hnew : owes' (.insert h)) :
    Agree (node.want ns h) owes' := by
  refine ⟨fun h' ht ↦ ?_, fun h' ht ↦ ?_, fun h' live hl hp ↦ ?_⟩
  · rcases ContentIndex.isTracked_want.mp ht with rfl | ht
    · exact Or.inr hnew
    · exact (hs.index h' ht).imp_right (hkeep _)
  · rcases hs.ledger h' ht with ht | ho
    · exact Or.inl (ContentIndex.isTracked_want.mpr (Or.inr ht))
    · exact Or.inr (hkeep _ ho)
  · refine (hs.bytes h' live hl hp).imp (fun hm ↦ ?_) (Or.imp (hkeep _) (hkeep _))
    exact ContentIndex.isPresent_want.trans hm

/-- The handler's entry.  The hash must still be in the index, or a sweep about to remove it. -/
theorem orInsert (hs : Agree node owes) (hkeep : ∀ d, owes d → d = .insert h ∨ owes' d)
    (hmark : entry.contentPresent = true → owes' (.mark h))
    (horder : node.content.isTracked h = true ∨ owes (.untrack h)) :
    Agree (node.orInsert h entry).2 owes' := by
  have hkeep' : ∀ h', owes (.untrack h') → owes' (.untrack h') :=
    fun h' ho ↦ (hkeep _ ho).resolve_left nofun
  have hkeep'' : ∀ h', owes (.mark h') → owes' (.mark h') :=
    fun h' ho ↦ (hkeep _ ho).resolve_left nofun
  refine ⟨fun h' ht ↦ ?_, fun h' ht ↦ ?_, fun h' live hl hp ↦ ?_⟩
  · rw [mem_tracked_orInsert]
    rcases hs.index h' ht with hmem | ho
    · exact Or.inl (Or.inr hmem)
    · rcases hkeep _ ho with hd | ho
      · exact Or.inl (Or.inl (Debt.insert.inj hd))
      · exact Or.inr ho
  · rcases mem_tracked_orInsert.mp ht with rfl | ht
    · exact horder.imp_right (hkeep' h')
    · exact (hs.ledger h' ht).imp_right (hkeep' h')
  · have hold : ∀ live', node.tracked.lookup h' = some live' → live'.contentPresent = true →
        node.content.isPresent h' = true ∨ owes' (.untrack h') ∨ owes' (.mark h') :=
      fun live' hl' hp' ↦
        (hs.bytes h' live' hl' hp').imp_right (Or.imp (hkeep' h') (hkeep'' h'))
    by_cases hh : h' = h
    · subst hh
      rw [lookup_orInsert_self, Option.some_inj] at hl
      cases hlook : node.tracked.lookup h' with
      | some live' =>
        rw [hlook, Option.getD_some] at hl
        exact hold live' hlook (hl ▸ hp)
      | none =>
        rw [hlook, Option.getD_none] at hl
        exact Or.inr (Or.inr (hmark (hl ▸ hp)))
    · rw [lookup_orInsert_of_ne hh] at hl
      exact hold live hl hp

theorem markPresent (hs : Agree node owes) (hkeep : ∀ d, owes d → d = .mark h ∨ owes' d) :
    Agree (node.markPresent h) owes' := by
  have hkeep' : ∀ h', owes (.untrack h') → owes' (.untrack h') :=
    fun h' ho ↦ (hkeep _ ho).resolve_left nofun
  refine ⟨fun h' ht ↦ ?_, fun h' ht ↦ ?_, fun h' live hl hp ↦ ?_⟩
  · have ht' : node.content.isTracked h' = true := ContentIndex.isTracked_markPresent ▸ ht
    exact (hs.index h' ht').imp_right fun ho ↦ (hkeep _ ho).resolve_left nofun
  · refine (hs.ledger h' ht).imp (fun ht' ↦ ?_) (hkeep' h')
    exact ContentIndex.isTracked_markPresent.trans ht'
  · rcases hs.bytes h' live hl hp with hm | ho | ho
    · exact Or.inl (ContentIndex.isPresent_markPresent.mpr (Or.inr hm))
    · exact Or.inr (Or.inl (hkeep' h' ho))
    · rcases hkeep _ ho with hd | ho
      · -- the mark lands, unless the hash has left the index; then a sweep is about to remove it
        obtain rfl : h' = h := Debt.mark.inj hd
        rcases hs.ledger h' (Finmap.mem_of_lookup_eq_some hl) with ht | ho
        · exact Or.inl (ContentIndex.isPresent_markPresent.mpr (Or.inl ⟨rfl, ht⟩))
        · exact Or.inr (Or.inl (hkeep' h' ho))
      · exact Or.inr (Or.inr ho)

theorem forget (hs : Agree node owes) (hkeep : ∀ d, owes d → owes' d)
    (hlast : (node.forget ns h).1 = true → owes' (.untrack h)) :
    Agree (node.forget ns h).2 owes' := by
  -- a hash leaves the index only as `h`, and then its removal is owed
  have hleave : ∀ h', node.content.isTracked h' = true →
      (node.forget ns h).2.content.isTracked h' = true ∨ owes' (.untrack h') := by
    intro h' ht
    cases hfst : (node.forget ns h).1 with
    | true =>
      by_cases hh : h' = h
      · exact Or.inr (hh ▸ hlast hfst)
      · exact Or.inl ((ContentIndex.isTracked_forget_of_ne hh).trans ht)
    | false => exact Or.inl ((ContentIndex.isTracked_forget_of_not_last hfst).trans ht)
  refine ⟨fun h' ht ↦ ?_, fun h' ht ↦ ?_, fun h' live hl hp ↦ ?_⟩
  · exact (hs.index h' (ContentIndex.isTracked_of_isTracked_forget ht)).imp_right (hkeep _)
  · rcases hs.ledger h' ht with ht | ho
    · exact hleave h' ht
    · exact Or.inr (hkeep _ ho)
  · rcases hs.bytes h' live hl hp with hm | ho | ho
    · rcases hleave h' (ContentIndex.isTracked_of_isPresent hm) with ht | ho
      · exact Or.inl (ContentIndex.isPresent_forget.mpr ⟨hm, ht⟩)
      · exact Or.inr (Or.inl ho)
    · exact Or.inr (Or.inl (hkeep _ ho))
    · exact Or.inr (Or.inr (hkeep _ ho))

/-- The sweep's removal.  The hash must have left the index, or a handler be about to put it back
on the ledger. -/
theorem untrack (hs : Agree node owes) (hkeep : ∀ d, owes d → d = .untrack h ∨ owes' d)
    (horder : node.content.isTracked h = false ∨ owes (.insert h)) :
    Agree (node.untrack h) owes' := by
  have hother : ∀ h', h' ∈ (node.untrack h).tracked → h' ≠ h ∧ h' ∈ node.tracked :=
    fun h' ht ↦ Finmap.mem_erase.mp ht
  refine ⟨fun h' ht ↦ ?_, fun h' ht ↦ ?_, fun h' live hl hp ↦ ?_⟩
  · have hkeep' : owes (.insert h') → owes' (.insert h') :=
      fun ho ↦ (hkeep _ ho).resolve_left nofun
    by_cases hh : h' = h
    · subst hh
      have ht' : node.content.isTracked h' = true := ht
      exact Or.inr (hkeep' (horder.resolve_left (by simp [ht'])))
    · exact (hs.index h' ht).imp (fun hmem ↦ Finmap.mem_erase.mpr ⟨hh, hmem⟩) hkeep'
  · obtain ⟨hne, hmem⟩ := hother h' ht
    refine (hs.ledger h' hmem).imp_right fun ho ↦ (hkeep _ ho).resolve_left fun hd ↦ ?_
    exact hne (Debt.untrack.inj hd)
  · obtain ⟨hne, -⟩ := hother h' (Finmap.mem_of_lookup_eq_some hl)
    have hlook : node.tracked.lookup h' = some live := (Finmap.lookup_erase_ne hne).symm.trans hl
    rcases hs.bytes h' live hlook hp with hm | ho | ho
    · exact Or.inl hm
    · exact Or.inr (Or.inl ((hkeep _ ho).resolve_left fun hd ↦ hne (Debt.untrack.inj hd)))
    · exact Or.inr (Or.inr ((hkeep _ ho).resolve_left nofun))

/-- What a settle pass writes back. -/
theorem writeBack (hs : Agree node owes) (hkeep : ∀ d, owes d → owes' d) :
    Agree (node.writeBack now h entry present).1 owes' := by
  cases hlook : node.tracked.lookup h with
  | none =>
    rw [tracked_writeBack_of_none hlook]
    exact hs.mono rfl rfl hkeep
  | some live =>
    have hold : ∀ h' l, node.tracked.lookup h' = some l → l.contentPresent = true →
        (node.writeBack now h entry present).1.content.isPresent h' = true ∨
          owes' (.untrack h') ∨ owes' (.mark h') := fun h' l hl hp ↦
      (hs.bytes h' l hl hp).imp isPresent_writeBack_of_isPresent (Or.imp (hkeep _) (hkeep _))
    refine ⟨fun h' ht ↦ ?_, fun h' ht ↦ ?_, fun h' live' hl hp ↦ ?_⟩
    · rw [mem_tracked_writeBack]
      exact (hs.index h' (isTracked_writeBack ▸ ht)).imp_right (hkeep _)
    · rw [isTracked_writeBack]
      exact (hs.ledger h' (mem_tracked_writeBack.mp ht)).imp_right (hkeep _)
    · by_cases hh : h' = h
      · subst hh
        rw [lookup_writeBack_self hlook, Option.some_inj] at hl
        rw [← hl, TrackedEntry.contentPresent_visited, Bool.or_eq_true] at hp
        rcases hp with hp | rfl
        · exact hold h' live hlook hp
        · -- marked in the same step, unless a sweep is about to remove the hash
          have hmem : h' ∈ node.tracked := Finmap.mem_of_lookup_eq_some hlook
          rcases hs.ledger h' hmem with ht | ho
          · exact Or.inl (isPresent_writeBack_self hmem ht)
          · exact Or.inr (Or.inl (hkeep _ ho))
      · rw [lookup_writeBack_of_ne hh] at hl
        exact hold h' live' hl hp

end Agree

/-! ## Interleavings -/

variable {p p' q : TaskPool hashNew} {ev : Event} {evs : List Event} {t t' : Task}
  {policy : RetentionPolicy}

/-- The two steps that can pay a debt in the wrong order do not: a sweep removes a hash from the
ledger only while it is out of the index or a handler is about to put it back, and a handler adds a
hash to the ledger only while it is in the index or a sweep is about to remove it. -/
def PaysInOrder (p : TaskPool hashNew) : Event → Prop
  | .fire (.sweep _ (.untracking _ h _ _) _) =>
    p.shared.node.content.isTracked h = false ∨ Owes Task.debt p (.insert h)
  | .fire (.handler d (.found _)) =>
    p.shared.node.content.isTracked d.hash = true ∨ Owes Task.debt p (.untrack d.hash)
  | _ => True

/-- The invariant of the pool. -/
def LedgersAgree (p : TaskPool hashNew) : Prop := Agree p.shared.node (Owes Task.debt p)

theorem agree_handler {σ σ' : Shared hashNew} {ts ts' : List Task} {d : Delivery}
    {pc pc' : HandlerPc} (hs : LedgersAgree ⟨σ, ts⟩) (hstep : HandlerStep d σ pc σ' pc')
    (hf : Fired Micro ⟨σ, ts⟩ (.handler d pc) ⟨σ', ts'⟩ (.handler d pc'))
    (horder : PaysInOrder ⟨σ, ts⟩ (.fire (.handler d pc))) : LedgersAgree ⟨σ', ts'⟩ := by
  cases hstep with
  | want => exact hs.want (fun _ ↦ hf.owes_of_none rfl) (hf.owes_new rfl)
  | has => exact hs.mono rfl rfl fun _ ↦ hf.owes_of_eq rfl
  | @insert present now hfree =>
    refine hs.orInsert (fun δ ho ↦ ?_) (fun hp ↦ ?_) horder
    · exact (hf.owes_or ho).imp_left fun hd ↦ (Option.some.inj hd).symm
    · obtain rfl : present = true := hp
      exact hf.owes_new rfl
  | mark =>
    refine hs.markPresent fun δ ho ↦ ?_
    exact (hf.owes_or ho).imp_left fun hd ↦ (Option.some.inj hd).symm
  | skip => exact hs.mono rfl rfl fun _ ↦ hf.owes_of_none rfl

theorem agree_settle {σ σ' : Shared hashNew} {ts ts' : List Task} {now : Nat} {pc pc' : SettlePc}
    {ws ws' : List Wake} (hs : LedgersAgree ⟨σ, ts⟩)
    (hstep : SettleStep now σ (pc, ws) σ' (pc', ws'))
    (hf : Fired Micro ⟨σ, ts⟩ (.settle now pc ws) ⟨σ', ts'⟩ (.settle now pc' ws')) :
    LedgersAgree ⟨σ', ts'⟩ := by
  have hkeep : ∀ δ, Owes Task.debt ⟨σ, ts⟩ δ → Owes Task.debt ⟨σ', ts'⟩ δ :=
    fun _ ↦ hf.owes_of_none rfl
  cases hstep with
  | write => exact hs.writeBack hkeep
  | _ => exact hs.mono rfl rfl hkeep

theorem agree_put {σ σ' : Shared hashNew} {ts ts' : List Task} {ns : NamespaceId} {h : ContentHash}
    {bytes : Bytes} {pc pc' : PutPc} (hs : LedgersAgree ⟨σ, ts⟩)
    (hstep : PutStep ns h bytes σ pc σ' pc')
    (hf : Fired Micro ⟨σ, ts⟩ (.put ns h bytes pc) ⟨σ', ts'⟩ (.put ns h bytes pc')) :
    LedgersAgree ⟨σ', ts'⟩ := by
  have hkeep : ∀ δ, Owes Task.debt ⟨σ, ts⟩ δ → Owes Task.debt ⟨σ', ts'⟩ δ :=
    fun _ ↦ hf.owes_of_none rfl
  cases hstep with
  | mark => exact hs.markPresent fun δ ho ↦ Or.inr (hkeep δ ho)
  | _ => exact hs.mono rfl rfl hkeep

theorem agree_sweep {σ σ' : Shared hashNew} {ts ts' : List Task} {now : Nat} {pc pc' : SweepPc}
    {n n' : Nat} (hs : LedgersAgree ⟨σ, ts⟩) (hstep : SweepStep now σ (pc, n) σ' (pc', n'))
    (hf : Fired Micro ⟨σ, ts⟩ (.sweep now pc n) ⟨σ', ts'⟩ (.sweep now pc' n'))
    (horder : PaysInOrder ⟨σ, ts⟩ (.fire (.sweep now pc n))) : LedgersAgree ⟨σ', ts'⟩ := by
  cases hstep with
  | forgetLast => exact hs.forget (fun _ ↦ hf.owes_of_none rfl) fun _ ↦ hf.owes_new rfl
  | forget hlast =>
    exact hs.forget (fun _ ↦ hf.owes_of_none rfl) fun hc ↦ absurd hc (by simp [hlast])
  | untrack =>
    refine hs.untrack (fun δ ho ↦ ?_) horder
    exact (hf.owes_or ho).imp_left fun hd ↦ (Option.some.inj hd).symm
  | _ => exact hs.mono rfl rfl fun _ ↦ hf.owes_of_none rfl

/-- **Every step keeps the two maps in agreement**, if it pays in order. -/
theorem ledgersAgree_step (hs : LedgersAgree p) (horder : PaysInOrder p ev)
    (hstep : PoolStep p ev p') : LedgersAgree p' := by
  cases hstep with
  | @fire p p' t hfire =>
    obtain ⟨t', hf⟩ := hfire.fired
    obtain ⟨σ, ts⟩ := p
    obtain ⟨σ', ts'⟩ := p'
    cases hf.micro with
    | handler h => exact agree_handler hs h hf horder
    | settle h => exact agree_settle hs h hf
    | put h => exact agree_put hs h hf
    | sweep h => exact agree_sweep hs h hf horder
    | gc h => cases h <;> exact hs.mono rfl rfl fun _ ↦ hf.owes_of_none rfl
  | @spawn σ ts t ht => exact hs.mono rfl rfl fun _ ho ↦ ho.cons t
  | arrive d => exact hs.mono rfl rfl fun _ ho ↦ ho.cons (.handler d .start)
  | grant => exact hs.mono rfl rfl fun _ ↦ id
  | land => exact hs.mono rfl rfl fun _ ↦ id

/-- No task is in the middle of its steps. -/
def Quiescent (p : TaskPool hashNew) : Prop := ∀ t ∈ p.tasks, t.Resting

theorem quiescent_of_atEnd {σ : Shared hashNew} {ts : List Task} (h : ∀ t ∈ ts, t.AtEnd) :
    Quiescent ⟨σ, ts⟩ := fun t ht ↦ Or.inr (Or.inl (h t ht))

theorem not_owes_of_quiescent (hq : Quiescent p) (d : Debt) : ¬ Owes Task.debt p d := by
  rintro ⟨t, ht, hd⟩
  rw [(hq t ht).debt] at hd
  exact absurd hd (by simp)

/-- The ledger and the index as an outsider sees them: the same hashes, those the ledger calls
present marked in the index, and so every hash the index counts as missing still looked after. -/
structure InStep (node : StashNode hashNew) : Prop where
  /-- The two maps have the same keys. -/
  keys : node.tracked.keys = node.content.state.keys
  /-- What the ledger calls present is marked. -/
  present : ∀ h live, node.tracked.lookup h = some live → live.contentPresent = true →
    node.content.isPresent h = true
  /-- What the index counts as missing the settle loop still chases. -/
  missing : ∀ h, node.content.state.lookup h = some .wanted →
    ∃ live, node.tracked.lookup h = some live ∧ live.contentPresent = false

/-- **The fetch ledger and the content index agree.**  In a run whose steps pay in order, whenever
no task is in the middle of its steps the two are in step. -/
theorem inStep_of_paysInOrder
    (hrun : Run (Guarded PaysInOrder PoolStep) (bootPool hashNew policy) evs p)
    (hq : Quiescent p) : InStep p.shared.node := by
  have hs : LedgersAgree p := by
    refine hrun.invariant (I := LedgersAgree) (fun p ev p' hs h ↦ ledgersAgree_step hs h.1 h.2) ?_
    refine ⟨fun h ht ↦ ?_, fun h hmem ↦ ?_, fun h live hl ↦ ?_⟩
    · exact absurd (ContentIndex.isTracked_iff.mp ht) (by simp [bootPool, boot])
    · exact absurd hmem Finmap.notMem_empty
    · exact absurd hl (by simp [bootPool, boot])
  have hnone := not_owes_of_quiescent hq
  have hkeys : ∀ h, h ∈ p.shared.node.tracked ↔ h ∈ p.shared.node.content.state := by
    intro h
    refine ⟨fun hmem ↦ ?_, fun hmem ↦ ?_⟩
    · exact of_decide_eq_true ((hs.ledger h hmem).resolve_right (hnone _))
    · exact (hs.index h (decide_eq_true hmem)).resolve_right (hnone _)
  have hpresent : ∀ h live, p.shared.node.tracked.lookup h = some live →
      live.contentPresent = true → p.shared.node.content.isPresent h = true := fun h live hl hp ↦
    (hs.bytes h live hl hp).resolve_right fun ho ↦ ho.elim (hnone _) (hnone _)
  refine ⟨?_, hpresent, fun h hw ↦ ?_⟩
  · ext h
    rw [Finmap.mem_keys, Finmap.mem_keys, hkeys]
  · obtain ⟨live, hlive⟩ := Finmap.mem_iff.mp ((hkeys h).mpr (Finmap.mem_of_lookup_eq_some hw))
    refine ⟨live, hlive, Bool.eq_false_iff.mpr fun hp ↦ ?_⟩
    have hm := ContentIndex.isPresent_iff.mp (hpresent h live hlive hp)
    rw [hw] at hm
    exact absurd hm (by simp)

/-- A fix is handled and then swept: index and ledger are in step. -/
theorem inStep_fixSwept : InStep (fixForgotten.untrack zeroHash) := by
  have hrun : ∃ evs, Run (Guarded PaysInOrder PoolStep) (bootPool sampleHash (.fromHours 24)) evs
      ⟨idle (fixForgotten.untrack zeroHash),
        [.sweep 200000000 (.done (.ok 1)) 1, .handler oldFix (.done [])]⟩ := by
    refine Run.exists_cons_guarded (.grant (idOf 1) none) trivial ?_
    refine Run.exists_cons_guarded (.arrive oldFix (fun _ ↦ false) rfl) trivial ?_
    refine exists_fire [] [] (.handler .want) trivial ?_
    refine exists_fire [] [] (.handler (.has false nofun)) trivial ?_
    refine exists_fire [] [] (.handler (.insert 1000 rfl)) (Or.inl (by decide)) ?_
    refine exists_fire [] [] (.handler .skip) trivial ?_
    refine Run.exists_cons_guarded (.spawn (t := .sweep 200000000 .start 0) rfl) trivial ?_
    refine exists_fire [] _ (.sweep list_fixOnly) trivial ?_
    refine exists_fire [] _ (.sweep enter_fixOnly) trivial ?_
    refine exists_fire [] _ (.sweep read_fixOnly) trivial ?_
    refine exists_fire [] _ forget_fixOnly trivial ?_
    refine exists_fire [] _ (.sweep (.untrack rfl)) (Or.inl (by decide)) ?_
    refine exists_fire [] _ (.sweep .leave) trivial ?_
    exact exists_fire [] _ (.sweep .finish) trivial ⟨[], .nil _⟩
  obtain ⟨evs, hrun⟩ := hrun
  exact inStep_of_paysInOrder hrun <| quiescent_of_atEnd <|
    List.forall_mem_cons.mpr ⟨trivial, List.forall_mem_singleton.mpr trivial⟩

/-- **The ledger loses a hash.**  While a sweep is between letting go of a hash and removing it from
the ledger, another entry with the same content is handled.  In the end the index counts the hash
as missing, and nothing chases it. -/
theorem exists_disagreement : ¬ ∀ (evs : List Event) (p : TaskPool sampleHash),
    Run PoolStep (bootPool sampleHash (.fromHours 24)) evs p → Quiescent p →
      InStep p.shared.node := by
  intro hall
  let node := fixForgotten.took freshSlot false 200000000
  obtain ⟨_, ws, hfix⟩ := run_fixOnly
  let ts := [Task.handler oldFix (.done ws)]
  obtain ⟨_, hsweep⟩ := run_of_alone [] ts (read_alone.trans (.step forget_fixOnly (.refl _ _)))
  obtain ⟨_, ws', harrive⟩ := run_took fixForgotten freshSlot false 200000000
    (.sweep 200000000 (.untracking (idOf 1) zeroHash [] []) 0 :: ts) (by decide) nofun
  have hend : Alone Micro (idle node) (.sweep 200000000 (.untracking (idOf 1) zeroHash [] []) 0)
      (idle (node.untrack zeroHash)) (.sweep 200000000 (.done (.ok 1)) 1) :=
    .step (.sweep (.untrack rfl)) (.step (.sweep .leave) (.step (.sweep .finish) (.refl _ _)))
  obtain ⟨_, hlast⟩ := run_of_alone [.handler freshSlot (.done ws')] ts hend
  have hrun := hfix.append ((Run.cons (.spawn rfl) hsweep).append (harrive.append hlast))
  have hquiet : Quiescent ⟨idle (node.untrack zeroHash), [.handler freshSlot (.done ws'),
      .sweep 200000000 (.done (.ok 1)) 1, .handler oldFix (.done ws)]⟩ :=
    quiescent_of_atEnd <| List.forall_mem_cons.mpr
      ⟨trivial, List.forall_mem_cons.mpr ⟨trivial, List.forall_mem_singleton.mpr trivial⟩⟩
  have hlost : ((fixForgotten.took freshSlot false 200000000).untrack zeroHash).tracked.keys ≠
      ((fixForgotten.took freshSlot false 200000000).untrack zeroHash).content.state.keys := by
    decide
  exact hlost (hall _ _ hrun hquiet).keys

end TrailStash
