import TrailStash.Health
import TrailStash.Retained

/-!
# What is current can be downloaded

The stash is there so that the latest record of an author can be had while the author is away.  Two
guarantees have to come together for that.  A sweep must not let go of a record that it would keep,
and whatever is referenced must be fetched, stored and kept.

The first is a matter of the references: every record has one, or a reason why no later sweep keeps
it (`AllCovered`).  The second is a matter of the ledger: a missing blob is due within a minute, and
a late pass brings it (`isPresent_of_late_pass`); after that the mark goes only with the reference,
and what is marked is stored.  `current_available` is both for whole runs.
-/

set_option autoImplicit false

namespace TrailStash

open Runs StashNode TrailStash.System

variable {hashNew : Bytes → ContentHash} {s t u : System hashNew} {o : StoreOp hashNew}
  {ops ops' : List (StoreOp hashNew)} {ns : NamespaceId} {h : ContentHash} {e : Entry} {now : Nat}
  {has : ContentHash → Bool} {fetch : ∀ h, Option {bytes // hashNew bytes = h}}
  {order : IterOrder ContentHash} {policy : RetentionPolicy}

/-- Sweeps do not go back in time, and no arrival makes a released record current again. -/
def Covers (s : System hashNew) : StoreOp hashNew → Prop
  | .op op => InOrder s op ∧ UncoversNothing s op
  | _ => True

/-- The record is in the replica, and the latest sweep had no reason to release it. -/
def Current (ns : NamespaceId) (e : Entry) (s : System hashNew) : Prop :=
  Kept s.node.retention s.sweptAt (s.node.docs ns) e

/-- **Every step keeps the records covered.** -/
theorem allCovered_store (hs : AllCovered s) (hcovers : Covers s o) : AllCovered (s.store o) := by
  cases o with
  | op op => exact allCovered_step hs hcovers.1 hcovers.2
  | land bytes => exact hs
  | collect spared => exact hs

theorem allCovered_of_run {G : System hashNew → StoreOp hashNew → Prop}
    (hrun : Run (Guarded (fun s o ↦ G s o ∧ Covers s o) StoreStep) (System.boot hashNew policy) ops
      s) : AllCovered s := by
  refine hrun.invariant (I := AllCovered) (fun s o t hs hst ↦ ?_) fun ns e he ↦ ?_
  · obtain ⟨⟨-, hcovers⟩, -, rfl⟩ := hst
    exact allCovered_store hs hcovers
  · exact absurd he (by simp [System.boot, StashNode.boot, getMany])

/-- A current record has its reference. -/
theorem Current.isTrackedFor (hcurrent : Current ns e s) (hs : AllCovered s) :
    s.node.content.isTrackedFor ns e.contentHash = true := by
  obtain ⟨he, hsup, hexp⟩ := kept_iff.mp hcurrent
  rcases hs ns e he with ht | hsup' | hexp'
  · exact ht
  · exact absurd hsup' hsup
  · exact absurd hexp' (by simp [hexp])

/-- What carries the bytes of the record through a run. -/
structure Available (h : ContentHash) (s : System hashNew) : Prop where
  /-- Every record has its reference. -/
  covered : AllCovered s
  /-- The ledger, the index and the store agree. -/
  consistent : Consistent s.node
  /-- The bytes are marked present. -/
  present : s.node.content.isPresent h = true

/-- **A step keeps the bytes of a record that stays current.** -/
theorem Available.step (hs : Available e.contentHash s) (hcovers : Covers s o)
    (hst : StoreStep s o t) (hcurrent : Current ns e t) : Available e.contentHash t := by
  have hafter : Consistent t.node := hs.consistent.store hst
  obtain ⟨-, rfl⟩ := hst
  have hcovered := allCovered_store hs.covered hcovers
  have htracked := ContentIndex.isTracked_of_isTrackedFor (hcurrent.isTrackedFor hcovered)
  exact ⟨hcovered, hafter, isPresent_store hs.present htracked⟩

/-- **What is current can be downloaded.**  Take any run of whole operations in which the attempts
of `fetch_content` succeed from the time `T` on, the sweeps do not go back in time, and no arrival
makes a released record current again.  From the first pass that comes a minute or more after `T`, a
record can be downloaded by its namespace for as long as it is current: neither superseded nor, by
the time of the latest sweep, expired.  Whether the peers are still there after that pass does not
matter, nor what else is done. -/
theorem current_available {isEndpoint : EndpointId → Bool} {T : Nat}
    (hrun : Run (Guarded (fun s o ↦ Answered isEndpoint T s o ∧ Covers s o) StoreStep)
      (System.boot hashNew policy) ops s)
    (hpass : Guarded (Answered isEndpoint T) StoreStep s (.op (.settle now order has fetch)) t)
    (hnow : T + 60000 ≤ now) (hcurrent : Current ns e t)
    (hrest : Run (Guarded (fun s o ↦ Covers s o ∧ Current ns e (s.store o)) StoreStep) t ops' u) :
    ∃ b, u.node.contentBytes ns e.contentHash = some b ∧ hashNew b = e.contentHash := by
  have hs : Consistent s.node := .run hrun.of_guarded
  have hdue : DueBy (T + 60000) s.node := dueBy_of_run (hrun.mono fun _ _ _ h ↦ ⟨h.1.1, h.2⟩)
  have hcovered : AllCovered t := by
    obtain ⟨-, -, rfl⟩ := hpass
    exact allCovered_store (allCovered_of_run hrun) ⟨trivial, trivial⟩
  have htracked := ContentIndex.isTracked_of_isTrackedFor (hcurrent.isTrackedFor hcovered)
  have hpresent := isPresent_of_late_pass hs hdue hpass hnow htracked
  have hafter : Available e.contentHash u ∧ Current ns e u := hrest.invariant
    (I := fun s ↦ Available e.contentHash s ∧ Current ns e s)
    (fun s o t hinv hst ↦ by
      obtain ⟨⟨hcovers, hstays⟩, hallowed, rfl⟩ := hst
      exact ⟨hinv.1.step hcovers ⟨hallowed, rfl⟩ hstays, hstays⟩)
    ⟨⟨hcovered, hs.store hpass.2, hpresent⟩, hcurrent⟩
  obtain ⟨⟨hcovered', hconsistent, hpresent'⟩, hcurrent'⟩ := hafter
  exact hconsistent.contentBytes (hcurrent'.isTrackedFor hcovered') hpresent'

end TrailStash
