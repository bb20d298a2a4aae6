import TrailStash.Lib.Pool
import TrailStash.System

/-!
# The operations as interleaved tasks

Between two of its awaits and locks an operation runs alone, but not from its start to its end.
Here the operations are taken apart into these atomic steps, and `PoolStep` runs any number of
them against one node in any order.

The two mutexes differ.  `content` is a blocking mutex whose critical sections contain no await,
so one of them is one step.  `tracked` is an asynchronous one, and the settle pass holds it while
it takes the content lock; `trackedHeld` says that some pass is between the two, and whoever else
needs `tracked` has to wait.  What the pass writes to the live entry in the meantime nobody can
see, so it is written with the content step.

The blob collector is a task as well: it takes the set of stored blobs that the content index does
not protect, and in a later step deletes those of them that no tag names.

`handler_alone`, `settle_alone`, `put_alone` and `sweep_alone` are the connection with the atomic
operations: a task whose steps nobody interrupts does what the operation of `Node.lean`,
`Settle.lean` or `Sweep.lean` does.
-/

set_option autoImplicit false

namespace TrailStash

open Runs StashNode

/-! ## The tasks -/

/-- An `InsertRemote` event, as the watcher of a namespace receives it. -/
structure Delivery where
  /-- The watched namespace. -/
  ns : NamespaceId
  /-- The record. -/
  entry : Entry
  /-- The peer it came from. -/
  deliveredBy : EndpointId
  deriving DecidableEq

/-- The content hash an event is about. -/
abbrev Delivery.hash (d : Delivery) : ContentHash := d.entry.contentHash

/-- The ledger entry that the handler makes. -/
abbrev Delivery.arrived (d : Delivery) (present : Bool) (now : Nat) : TrackedEntry :=
  .arrived d.ns d.entry d.deliveredBy present now

/-- Where the handler of an event is. -/
inductive HandlerPc
  /-- About to take the content lock for `want`. -/
  | start
  /-- About to ask the blob store. -/
  | wanted
  /-- The blob store has answered; about to take the tracked lock. -/
  | found (present : Bool)
  /-- `known` was read back; about to take the content lock if the bytes are here. -/
  | inserted (present known : Bool) (entry : TrackedEntry)
  /-- Finished, with these calls of `wake_for`. -/
  | done (wakes : List Wake)

/-- Where a settle pass is; `rest` are the copies still to visit. -/
inductive SettlePc
  /-- About to take the tracked lock for the copies. -/
  | start
  /-- At the head of the loop. -/
  | next (rest : List (ContentHash × TrackedEntry))
  /-- The blob store does not have the bytes and a retry is due. -/
  | fetching (h : ContentHash) (entry : TrackedEntry) (rest : List (ContentHash × TrackedEntry))
  /-- The answer is known; about to take the tracked lock. -/
  | found (h : ContentHash) (entry : TrackedEntry) (present : Bool)
      (rest : List (ContentHash × TrackedEntry))
  /-- Holds the tracked lock; about to take the content lock. -/
  | holding (h : ContentHash) (entry : TrackedEntry) (present : Bool)
      (rest : List (ContentHash × TrackedEntry))
  /-- Finished. -/
  | done

/-- Where an upload is. -/
inductive PutPc
  /-- About to ask the registry. -/
  | start
  /-- The namespace is known; about to take the content lock for the check. -/
  | known
  /-- The checks have passed; awaiting `add_bytes`. -/
  | adding
  /-- `add_bytes` has returned this hash. -/
  | added (tagHash : ContentHash)
  /-- Finished; `none` is an error of the blob store. -/
  | done (outcome : Option PutOutcome)

/-- Where a sweep is; `queue` are the namespaces still to visit. -/
inductive SweepPc
  /-- About to ask the registry for the namespaces. -/
  | start
  /-- At the head of the outer loop. -/
  | visiting (queue : List NamespaceId)
  /-- The handle of `ns` is at hand; about to read its entries. -/
  | reading (ns : NamespaceId) (queue : List NamespaceId)
  /-- At the head of the inner loop, with these hashes of `ns` to let go of. -/
  | forgetting (ns : NamespaceId) (hashes : List ContentHash) (queue : List NamespaceId)
  /-- The last reference to `h` is gone; about to take the tracked lock. -/
  | untracking (ns : NamespaceId) (h : ContentHash) (hashes : List ContentHash)
      (queue : List NamespaceId)
  /-- Finished. -/
  | done (result : Except PruneError Nat)

/-- Where a collection of the blob store is. -/
inductive GcPc
  /-- About to take the protected set. -/
  | start
  /-- These blobs were stored and not protected. -/
  | marked (dead : ContentHash → Bool)
  /-- Finished. -/
  | done

/-- A task: what it is given, and where it is. -/
inductive Task
  /-- The handler of an event. -/
  | handler (d : Delivery) (pc : HandlerPc)
  /-- A settle pass at `now`, with the entries to wake so far. -/
  | settle (now : Nat) (pc : SettlePc) (wakes : List Wake)
  /-- An upload. -/
  | put (ns : NamespaceId) (expected : ContentHash) (bytes : Bytes) (pc : PutPc)
  /-- A sweep at `now`, with the number of blobs released so far. -/
  | sweep (now : Nat) (pc : SweepPc) (released : Nat)
  /-- A collection. -/
  | gc (pc : GcPc)

/-- A task that has just been spawned. -/
def Task.AtStart : Task → Prop
  | .settle _ .start wakes => wakes = []
  | .put _ _ _ .start => True
  | .sweep _ .start released => released = 0
  | .gc .start => True
  | _ => False

/-- The four kinds of tasks that can be spawned. -/
theorem Task.AtStart.elim {P : Task → Prop} {t : Task} (ht : t.AtStart)
    (settle : ∀ now, P (.settle now .start [])) (put : ∀ ns h bytes, P (.put ns h bytes .start))
    (sweep : ∀ now, P (.sweep now .start 0)) (gc : P (.gc .start)) : P t := by
  cases t with
  | handler d pc => exact False.elim ht
  | settle now pc wakes =>
    cases pc with
    | start =>
      obtain rfl : wakes = [] := ht
      exact settle now
    | _ => exact False.elim ht
  | put ns h bytes pc =>
    cases pc with
    | start => exact put ns h bytes
    | _ => exact False.elim ht
  | sweep now pc n =>
    cases pc with
    | start =>
      obtain rfl : n = 0 := ht
      exact sweep now
    | _ => exact False.elim ht
  | gc pc =>
    cases pc with
    | start => exact gc
    | _ => exact False.elim ht

/-- A task that has finished. -/
def Task.AtEnd : Task → Prop
  | .handler _ (.done _) => True
  | .settle _ .done _ => True
  | .put _ _ _ (.done _) => True
  | .sweep _ (.done _) _ => True
  | .gc .done => True
  | _ => False

/-- What all tasks share. -/
structure Shared (hashNew : Bytes → ContentHash) where
  /-- The node. -/
  node : StashNode hashNew
  /-- Whether a settle pass holds the tracked lock while it waits for the content lock. -/
  trackedHeld : Bool

variable {hashNew : Bytes → ContentHash}

/-! ## The atomic steps -/

/-- The steps of the handler of an event. -/
inductive HandlerStep (d : Delivery) :
    Shared hashNew → HandlerPc → Shared hashNew → HandlerPc → Prop
  | want {σ} : HandlerStep d σ .start { σ with node := σ.node.want d.ns d.hash } .wanted
  /-- `has` says yes only of a stored blob; an error counts as no. -/
  | has {σ} (present : Bool) (hhas : present = true → σ.node.blobs.has d.hash = true) :
      HandlerStep d σ .wanted σ (.found present)
  | insert {σ} {present : Bool} (now : Nat) (hfree : σ.trackedHeld = false) :
      HandlerStep d σ (.found present)
        { σ with node := (σ.node.orInsert d.hash (d.arrived present now)).2 }
        (.inserted present (σ.node.orInsert d.hash (d.arrived present now)).1
          (d.arrived present now))
  | mark {σ} {known : Bool} {entry : TrackedEntry} :
      HandlerStep d σ (.inserted true known entry) { σ with node := σ.node.markPresent d.hash }
        (.done (if !known then [⟨d.hash, entry, false⟩] else []))
  | skip {σ} {known : Bool} {entry : TrackedEntry} :
      HandlerStep d σ (.inserted false known entry) σ (.done [])

/-- The steps of a settle pass at `now`. -/
inductive SettleStep (now : Nat) :
    Shared hashNew → SettlePc × List Wake → Shared hashNew → SettlePc × List Wake → Prop
  | copy {σ ws} (order : IterOrder ContentHash) (hfree : σ.trackedHeld = false) :
      SettleStep now σ (.start, ws) σ (.next (σ.node.outstanding order), ws)
  | finish {σ ws} : SettleStep now σ (.next [], ws) σ (.done, ws)
  | has {σ ws h entry rest} (hhas : σ.node.blobs.has h = true) :
      SettleStep now σ (.next ((h, entry) :: rest), ws) σ (.found h entry true rest, ws)
  | notDue {σ ws h entry rest} (hdue : ¬ entry.nextAttemptMs ≤ now) :
      SettleStep now σ (.next ((h, entry) :: rest), ws) σ (.found h entry false rest, ws)
  | due {σ ws h entry rest} (hdue : entry.nextAttemptMs ≤ now) :
      SettleStep now σ (.next ((h, entry) :: rest), ws) σ (.fetching h entry rest, ws)
  | fetched {σ ws h entry rest} (bytes : Bytes) (hbytes : hashNew bytes = h) :
      SettleStep now σ (.fetching h entry rest, ws) { σ with node := σ.node.land bytes }
        (.found h entry true rest, ws)
  | failed {σ ws h entry rest} :
      SettleStep now σ (.fetching h entry rest, ws) σ (.found h entry false rest, ws)
  | lock {σ ws h entry present rest} (hfree : σ.trackedHeld = false) :
      SettleStep now σ (.found h entry present rest, ws) { σ with trackedHeld := true }
        (.holding h entry present rest, ws)
  | write {σ ws h entry present rest} :
      SettleStep now σ (.holding h entry present rest, ws)
        ⟨(σ.node.writeBack now h entry present).1, false⟩
        (.next rest, ws ++ (σ.node.writeBack now h entry present).2)

/-- The steps of an upload. -/
inductive PutStep (ns : NamespaceId) (expected : ContentHash) (bytes : Bytes) :
    Shared hashNew → PutPc → Shared hashNew → PutPc → Prop
  | unknown {σ} (hknown : σ.node.registry.isKnown ns = false) :
      PutStep ns expected bytes σ .start σ (.done (some .unknownNamespace))
  | known {σ} (hknown : σ.node.registry.isKnown ns = true) :
      PutStep ns expected bytes σ .start σ .known
  | untracked {σ} (htracked : σ.node.content.isTrackedFor ns expected = false) :
      PutStep ns expected bytes σ .known σ (.done (some .untrackedHash))
  | mismatch {σ} (htracked : σ.node.content.isTrackedFor ns expected = true)
      (hhash : hashNew bytes ≠ expected) :
      PutStep ns expected bytes σ .known σ (.done (some .hashMismatch))
  | checked {σ} (htracked : σ.node.content.isTrackedFor ns expected = true)
      (hhash : hashNew bytes = expected) : PutStep ns expected bytes σ .known σ .adding
  | failed {σ} : PutStep ns expected bytes σ .adding σ (.done none)
  | add {σ} : PutStep ns expected bytes σ .adding { σ with node := (σ.node.addBytes bytes).2 }
      (.added (σ.node.addBytes bytes).1)
  | wrongTag {σ} {tagHash : ContentHash} (htag : tagHash ≠ expected) :
      PutStep ns expected bytes σ (.added tagHash) σ (.done (some .hashMismatch))
  | mark {σ} {tagHash : ContentHash} (htag : tagHash = expected) :
      PutStep ns expected bytes σ (.added tagHash) { σ with node := σ.node.markPresent expected }
        (.done (some .stored))

/-- The steps of a sweep at `now`. -/
inductive SweepStep (now : Nat) :
    Shared hashNew → SweepPc × Nat → Shared hashNew → SweepPc × Nat → Prop
  | list {σ n} (nsOrder : IterOrder NamespaceId) :
      SweepStep now σ (.start, n) σ (.visiting (σ.node.registry.knownNamespaces nsOrder), n)
  | finish {σ n} : SweepStep now σ (.visiting [], n) σ (.done (.ok n), n)
  | pass {σ n ns queue} (hhandle : ns ∉ σ.node.handles) :
      SweepStep now σ (.visiting (ns :: queue), n) σ (.visiting queue, n)
  | enter {σ n ns queue} (hhandle : ns ∈ σ.node.handles) :
      SweepStep now σ (.visiting (ns :: queue), n) σ (.reading ns queue, n)
  | fault {σ n ns queue} :
      SweepStep now σ (.reading ns queue, n) σ (.done (.error (.read ns)), n)
  | read {σ n ns queue} (order : IterOrder ContentHash) :
      SweepStep now σ (.reading ns queue, n) σ
        (.forgetting ns (order.list (releasable σ.node.retention now (σ.node.docs ns))) queue, n)
  | leave {σ n ns queue} : SweepStep now σ (.forgetting ns [] queue, n) σ (.visiting queue, n)
  | forgetLast {σ n ns h hs queue} (hlast : (σ.node.forget ns h).1 = true) :
      SweepStep now σ (.forgetting ns (h :: hs) queue, n)
        { σ with node := (σ.node.forget ns h).2 } (.untracking ns h hs queue, n)
  | forget {σ n ns h hs queue} (hlast : (σ.node.forget ns h).1 = false) :
      SweepStep now σ (.forgetting ns (h :: hs) queue, n)
        { σ with node := (σ.node.forget ns h).2 } (.forgetting ns hs queue, n)
  | untrack {σ n ns h hs queue} (hfree : σ.trackedHeld = false) :
      SweepStep now σ (.untracking ns h hs queue, n) { σ with node := σ.node.untrack h }
        (.forgetting ns hs queue, n + 1)

/-- The blobs that a collection finds stored and not protected. -/
def deadBlobs (node : StashNode hashNew) (h : ContentHash) : Bool :=
  node.blobs.has h && !decide (h ∈ node.content.referenced)

/-- The steps of a collection. -/
inductive GcStep : Shared hashNew → GcPc → Shared hashNew → GcPc → Prop
  | protect {σ} : GcStep σ .start σ (.marked (deadBlobs σ.node))
  | delete {σ} {dead : ContentHash → Bool} :
      GcStep σ (.marked dead) { σ with node := { σ.node with blobs := σ.node.blobs.collect dead } }
        .done

/-- One atomic step of a task. -/
inductive Micro : Shared hashNew → Task → Shared hashNew → Task → Prop
  | handler {σ σ' d pc pc'} (h : HandlerStep d σ pc σ' pc') :
      Micro σ (.handler d pc) σ' (.handler d pc')
  | settle {σ σ' now pc pc' ws ws'} (h : SettleStep now σ (pc, ws) σ' (pc', ws')) :
      Micro σ (.settle now pc ws) σ' (.settle now pc' ws')
  | put {σ σ' ns expected bytes pc pc'} (h : PutStep ns expected bytes σ pc σ' pc') :
      Micro σ (.put ns expected bytes pc) σ' (.put ns expected bytes pc')
  | sweep {σ σ' now pc pc' n n'} (h : SweepStep now σ (pc, n) σ' (pc', n')) :
      Micro σ (.sweep now pc n) σ' (.sweep now pc' n')
  | gc {σ σ' pc pc'} (h : GcStep σ pc σ' pc') : Micro σ (.gc pc) σ' (.gc pc')

/-! ## The pool -/

/-- What happens next: a task takes a step or is spawned, a record arrives and its event is
delivered, a namespace is granted, or the docs engine's own downloader lands bytes. -/
inductive Event
  /-- The task, where it was before its step. -/
  | fire (t : Task)
  /-- A settle pass, an upload, a sweep or a collection begins. -/
  | spawn (t : Task)
  /-- A record arrives in the replica of a watched namespace, and its handler begins. -/
  | arrive (d : Delivery) (replaced : Entry → Bool)
  /-- A registration. -/
  | grant (ns : NamespaceId) (sub : Option PushSubscription)
  /-- The docs engine's downloader succeeds. -/
  | land (bytes : Bytes)

/-- A node and the tasks that run on it. -/
abbrev TaskPool (hashNew : Bytes → ContentHash) := Pool (Shared hashNew) Task

/-- One step of the pool. -/
inductive PoolStep : TaskPool hashNew → Event → TaskPool hashNew → Prop
  | fire {p p' : TaskPool hashNew} {t : Task} (h : Pool.Fire Micro p t p') : PoolStep p (.fire t) p'
  | spawn {σ : Shared hashNew} {ts : List Task} {t : Task} (ht : t.AtStart) :
      PoolStep ⟨σ, ts⟩ (.spawn t) ⟨σ, t :: ts⟩
  | arrive {σ : Shared hashNew} {ts : List Task} (d : Delivery) (replaced : Entry → Bool)
      (hwatched : σ.node.registry.isKnown d.ns = true) :
      PoolStep ⟨σ, ts⟩ (.arrive d replaced)
        ⟨{ σ with node := σ.node.replicate d.ns d.entry replaced }, .handler d .start :: ts⟩
  | grant {σ : Shared hashNew} {ts : List Task} (ns : NamespaceId)
      (sub : Option PushSubscription) :
      PoolStep ⟨σ, ts⟩ (.grant ns sub) ⟨{ σ with node := σ.node.register ns sub }, ts⟩
  | land {σ : Shared hashNew} {ts : List Task} (bytes : Bytes) :
      PoolStep ⟨σ, ts⟩ (.land bytes) ⟨{ σ with node := σ.node.land bytes }, ts⟩

/-- The pool at boot: an empty node and no tasks. -/
def bootPool (hashNew : Bytes → ContentHash) (retention : RetentionPolicy) : TaskPool hashNew :=
  ⟨⟨.boot hashNew retention, false⟩, []⟩

/-! ## A task that nobody interrupts -/

open Pool (Alone)

/-- A node on which no pass holds the tracked lock. -/
def idle (node : StashNode hashNew) : Shared hashNew := ⟨node, false⟩

variable {node : StashNode hashNew} {now : Nat}

/-- **The handler.**  Run alone, it is `onInsertRemote`. -/
theorem handler_alone (d : Delivery) (present : Bool) (now : Nat)
    (hhas : present = true → node.blobs.has d.hash = true) :
    Alone Micro (idle node) (.handler d .start)
      (idle (node.onInsertRemote d.ns d.entry d.deliveredBy present now).1)
      (.handler d (.done (node.onInsertRemote d.ns d.entry d.deliveredBy present now).2)) := by
  refine .step (.handler .want) (.step (.handler (.has present hhas)) ?_)
  refine .step (.handler (.insert now rfl)) ?_
  cases present with
  | true => exact .step (.handler .mark) (.refl _ _)
  | false => exact .step (.handler .skip) (.refl _ _)

/-- One visit of a pass. -/
theorem settleVisit_alone {ws : List Wake} {h : ContentHash} {entry : TrackedEntry}
    {rest : List (ContentHash × TrackedEntry)} (has : ContentHash → Bool)
    (fetch : ∀ h, Option {bytes // hashNew bytes = h})
    (hhas : has h = true → node.blobs.has h = true) :
    Alone Micro (idle node) (.settle now (.next ((h, entry) :: rest)) ws)
      (idle (node.settleVisit now has fetch h entry).1)
      (.settle now (.next rest) (ws ++ (node.settleVisit now has fetch h entry).2)) := by
  have hwrite : ∀ (node' : StashNode hashNew) (present : Bool),
      Alone Micro (idle node') (.settle now (.found h entry present rest) ws)
        (idle (node'.writeBack now h entry present).1)
        (.settle now (.next rest) (ws ++ (node'.writeBack now h entry present).2)) :=
    fun _ _ ↦ .step (.settle (.lock rfl)) (.step (.settle .write) (.refl _ _))
  rw [settleVisit]
  by_cases hc : has h = true
  · rw [if_pos hc]
    exact .step (.settle (.has (hhas hc))) (hwrite node true)
  · rw [if_neg hc]
    by_cases hdue : entry.nextAttemptMs ≤ now
    · rw [if_pos hdue]
      refine .step (.settle (.due hdue)) ?_
      cases fetch h with
      | some bytes => exact .step (.settle (.fetched bytes.1 bytes.2)) (hwrite _ true)
      | none => exact .step (.settle .failed) (hwrite node false)
    · rw [if_neg hdue]
      exact .step (.settle (.notDue hdue)) (hwrite node false)

/-- A visit loses no bytes. -/
theorem has_settleVisit {has : ContentHash → Bool}
    {fetch : ∀ h, Option {bytes // hashNew bytes = h}} {h h' : ContentHash} {entry : TrackedEntry}
    (hstored : node.blobs.has h' = true) :
    (node.settleVisit now has fetch h entry).1.blobs.has h' = true := by
  obtain ⟨node', rfl | ⟨bytes, rfl⟩, heq⟩ := settleVisit_eq node now has fetch h entry
  · rw [heq, blobs_writeBack]
    exact hstored
  · rw [heq, blobs_writeBack]
    exact BlobStore.has_land.mpr (Or.inr hstored)

theorem settleLoop_alone {ws : List Wake} (has : ContentHash → Bool)
    (fetch : ∀ h, Option {bytes // hashNew bytes = h})
    (l : List (ContentHash × TrackedEntry)) (node : StashNode hashNew)
    (hhas : ∀ h, has h = true → node.blobs.has h = true) :
    Alone Micro (idle node) (.settle now (.next l) ws) (idle (settleLoop now has fetch l node).1)
      (.settle now (.next []) (ws ++ (settleLoop now has fetch l node).2)) := by
  induction l generalizing node ws with
  | nil =>
    rw [settleLoop, List.append_nil]
    exact .refl _ _
  | cons p rest ih =>
    rw [settleLoop_cons, ← List.append_assoc]
    refine (settleVisit_alone has fetch (hhas p.1)).trans (ih _ fun h hh ↦ ?_)
    exact has_settleVisit (hhas h hh)

/-- **The settle pass.**  Run alone, it is `settleOnce`. -/
theorem settle_alone (now : Nat) (order : IterOrder ContentHash) (has : ContentHash → Bool)
    (fetch : ∀ h, Option {bytes // hashNew bytes = h})
    (hhas : ∀ h, has h = true → node.blobs.has h = true) :
    Alone Micro (idle node) (.settle now .start [])
      (idle (node.settleOnce now order has fetch).1)
      (.settle now .done (node.settleOnce now order has fetch).2) := by
  refine .step (.settle (.copy order rfl)) ?_
  refine (settleLoop_alone has fetch (node.outstanding order) node hhas).trans ?_
  exact .step (.settle .finish) (.refl _ _)

/-- **The upload.**  Run alone, it is `putContent`. -/
theorem put_alone (ns : NamespaceId) (expected : ContentHash) (bytes : Bytes) (fails : Bool) :
    Alone Micro (idle node) (.put ns expected bytes .start)
      (idle (node.putContent ns expected bytes fails).1)
      (.put ns expected bytes (.done (node.putContent ns expected bytes fails).2)) := by
  rw [putContent]
  cases hknown : node.registry.isKnown ns with
  | false => exact .step (.put (.unknown hknown)) (.refl _ _)
  | true =>
    refine .step (.put (.known hknown)) ?_
    cases htracked : node.content.isTrackedFor ns expected with
    | false => exact .step (.put (.untracked htracked)) (.refl _ _)
    | true =>
      by_cases hhash : hashNew bytes = expected
      · refine .step (.put (.checked htracked hhash)) ?_
        cases fails with
        | true =>
          simp only [Bool.not_true, Bool.false_eq_true, if_false, hhash, ne_eq, not_true, if_true]
          exact .step (.put .failed) (.refl _ _)
        | false =>
          simp only [Bool.not_true, Bool.false_eq_true, if_false, hhash, ne_eq, not_true, addBytes]
          exact .step (.put .add) (.step (.put (.mark hhash)) (.refl _ _))
      · simp only [Bool.not_true, Bool.false_eq_true, if_false, ne_eq, hhash, not_false_iff,
          if_true]
        exact .step (.put (.mismatch htracked hhash)) (.refl _ _)

/-- The inner loop of a sweep. -/
theorem forgetAll_alone (ns : NamespaceId) (hs : List ContentHash) (queue : List NamespaceId)
    (node : StashNode hashNew) (n : Nat) :
    Alone Micro (idle node) (.sweep now (.forgetting ns hs queue) n)
      (idle (forgetAll ns hs node n).1)
      (.sweep now (.visiting queue) (forgetAll ns hs node n).2) := by
  induction hs generalizing node n with
  | nil => exact .step (.sweep .leave) (.refl _ _)
  | cons h hs ih =>
    cases hlast : (node.forget ns h).1 with
    | true =>
      have hone : forgetOne ns h node n = ((node.forget ns h).2.untrack h, n + 1) := by
        simp [forgetOne, hlast]
      rw [forgetAll, hone]
      exact .step (.sweep (.forgetLast hlast)) (.step (.sweep (.untrack rfl)) (ih _ _))
    | false =>
      have hone : forgetOne ns h node n = ((node.forget ns h).2, n) := by simp [forgetOne, hlast]
      rw [forgetAll, hone]
      exact .step (.sweep (.forget hlast)) (ih _ _)

theorem pruneLoop_alone (now : Nat) (faulty : NamespaceId → Bool) (order : IterOrder ContentHash)
    (nss : List NamespaceId) (node : StashNode hashNew) (n : Nat) :
    ∃ n', Alone Micro (idle node) (.sweep now (.visiting nss) n)
      (idle (pruneLoop now faulty order nss node n).1)
      (.sweep now (.done (pruneLoop now faulty order nss node n).2) n') := by
  induction nss generalizing node n with
  | nil => exact ⟨n, .step (.sweep .finish) (.refl _ _)⟩
  | cons ns rest ih =>
    rw [pruneLoop]
    by_cases hhandle : ns ∈ node.handles
    · rw [if_neg (not_not.mpr hhandle)]
      cases hfault : faulty ns with
      | true => exact ⟨n, .step (.sweep (.enter hhandle)) (.step (.sweep .fault) (.refl _ _))⟩
      | false =>
        let hashes := order.list (releasable node.retention now (node.docs ns))
        obtain ⟨n', hrest⟩ := ih (forgetAll ns hashes node n).1 (forgetAll ns hashes node n).2
        refine ⟨n', .step (.sweep (.enter hhandle)) (.step (.sweep (.read order)) ?_)⟩
        exact (forgetAll_alone ns hashes rest node n).trans hrest
    · rw [if_pos hhandle]
      obtain ⟨n', hrest⟩ := ih node n
      exact ⟨n', .step (.sweep (.pass hhandle)) hrest⟩

/-- **The sweep.**  Run alone, it is `pruneOnce`. -/
theorem sweep_alone (now : Nat) (faulty : NamespaceId → Bool) (nsOrder : IterOrder NamespaceId)
    (order : IterOrder ContentHash) :
    ∃ n, Alone Micro (idle node) (.sweep now .start 0)
      (idle (node.pruneOnce now faulty nsOrder order).1)
      (.sweep now (.done (node.pruneOnce now faulty nsOrder order).2) n) := by
  obtain ⟨n, hloop⟩ :=
    pruneLoop_alone now faulty order (node.registry.knownNamespaces nsOrder) node 0
  exact ⟨n, .step (.sweep (.list nsOrder)) hloop⟩

/-- A task of a pool may run without interruption. -/
theorem run_of_alone {σ σ' : Shared hashNew} {t t' : Task} (before after : List Task)
    (h : Alone Micro σ t σ' t') :
    ∃ evs, Run PoolStep ⟨σ, before ++ t :: after⟩ evs ⟨σ', before ++ t' :: after⟩ := by
  have key : ∀ a b : Shared hashNew × Task,
      Relation.ReflTransGen (fun a b : Shared hashNew × Task ↦ Micro a.1 a.2 b.1 b.2) a b →
        ∃ evs, Run PoolStep ⟨a.1, before ++ a.2 :: after⟩ evs ⟨b.1, before ++ b.2 :: after⟩ := by
    intro a b hab
    induction hab using Relation.ReflTransGen.head_induction_on with
    | refl => exact ⟨[], .nil _⟩
    | head hstep _ ih =>
      obtain ⟨evs, hrun⟩ := ih
      exact ⟨_, .cons (.fire (.intro before after hstep)) hrun⟩
  exact key (σ, t) (σ', t') h

/-- A run whose steps meet a condition, built from its first task step. -/
theorem exists_fire {G : TaskPool hashNew → Event → Prop} {σ σ' : Shared hashNew} {t t' : Task}
    {p : TaskPool hashNew} (before after : List Task) (h : Micro σ t σ' t')
    (hg : G ⟨σ, before ++ t :: after⟩ (.fire t))
    (hr : ∃ evs, Run (Guarded G PoolStep) ⟨σ', before ++ t' :: after⟩ evs p) :
    ∃ evs, Run (Guarded G PoolStep) ⟨σ, before ++ t :: after⟩ evs p :=
  Run.exists_cons_guarded (.fire (.intro before after h)) hg hr

/-! ## Runs on fixed inputs -/

/-- The hash of the single byte zero. -/
def zeroHash : ContentHash :=
  ⟨#[0x2d, 0x3a, 0xde, 0xdf, 0xf1, 0x1b, 0x61, 0xf1, 0x4c, 0x88, 0x6e, 0x35, 0xaf, 0xa0, 0x36, 0x73,
    0x6d, 0xcd, 0x87, 0xa7, 0x4d, 0x27, 0xb5, 0xc1, 0x51, 0x02, 0x25, 0xd0, 0xf5, 0x92, 0xe2, 0x13],
    rfl⟩

/-- A stand-in for the hash function that is right about no bytes and about the byte zero. -/
def sampleHash (bytes : Bytes) : ContentHash := if bytes = [0] then zeroHash else emptyHash

/-- A fix, whose content is the byte zero, one second after the epoch. -/
def oldFix : Delivery := ⟨idOf 1, ⟨System.fixKeyOf 1, zeroHash, 1000000⟩, idOf 9⟩

/-- A control slot with the same content, two days later. -/
def freshSlot : Delivery := ⟨idOf 1, ⟨System.ctlKeyOf, zeroHash, 200000000000⟩, idOf 9⟩

/-- The event brings a record that replaces none. -/
abbrev Delivery.add (d : Delivery) : Event := .arrive d fun _ ↦ false

/-- The node after the granted namespace has taken up the record and handled its event. -/
def StashNode.took (node : StashNode hashNew) (d : Delivery) (present : Bool) (now : Nat) :
    StashNode hashNew :=
  ((node.replicate d.ns d.entry fun _ ↦ false).onInsertRemote d.ns d.entry d.deliveredBy present
    now).1

/-- A node with a window of one day that was granted a namespace and handled `oldFix`, whose bytes
were not there. -/
def fixOnly : StashNode sampleHash :=
  ((boot sampleHash (.fromHours 24)).register (idOf 1) none).took oldFix false 1000

/-- A record arrives and its handler runs alone. -/
theorem run_took (node : StashNode hashNew) (d : Delivery) (present : Bool) (now : Nat)
    (ts : List Task) (hwatched : node.registry.isKnown d.ns = true)
    (hhas : present = true → node.blobs.has d.hash = true) :
    ∃ evs ws, Run PoolStep ⟨idle node, ts⟩ evs
      ⟨idle (node.took d present now), .handler d (.done ws) :: ts⟩ := by
  have halone : Alone Micro (idle (node.replicate d.ns d.entry fun _ ↦ false)) (.handler d .start)
      (idle (node.took d present now)) (.handler d (.done _)) := handler_alone d present now hhas
  obtain ⟨evs, hrun⟩ := run_of_alone [] ts halone
  exact ⟨_, _, .cons (.arrive d (fun _ ↦ false) hwatched) hrun⟩

theorem run_fixOnly : ∃ evs ws, Run PoolStep (bootPool sampleHash (.fromHours 24)) evs
    ⟨idle fixOnly, [.handler oldFix (.done ws)]⟩ := by
  obtain ⟨evs, ws, hrun⟩ := run_took ((boot sampleHash (.fromHours 24)).register (idOf 1) none)
    oldFix false 1000 [] rfl nofun
  exact ⟨_, ws, .cons (.grant (idOf 1) none) hrun⟩

theorem list_fixOnly : SweepStep 200000000 (idle fixOnly) (.start, 0) (idle fixOnly)
    (.visiting [idOf 1], 0) := by
  have horder : fixOnly.registry.knownNamespaces (.any _) = [idOf 1] :=
    IterOrder.list_singleton (.any _) (idOf 1)
  exact horder ▸ .list (.any _)

theorem enter_fixOnly : SweepStep 200000000 (idle fixOnly) (.visiting [idOf 1], 0) (idle fixOnly)
    (.reading (idOf 1) [], 0) := .enter (show idOf 1 ∈ fixOnly.handles by decide)

set_option maxRecDepth 4000 in
theorem read_fixOnly : SweepStep 200000000 (idle fixOnly) (.reading (idOf 1) [], 0) (idle fixOnly)
    (.forgetting (idOf 1) [zeroHash] [], 0) := by
  have hset : releasable fixOnly.retention 200000000 (fixOnly.docs (idOf 1)) = {zeroHash} := by
    decide
  have horder : (IterOrder.any ContentHash).list
      (releasable fixOnly.retention 200000000 (fixOnly.docs (idOf 1))) = [zeroHash] := by
    rw [hset, IterOrder.list_singleton]
  exact horder ▸ .read (.any _)

/-- A sweep after two days that nobody interrupts finds one namespace, and `oldFix` expired. -/
theorem read_alone : Alone Micro (idle fixOnly) (.sweep 200000000 .start 0) (idle fixOnly)
    (.sweep 200000000 (.forgetting (idOf 1) [zeroHash] []) 0) :=
  .step (.sweep list_fixOnly) (.step (.sweep enter_fixOnly) (.step (.sweep read_fixOnly)
    (.refl _ _)))

/-- The node after the sweep has let go of `oldFix`. -/
def fixForgotten : StashNode sampleHash := (fixOnly.forget (idOf 1) zeroHash).2

/-- The step in which it does. -/
theorem forget_fixOnly : Micro (idle fixOnly)
    (.sweep 200000000 (.forgetting (idOf 1) [zeroHash] []) 0) (idle fixForgotten)
    (.sweep 200000000 (.untracking (idOf 1) zeroHash [] []) 0) :=
  .sweep (.forgetLast (by decide))

end TrailStash
