import TrailStash.System

/-!
# Who is woken, and how often

A wake for a hash is issued in two places: by the settle pass, once the bytes have landed or the
fallback time is up, and by the handler of an event, when it finds the bytes already there.  Both
consult the flag `woken` of the ledger entry of the hash, and only the settle pass sets it after
the entry has been made.

`apply_cases` says what one operation can do to a hash that stays on the ledger: nothing, wake
because of a repeated event (`repeats`), or visit it in a settle pass.  Three questions about
whole runs are answered from it, each with the exact condition.

* *Is anybody woken?*  Exactly if the bytes were missing when the hash first arrived
  (`issued_iff_absent`): an entry that arrives with its bytes already there is made with `woken`
  set, and the handler reads its own flag back.
* *Only once?*  Exactly if no repeated event finds the bytes before the settle loop has woken
  (`issued_once`): the handler wakes without setting the flag.
* *The subscribers of the namespace that delivered it?*  The ledger has one entry per hash, so a
  namespace that delivers a hash that is already there is woken only by a repeated event
  (`issuedFor_iff`).
-/

set_option autoImplicit false

namespace TrailStash

open Runs StashNode

namespace System

variable {hashNew : Bytes → ContentHash} {s s₀ t : System hashNew} {op : Op hashNew}
  {ops : List (Op hashNew)} {policy : RetentionPolicy} {ns : NamespaceId} {h : ContentHash}
  {live : TrackedEntry} {now : Nat} {order : IterOrder ContentHash} {has : ContentHash → Bool}
  {fetch : ∀ h, Option {bytes // hashNew bytes = h}}

/-! ## What one operation does to a hash on the ledger -/

/-- The operation is an event for `h` that finds the bytes in the store while the entry of `h` on
the ledger has not been woken, and its namespace satisfies `p`. -/
def repeats (p : NamespaceId → Bool) (h : ContentHash) (s : System hashNew) : Op hashNew → Bool
  | .arrive ns e _ _ present _ => p ns && decide (e.contentHash = h) && present &&
      (s.node.tracked.lookup h).any (!·.woken)
  | _ => false

theorem lookup_apply_arrive {e : Entry} {replaced : Entry → Bool} {deliveredBy : EndpointId}
    {present : Bool} (hlive : s.node.tracked.lookup h = some live) :
    (s.apply (.arrive ns e replaced deliveredBy present now)).node.tracked.lookup h =
      some live := by
  have hrep : (s.node.replicate ns e replaced).tracked.lookup h = some live := hlive
  by_cases hh : h = e.contentHash
  · subst hh
    exact lookup_onInsertRemote_self.trans (by rw [hrep, Option.getD_some])
  · exact (lookup_onInsertRemote_of_ne hh).trans hrep

theorem lookup_apply_put {expected : ContentHash} {bytes : Bytes} {fails : Bool} :
    (s.apply (.put ns expected bytes fails)).node.tracked.lookup h = s.node.tracked.lookup h :=
  congrArg (Finmap.lookup h) tracked_putContent

theorem wakesFor_apply_arrive {e : Entry} {replaced : Entry → Bool} {deliveredBy : EndpointId}
    {present : Bool} : wakesFor h (s.apply (.arrive ns e replaced deliveredBy present now)).wakes =
      wakesFor h s.wakes ++
        if h = e.contentHash ∧ present = true ∧
            (s.node.tracked.lookup h).any (!·.woken) = true then
          [⟨h, .arrived ns e deliveredBy present now, false⟩] else [] := by
  refine wakesFor_append.trans (congrArg _ ?_)
  rw [snd_onInsertRemote]
  by_cases hh : h = e.contentHash
  · subst hh
    have hrep : (s.node.replicate ns e replaced).tracked = s.node.tracked := rfl
    rw [hrep]
    split
    · next hc =>
      rw [Bool.and_eq_true] at hc
      simp [wakesFor, hc.1, hc.2]
    · next hc =>
      rw [Bool.and_eq_true] at hc
      simp [wakesFor, hc]
  · have hnot : ¬ (h = e.contentHash ∧ present = true ∧
        (s.node.tracked.lookup h).any (!·.woken) = true) := fun hc ↦ hh hc.1
    rw [if_neg hnot]
    refine wakesFor_eq_nil fun w hw hwh ↦ hh ?_
    split at hw
    · rw [← hwh, List.mem_singleton.mp hw]
    · exact absurd hw (by simp)

/-- **What an operation can do to a hash that stays on the ledger**: leave it alone, wake because
of a repeated event, or visit it in a settle pass. -/
theorem apply_cases (hlive : s.node.tracked.lookup h = some live)
    (hstay : h ∈ (s.apply op).node.tracked) :
    ((∀ p, repeats p h s op = false) ∧ (s.apply op).node.tracked.lookup h = some live ∧
      wakesFor h (s.apply op).wakes = wakesFor h s.wakes) ∨
    (∃ ns e deliveredBy now, (∀ p, repeats p h s op = p ns) ∧
      (s.apply op).node.tracked.lookup h = some live ∧
      wakesFor h (s.apply op).wakes =
        wakesFor h s.wakes ++ [⟨h, .arrived ns e deliveredBy true now, false⟩]) ∨
    (∃ (now : Nat) (has : ContentHash → Bool) (fetch : ∀ h, Option {bytes // hashNew bytes = h}),
      (∀ p, repeats p h s op = false) ∧
      (s.apply op).node.tracked.lookup h = some (settled now has fetch h live) ∧
      wakesFor h (s.apply op).wakes = wakesFor h s.wakes ++ settledWakes now has fetch h live) := by
  cases op with
  | grant => exact Or.inl ⟨fun _ ↦ rfl, hlive, rfl⟩
  | arrive ns e replaced deliveredBy present now =>
    have hlook : (s.apply (.arrive ns e replaced deliveredBy present now)).node.tracked.lookup h =
        some live := lookup_apply_arrive hlive
    by_cases hc : h = e.contentHash ∧ present = true ∧ live.woken = false
    · obtain ⟨rfl, rfl, hwoken⟩ := hc
      refine Or.inr (Or.inl ⟨ns, e, deliveredBy, now, fun p ↦ ?_, hlook, ?_⟩)
      · simp [repeats, hlive, hwoken]
      · rw [wakesFor_apply_arrive, hlive]
        simp [hwoken]
    · refine Or.inl ⟨fun p ↦ Bool.eq_false_iff.mpr fun hrep ↦ hc ?_, hlook, ?_⟩
      · simp only [repeats, hlive, Option.any_some, Bool.and_eq_true, decide_eq_true_eq,
          Bool.not_eq_true'] at hrep
        exact ⟨hrep.1.1.2.symm, hrep.1.2, hrep.2⟩
      · rw [wakesFor_apply_arrive, hlive, if_neg (by simpa using hc), List.append_nil]
  | settle now order has fetch =>
    obtain ⟨hlook, hwakes⟩ := settleOnce_spec now order has fetch hlive
    refine Or.inr (Or.inr ⟨now, has, fetch, fun _ ↦ rfl, hlook, ?_⟩)
    exact wakesFor_append.trans (by rw [hwakes])
  | put => exact Or.inl ⟨fun _ ↦ rfl, lookup_apply_put.trans hlive, rfl⟩
  | prune =>
    exact Or.inl ⟨fun _ ↦ rfl, (lookup_pruneOnce hstay).trans hlive, rfl⟩

/-! ## The flag of an entry -/

/-- An entry whose wake is still owed is one the settle loop looks after. -/
def WakeOwed (live : TrackedEntry) : Prop := live.woken = false → live.contentPresent = false

theorem wakeOwed_settled (hw : WakeOwed live) : WakeOwed (settled now has fetch h live) := by
  rw [WakeOwed, settled]
  cases hc : live.contentPresent with
  | true =>
    rw [if_pos rfl]
    exact hw
  | false =>
    simp only [Bool.false_eq_true, if_false, TrackedEntry.woken_visited,
      TrackedEntry.contentPresent_visited, hc, Bool.false_or, Bool.or_eq_false_iff]
    rintro ⟨hwoken, hrel⟩
    simp only [TrackedEntry.releases, hwoken, Bool.not_false, Bool.true_and,
      Bool.or_eq_false_iff] at hrel
    exact hrel.1

/-- A pass wakes for the entry exactly when it sets the flag. -/
theorem settledWakes_eq (hw : WakeOwed live) : settledWakes now has fetch h live =
    if live.woken = false ∧ (settled now has fetch h live).woken = true then
      [⟨h, live, !visitAnswer now has fetch h live⟩] else [] := by
  rw [settledWakes, settled]
  cases hwoken : live.woken with
  | true => simp [TrackedEntry.releases, hwoken]
  | false => simp [hw hwoken, hwoken]

theorem woken_settled (hwoken : live.woken = true) :
    (settled now has fetch h live).woken = true := by
  rw [settled]
  split
  · exact hwoken
  · simp [hwoken]

/-- A pass past the fallback time sets the flag. -/
theorem woken_settled_of_overdue (hw : WakeOwed live)
    (hdue : live.firstSeenMs + wakeFallbackMs ≤ now) :
    (settled now has fetch h live).woken = true := by
  have hover : wakeFallbackMs ≤ now - live.firstSeenMs := by omega
  cases hwoken : live.woken with
  | true => exact woken_settled hwoken
  | false => simp [settled, hw hwoken, TrackedEntry.releases, hwoken, hover]

theorem ns_settled : (settled now has fetch h live).ns = live.ns := by
  rw [settled]
  split <;> simp

theorem firstSeenMs_settled : (settled now has fetch h live).firstSeenMs = live.firstSeenMs := by
  rw [settled]
  split <;> simp

/-! ## The wakes issued over a stay on the ledger -/

/-- The number of wakes issued for `h` so far that name a namespace satisfying `p`. -/
def issued (p : NamespaceId → Bool) (h : ContentHash) (s : System hashNew) : Nat :=
  (wakesFor h s.wakes).countP fun w ↦ p w.entry.ns

/-- Whether the entry has been woken, for namespaces that satisfy `p`. -/
def flag (p : NamespaceId → Bool) (live : TrackedEntry) : Nat :=
  if p live.ns && live.woken then 1 else 0

/-- The operation leaves `h` on the ledger. -/
def Keeps (h : ContentHash) (s : System hashNew) (op : Op hashNew) : Prop :=
  h ∈ (s.apply op).node.tracked

/-- The operation is not a retention sweep. -/
def NoSweep (_ : System hashNew) : Op hashNew → Prop
  | .prune .. => False
  | _ => True

/-- Only a sweep takes a hash off the ledger. -/
theorem keeps_of_noSweep (hlive : s.node.tracked.lookup h = some live) (hop : NoSweep s op) :
    Keeps h s op := by
  cases op with
  | grant => exact Finmap.mem_of_lookup_eq_some hlive
  | arrive => exact Finmap.mem_of_lookup_eq_some (lookup_apply_arrive hlive)
  | settle now order has fetch =>
    exact Finmap.mem_of_lookup_eq_some (settleOnce_spec now order has fetch hlive).1
  | put => exact Finmap.mem_of_lookup_eq_some (lookup_apply_put.trans hlive)
  | prune => exact hop.elim

variable {p : NamespaceId → Bool}

/-- **One step of the account.**  A wake is either owed to a repeated event or sets the flag. -/
theorem issued_step (hlive : s.node.tracked.lookup h = some live) (howed : WakeOwed live)
    (hstay : Keeps h s op) : ∃ live', (s.apply op).node.tracked.lookup h = some live' ∧
      WakeOwed live' ∧ live'.ns = live.ns ∧ live'.firstSeenMs = live.firstSeenMs ∧
      (live.woken = true → live'.woken = true) ∧
      issued p h (s.apply op) + flag p live =
        issued p h s + (if repeats p h s op then 1 else 0) + flag p live' := by
  rcases apply_cases hlive hstay with ⟨hrep, hlook, hwakes⟩ |
    ⟨ns, e, deliveredBy, now, hrep, hlook, hwakes⟩ | ⟨now, has, fetch, hrep, hlook, hwakes⟩
  · refine ⟨live, hlook, howed, rfl, rfl, id, ?_⟩
    simp [issued, hwakes, hrep]
  · refine ⟨live, hlook, howed, rfl, rfl, id, ?_⟩
    simp [issued, hwakes, hrep, List.countP_append, List.countP_cons, TrackedEntry.arrived]
  · refine ⟨_, hlook, wakeOwed_settled howed, ns_settled, firstSeenMs_settled, woken_settled, ?_⟩
    rw [issued, hwakes, settledWakes_eq howed, List.countP_append, hrep, flag, flag, ns_settled]
    cases hwoken : live.woken with
    | true => simp [issued, woken_settled hwoken]
    | false =>
      cases (settled now has fetch h live).woken <;>
        simp [issued, List.countP_cons]

theorem repeats_of_woken (hlive : s.node.tracked.lookup h = some live)
    (hwoken : live.woken = true) : repeats p h s op = false := by
  cases op with
  | arrive => simp [repeats, hlive, hwoken]
  | _ => rfl

/-- **The account of a stay.**  Over a run that leaves `h` on the ledger, the wakes issued for it
are one for each repeated event, and one for the flag if it was set meanwhile. -/
theorem issued_stay (hrun : Run (Guarded (Keeps h) Step) s ops t)
    (hlive : s.node.tracked.lookup h = some live) (howed : WakeOwed live) :
    ∃ live', t.node.tracked.lookup h = some live' ∧ WakeOwed live' ∧ live'.ns = live.ns ∧
      live'.firstSeenMs = live.firstSeenMs ∧
      (live.woken = true → live'.woken = true ∧ countAlong (repeats p h) apply s ops = 0) ∧
      issued p h t + flag p live =
        issued p h s + countAlong (repeats p h) apply s ops + flag p live' := by
  induction hrun generalizing live with
  | nil s => exact ⟨live, hlive, howed, rfl, rfl, fun hw ↦ ⟨hw, rfl⟩, by simp [countAlong]⟩
  | @cons s u t op ops hstep _ ih =>
    obtain ⟨hstay, -, rfl⟩ := hstep
    obtain ⟨live₁, hlive₁, howed₁, hns₁, hsince₁, hwoken₁, hcount₁⟩ :=
      issued_step (p := p) hlive howed hstay
    obtain ⟨live₂, hlive₂, howed₂, hns₂, hsince₂, hwoken₂, hcount₂⟩ := ih hlive₁ howed₁
    refine ⟨live₂, hlive₂, howed₂, hns₂.trans hns₁, hsince₂.trans hsince₁, fun hw ↦ ?_, ?_⟩
    · obtain ⟨hw₂, hzero⟩ := hwoken₂ (hwoken₁ hw)
      exact ⟨hw₂, by simp [countAlong, hzero, repeats_of_woken hlive hw]⟩
    · rw [countAlong]
      omega

/-- A settle pass leaves the ledger entries where they are, and one past the fallback time leaves
them woken. -/
theorem issued_pass (now : Nat) (order : IterOrder ContentHash) (has : ContentHash → Bool)
    (fetch : ∀ h, Option {bytes // hashNew bytes = h})
    (hlive : s.node.tracked.lookup h = some live) (howed : WakeOwed live) :
    ∃ live', (s.apply (.settle now order has fetch)).node.tracked.lookup h = some live' ∧
      live'.ns = live.ns ∧ (live.firstSeenMs + wakeFallbackMs ≤ now → live'.woken = true) ∧
      issued p h (s.apply (.settle now order has fetch)) + flag p live =
        issued p h s + flag p live' := by
  have hlook : (s.apply (.settle now order has fetch)).node.tracked.lookup h = _ :=
    (settleOnce_spec now order has fetch hlive).1
  have hkeeps : Keeps h s (.settle now order has fetch) := keeps_of_noSweep hlive trivial
  obtain ⟨live', hlive', -, hns, -, -, hcount⟩ := issued_step (p := p) hlive howed hkeeps
  refine ⟨live', hlive', hns, fun hdue ↦ ?_, by simpa [repeats] using hcount⟩
  rw [hlook, Option.some_inj] at hlive'
  rw [← hlive']
  exact woken_settled_of_overdue howed hdue

/-! ### From the arrival of a hash to the first pass past its fallback time -/

variable {e : Entry} {replaced : Entry → Bool} {deliveredBy : EndpointId} {present : Bool}
  {now' : Nat}

/-- An event for a hash that is not on the ledger makes the entry, and wakes nobody. -/
theorem arrive_new (hnew : e.contentHash ∉ s.node.tracked) (ns : NamespaceId)
    (replaced : Entry → Bool) (deliveredBy : EndpointId) (present : Bool) (now : Nat) :
    (s.apply (.arrive ns e replaced deliveredBy present now)).node.tracked.lookup e.contentHash =
        some (.arrived ns e deliveredBy present now) ∧
      wakesFor e.contentHash (s.apply (.arrive ns e replaced deliveredBy present now)).wakes =
        wakesFor e.contentHash s.wakes := by
  have hnone : s.node.tracked.lookup e.contentHash = none := Finmap.lookup_eq_none.mpr hnew
  constructor
  · have hrep : (s.node.replicate ns e replaced).tracked.lookup e.contentHash = none := hnone
    exact lookup_onInsertRemote_self.trans (by rw [hrep, Option.getD_none])
  · rw [wakesFor_apply_arrive, hnone]
    simp

/-- **The whole account.**  From the event that puts a hash on the ledger to a pass past its
fallback time, the wakes are one for each repeated event and one for the entry itself, unless that
was made with the bytes already there.  In that case no event counts as repeated. -/
theorem issued_overdue (p : NamespaceId → Bool) (order : IterOrder ContentHash)
    (has : ContentHash → Bool) (fetch : ∀ h, Option {bytes // hashNew bytes = h})
    (hnew : e.contentHash ∉ s.node.tracked)
    (hrun : Run (Guarded (Keeps e.contentHash) Step)
      (s.apply (.arrive ns e replaced deliveredBy present now)) ops t)
    (hdue : now + wakeFallbackMs ≤ now') :
    issued p e.contentHash (t.apply (.settle now' order has fetch)) +
        (if p ns && present then 1 else 0) =
      issued p e.contentHash s +
        countAlong (repeats p e.contentHash) apply
          (s.apply (.arrive ns e replaced deliveredBy present now)) ops +
        (if p ns then 1 else 0) ∧
    (present = true → countAlong (repeats p e.contentHash) apply
      (s.apply (.arrive ns e replaced deliveredBy present now)) ops = 0) := by
  obtain ⟨hlive, hwakes⟩ := arrive_new hnew ns replaced deliveredBy present now
  obtain ⟨live₁, hlive₁, howed₁, hns₁, hsince₁, hwoken₁, hcount₁⟩ :=
    issued_stay (p := p) hrun hlive id
  obtain ⟨live₂, -, hns₂, hover, hcount₂⟩ :=
    issued_pass (p := p) now' order has fetch hlive₁ howed₁
  rw [hsince₁] at hover
  have hflag : flag p live₂ = if p ns then 1 else 0 := by
    rw [flag, hover hdue, hns₂, hns₁, Bool.and_true]
    rfl
  have hflag₀ : flag p (.arrived ns e deliveredBy present now) =
      if p ns && present then 1 else 0 := rfl
  have hstart : issued p e.contentHash (s.apply (.arrive ns e replaced deliveredBy present now)) =
      issued p e.contentHash s := by rw [issued, hwakes, issued]
  refine ⟨?_, fun hp ↦ (hwoken₁ hp).2⟩
  omega

/-! ### Is anybody woken? -/

/-- The test that every namespace satisfies. -/
def anyNs : NamespaceId → Bool := fun _ ↦ true

/-- **When a wake is not lost.**  By the end of the first pass past the fallback time a wake has
been issued for a hash that an event put on the ledger exactly if the bytes were missing then. -/
theorem issued_iff_absent (hnew : e.contentHash ∉ s.node.tracked)
    (hrun : Run (Guarded (Keeps e.contentHash) Step)
      (s.apply (.arrive ns e replaced deliveredBy present now)) ops t)
    (hdue : now + wakeFallbackMs ≤ now') :
    issued anyNs e.contentHash s <
        issued anyNs e.contentHash (t.apply (.settle now' order has fetch)) ↔ present = false := by
  obtain ⟨hcount, hzero⟩ := issued_overdue anyNs order has fetch hnew hrun hdue
  have hany : anyNs ns = true := rfl
  cases present with
  | true =>
    rw [hzero rfl, hany] at hcount
    simp only [Bool.true_and, if_true] at hcount
    exact iff_of_false (by omega) (by simp)
  | false =>
    rw [hany] at hcount
    simp only [Bool.and_false, Bool.false_eq_true, if_false, if_true] at hcount
    exact iff_of_true (by omega) rfl

/-- A namespace that has been granted, and nothing else. -/
def granted : System noHash := dayStash.after [.grant (idOf 1) none]

/-- A fix of that namespace. -/
def firstFix : Entry := ⟨fixKeyOf 1, idOf 7, 1000000⟩

/-- A fix that arrives without its bytes, which never come, is woken for. -/
theorem issued_degraded : issued anyNs (idOf 7) granted < issued anyNs (idOf 7)
    ((granted.apply (.arrive (idOf 1) firstFix (fun _ ↦ false) (idOf 9) false 1000)).apply
      (.settle 31000 (.any _) (fun _ ↦ false) fun _ ↦ none)) := by
  have hnew : firstFix.contentHash ∉ granted.node.tracked := by decide
  exact (issued_iff_absent hnew (.nil _) (by decide : 1000 + wakeFallbackMs ≤ 31000)).mpr rfl

/-- **A wake is lost.**  A fix arrives when its bytes are already in the store, which is a state
the node can be in; nobody is woken for it by the pass past its fallback time. -/
theorem exists_lost_wake : ¬ ∀ (ops ops' : List (Op noHash)) (s t : System noHash)
    (ns : NamespaceId) (e : Entry) (replaced : Entry → Bool) (deliveredBy : EndpointId)
    (present : Bool) (now now' : Nat) (order : IterOrder ContentHash) (has : ContentHash → Bool)
    (fetch : ∀ h, Option {bytes // noHash bytes = h}),
    Run Step dayStash ops s → e.contentHash ∉ s.node.tracked →
      Step s (.arrive ns e replaced deliveredBy present now)
        (s.apply (.arrive ns e replaced deliveredBy present now)) →
      Run (Guarded (Keeps e.contentHash) Step)
        (s.apply (.arrive ns e replaced deliveredBy present now)) ops' t →
        now + wakeFallbackMs ≤ now' →
          issued anyNs e.contentHash s <
            issued anyNs e.contentHash (t.apply (.settle now' order has fetch)) := by
  intro hall
  have hgranted : Run Step dayStash [.grant (idOf 1) none] granted :=
    Run.of_allAlong (fun _ _ h ↦ ⟨h, rfl⟩) ⟨trivial, trivial⟩
  have hnew : firstFix.contentHash ∉ granted.node.tracked := by decide
  have hdue : 1000 + wakeFallbackMs ≤ 31000 := by decide
  have hrun : Run (Guarded (Keeps firstFix.contentHash) Step) (granted.apply
    (.arrive (idOf 1) firstFix (fun _ ↦ false) (idOf 9) true 1000)) [] _ := .nil _
  have hlt := hall _ _ granted _ (idOf 1) firstFix (fun _ ↦ false) (idOf 9) true 1000 31000 (.any _)
    (fun _ ↦ true) (fun _ ↦ none) hgranted hnew ⟨rfl, rfl⟩ hrun hdue
  obtain ⟨hcount, hzero⟩ :=
    issued_overdue anyNs (.any _) (fun _ ↦ true) (fun _ ↦ none) hnew hrun hdue
  have hany : anyNs (idOf 1) = true := rfl
  rw [hzero rfl, hany] at hcount
  simp only [Bool.true_and, if_true] at hcount
  omega

/-! ### Only once? -/

/-- **When wakes fire once.**  If no event finds the bytes while the entry of the hash is still
unwoken, at most one wake is issued for the entry while it is on the ledger; and if one does, a
second wake has been issued by the end of the first pass past the fallback time. -/
theorem issued_once (hnew : e.contentHash ∉ s.node.tracked)
    (hrun : Run (Guarded (Keeps e.contentHash) Step)
      (s.apply (.arrive ns e replaced deliveredBy present now)) ops t) :
    (countAlong (repeats anyNs e.contentHash) apply
        (s.apply (.arrive ns e replaced deliveredBy present now)) ops = 0 →
      issued anyNs e.contentHash t ≤ issued anyNs e.contentHash s + 1) ∧
    ∀ now' order has fetch, now + wakeFallbackMs ≤ now' →
      (issued anyNs e.contentHash (t.apply (.settle now' order has fetch)) ≤
          issued anyNs e.contentHash s + 1 ↔
        countAlong (repeats anyNs e.contentHash) apply
          (s.apply (.arrive ns e replaced deliveredBy present now)) ops = 0) := by
  have hany : anyNs ns = true := rfl
  constructor
  · intro hzero
    obtain ⟨hlive, hwakes⟩ := arrive_new hnew ns replaced deliveredBy present now
    obtain ⟨live, -, -, -, -, -, hcount⟩ := issued_stay (p := anyNs) hrun hlive id
    have hstart : issued anyNs e.contentHash
        (s.apply (.arrive ns e replaced deliveredBy present now)) =
          issued anyNs e.contentHash s := by
      rw [issued, hwakes, issued]
    have hflag : flag anyNs live ≤ 1 := by
      rw [flag]
      split <;> simp
    omega
  · intro now' order has fetch hdue
    obtain ⟨hcount, hzero⟩ := issued_overdue anyNs order has fetch hnew hrun hdue
    cases present with
    | true =>
      rw [hany, hzero rfl] at hcount
      simp only [Bool.true_and, if_true] at hcount
      exact iff_of_true (by omega) (hzero rfl)
    | false =>
      rw [hany] at hcount
      simp only [Bool.and_false, Bool.false_eq_true, if_false, if_true] at hcount
      constructor <;> intro <;> omega

/-- A fix arrives without its bytes and the next pass fetches them: one wake at most. -/
theorem issued_once_fetched : issued anyNs (idOf 7)
    ((granted.apply (.arrive (idOf 1) firstFix (fun _ ↦ false) (idOf 9) false 1000)).apply
      (.settle 1250 (.any _) (fun _ ↦ true) fun _ ↦ none)) ≤ issued anyNs (idOf 7) granted + 1 := by
  have hnew : firstFix.contentHash ∉ granted.node.tracked := by decide
  obtain ⟨hlive, -⟩ := arrive_new hnew (idOf 1) (fun _ ↦ false) (idOf 9) false 1000
  have hrun : Run (Guarded (Keeps firstFix.contentHash) Step)
      (granted.apply (.arrive (idOf 1) firstFix (fun _ ↦ false) (idOf 9) false 1000))
      [.settle 1250 (.any _) (fun _ ↦ true) fun _ ↦ none] _ :=
    .cons ⟨keeps_of_noSweep hlive trivial, trivial, rfl⟩ (.nil _)
  exact (issued_once hnew hrun).1 rfl

/-- **A wake fires twice.**  A fix arrives without its bytes, and again when they have landed but
no pass has run since; the handler wakes, and so does the pass. -/
theorem exists_second_wake : ¬ ∀ (ops ops' : List (Op noHash)) (s t : System noHash)
    (ns : NamespaceId) (e : Entry) (replaced : Entry → Bool) (deliveredBy : EndpointId)
    (present : Bool) (now : Nat), Run Step dayStash ops s → e.contentHash ∉ s.node.tracked →
      Step s (.arrive ns e replaced deliveredBy present now)
        (s.apply (.arrive ns e replaced deliveredBy present now)) →
      Run (Guarded (Keeps e.contentHash) Step)
        (s.apply (.arrive ns e replaced deliveredBy present now)) ops' t →
        issued anyNs e.contentHash t ≤ issued anyNs e.contentHash s + 1 := by
  intro hall
  have hgranted : Run Step dayStash [.grant (idOf 1) none] granted :=
    Run.of_allAlong (fun _ _ h ↦ ⟨h, rfl⟩) ⟨trivial, trivial⟩
  have hnew : firstFix.contentHash ∉ granted.node.tracked := by decide
  let first : Op noHash := .arrive (idOf 1) firstFix (fun _ ↦ false) (idOf 9) false 1000
  let again : Op noHash := .arrive (idOf 1) firstFix (· = firstFix) (idOf 9) true 2000
  let pass : Op noHash := .settle 31000 (.any _) (fun _ ↦ true) fun _ ↦ none
  have hlive : (granted.apply first).node.tracked.lookup firstFix.contentHash = some _ :=
    (arrive_new hnew _ _ _ _ _).1
  have hlive' : ((granted.apply first).apply again).node.tracked.lookup firstFix.contentHash =
    some _ := lookup_apply_arrive hlive
  have hrun : Run (Guarded (Keeps firstFix.contentHash) Step) (granted.apply first) [again] _ :=
    .cons ⟨keeps_of_noSweep hlive trivial, rfl, rfl⟩ (.nil _)
  have hrun' := hrun.snoc (l := pass) ⟨keeps_of_noSweep hlive' trivial, trivial, rfl⟩
  have hle := hall _ _ granted _ (idOf 1) firstFix (fun _ ↦ false) (idOf 9) false 1000 hgranted hnew
    ⟨rfl, rfl⟩ hrun'
  have hdue : 1000 + wakeFallbackMs ≤ 31000 := by decide
  obtain ⟨hcount, -⟩ := issued_overdue anyNs (.any _) (fun _ ↦ true) (fun _ ↦ none) hnew hrun hdue
  have hrepeated : countAlong (repeats anyNs firstFix.contentHash) apply (granted.apply first)
      [again] = 1 := by decide
  have hany : anyNs (idOf 1) = true := rfl
  rw [hrepeated, hany] at hcount
  simp only [Bool.and_false, Bool.false_eq_true, if_false, if_true] at hcount
  change issued anyNs firstFix.contentHash (((granted.apply first).apply again).apply pass) + 0 =
    issued anyNs firstFix.contentHash granted + 1 + 1 at hcount
  change issued anyNs firstFix.contentHash (((granted.apply first).apply again).apply pass) ≤
    issued anyNs firstFix.contentHash granted + 1 at hle
  omega

/-! ### The subscribers of the namespace that delivered it? -/

/-- Every entry on the ledger is owed to a reference of the namespace it names, and its wake is
owed by the settle loop or was issued. -/
def LedgerSound (node : StashNode hashNew) : Prop :=
  ∀ h live, node.tracked.lookup h = some live →
    node.content.isTrackedFor live.ns h = true ∧ WakeOwed live

theorem ledgerSound_step (hs : LedgerSound s.node) (hop : NoSweep s op) :
    LedgerSound (s.apply op).node := by
  intro h live hlive
  cases op with
  | grant => exact hs h live hlive
  | arrive ns e replaced deliveredBy present now =>
    rw [isTrackedFor_apply_arrive]
    cases hold : s.node.tracked.lookup h with
    | some old =>
      rw [lookup_apply_arrive hold, Option.some_inj] at hlive
      subst hlive
      exact (hs h old hold).imp_left Or.inr
    | none =>
      -- the only entry an event can make is its own
      by_cases hh : h = e.contentHash
      · subst hh
        rw [(arrive_new (Finmap.lookup_eq_none.mp hold) ns replaced deliveredBy present now).1,
          Option.some_inj] at hlive
        subst hlive
        exact ⟨Or.inl ⟨rfl, rfl⟩, id⟩
      · have hsame := (lookup_onInsertRemote_of_ne hh).symm.trans hlive
        exact absurd (hsame.symm.trans hold) (by simp)
  | settle now order has fetch =>
    cases hold : s.node.tracked.lookup h with
    | some old =>
      have hlook := (settleOnce_spec now order has fetch hold).1.symm.trans hlive
      rw [Option.some_inj] at hlook
      subst hlook
      obtain ⟨href, howed⟩ := hs h old hold
      rw [ns_settled]
      exact ⟨isTrackedFor_settleOnce.trans href, wakeOwed_settled howed⟩
    | none =>
      have hlook := (settleOnce_of_none hold).1.symm.trans hlive
      exact absurd hlook (by simp)
  | put =>
    obtain ⟨href, howed⟩ := hs h live (lookup_apply_put.symm.trans hlive)
    exact ⟨isTrackedFor_putContent.trans href, howed⟩
  | prune => exact hop.elim

/-- The test that only the namespace `ns` satisfies. -/
def onlyNs (ns : NamespaceId) : NamespaceId → Bool := fun ns' ↦ decide (ns' = ns)

/-- While the entry on the ledger names a namespace that does not satisfy `p`, the wakes that name
one which does are those of repeated events. -/
theorem issued_other (now : Nat) (order : IterOrder ContentHash) (has : ContentHash → Bool)
    (fetch : ∀ h, Option {bytes // hashNew bytes = h})
    (hlive : s.node.tracked.lookup h = some live) (howed : WakeOwed live)
    (hother : p live.ns = false) (hrun : Run (Guarded (Keeps h) Step) s ops t) :
    issued p h (t.apply (.settle now order has fetch)) =
      issued p h s + countAlong (repeats p h) apply s ops := by
  have hflag : ∀ l : TrackedEntry, l.ns = live.ns → flag p l = 0 := by
    intro l hl
    simp [flag, hl, hother]
  obtain ⟨live₁, hlive₁, howed₁, hns₁, -, -, hcount₁⟩ := issued_stay (p := p) hrun hlive howed
  obtain ⟨live₂, -, hns₂, -, hcount₂⟩ := issued_pass (p := p) now order has fetch hlive₁ howed₁
  rw [hflag live rfl, hflag live₁ hns₁] at hcount₁
  rw [hflag live₁ hns₁, hflag live₂ (hns₂.trans hns₁)] at hcount₂
  omega

/-- **When a namespace is woken for its own entry.**  When a namespace delivers a hash that it did
not reference before, a wake that names it has been issued by the end of the first pass past the
fallback time exactly if the hash was new to the ledger and came without its bytes, or some event
of the namespace for the hash finds the bytes while the entry is still unwoken. -/
theorem issuedFor_iff {before : List (Op hashNew)}
    (hbefore : Run (Guarded NoSweep Step) (boot hashNew policy) before s)
    (hfirst : s.node.content.isTrackedFor ns e.contentHash = false)
    (hrun : Run (Guarded (Keeps e.contentHash) Step) s
      (.arrive ns e replaced deliveredBy present now :: ops) t)
    (hdue : now + wakeFallbackMs ≤ now') :
    issued (onlyNs ns) e.contentHash s <
        issued (onlyNs ns) e.contentHash (t.apply (.settle now' order has fetch)) ↔
      (e.contentHash ∉ s.node.tracked ∧ present = false) ∨
        0 < countAlong (repeats (onlyNs ns) e.contentHash) apply s
          (.arrive ns e replaced deliveredBy present now :: ops) := by
  have hsound : LedgerSound s.node := by
    refine hbefore.invariant (I := fun s ↦ LedgerSound s.node) (fun s op t hs hstep ↦ ?_) ?_
    · rw [hstep.2.2]
      exact ledgerSound_step hs hstep.1
    · intro h live hlive
      exact absurd hlive (by simp [boot, StashNode.boot])
  cases hold : s.node.tracked.lookup e.contentHash with
  | none =>
    have hnew : e.contentHash ∉ s.node.tracked := Finmap.lookup_eq_none.mp hold
    have hself : onlyNs ns ns = true := by simp [onlyNs]
    have hrep : repeats (onlyNs ns) e.contentHash s
        (.arrive ns e replaced deliveredBy present now) = false := by simp [repeats, hold]
    rw [countAlong, hrep]
    cases hrun with
    | cons hstep hrest =>
      rw [hstep.2.2] at hrest
      obtain ⟨hcount, hzero⟩ := issued_overdue (onlyNs ns) order has fetch hnew hrest hdue
      rw [hself] at hcount
      cases present with
      | true =>
        rw [hzero rfl] at hcount ⊢
        simp only [Bool.true_and, if_true] at hcount
        exact iff_of_false (by omega) (by simp)
      | false =>
        simp only [Bool.and_false, Bool.false_eq_true, if_false, if_true] at hcount
        exact iff_of_true (by omega) (Or.inl ⟨hnew, rfl⟩)
  | some live =>
    -- the entry names another namespace, so only the repeated events count
    obtain ⟨href, howed⟩ := hsound _ _ hold
    have hother : onlyNs ns live.ns = false := by
      rw [onlyNs, decide_eq_false_iff_not]
      intro hns
      rw [hns, hfirst] at href
      exact absurd href (by simp)
    have hmem : e.contentHash ∈ s.node.tracked := Finmap.mem_of_lookup_eq_some hold
    rw [issued_other now' order has fetch hold howed hother hrun, or_iff_right fun hc ↦ hc.1 hmem]
    omega

/-- Two granted namespaces, in the first of which a fix arrived without its bytes. -/
def deliveredOnce : List (Op noHash) :=
  [.grant (idOf 1) none, .grant (idOf 2) none,
    .arrive (idOf 1) firstFix (fun _ ↦ false) (idOf 9) false 1000]

theorem run_deliveredOnce :
    Run (Guarded NoSweep Step) dayStash deliveredOnce (dayStash.after deliveredOnce) :=
  Run.of_allAlong (P := fun s op ↦ NoSweep s op ∧ Enabled s op) (fun _ _ h ↦ ⟨h.1, h.2, rfl⟩)
    ⟨⟨trivial, trivial⟩, ⟨trivial, trivial⟩, ⟨trivial, rfl⟩, trivial⟩

theorem lookup_deliveredOnce : (dayStash.after deliveredOnce).node.tracked.lookup (idOf 7) =
    some (.arrived (idOf 1) firstFix (idOf 9) false 1000) := by decide

/-- The second namespace delivers the same content when its bytes have landed, and is woken. -/
theorem issuedFor_repeated : issued (onlyNs (idOf 2)) (idOf 7) (dayStash.after deliveredOnce) <
    issued (onlyNs (idOf 2)) (idOf 7) (((dayStash.after deliveredOnce).apply
      (.arrive (idOf 2) firstFix (fun _ ↦ false) (idOf 9) true 1100)).apply
        (.settle 31100 (.any _) (fun _ ↦ true) fun _ ↦ none)) := by
  have hrun : Run (Guarded (Keeps firstFix.contentHash) Step) (dayStash.after deliveredOnce)
      [.arrive (idOf 2) firstFix (fun _ ↦ false) (idOf 9) true 1100] _ :=
    .cons ⟨keeps_of_noSweep lookup_deliveredOnce trivial, rfl, rfl⟩ (.nil _)
  exact (issuedFor_iff run_deliveredOnce (by decide) hrun
    (by decide : 1100 + wakeFallbackMs ≤ 31100)).mpr (Or.inr (by decide))

/-- **A namespace is not woken for its own entry.**  A second namespace delivers the content of an
entry that is still on the ledger for the first one; the wake names the first one only. -/
theorem exists_unwoken_namespace : ¬ ∀ (before ops : List (Op noHash)) (s t : System noHash)
    (ns : NamespaceId) (e : Entry) (replaced : Entry → Bool) (deliveredBy : EndpointId)
    (present : Bool) (now now' : Nat) (order : IterOrder ContentHash) (has : ContentHash → Bool)
    (fetch : ∀ h, Option {bytes // noHash bytes = h}),
    Run (Guarded NoSweep Step) dayStash before s →
      s.node.content.isTrackedFor ns e.contentHash = false →
        Run (Guarded (Keeps e.contentHash) Step) s
          (.arrive ns e replaced deliveredBy present now :: ops) t →
          now + wakeFallbackMs ≤ now' →
            issued (onlyNs ns) e.contentHash s <
              issued (onlyNs ns) e.contentHash (t.apply (.settle now' order has fetch)) := by
  intro hall
  have hrun : Run (Guarded (Keeps firstFix.contentHash) Step) (dayStash.after deliveredOnce)
      [.arrive (idOf 2) firstFix (fun _ ↦ false) (idOf 9) false 1100] _ :=
    .cons ⟨keeps_of_noSweep lookup_deliveredOnce trivial, rfl, rfl⟩ (.nil _)
  have hlt := hall _ _ _ _ _ _ _ _ _ _ 31100 (.any _) (fun _ ↦ false) (fun _ ↦ none)
    run_deliveredOnce (by decide) hrun (by decide : 1100 + wakeFallbackMs ≤ 31100)
  have hcount := issued_other (p := onlyNs (idOf 2)) 31100 (.any _) (fun _ ↦ false)
    (fun _ ↦ none) lookup_deliveredOnce id (by decide) hrun
  have hnone : countAlong (repeats (onlyNs (idOf 2)) (idOf 7)) apply (dayStash.after deliveredOnce)
      [.arrive (idOf 2) firstFix (fun _ ↦ false) (idOf 9) false 1100] = 0 := by decide
  change issued (onlyNs (idOf 2)) (idOf 7) _ < issued (onlyNs (idOf 2)) (idOf 7) _ at hlt
  rw [hcount, hnone] at hlt
  omega

end System

end TrailStash
