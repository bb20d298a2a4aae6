import TrailStash.Node

/-!
# The settle pass

`settleOnce` looks after the entries whose bytes are missing.  It copies them out of `tracked`,
and then, one by one, asks the blob store for the bytes, tries to fetch them if a retry is due,
and writes what it learned back to the live entry: the bytes are here, or the attempt failed and
the next one is put off.  An entry that has become servable, or has waited `wakeFallbackMs`, is
released, once.

The copies are visited in the order the hash map is walked, and each visit touches one hash only.
So what a pass does to a hash does not depend on the others or on the order, which is
`settleOnce_spec`: a tracked hash whose bytes were missing is visited exactly once, every other
tracked hash is left as it was.  A hash that is not tracked stays so (`settleOnce_of_none`).
-/

set_option autoImplicit false

namespace TrailStash

namespace TrackedEntry

/-- What a visit learned about the bytes, written to the live entry.  `entry` is the copy taken at
the start of the pass. -/
def attempted (live entry : TrackedEntry) (now : Nat) (present : Bool) : TrackedEntry :=
  if present then { live with contentPresent := true }
  else if entry.nextAttemptMs ≤ now then
    { live with
      attempts := satSucc32 live.attempts
      nextAttemptMs := wrapAdd now (backoffMs (satSucc32 live.attempts)) }
  else live

/-- Whether a visit releases the entry: not woken yet, and servable or overdue. -/
def releases (live : TrackedEntry) (now : Nat) (present : Bool) : Bool :=
  let overdue := decide (wakeFallbackMs ≤ now - live.firstSeenMs)
  !live.woken && (present || overdue)

/-- The live entry after a visit. -/
def visited (live entry : TrackedEntry) (now : Nat) (present : Bool) : TrackedEntry :=
  let live := live.attempted entry now present
  if live.releases now present then { live with woken := true } else live

variable {live entry : TrackedEntry} {now : Nat} {present : Bool}

theorem attempted_eq (live entry : TrackedEntry) (now : Nat) (present : Bool) :
    ∃ nextAttemptMs attempts, live.attempted entry now present = { live with
      contentPresent := live.contentPresent || present
      nextAttemptMs := nextAttemptMs
      attempts := attempts } := by
  rw [attempted]
  split
  · next hp => exact ⟨live.nextAttemptMs, live.attempts, by simp [hp]⟩
  · next hp =>
    split
    · exact ⟨wrapAdd now (backoffMs (satSucc32 live.attempts)), satSucc32 live.attempts,
        by simp [hp]⟩
    · exact ⟨live.nextAttemptMs, live.attempts, by simp [hp]⟩

@[simp] theorem releases_attempted :
    (live.attempted entry now present).releases now present = live.releases now present := by
  obtain ⟨n, a, h⟩ := attempted_eq live entry now present
  rw [h]
  rfl

/-- The fields of an entry that a visit may change, and how it changes the flags. -/
theorem visited_eq (live entry : TrackedEntry) (now : Nat) (present : Bool) :
    ∃ nextAttemptMs attempts, live.visited entry now present = { live with
      contentPresent := live.contentPresent || present
      woken := live.woken || live.releases now present
      nextAttemptMs := nextAttemptMs
      attempts := attempts } := by
  obtain ⟨n, a, h⟩ := attempted_eq live entry now present
  refine ⟨n, a, ?_⟩
  rw [visited, releases_attempted, h]
  cases live.releases now present <;> simp

@[simp] theorem ns_visited : (live.visited entry now present).ns = live.ns := by
  obtain ⟨n, a, h⟩ := visited_eq live entry now present
  rw [h]

@[simp] theorem firstSeenMs_visited :
    (live.visited entry now present).firstSeenMs = live.firstSeenMs := by
  obtain ⟨n, a, h⟩ := visited_eq live entry now present
  rw [h]

@[simp] theorem contentPresent_visited :
    (live.visited entry now present).contentPresent = (live.contentPresent || present) := by
  obtain ⟨n, a, h⟩ := visited_eq live entry now present
  rw [h]

@[simp] theorem woken_visited :
    (live.visited entry now present).woken = (live.woken || live.releases now present) := by
  obtain ⟨n, a, h⟩ := visited_eq live entry now present
  rw [h]

end TrackedEntry

namespace StashNode

variable {hashNew : Bytes → ContentHash}

/-! ## The pass -/

/-- The tracked lock, with the content lock inside it: write the result of one visit back. -/
def writeBack (node : StashNode hashNew) (now : Nat) (h : ContentHash) (entry : TrackedEntry)
    (present : Bool) : StashNode hashNew × List Wake :=
  match node.tracked.lookup h with
  | none => (node, [])  -- pruned out from under the pass
  | some live =>
    let node := { node with tracked := node.tracked.insert h (live.visited entry now present) }
    let node := if present then node.markPresent h else node
    (node, if live.releases now present then [⟨h, entry, !present⟩] else [])

/-- One visit: the two sources of an answer, in the order they are asked, and the result. -/
def settleVisit (node : StashNode hashNew) (now : Nat) (has : ContentHash → Bool)
    (fetch : ∀ h, Option {bytes // hashNew bytes = h}) (h : ContentHash) (entry : TrackedEntry) :
    StashNode hashNew × List Wake :=
  if has h then node.writeBack now h entry true
  else if entry.nextAttemptMs ≤ now then
    match fetch h with
    | some bytes => (node.land bytes).writeBack now h entry true
    | none => node.writeBack now h entry false
  else node.writeBack now h entry false

/-- The loop over the copied entries. -/
def settleLoop (now : Nat) (has : ContentHash → Bool)
    (fetch : ∀ h, Option {bytes // hashNew bytes = h}) :
    List (ContentHash × TrackedEntry) → StashNode hashNew → StashNode hashNew × List Wake
  | [], node => (node, [])
  | (h, entry) :: rest, node =>
    let (node, wakes) := node.settleVisit now has fetch h entry
    let (node, wakes') := settleLoop now has fetch rest node
    (node, wakes ++ wakes')

/-- The entries whose bytes are missing, copied in the order the map is walked. -/
def outstanding (node : StashNode hashNew) (order : IterOrder ContentHash) :
    List (ContentHash × TrackedEntry) :=
  (order.list node.tracked.keys).filterMap fun h ↦
    (node.tracked.lookup h).bind fun entry ↦
      if !entry.contentPresent then some (h, entry) else none

/-- One settle pass: `has` and `fetch` are the answers of the blob store and of the network. -/
def settleOnce (node : StashNode hashNew) (now : Nat) (order : IterOrder ContentHash)
    (has : ContentHash → Bool) (fetch : ∀ h, Option {bytes // hashNew bytes = h}) :
    StashNode hashNew × List Wake :=
  settleLoop now has fetch (node.outstanding order) node

/-! ## What a visit does -/

variable {node : StashNode hashNew} {now : Nat} {order : IterOrder ContentHash}
  {has : ContentHash → Bool} {fetch : ∀ h, Option {bytes // hashNew bytes = h}}
  {ns : NamespaceId} {h h' : ContentHash} {entry live : TrackedEntry} {present : Bool}
  {l : List (ContentHash × TrackedEntry)}

theorem frame_writeBack : Frame node (node.writeBack now h entry present).1 := by
  rw [writeBack]
  split
  · exact Frame.refl node
  · cases present <;> exact ⟨rfl, rfl, rfl, rfl⟩

/-- The index changes by one mark at most. -/
theorem content_writeBack (node : StashNode hashNew) (now : Nat) (h : ContentHash)
    (entry : TrackedEntry) (present : Bool) :
    (node.writeBack now h entry present).1.content = node.content ∨
    (present = true ∧
      (node.writeBack now h entry present).1.content = node.content.markPresent h) := by
  rw [writeBack]
  split
  · exact Or.inl rfl
  · cases present
    · exact Or.inl rfl
    · exact Or.inr ⟨rfl, rfl⟩

theorem isTrackedFor_writeBack :
    (node.writeBack now h entry present).1.content.isTrackedFor ns h' =
      node.content.isTrackedFor ns h' := by
  rcases content_writeBack node now h entry present with heq | ⟨-, heq⟩
  · rw [heq]
  · rw [heq, ContentIndex.isTrackedFor_markPresent]

theorem isPresent_writeBack
    (hp : (node.writeBack now h entry present).1.content.isPresent h' = true) :
    (h' = h ∧ present = true) ∨ node.content.isPresent h' = true := by
  rcases content_writeBack node now h entry present with heq | ⟨hpresent, heq⟩
  · exact Or.inr (heq ▸ hp)
  · rw [heq, ContentIndex.isPresent_markPresent] at hp
    exact hp.imp_left fun hh ↦ ⟨hh.1, hpresent⟩

theorem isTracked_writeBack : (node.writeBack now h entry present).1.content.isTracked h' =
    node.content.isTracked h' := by
  rcases content_writeBack node now h entry present with heq | ⟨-, heq⟩
  · rw [heq]
  · rw [heq, ContentIndex.isTracked_markPresent]

theorem isPresent_writeBack_of_isPresent (hp : node.content.isPresent h' = true) :
    (node.writeBack now h entry present).1.content.isPresent h' = true := by
  rcases content_writeBack node now h entry present with heq | ⟨-, heq⟩
  · rw [heq, hp]
  · rw [heq]
    exact ContentIndex.isPresent_markPresent.mpr (Or.inr hp)

/-- The answer that the bytes are here is written to the index as well. -/
theorem isPresent_writeBack_self (hmem : h ∈ node.tracked) (ht : node.content.isTracked h = true) :
    (node.writeBack now h entry true).1.content.isPresent h = true := by
  obtain ⟨live, hlive⟩ := Finmap.mem_iff.mp hmem
  rw [writeBack, hlive]
  exact ContentIndex.isPresent_markPresent.mpr (Or.inl ⟨rfl, ht⟩)

theorem blobs_writeBack : (node.writeBack now h entry present).1.blobs = node.blobs := by
  rw [writeBack]
  split
  · rfl
  · cases present <;> rfl

theorem tracked_writeBack_of_none (hnone : node.tracked.lookup h = none) :
    node.writeBack now h entry present = (node, []) := by
  rw [writeBack, hnone]

theorem lookup_writeBack_self (hlive : node.tracked.lookup h = some live) :
    (node.writeBack now h entry present).1.tracked.lookup h =
      some (live.visited entry now present) := by
  rw [writeBack, hlive]
  cases present <;> exact Finmap.lookup_insert _

theorem lookup_writeBack_of_ne (hne : h' ≠ h) :
    (node.writeBack now h entry present).1.tracked.lookup h' = node.tracked.lookup h' := by
  rw [writeBack]
  split
  · rfl
  · cases present <;> exact Finmap.lookup_insert_of_ne _ hne

theorem mem_tracked_writeBack :
    h' ∈ (node.writeBack now h entry present).1.tracked ↔ h' ∈ node.tracked := by
  by_cases hh : h' = h
  · subst hh
    cases hlook : node.tracked.lookup h' with
    | none => rw [tracked_writeBack_of_none hlook]
    | some live =>
      exact iff_of_true (Finmap.mem_of_lookup_eq_some (lookup_writeBack_self hlook))
        (Finmap.mem_of_lookup_eq_some hlook)
  · rw [Finmap.mem_iff, Finmap.mem_iff, lookup_writeBack_of_ne hh]

theorem snd_writeBack (hlive : node.tracked.lookup h = some live) :
    (node.writeBack now h entry present).2 =
      if live.releases now present then [⟨h, entry, !present⟩] else [] := by
  rw [writeBack, hlive]

/-- The answer of a visit. -/
def visitAnswer (now : Nat) (has : ContentHash → Bool)
    (fetch : ∀ h, Option {bytes // hashNew bytes = h}) (h : ContentHash) (entry : TrackedEntry) :
    Bool :=
  has h || (decide (entry.nextAttemptMs ≤ now) && (fetch h).isSome)

/-- A visit lands bytes at most, and then writes its answer back. -/
theorem settleVisit_eq (node : StashNode hashNew) (now : Nat) (has : ContentHash → Bool)
    (fetch : ∀ h, Option {bytes // hashNew bytes = h}) (h : ContentHash) (entry : TrackedEntry) :
    ∃ node' : StashNode hashNew, (node' = node ∨ ∃ bytes, node' = node.land bytes) ∧
      node.settleVisit now has fetch h entry =
        node'.writeBack now h entry (visitAnswer now has fetch h entry) := by
  rw [settleVisit, visitAnswer]
  by_cases hhas : has h = true
  · exact ⟨node, Or.inl rfl, by simp [hhas]⟩
  · by_cases hdue : entry.nextAttemptMs ≤ now
    · cases hfetch : fetch h with
      | none => exact ⟨node, Or.inl rfl, by simp [hhas, hdue]⟩
      | some bytes => exact ⟨node.land bytes, Or.inr ⟨_, rfl⟩, by simp [hhas, hdue]⟩
    · exact ⟨node, Or.inl rfl, by simp [hhas, hdue]⟩

theorem frame_settleVisit : Frame node (node.settleVisit now has fetch h entry).1 := by
  obtain ⟨node', hnode' | ⟨bytes, hnode'⟩, heq⟩ :=
    settleVisit_eq node now has fetch h entry
  · rw [heq, hnode']
    exact frame_writeBack
  · rw [heq, hnode']
    have hland : Frame node (node.land bytes) := ⟨rfl, rfl, rfl, rfl⟩
    exact hland.trans frame_writeBack

theorem isTrackedFor_settleVisit :
    (node.settleVisit now has fetch h entry).1.content.isTrackedFor ns h' =
      node.content.isTrackedFor ns h' := by
  obtain ⟨node', hnode' | ⟨bytes, hnode'⟩, heq⟩ :=
    settleVisit_eq node now has fetch h entry
  · rw [heq, isTrackedFor_writeBack, hnode']
  · rw [heq, isTrackedFor_writeBack, hnode']
    rfl

/-- What a visit of `h` does to the ledger entry of a hash, and the wakes it issues. -/
theorem settleVisit_spec (now : Nat) (has : ContentHash → Bool)
    (fetch : ∀ h, Option {bytes // hashNew bytes = h}) (entry : TrackedEntry)
    (hlive : node.tracked.lookup h = some live) :
    (node.settleVisit now has fetch h entry).1.tracked.lookup h =
        some (live.visited entry now (visitAnswer now has fetch h entry)) ∧
      (node.settleVisit now has fetch h entry).2 =
        if live.releases now (visitAnswer now has fetch h entry) then
          [⟨h, entry, !visitAnswer now has fetch h entry⟩] else [] := by
  obtain ⟨node', hnode', heq⟩ :=
    settleVisit_eq node now has fetch h entry
  have hlive' : node'.tracked.lookup h = some live := by
    rcases hnode' with rfl | ⟨bytes, rfl⟩ <;> exact hlive
  rw [heq]
  exact ⟨lookup_writeBack_self hlive', snd_writeBack hlive'⟩

theorem lookup_settleVisit_of_ne (hne : h' ≠ h) :
    (node.settleVisit now has fetch h entry).1.tracked.lookup h' = node.tracked.lookup h' := by
  obtain ⟨node', hnode' | ⟨bytes, hnode'⟩, heq⟩ :=
    settleVisit_eq node now has fetch h entry
  · rw [heq, lookup_writeBack_of_ne hne, hnode']
  · rw [heq, lookup_writeBack_of_ne hne, hnode']
    rfl

theorem hash_of_mem_settleVisit {w : Wake}
    (hw : w ∈ (node.settleVisit now has fetch h entry).2) : w.hash = h := by
  obtain ⟨node', -, heq⟩ :=
    settleVisit_eq node now has fetch h entry
  rw [heq] at hw
  cases hlive : node'.tracked.lookup h with
  | none =>
    rw [tracked_writeBack_of_none hlive] at hw
    exact absurd hw (by simp)
  | some live =>
    rw [snd_writeBack hlive] at hw
    split at hw
    · rw [List.mem_singleton.mp hw]
    · exact absurd hw (by simp)

/-! ## What a pass does -/

/-- The wakes of a list that are for `h`. -/
def wakesFor (h : ContentHash) (ws : List Wake) : List Wake := ws.filter (·.hash = h)

@[simp] theorem wakesFor_append {ws ws' : List Wake} :
    wakesFor h (ws ++ ws') = wakesFor h ws ++ wakesFor h ws' := List.filter_append ws ws'

theorem wakesFor_eq_nil {ws : List Wake} (hne : ∀ w ∈ ws, w.hash ≠ h) : wakesFor h ws = [] := by
  simpa [wakesFor, List.filter_eq_nil_iff] using hne

theorem wakesFor_eq_self {ws : List Wake} (hall : ∀ w ∈ ws, w.hash = h) : wakesFor h ws = ws := by
  simpa [wakesFor, List.filter_eq_self] using hall

theorem settleLoop_cons (node : StashNode hashNew) (p : ContentHash × TrackedEntry) :
    settleLoop now has fetch (p :: l) node =
      ((settleLoop now has fetch l (node.settleVisit now has fetch p.1 p.2).1).1,
        (node.settleVisit now has fetch p.1 p.2).2 ++
          (settleLoop now has fetch l (node.settleVisit now has fetch p.1 p.2).1).2) := rfl

theorem frame_settleLoop : Frame node (settleLoop now has fetch l node).1 := by
  induction l generalizing node with
  | nil => exact Frame.refl node
  | cons p rest ih =>
    rw [settleLoop_cons]
    exact frame_settleVisit.trans ih

theorem isTrackedFor_settleLoop :
    (settleLoop now has fetch l node).1.content.isTrackedFor ns h =
      node.content.isTrackedFor ns h := by
  induction l generalizing node with
  | nil => rfl
  | cons p rest ih =>
    rw [settleLoop_cons]
    exact ih.trans isTrackedFor_settleVisit

/-- A hash that is not among the copies is left alone. -/
theorem settleLoop_of_notMem (node : StashNode hashNew) (hnot : h ∉ l.map Prod.fst) :
    (settleLoop now has fetch l node).1.tracked.lookup h = node.tracked.lookup h ∧
      wakesFor h (settleLoop now has fetch l node).2 = [] := by
  induction l generalizing node with
  | nil => exact ⟨rfl, rfl⟩
  | cons p rest ih =>
    rw [List.map_cons, List.mem_cons, not_or] at hnot
    obtain ⟨ih1, ih2⟩ := ih (node.settleVisit now has fetch p.1 p.2).1 hnot.2
    have hvisit : wakesFor h (node.settleVisit now has fetch p.1 p.2).2 = [] :=
      wakesFor_eq_nil fun w hw hwh ↦ hnot.1 (hwh ▸ hash_of_mem_settleVisit hw)
    rw [settleLoop_cons]
    refine ⟨ih1.trans (lookup_settleVisit_of_ne hnot.1), ?_⟩
    rw [wakesFor_append, hvisit, ih2, List.append_nil]

/-- A hash that is among the copies, once, is visited once. -/
theorem settleLoop_of_mem (node : StashNode hashNew) (hnd : (l.map Prod.fst).Nodup)
    (hmem : (h, entry) ∈ l) (hlive : node.tracked.lookup h = some live) :
    (settleLoop now has fetch l node).1.tracked.lookup h =
        some (live.visited entry now (visitAnswer now has fetch h entry)) ∧
      wakesFor h (settleLoop now has fetch l node).2 =
        if live.releases now (visitAnswer now has fetch h entry) then
          [⟨h, entry, !visitAnswer now has fetch h entry⟩] else [] := by
  induction l generalizing node with
  | nil => exact absurd hmem (by simp)
  | cons p rest ih =>
    rw [List.map_cons, List.nodup_cons] at hnd
    rw [settleLoop_cons, wakesFor_append]
    rcases List.mem_cons.mp hmem with rfl | hmem
    · -- visited now, and not again
      obtain ⟨hself, hwakes⟩ := settleVisit_spec now has fetch entry hlive
      obtain ⟨hrest, hrest'⟩ :=
        settleLoop_of_notMem (node.settleVisit now has fetch h entry).1 hnd.1
      refine ⟨hrest.trans hself, ?_⟩
      rw [hrest', List.append_nil, ← hwakes]
      exact wakesFor_eq_self fun w hw ↦ hash_of_mem_settleVisit hw
    · -- visited later
      have hne : h ≠ p.1 := fun hh ↦ hnd.1 (hh ▸ List.mem_map_of_mem hmem)
      obtain ⟨ih1, ih2⟩ := ih (node.settleVisit now has fetch p.1 p.2).1 hnd.2 hmem
        (by rw [lookup_settleVisit_of_ne hne, hlive])
      have hvisit : wakesFor h (node.settleVisit now has fetch p.1 p.2).2 = [] :=
        wakesFor_eq_nil fun w hw hwh ↦ hne (hwh ▸ hash_of_mem_settleVisit hw)
      exact ⟨ih1, by rw [hvisit, List.nil_append, ih2]⟩

theorem mem_outstanding : (h, entry) ∈ node.outstanding order ↔
    node.tracked.lookup h = some entry ∧ entry.contentPresent = false := by
  rw [outstanding, List.mem_filterMap]
  constructor
  · rintro ⟨h₀, -, hbind⟩
    obtain ⟨entry₀, hlook, hif⟩ := Option.bind_eq_some_iff.mp hbind
    split at hif
    · next hc =>
      obtain ⟨rfl, rfl⟩ := Prod.mk.inj (Option.some.inj hif)
      exact ⟨hlook, by simpa using hc⟩
    · exact absurd hif (by simp)
  · rintro ⟨hlook, hc⟩
    refine ⟨h, (order.mem_list _ _).mpr (Finmap.mem_keys.mpr ?_), by simp [hlook, hc]⟩
    exact Finmap.mem_of_lookup_eq_some hlook

theorem lookup_of_mem_outstanding (hmem : h ∈ (node.outstanding order).map Prod.fst) :
    ∃ entry, node.tracked.lookup h = some entry ∧ entry.contentPresent = false := by
  obtain ⟨⟨h', entry⟩, hp, rfl⟩ := List.mem_map.mp hmem
  exact ⟨entry, mem_outstanding.mp hp⟩

theorem nodup_outstanding : ((node.outstanding order).map Prod.fst).Nodup := by
  rw [outstanding, List.map_filterMap]
  refine List.Nodup.filterMap (fun h₁ h₂ h hh₁ hh₂ ↦ ?_) (order.nodup _)
  -- the key of a copy is the hash it was copied for
  have hkey : ∀ h₀, h ∈ ((node.tracked.lookup h₀).bind fun entry ↦
      if !entry.contentPresent then some (h₀, entry) else none).map Prod.fst → h₀ = h := by
    intro h₀ hh
    obtain ⟨⟨h', entry⟩, hbind, rfl⟩ := Option.map_eq_some_iff.mp hh
    obtain ⟨entry', -, hif⟩ := Option.bind_eq_some_iff.mp hbind
    split at hif
    · exact (Prod.mk.inj (Option.some.inj hif)).1
    · exact absurd hif (by simp)
  exact (hkey h₁ hh₁).trans (hkey h₂ hh₂).symm

/-- The copies of a ledger with one entry, whose bytes are missing. -/
theorem outstanding_of_one (hkeys : node.tracked.keys = {h})
    (hlook : node.tracked.lookup h = some entry) (hc : entry.contentPresent = false) :
    node.outstanding order = [(h, entry)] := by
  rw [outstanding, hkeys, IterOrder.list_singleton]
  simp [hlook, hc]

theorem frame_settleOnce : Frame node (node.settleOnce now order has fetch).1 := frame_settleLoop

theorem isTrackedFor_settleOnce :
    (node.settleOnce now order has fetch).1.content.isTrackedFor ns h =
      node.content.isTrackedFor ns h := isTrackedFor_settleLoop

/-- An entry after a whole pass. -/
def settled (now : Nat) (has : ContentHash → Bool)
    (fetch : ∀ h, Option {bytes // hashNew bytes = h}) (h : ContentHash) (live : TrackedEntry) :
    TrackedEntry :=
  if live.contentPresent then live else live.visited live now (visitAnswer now has fetch h live)

/-- The wakes a whole pass issues for an entry. -/
def settledWakes (now : Nat) (has : ContentHash → Bool)
    (fetch : ∀ h, Option {bytes // hashNew bytes = h}) (h : ContentHash) (live : TrackedEntry) :
    List Wake :=
  if !live.contentPresent && live.releases now (visitAnswer now has fetch h live) then
    [⟨h, live, !visitAnswer now has fetch h live⟩] else []

/-- **What a pass does to one hash**, whatever the others are and in whatever order they are
visited. -/
theorem settleOnce_spec (now : Nat) (order : IterOrder ContentHash) (has : ContentHash → Bool)
    (fetch : ∀ h, Option {bytes // hashNew bytes = h})
    (hlive : node.tracked.lookup h = some live) :
    (node.settleOnce now order has fetch).1.tracked.lookup h =
        some (settled now has fetch h live) ∧
      wakesFor h (node.settleOnce now order has fetch).2 = settledWakes now has fetch h live := by
  rw [settled, settledWakes]
  cases hc : live.contentPresent with
  | false =>
    obtain ⟨h1, h2⟩ := settleLoop_of_mem node nodup_outstanding
      (mem_outstanding.mpr ⟨hlive, hc⟩) hlive
    exact ⟨by rw [settleOnce, h1]; simp, by rw [settleOnce, h2]; simp⟩
  | true =>
    have hnot : h ∉ (node.outstanding order).map Prod.fst := by
      intro hmem
      obtain ⟨entry, hlook, hcp⟩ := lookup_of_mem_outstanding hmem
      rw [hlive] at hlook
      rw [← Option.some.inj hlook, hc] at hcp
      exact absurd hcp (by simp)
    obtain ⟨h1, h2⟩ := settleLoop_of_notMem node hnot
    exact ⟨by rw [settleOnce, h1, hlive]; simp, by rw [settleOnce, h2]; simp⟩

/-- A pass puts nothing on the ledger, and wakes nobody for a hash that is not on it. -/
theorem settleOnce_of_none (hnone : node.tracked.lookup h = none) :
    (node.settleOnce now order has fetch).1.tracked.lookup h = none ∧
      wakesFor h (node.settleOnce now order has fetch).2 = [] := by
  have hnot : h ∉ (node.outstanding order).map Prod.fst := by
    intro hmem
    obtain ⟨entry, hlook, -⟩ := lookup_of_mem_outstanding hmem
    exact absurd (hnone.symm.trans hlook) (by simp)
  obtain ⟨h1, h2⟩ := settleLoop_of_notMem node hnot
  exact ⟨by rw [settleOnce, h1, hnone], h2⟩

end StashNode

end TrailStash
