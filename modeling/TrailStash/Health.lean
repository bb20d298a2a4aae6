import TrailStash.KeyGrammar
import TrailStash.Ledgers
import TrailStash.Receipts
import TrailStash.Retries

/-!
# What the health report is worth

`content_stats` counts the referenced hashes that are not marked present, and all referenced hashes.
It is read off the content index, and says something about the blob store only as far as the marks
do.  In a run of whole operations they do: what is marked is stored, and what is not marked the
settle loop still chases (`Consistent`).  So the report never understates what is missing, and after
a pass whose questions the store answers it is exact (`contentStats_exact`).

The second half is the promise behind it, that the stash heals itself.  A missing blob is asked for
again and again, of the peer that delivered the record and of its author, and two attempts are never
more than a minute apart.  So once the attempts succeed, nothing is missing after a minute
(`healed_within_a_minute`).  This too is about runs of whole operations: between the atomic steps of
two of them a hash can fall off the ledger while it is referenced (`exists_disagreement`), and then
nobody asks for it.
-/

set_option autoImplicit false

namespace TrailStash

open Runs StashNode TrailStash.System

variable {hashNew : Bytes → ContentHash}

/-! ## The report -/

/-- How many referenced hashes are missing their bytes, and how many there are. -/
def StashNode.contentStats (node : StashNode hashNew) : Nat × Nat :=
  (node.content.missingCount, node.content.trackedCount)

/-- Between two operations: the ledger and the index agree, and what is marked is stored. -/
structure Consistent (node : StashNode hashNew) : Prop where
  /-- No update of either map is owed. -/
  agree : Agree node fun _ ↦ False
  /-- Present means held. -/
  held : ∀ h, node.content.isPresent h = true → node.blobs.has h = true

variable {node node' : StashNode hashNew} {s t : System hashNew} {o : StoreOp hashNew}
  {ops : List (StoreOp hashNew)} {ns : NamespaceId} {h : ContentHash} {e : Entry}
  {entry live : TrackedEntry} {peer : EndpointId} {present fails : Bool} {now k : Nat}
  {bytes : Bytes} {has : ContentHash → Bool} {fetch : ∀ h, Option {bytes // hashNew bytes = h}}
  {l : List (ContentHash × TrackedEntry)} {policy : RetentionPolicy}

namespace Consistent

/-- An operation that touches neither map and loses no bytes. -/
theorem mono (hs : Consistent node) (hcontent : node'.content = node.content)
    (htracked : node'.tracked = node.tracked)
    (hblobs : ∀ h, node.content.isPresent h = true → node.blobs.has h = true →
      node'.blobs.has h = true) : Consistent node' := by
  refine ⟨hs.agree.mono hcontent htracked fun _ ↦ id, fun h hp ↦ ?_⟩
  rw [hcontent] at hp
  exact hblobs h hp (hs.held h hp)

/-- The handler of an event: it takes up the reference, adds the entry, and sets the mark. -/
theorem onInsertRemote (hs : Consistent node)
    (hhas : present = true → node.blobs.has e.contentHash = true) :
    Consistent (node.onInsertRemote ns e peer present now).1 := by
  have hwanted : Agree (node.want ns e.contentHash) (· = .insert e.contentHash) :=
    hs.agree.want (fun _ ho ↦ ho.elim) rfl
  have hreferenced : (node.want ns e.contentHash).content.isTracked e.contentHash = true :=
    ContentIndex.isTracked_want.mpr (Or.inl rfl)
  have hadded : Agree ((node.want ns e.contentHash).orInsert e.contentHash
      (.arrived ns e peer present now)).2
      fun d ↦ d = .mark e.contentHash ∧ present = true :=
    hwanted.orInsert (fun _ ho ↦ Or.inl ho) (fun hp ↦ ⟨rfl, hp⟩) (Or.inl hreferenced)
  cases present with
  | false =>
    refine ⟨hadded.mono rfl rfl fun _ ho ↦ absurd ho.2 Bool.false_ne_true, fun h hp ↦ ?_⟩
    exact hs.held h (ContentIndex.isPresent_want.symm.trans hp)
  | true =>
    refine ⟨hadded.markPresent fun _ ho ↦ Or.inl ho.1, fun h hp ↦ ?_⟩
    rcases ContentIndex.isPresent_markPresent.mp hp with ⟨rfl, -⟩ | hp
    · exact hhas rfl
    · exact hs.held h (ContentIndex.isPresent_want.symm.trans hp)

/-- One visit of a settle pass. -/
theorem settleVisit (hs : Consistent node) (hhas : has h = true → node.blobs.has h = true) :
    Consistent (node.settleVisit now has fetch h entry).1 := by
  have hwrite : ∀ (node' : StashNode hashNew) (present : Bool), Consistent node' →
      (present = true → node'.blobs.has h = true) →
        Consistent (node'.writeBack now h entry present).1 := by
    intro node' present hs' hpresent
    refine ⟨hs'.agree.writeBack fun _ ↦ id, fun h' hp ↦ ?_⟩
    rw [blobs_writeBack]
    rcases isPresent_writeBack hp with ⟨rfl, hyes⟩ | hp
    · exact hpresent hyes
    · exact hs'.held h' hp
  rw [StashNode.settleVisit]
  split
  · next hyes => exact hwrite node true hs fun _ ↦ hhas hyes
  · split
    · cases fetch h with
      | none => exact hwrite node false hs fun hc ↦ absurd hc Bool.false_ne_true
      | some fetched =>
        refine hwrite (node.land fetched.1) true ?_ fun _ ↦ ?_
        · exact hs.mono rfl rfl fun h' _ hh ↦ BlobStore.has_land.mpr (Or.inr hh)
        · exact BlobStore.has_land.mpr (Or.inl fetched.2.symm)
    · exact hwrite node false hs fun hc ↦ absurd hc Bool.false_ne_true

theorem settleLoop (hs : Consistent node) (hhas : ∀ h, has h = true → node.blobs.has h = true) :
    Consistent (StashNode.settleLoop now has fetch l node).1 := by
  induction l generalizing node with
  | nil => exact hs
  | cons p rest ih =>
    rw [settleLoop_cons]
    exact ih (hs.settleVisit (hhas p.1)) fun h hh ↦ has_settleVisit (hhas h hh)

theorem putContent (hs : Consistent node) :
    Consistent (node.putContent ns h bytes fails).1 := by
  rcases putContent_cases node ns h bytes fails with ⟨heq, -⟩ | ⟨-, -, hhash, -, heq⟩
  · rwa [heq]
  · have hadded : Agree (node.addBytes bytes).2 fun _ ↦ False :=
      hs.agree.mono rfl rfl fun _ ↦ id
    rw [heq]
    refine ⟨hadded.markPresent fun _ ho ↦ ho.elim, fun h' hp ↦ BlobStore.has_addBytes.mpr ?_⟩
    rcases ContentIndex.isPresent_markPresent.mp hp with ⟨rfl, -⟩ | hp
    · exact Or.inl hhash.symm
    · exact Or.inr (hs.held h' hp)

/-- A sweep takes a hash off both maps or off neither. -/
theorem sheds (hs : Consistent node) (hsheds : Sheds node node' k) : Consistent node' := by
  have hlookup : ∀ h live, node'.tracked.lookup h = some live →
      h ∉ shed node node' ∧ node.tracked.lookup h = some live := by
    intro h live hlive
    rw [hsheds.ledger] at hlive
    split at hlive
    · exact absurd hlive nofun
    · next hnot => exact ⟨hnot, hlive⟩
  have hstays : ∀ h, h ∉ shed node node' → node.content.isTracked h = true →
      node'.content.isTracked h = true := by
    intro h hnot ht
    by_contra hgone
    exact hnot (mem_shed.mpr ⟨ht, by simpa using hgone⟩)
  refine ⟨⟨fun h ht ↦ Or.inl ?_, fun h hmem ↦ Or.inl ?_, fun h live hlive hp ↦ Or.inl ?_⟩,
    fun h hp ↦ ?_⟩
  · have hmem := (hs.agree.index h (hsheds.isTracked ht)).resolve_right id
    obtain ⟨live, hlive⟩ := Finmap.mem_iff.mp hmem
    refine Finmap.mem_of_lookup_eq_some (b := live) ?_
    rw [hsheds.ledger, if_neg (fun hshed ↦ ?_), hlive]
    exact absurd ht (by simp [(mem_shed.mp hshed).2])
  · obtain ⟨live, hlive⟩ := Finmap.mem_iff.mp hmem
    obtain ⟨hnot, hold⟩ := hlookup h live hlive
    have ht := (hs.agree.ledger h (Finmap.mem_of_lookup_eq_some hold)).resolve_right id
    exact hstays h hnot ht
  · obtain ⟨hnot, hold⟩ := hlookup h live hlive
    have hmark := (hs.agree.bytes h live hold hp).resolve_right (by simp)
    exact (hsheds.present h).mpr ⟨hmark, hstays h hnot (ContentIndex.isTracked_of_isPresent hmark)⟩
  · rw [hsheds.blobs]
    exact hs.held h ((hsheds.present h).mp hp).1

/-- **Every step keeps the node consistent.** -/
theorem store (hs : Consistent s.node) (hstep : StoreStep s o t) : Consistent t.node := by
  obtain ⟨hallowed, rfl⟩ := hstep
  cases o with
  | land bytes => exact hs.mono rfl rfl fun h _ hh ↦ BlobStore.has_land.mpr (Or.inr hh)
  | collect spared =>
    refine hs.mono rfl rfl fun h hp hh ↦ BlobStore.has_collect.mpr ⟨hh, fun hdead ↦ ?_⟩
    -- what is marked is referenced, and what is referenced is protected
    have href := ContentIndex.mem_referenced.mpr (ContentIndex.isTracked_of_isPresent hp)
    simp [deadBlobs, href] at hdead
  | op op =>
    have htrue := (hallowed op rfl).2
    cases op with
    | grant ns sub => exact hs.mono rfl rfl fun _ _ ↦ id
    | arrive ns e replaced peer present now =>
      have hsame : Consistent (s.node.replicate ns e replaced) := hs.mono rfl rfl fun _ _ ↦ id
      exact hsame.onInsertRemote htrue
    | settle now order has fetch => exact hs.settleLoop htrue
    | put ns expected bytes fails => exact hs.putContent
    | prune now faulty nsOrder order =>
      obtain ⟨k, hsheds⟩ := sheds_pruneOnce s.node now faulty nsOrder order
      exact hs.sheds hsheds

theorem boot : Consistent (System.boot hashNew policy).node := by
  refine ⟨⟨fun h ht ↦ ?_, fun h hmem ↦ ?_, fun h live hl ↦ ?_⟩, fun h hp ↦ ?_⟩
  · exact absurd (ContentIndex.isTracked_iff.mp ht) (by simp [System.boot, StashNode.boot])
  · exact absurd hmem Finmap.notMem_empty
  · exact absurd hl (by simp [System.boot, StashNode.boot])
  · exact absurd hp (by simp [System.boot, StashNode.boot])

theorem run (hrun : Run StoreStep (System.boot hashNew policy) ops s) : Consistent s.node :=
  hrun.invariant (I := fun s ↦ Consistent s.node) (fun _ _ _ hs hst ↦ hs.store hst) .boot

/-- A referenced hash that is marked present can be downloaded. -/
theorem contentBytes (hs : Consistent node) (ht : node.content.isTrackedFor ns h = true)
    (hp : node.content.isPresent h = true) :
    ∃ b, node.contentBytes ns h = some b ∧ hashNew b = h := by
  obtain ⟨b, hb⟩ := Option.isSome_iff_exists.mp (hs.held h hp)
  exact ⟨b, contentBytes_eq_some.mpr ⟨ht, hp, hb⟩, node.blobs.addressed h b hb⟩

/-- A referenced hash that is not marked is on the ledger, and not as present. -/
theorem lookup_of_missing (hs : Consistent node) (ht : node.content.isTracked h = true)
    (hp : node.content.isPresent h = false) :
    ∃ live, node.tracked.lookup h = some live ∧ live.contentPresent = false := by
  obtain ⟨live, hlive⟩ := Finmap.mem_iff.mp ((hs.agree.index h ht).resolve_right id)
  refine ⟨live, hlive, Bool.eq_false_iff.mpr fun hc ↦ ?_⟩
  have hmark := (hs.agree.bytes h live hlive hc).resolve_right (by simp)
  simp [hp] at hmark

end Consistent

/-! ## The report is exact after a pass -/

/-- The bytes of a hash that a pass has nothing to fetch for stay as they are. -/
theorem blob_settleLoop_of_idle (l : List (ContentHash × TrackedEntry)) (node : StashNode hashNew)
    (hidle : ∀ entry, (h, entry) ∈ l → has h = false → entry.nextAttemptMs ≤ now →
      fetch h = none) :
    (settleLoop now has fetch l node).1.blobs.blob h = node.blobs.blob h := by
  induction l generalizing node with
  | nil => rfl
  | cons p rest ih =>
    obtain ⟨h', entry⟩ := p
    rw [settleLoop_cons]
    refine (ih _ fun entry hmem ↦ hidle entry (List.mem_cons_of_mem _ hmem)).trans ?_
    dsimp only
    rw [settleVisit]
    split
    · rw [blobs_writeBack]
    · next hhas =>
      split
      · next hdue =>
        cases hfetch : fetch h' with
        | none => rw [blobs_writeBack]
        | some fetched =>
          rw [blobs_writeBack]
          refine if_neg fun heq ↦ ?_
          -- what is fetched for another hash has another hash
          obtain rfl : h = h' := heq.trans fetched.2
          have hnone := hidle entry List.mem_cons_self (by simpa using hhas) hdue
          simp [hfetch] at hnone
      · rw [blobs_writeBack]

/-- **After a pass that is told the truth the marks are exact.** -/
theorem isPresent_settleOnce_iff {order : IterOrder ContentHash} (hs : Consistent node)
    (hhas : ∀ h, has h = node.blobs.has h)
    (ht : (node.settleOnce now order has fetch).1.content.isTracked h = true) :
    (node.settleOnce now order has fetch).1.content.isPresent h = true ↔
      (node.settleOnce now order has fetch).1.blobs.has h = true := by
  have hafter : Consistent (node.settleOnce now order has fetch).1 :=
    hs.settleLoop fun h hh ↦ (hhas h).symm.trans hh
  refine ⟨hafter.held h, fun hstored ↦ ?_⟩
  by_contra hp
  obtain ⟨live', hlive', hmissing⟩ := hafter.lookup_of_missing ht (by simpa using hp)
  cases hlive : node.tracked.lookup h with
  | none =>
    have hnone : (node.settleOnce now order has fetch).1.tracked.lookup h = none :=
      (settleOnce_of_none hlive).1
    exact absurd (hlive'.symm.trans hnone) nofun
  | some live =>
    have hsettled := (settleOnce_spec now order has fetch hlive).1
    obtain rfl := Option.some.inj (hlive'.symm.trans hsettled)
    -- it was visited, and the answer was no
    have hanswer : visitAnswer now has fetch h live = false := by
      rw [settled] at hmissing
      split at hmissing
      · next hc => exact absurd (hc.symm.trans hmissing) Bool.noConfusion
      · rw [TrackedEntry.contentPresent_visited, Bool.or_eq_false_iff] at hmissing
        exact hmissing.2
    rw [visitAnswer, Bool.or_eq_false_iff, Bool.and_eq_false_iff] at hanswer
    have hsame : (node.settleOnce now order has fetch).1.blobs.blob h = node.blobs.blob h := by
      refine blob_settleLoop_of_idle _ node fun entry hmem _ hdue ↦ ?_
      obtain rfl := Option.some.inj (hlive.symm.trans (mem_outstanding.mp hmem).1)
      simpa [hdue] using hanswer.2
    have hold : node.blobs.has h = true := by rwa [BlobStore.has, ← hsame]
    exact absurd ((hhas h).trans hold) (by simp [hanswer.1])

theorem trackedCount_eq {ix : ContentIndex} : ix.trackedCount = ix.referenced.card :=
  (Multiset.card_map Sigma.fst ix.state.entries).symm

/-- A referenced hash is counted as missing exactly if it is not marked. -/
theorem lookup_state_iff {ix : ContentIndex} (ht : ix.isTracked h = true) :
    ix.state.lookup h = some .wanted ↔ ix.isPresent h = false := by
  constructor
  · intro hw
    refine Bool.eq_false_iff.mpr fun hp ↦ ?_
    exact absurd (hw.symm.trans (ContentIndex.isPresent_iff.mp hp)) (by simp)
  · exact ContentIndex.lookup_of_not_isPresent ht

/-- If nothing is counted as missing, what is referenced is marked. -/
theorem isPresent_of_missingCount {ix : ContentIndex} (hzero : ix.missingCount = 0)
    (ht : ix.isTracked h = true) : ix.isPresent h = true := by
  by_contra hp
  rw [ContentIndex.missingCount_eq, Finset.card_eq_zero, Finset.filter_eq_empty_iff] at hzero
  exact hzero (ContentIndex.mem_referenced.mpr ht) ((lookup_state_iff ht).mpr (by simpa using hp))

/-- **The health report.**  In every state of a run of whole operations it counts every referenced
hash whose bytes are not stored, and all that are referenced; and if it counts none as missing,
every namespace can download every hash it references.  After a settle pass whose questions the
store answers it counts no others as missing, and what can be downloaded is what is stored. -/
theorem contentStats_exact (hrun : Run StoreStep (System.boot hashNew policy) ops s) :
    ((s.node.content.referenced.filter fun h ↦ s.node.blobs.has h = false).card ≤
        s.node.contentStats.1 ∧
      s.node.contentStats.2 = s.node.content.referenced.card ∧
      (s.node.contentStats.1 = 0 → ∀ ns h, s.node.content.isTrackedFor ns h = true →
        ∃ b, s.node.contentBytes ns h = some b ∧ hashNew b = h)) ∧
    ∀ now order has fetch t, StoreStep s (.op (.settle now order has fetch)) t →
      (∀ h, has h = s.node.blobs.has h) →
      t.node.contentStats.1 =
          (t.node.content.referenced.filter fun h ↦ t.node.blobs.has h = false).card ∧
        ∀ ns h, t.node.content.isTrackedFor ns h = true →
          ((∃ b, t.node.contentBytes ns h = some b) ↔ t.node.blobs.has h = true) := by
  have hs : Consistent s.node := .run hrun
  refine ⟨⟨ContentIndex.card_absent_le hs.held, trackedCount_eq, fun hzero ns h ht ↦ ?_⟩,
    fun now order has fetch t hpass hhas ↦ ?_⟩
  · have hmark := isPresent_of_missingCount hzero (ContentIndex.isTracked_of_isTrackedFor ht)
    exact hs.contentBytes ht hmark
  · have hafter : Consistent t.node := hs.store hpass
    obtain rfl := hpass.2
    have hmarks : ∀ h, (s.store (.op (.settle now order has fetch))).node.content.isTracked h =
        true → _ := fun h ht ↦ isPresent_settleOnce_iff (h := h) hs hhas ht
    constructor
    · rw [contentStats, ContentIndex.missingCount_eq]
      refine congrArg Finset.card (Finset.filter_congr fun h hh ↦ ?_)
      have ht := ContentIndex.mem_referenced.mp hh
      rw [lookup_state_iff ht, Bool.eq_false_iff, Bool.eq_false_iff]
      exact (hmarks h ht).not
    · intro ns h ht
      have hmark := hmarks h (ContentIndex.isTracked_of_isTrackedFor ht)
      refine ⟨fun ⟨b, hb⟩ ↦ hmark.mp (contentBytes_eq_some.mp hb).2.1, fun hstored ↦ ?_⟩
      obtain ⟨b, hb, -⟩ := hafter.contentBytes ht (hmark.mpr hstored)
      exact ⟨b, hb⟩

/-- A fix is counted as missing until a pass has its bytes. -/
theorem contentStats_exact_fix :
    1 ≤ fixSystem.node.contentStats.1 ∧
      let t := fixSystem.store (.op (.settle 1000 (.any _) fixSystem.node.blobs.has fun _ ↦ none))
      t.node.contentStats.1 =
        (t.node.content.referenced.filter fun h ↦ t.node.blobs.has h = false).card := by
  obtain ⟨⟨hle, -, -⟩, hpass⟩ := contentStats_exact run_fixArrived.of_guarded
  have habsent : (fixSystem.node.content.referenced.filter fun h ↦
      fixSystem.node.blobs.has h = false).card = 1 := by decide
  have hstep : StoreStep fixSystem
      (.op (.settle 1000 (.any _) fixSystem.node.blobs.has fun _ ↦ none)) _ :=
    .intro trivial fun _ ↦ id
  exact ⟨habsent ▸ hle, (hpass _ _ _ _ _ hstep fun _ ↦ rfl).1⟩

/-! ## Fetching -/

/-- `<[u8; 32]>::try_from` -/
def toArray32 (bytes : Bytes) : Option (Vector UInt8 32) :=
  if h : bytes.length = 32 then some ⟨bytes.toArray, h⟩ else none

/-- The candidates of `fetch_content`: the peer that delivered the record, and its author.
`isEndpoint` says which arrays are the id of an endpoint. -/
def fetchSources (isEndpoint : EndpointId → Bool) (entry : TrackedEntry) : List EndpointId :=
  let sources := [entry.deliveredBy]
  match toArray32 entry.author with
  | none => sources
  | some author =>
    if isEndpoint author then
      if author ≠ entry.deliveredBy then sources ++ [author] else sources
    else sources

/-- `fetch_content` for the entry of a hash.  `download` is what the downloader gets out of a list
of sources before the time is over. -/
def StashNode.fetchContent (isEndpoint : EndpointId → Bool)
    (download : List EndpointId → ∀ h, Option {bytes // hashNew bytes = h})
    (node : StashNode hashNew) (h : ContentHash) : Option {bytes // hashNew bytes = h} :=
  (node.tracked.lookup h).bind fun entry ↦ download (fetchSources isEndpoint entry) h

/-- Nobody is asked twice. -/
theorem nodup_fetchSources (isEndpoint : EndpointId → Bool) (entry : TrackedEntry) :
    (fetchSources isEndpoint entry).Nodup := by
  rw [fetchSources]
  split
  · exact List.nodup_singleton _
  · split
    · split
      · next hne => simpa using hne.symm
      · exact List.nodup_singleton _
    · exact List.nodup_singleton _

/-- **The author of a fix is asked**, whoever delivered it. -/
theorem mem_fetchSources_arrived {isEndpoint : EndpointId → Bool} {author : EndpointId} {seq : Nat}
    (hauthor : isEndpoint author = true) (hseq : seq < 2 ^ 64)
    (hkey : e.key = fixKey author.toList seq) :
    author ∈ fetchSources isEndpoint (.arrived ns e peer present now) := by
  have hne : author.toList ≠ [] := fun hnil ↦ by
    have hlen := congrArg List.length hnil
    simp at hlen
  have hdecode : decodeAuthorSeq e.key = (author.toList, seq) := by
    rw [decodeAuthorSeq, hkey, decodeFixKey_iff_spells.mpr (spells_fixKey hne hseq)]
    rfl
  have harray : toArray32 (TrackedEntry.arrived ns e peer present now).author = some author := by
    rw [TrackedEntry.arrived, hdecode, toArray32, dif_pos (by simp)]
    exact congrArg some (Vector.toArray_inj.mp (Array.toArray_toList))
  rw [fetchSources, harray]
  dsimp only
  rw [if_pos hauthor]
  split
  · exact List.mem_append_right _ (List.mem_singleton_self author)
  · next hsame =>
    rw [not_not.mp hsame]
    exact List.mem_singleton_self _

/-! ## Healing -/

/-- The passes fetch with `fetch_content`, and those later than `T` get what they ask for. -/
def Answered (isEndpoint : EndpointId → Bool) (T : Nat) (s : System hashNew) :
    StoreOp hashNew → Prop
  | .op (.settle now _ _ fetch) => ∃ download, fetch = s.node.fetchContent isEndpoint download ∧
    (T < now → ∀ h entry, s.node.tracked.lookup h = some entry → entry.contentPresent = false →
      (download (fetchSources isEndpoint entry) h).isSome = true)
  | _ => True

/-- The next attempt for a missing blob is due by `limit`. -/
def DueBy (limit : Nat) (node : StashNode hashNew) : Prop :=
  ∀ h live, node.tracked.lookup h = some live → live.contentPresent = false →
    live.nextAttemptMs ≤ limit

/-- An attempt that fails puts the next one off by a minute at most. -/
theorem nextAttemptMs_visited_le (live : TrackedEntry) (now : Nat) (present : Bool) :
    (live.visited live now present).nextAttemptMs ≤ max live.nextAttemptMs (now + 60000) := by
  rw [TrackedEntry.nextAttemptMs_visited, TrackedEntry.attempted]
  split
  · exact le_max_left _ _
  · split
    · refine le_max_of_le_right ((Nat.mod_le _ _).trans (Nat.add_le_add_left ?_ now))
      exact min_le_right _ _
    · exact le_max_left _ _

/-- A pass whose attempts succeed puts nothing off. -/
theorem nextAttemptMs_visited_of_answered
    (hanswered : live.nextAttemptMs ≤ now → present = true) :
    (live.visited live now present).nextAttemptMs = live.nextAttemptMs := by
  rw [TrackedEntry.nextAttemptMs_visited, TrackedEntry.attempted]
  split
  · rfl
  · next hno => rw [if_neg fun hdue ↦ hno (hanswered hdue)]

/-- What a pass leaves of the due times, when its attempts succeed or it is early enough. -/
theorem DueBy.settleOnce {T : Nat} {order : IterOrder ContentHash} (hs : DueBy (T + 60000) node)
    (hanswered : T < now → ∀ h entry, node.tracked.lookup h = some entry →
      entry.contentPresent = false → (fetch h).isSome = true) :
    DueBy (T + 60000) (node.settleOnce now order has fetch).1 := by
  intro h live' hlive' hmissing
  cases hlive : node.tracked.lookup h with
  | none =>
    have hnone : (node.settleOnce now order has fetch).1.tracked.lookup h = none :=
      (settleOnce_of_none hlive).1
    exact absurd (hlive'.symm.trans hnone) nofun
  | some live =>
    have hsettled := (settleOnce_spec now order has fetch hlive).1
    obtain rfl := Option.some.inj (hlive'.symm.trans hsettled)
    rw [settled] at hmissing ⊢
    split
    · next hc =>
      rw [if_pos hc] at hmissing
      exact absurd (hc.symm.trans hmissing) Bool.noConfusion
    · next hc =>
      have hdue := hs h live hlive (by simpa using hc)
      rcases Nat.lt_or_ge T now with hlate | hearly
      · rw [nextAttemptMs_visited_of_answered]
        · exact hdue
        · intro hle
          rw [visitAnswer, hanswered hlate h live hlive (by simpa using hc)]
          simp [hle]
      · refine (nextAttemptMs_visited_le live now _).trans (max_le hdue ?_)
        omega

/-- **Every step keeps the due times within a minute of `T`.** -/
theorem DueBy.store {isEndpoint : EndpointId → Bool} {T : Nat} (hs : DueBy (T + 60000) s.node)
    (hanswered : Answered isEndpoint T s o) : DueBy (T + 60000) (s.store o).node := by
  cases o with
  | land bytes => exact hs
  | collect spared => exact hs
  | op op =>
    cases op with
    | grant ns sub => exact hs
    | arrive ns e replaced peer present now =>
      intro h live hlive hmissing
      rw [System.store, System.apply, advance] at hlive
      by_cases hh : h = e.contentHash
      · subst hh
        rw [lookup_onInsertRemote_self, Option.some_inj] at hlive
        cases hold : (s.node.replicate ns e replaced).tracked.lookup e.contentHash with
        | none =>
          -- a new entry is due at once
          rw [hold, Option.getD_none] at hlive
          rw [← hlive]
          exact Nat.zero_le _
        | some live' =>
          rw [hold, Option.getD_some] at hlive
          exact hs _ live (hlive ▸ hold) hmissing
      · rw [lookup_onInsertRemote_of_ne hh] at hlive
        exact hs h live hlive hmissing
    | settle now order has fetch =>
      obtain ⟨download, rfl, hyes⟩ := hanswered
      refine hs.settleOnce fun hlate h entry hlive hmissing ↦ ?_
      rw [fetchContent, hlive]
      exact hyes hlate h entry hlive hmissing
    | put ns expected bytes fails =>
      intro h live hlive
      rw [System.store, System.apply, tracked_putContent] at hlive
      exact hs h live hlive
    | prune now faulty nsOrder order =>
      intro h live hlive
      rw [System.store, System.apply,
        lookup_pruneOnce (Finmap.mem_of_lookup_eq_some hlive)] at hlive
      exact hs h live hlive

/-- In a run in which the attempts later than `T` succeed, whatever is missing is due a minute after
`T`. -/
theorem dueBy_of_run {isEndpoint : EndpointId → Bool} {T : Nat}
    (hrun : Run (Guarded (Answered isEndpoint T) StoreStep) (System.boot hashNew policy) ops s) :
    DueBy (T + 60000) s.node := by
  refine hrun.invariant (I := fun s ↦ DueBy (T + 60000) s.node) (fun s o t hs hst ↦ ?_) ?_
  · obtain ⟨hanswered, -, rfl⟩ := hst
    exact hs.store hanswered
  · exact fun h live hlive ↦ absurd hlive (by simp [System.boot, StashNode.boot])

/-- **After a pass that late nothing is missing**: whatever was missing was due, and asked for. -/
theorem isPresent_of_late_pass {isEndpoint : EndpointId → Bool} {T : Nat}
    {order : IterOrder ContentHash} (hs : Consistent s.node) (hdue : DueBy (T + 60000) s.node)
    (hpass : Guarded (Answered isEndpoint T) StoreStep s (.op (.settle now order has fetch)) t)
    (hnow : T + 60000 ≤ now) (ht : t.node.content.isTracked h = true) :
    t.node.content.isPresent h = true := by
  have hafter : Consistent t.node := hs.store hpass.2
  obtain ⟨⟨download, rfl, hyes⟩, -, rfl⟩ := hpass
  by_contra hp
  obtain ⟨live', hlive', hmissing⟩ := hafter.lookup_of_missing ht (by simpa using hp)
  cases hlive : s.node.tracked.lookup h with
  | none =>
    have hnone := hlive'.symm.trans (settleOnce_of_none hlive).1
    exact absurd hnone (Option.some_ne_none live')
  | some live =>
    obtain rfl := Option.some.inj (hlive'.symm.trans (settleOnce_spec now order has _ hlive).1)
    rw [settled] at hmissing
    split at hmissing
    · next hc => exact absurd (hc.symm.trans hmissing) Bool.noConfusion
    · next hc =>
      have hc' : live.contentPresent = false := by simpa using hc
      have hsome : (s.node.fetchContent isEndpoint download h).isSome = true := by
        rw [fetchContent, hlive]
        exact hyes (by omega) h live hlive hc'
      rw [TrackedEntry.contentPresent_visited, visitAnswer, hsome,
        decide_eq_true ((hdue h live hlive hc').trans hnow)] at hmissing
      simp at hmissing

/-- **The stash heals itself within a minute.**  Take any run of whole operations in which, from the
time `T` on, the attempts of `fetch_content` succeed.  After the first pass that comes a minute or
more after `T` nothing is counted as missing, and every namespace can download every hash it
references.  It does not matter how long the peers were away before, how often and when passes come,
and what is uploaded, collected, swept or newly arrives in between. -/
theorem healed_within_a_minute {isEndpoint : EndpointId → Bool} {T : Nat}
    {order : IterOrder ContentHash}
    (hrun : Run (Guarded (Answered isEndpoint T) StoreStep) (System.boot hashNew policy) ops s)
    (hpass : Guarded (Answered isEndpoint T) StoreStep s (.op (.settle now order has fetch)) t)
    (hnow : T + 60000 ≤ now) :
    t.node.contentStats.1 = 0 ∧ ∀ ns h, t.node.content.isTrackedFor ns h = true →
      ∃ b, t.node.contentBytes ns h = some b ∧ hashNew b = h := by
  have hs : Consistent s.node := .run hrun.of_guarded
  have hafter : Consistent t.node := hs.store hpass.2
  have hmarks : ∀ h, t.node.content.isTracked h = true → t.node.content.isPresent h = true :=
    fun h ↦ isPresent_of_late_pass hs (dueBy_of_run hrun) hpass hnow
  refine ⟨?_, fun ns h ht ↦ ?_⟩
  · rw [contentStats, ContentIndex.missingCount_eq, Finset.card_eq_zero,
      Finset.filter_eq_empty_iff]
    intro h hh hwanted
    have ht := ContentIndex.mem_referenced.mp hh
    exact absurd (hmarks h ht) (by simp [(lookup_state_iff ht).mp hwanted])
  · exact hafter.contentBytes ht (hmarks h (ContentIndex.isTracked_of_isTrackedFor ht))

/-- A network in which everybody has the byte zero. -/
def bringsZero (_ : List EndpointId) (h : ContentHash) : Option {bytes // sampleHash bytes = h} :=
  if hh : sampleHash [0] = h then some ⟨[0], hh⟩ else none

/-- Nothing but the byte zero is awaited. -/
theorem eq_zeroHash_of_awaited (hlive : fixSystem.node.tracked.lookup h = some live) :
    h = zeroHash := by
  have hkeys : fixSystem.node.tracked.keys = {zeroHash} := by decide
  have hmem := Finmap.mem_keys.mpr (Finmap.mem_of_lookup_eq_some hlive)
  rwa [hkeys, Finset.mem_singleton] at hmem

/-- A fix arrives without its bytes, and the next pass finds nobody; a minute later the fix can be
downloaded. -/
theorem healed_fix :
    let vain : StoreOp sampleHash := .op (.settle 500 (.any _) (fun _ ↦ false)
      (fixSystem.node.fetchContent (fun _ ↦ true) fun _ _ ↦ none))
    let away := fixSystem.store vain
    let finds : StoreOp sampleHash := .op (.settle 60500 (.any _) (fun _ ↦ false)
      (away.node.fetchContent (fun _ ↦ true) bringsZero))
    let back := away.store finds
    back.node.contentStats.1 = 0 ∧
      ∃ b, back.node.contentBytes (idOf 1) zeroHash = some b ∧ sampleHash b = zeroHash := by
  intro vain away finds back
  have hone : ∀ h live, away.node.tracked.lookup h = some live → h = zeroHash := by
    intro h live hlive
    cases hbefore : fixSystem.node.tracked.lookup h with
    | some live' => exact eq_zeroHash_of_awaited hbefore
    | none =>
      have hnone := hlive.symm.trans (settleOnce_of_none hbefore).1
      exact absurd hnone (Option.some_ne_none live)
  have haway : Guarded (Answered (fun _ ↦ true) 500) StoreStep fixSystem vain away :=
    ⟨⟨_, rfl, fun hlate ↦ absurd hlate (by decide)⟩, .intro trivial nofun⟩
  have hback : Guarded (Answered (fun _ ↦ true) 500) StoreStep away finds back := by
    refine ⟨⟨bringsZero, rfl, fun _ h live hlive _ ↦ ?_⟩, .intro trivial nofun⟩
    rw [hone h live hlive]
    exact congrArg Option.isSome (dif_pos (by decide : sampleHash [0] = zeroHash))
  have harrived : Run (Guarded (Answered (fun _ ↦ true) 500) StoreStep)
      (System.boot sampleHash (.fromHours 24)) fixArrived fixSystem :=
    .cons ⟨trivial, .intro trivial trivial⟩ (.cons ⟨trivial, .intro rfl nofun⟩ (.nil _))
  obtain ⟨hzero, hserved⟩ := healed_within_a_minute (harrived.snoc haway) hback (by decide)
  refine ⟨hzero, hserved (idOf 1) zeroHash ?_⟩
  have hfix : fixSystem.node.content.isTrackedFor (idOf 1) zeroHash = true := by decide
  exact (isTrackedFor_settleOnce.trans isTrackedFor_settleOnce).trans hfix

end TrailStash
