import TrailStash.Content
import TrailStash.Retention
import TrailStash.Subscriptions

/-!
# The stash node

The state of `StashNode` and the pieces its operations are made of.  Every operation takes one of
the node's locks for a few map operations, lets go of it, awaits something, and takes the next
one.  The definitions of the first part are those critical sections — `want`, `orInsert`,
`markPresent`, `forget`, `untrack` on the two ledgers, and what the blob store does — and the
operations are compositions of them: here the handler of an `InsertRemote` event, the upload and
the download, and in `Settle.lean` and `Sweep.lean` the two loops.  Composed in this way an
operation is one atomic step; `Tasks.lean` takes the same pieces apart again.

Two things are not in the repository and stand here as what it relies on.

* **The replica store** (iroh-docs) is `docs`: for each namespace the records it currently holds.
  `getMany` is `get_many(Query::all())`, which leaves out the empty records a deletion leaves
  behind.
* **The blob store** (iroh-blobs) is `BlobStore`.  It is content addressed, which is a field of
  the structure; the hash function is the parameter `hashNew`.  Uploading creates a tag, so the
  collector keeps an upload; a download does not.

The answers of the network, of the clock and of a lookup that may fail are arguments of the
operations.
-/

set_option autoImplicit false

namespace TrailStash

/-- How long an entry may sit without its content before subscribers are woken anyway. -/
def wakeFallbackMs : Nat := 30000

/-! ## Records of the replica -/

/-- `Hash::EMPTY`, the content hash of the record that a deletion leaves behind. -/
def emptyHash : ContentHash :=
  ⟨#[0xaf, 0x13, 0x49, 0xb9, 0xf5, 0xf9, 0xa1, 0xa6, 0xa0, 0x40, 0x4d, 0xea, 0x36, 0xdc, 0xc9, 0x49,
    0x9b, 0xcb, 0x25, 0xc9, 0xad, 0xc1, 0x12, 0xb7, 0xcc, 0x9a, 0x93, 0xca, 0xe4, 0x1f, 0x32, 0x62],
    rfl⟩

/-- A record of a replica, as far as this program reads it. -/
structure Entry where
  /-- The docs key. -/
  key : Bytes
  /-- The hash of the content. -/
  contentHash : ContentHash
  /-- When it was written, in microseconds. -/
  timestamp : Nat
  deriving DecidableEq

/-- Whether the record is what a deletion leaves behind. -/
def Entry.isEmpty (e : Entry) : Bool := decide (e.contentHash = emptyHash)

/-- `get_many(Query::all())`: the current non-empty records. -/
def getMany (doc : List Entry) : List Entry := doc.filter fun e ↦ !e.isEmpty

/-- When an entry was written, in milliseconds. -/
def entryWrittenMs (e : Entry) : Nat := e.timestamp / 1000

/-- Decode `hex(author)/{seq:020}` into author and sequence number; `([], 0)` on any hiccup. -/
def decodeAuthorSeq (key : Bytes) : Bytes × Nat :=
  ((decodeFixKey key).map fun key ↦ (key.author, key.seq)).getD ([], 0)

/-! ## What the settle loop owes an entry -/

/-- A replicated entry the settle loop is shepherding toward "servable". -/
structure TrackedEntry where
  /-- The namespace that delivered it. -/
  ns : NamespaceId
  /-- Its author. -/
  author : Bytes
  /-- The peer that handed us this record. -/
  deliveredBy : EndpointId
  /-- The author's sequence number. -/
  seq : Nat
  /-- When it arrived. -/
  firstSeenMs : Nat
  /-- Whether the bytes are in the local store. -/
  contentPresent : Bool
  /-- Whether subscribers have already been woken for this entry. -/
  woken : Bool
  /-- Earliest time to retry the content fetch. -/
  nextAttemptMs : Nat
  /-- Consecutive failed fetches. -/
  attempts : Nat
  deriving DecidableEq

/-- Backoff schedule: quickly at first, then a slow poll. -/
def backoffMs (attempts : Nat) : Nat := min (satMul 500 (2 ^ min attempts 7)) 60000

/-- What the handler of an `InsertRemote` event puts on the ledger. -/
def TrackedEntry.arrived (ns : NamespaceId) (e : Entry) (deliveredBy : EndpointId) (present : Bool)
    (now : Nat) : TrackedEntry where
  ns := ns
  author := (decodeAuthorSeq e.key).1
  deliveredBy := deliveredBy
  seq := (decodeAuthorSeq e.key).2
  firstSeenMs := now
  contentPresent := present
  -- the source's comment: woken immediately below when the content is already here
  woken := present
  nextAttemptMs := 0
  attempts := 0

/-- A call of `wake_for`: the hash, the entry it is made for, and whether it is the fallback. -/
structure Wake where
  /-- The content hash. -/
  hash : ContentHash
  /-- The tracked entry; its `ns` is the namespace whose subscribers are woken. -/
  entry : TrackedEntry
  /-- Whether the content is missing. -/
  degraded : Bool
  deriving DecidableEq

/-! ## The blob store -/

/-- A content-addressed store of blobs, some of them tagged. -/
structure BlobStore (hashNew : Bytes → ContentHash) where
  /-- The bytes stored under a hash. -/
  blob : ContentHash → Option Bytes
  /-- The hashes a tag names. -/
  tags : Finset ContentHash
  /-- Bytes are stored under their own hash. -/
  addressed : ∀ h b, blob h = some b → hashNew b = h
  /-- A tagged blob is stored. -/
  tagged : ∀ h ∈ tags, (blob h).isSome = true

namespace BlobStore

variable {hashNew : Bytes → ContentHash}

/-- The store at boot. -/
def empty (hashNew : Bytes → ContentHash) : BlobStore hashNew := ⟨fun _ ↦ none, ∅, by simp, by simp⟩

/-- Whether the bytes of `h` are stored. -/
def has (s : BlobStore hashNew) (h : ContentHash) : Bool := (s.blob h).isSome

/-- Store bytes that a download brought in.  Downloads are not tagged. -/
def land (s : BlobStore hashNew) (bytes : Bytes) : BlobStore hashNew where
  blob h := if h = hashNew bytes then some bytes else s.blob h
  tags := s.tags
  addressed h b hb := by
    split at hb
    · next hh => rw [← Option.some.inj hb, hh]
    · exact s.addressed h b hb
  tagged h hh := by
    split
    · rfl
    · exact s.tagged h hh

/-- `add_bytes(..).await`: store the bytes and tag them. -/
def addBytes (s : BlobStore hashNew) (bytes : Bytes) : BlobStore hashNew :=
  { s.land bytes with
    tags := insert (hashNew bytes) s.tags
    tagged := fun h hh ↦ by
      rcases Finset.mem_insert.mp hh with rfl | hh
      · simp [land]
      · exact (s.land bytes).tagged h hh }

/-- The deleting half of a collection: of the blobs found `dead`, those that no tag names. -/
def collect (s : BlobStore hashNew) (dead : ContentHash → Bool) : BlobStore hashNew where
  blob h := if dead h && !decide (h ∈ s.tags) then none else s.blob h
  tags := s.tags
  addressed h b hb := by
    split at hb
    · exact absurd hb (by simp)
    · exact s.addressed h b hb
  tagged h hh := by simpa [hh] using s.tagged h hh

variable {s : BlobStore hashNew} {h : ContentHash} {bytes : Bytes} {dead : ContentHash → Bool}

@[simp] theorem has_empty : (empty hashNew).has h = false := rfl

@[simp] theorem has_land : (s.land bytes).has h = true ↔ h = hashNew bytes ∨ s.has h = true := by
  rw [has, land]
  dsimp only
  split
  · next hh => simp [hh]
  · next hh => simp [hh, has]

@[simp] theorem has_addBytes :
    (s.addBytes bytes).has h = true ↔ h = hashNew bytes ∨ s.has h = true := has_land

@[simp] theorem has_collect :
    (s.collect dead).has h = true ↔ s.has h = true ∧ ¬ (dead h = true ∧ h ∉ s.tags) := by
  rw [has, collect]
  dsimp only
  split
  · next hh => simpa using fun _ ↦ by simpa using hh
  · next hh => simpa [has] using fun _ ↦ by simpa using hh

theorem has_of_mem_tags (ht : h ∈ s.tags) : s.has h = true := s.tagged h ht

/-- Storing what is stored and tagged changes nothing. -/
theorem addBytes_of_stored (hblob : s.blob (hashNew bytes) = some bytes)
    (ht : hashNew bytes ∈ s.tags) : s.addBytes bytes = s := by
  have hblobs : (s.addBytes bytes).blob = s.blob := by
    funext h
    dsimp only [addBytes, land]
    split
    · next hh => rw [hh, hblob]
    · rfl
  have htags : (s.addBytes bytes).tags = s.tags := Finset.insert_eq_of_mem ht
  rcases hadd : s.addBytes bytes with ⟨blob, tags, _, _⟩
  rw [hadd] at hblobs htags
  cases s
  cases hblobs
  cases htags
  rfl

end BlobStore

/-! ## The node and its critical sections -/

/-- The always-on, ciphertext-blind stash node. -/
structure StashNode (hashNew : Bytes → ContentHash) where
  /-- The grants and the wake targets. -/
  registry : NamespaceRegistry
  /-- The namespaces with an open docs handle. -/
  handles : Finset NamespaceId
  /-- The records each replica holds. -/
  docs : NamespaceId → List Entry
  /-- The blob store. -/
  blobs : BlobStore hashNew
  /-- Which content hashes entries reference, and whether their bytes landed. -/
  content : ContentIndex
  /-- Replicated entries and what the settle loop still owes them. -/
  tracked : Finmap fun _ : ContentHash ↦ TrackedEntry
  /-- The retention window. -/
  retention : RetentionPolicy

namespace StashNode

variable {hashNew : Bytes → ContentHash}

/-- The node as `spawn` boots it. -/
def boot (hashNew : Bytes → ContentHash) (retention : RetentionPolicy) : StashNode hashNew where
  registry := .new
  handles := ∅
  docs _ := []
  blobs := .empty hashNew
  content := .new
  tracked := ∅
  retention := retention

/-- The content lock: an entry of `ns` references `h`. -/
def want (node : StashNode hashNew) (ns : NamespaceId) (h : ContentHash) : StashNode hashNew :=
  { node with content := node.content.want ns h }

/-- The content lock: the bytes of `h` are in the store. -/
def markPresent (node : StashNode hashNew) (h : ContentHash) : StashNode hashNew :=
  { node with content := node.content.markPresent h }

/-- The content lock: `ns` lets go of `h`.  The flag says whether that was the last reference. -/
def forget (node : StashNode hashNew) (ns : NamespaceId) (h : ContentHash) :
    Bool × StashNode hashNew :=
  ((node.content.forget ns h).1, { node with content := (node.content.forget ns h).2 })

/-- The tracked lock: `entry(h).or_insert_with(..).woken`, read back from whichever entry is on the
ledger now. -/
def orInsert (node : StashNode hashNew) (h : ContentHash) (entry : TrackedEntry) :
    Bool × StashNode hashNew :=
  (((node.tracked.lookup h).getD entry).woken,
    { node with tracked :=
        if h ∈ node.tracked then node.tracked else node.tracked.insert h entry })

/-- The tracked lock: `remove(h)`. -/
def untrack (node : StashNode hashNew) (h : ContentHash) : StashNode hashNew :=
  { node with tracked := node.tracked.erase h }

/-- Bytes land in the store by a download. -/
def land (node : StashNode hashNew) (bytes : Bytes) : StashNode hashNew :=
  { node with blobs := node.blobs.land bytes }

/-- `add_bytes(..).await`: upload bytes into the store, and the hash that the new tag names. -/
def addBytes (node : StashNode hashNew) (bytes : Bytes) : ContentHash × StashNode hashNew :=
  (hashNew bytes, { node with blobs := node.blobs.addBytes bytes })

/-- The replica of `ns` takes up a record, which replaces the older records it covers: none if
it is new, those under the same key if it overwrites, those under its key if it deletes. -/
def replicate (node : StashNode hashNew) (ns : NamespaceId) (e : Entry) (replaced : Entry → Bool) :
    StashNode hashNew :=
  { node with docs := Function.update node.docs ns ((node.docs ns).filter (!replaced ·) ++ [e]) }

/-! ## The operations, each as one atomic step -/

/-- A registration that goes through: the docs handle is open and the grant is recorded. -/
def register (node : StashNode hashNew) (ns : NamespaceId) (sub : Option PushSubscription) :
    StashNode hashNew :=
  { node with
    handles := insert ns node.handles
    registry := (node.registry.register ns sub).2 }

/-- The handler of an `InsertRemote` event.  `present` is what `has` answers. -/
def onInsertRemote (node : StashNode hashNew) (ns : NamespaceId) (e : Entry)
    (deliveredBy : EndpointId) (present : Bool) (now : Nat) : StashNode hashNew × List Wake :=
  let h := e.contentHash
  let node := node.want ns h
  let entry := TrackedEntry.arrived ns e deliveredBy present now
  let (known, node) := node.orInsert h entry
  let node := if present then node.markPresent h else node
  (node, if present && !known then [⟨h, entry, false⟩] else [])

/-- Why an upload was or was not stored. -/
inductive PutOutcome
  /-- Accepted; the stash can now serve these bytes. -/
  | stored
  /-- This stash holds no grant for the namespace. -/
  | unknownNamespace
  /-- No entry references this hash yet. -/
  | untrackedHash
  /-- The body does not hash to the address in the URL. -/
  | hashMismatch
  deriving DecidableEq, Repr

/-- Store ciphertext uploaded by an authorized writer; `none` when the blob store fails. -/
def putContent (node : StashNode hashNew) (ns : NamespaceId) (expected : ContentHash)
    (bytes : Bytes) (fails : Bool) : StashNode hashNew × Option PutOutcome :=
  if !node.registry.isKnown ns then (node, some .unknownNamespace)
  else if !node.content.isTrackedFor ns expected then (node, some .untrackedHash)
  else if hashNew bytes ≠ expected then (node, some .hashMismatch)
  else if fails then (node, none)
  else
    let (tagHash, node) := node.addBytes bytes
    if tagHash ≠ expected then (node, some .hashMismatch)
    else (node.markPresent expected, some .stored)

/-- Retained ciphertext, only when the namespace still references it. -/
def contentBytes (node : StashNode hashNew) (ns : NamespaceId) (h : ContentHash) : Option Bytes :=
  if node.content.isPresentFor ns h then node.blobs.blob h else none

/-- A granted namespace has a docs handle. -/
def HandlesOpen (node : StashNode hashNew) : Prop :=
  ∀ ns, node.registry.isKnown ns = true → ns ∈ node.handles

/-! ## What the handler and the upload leave alone, and what they do -/

/-- Nothing but the ledgers and the blobs changes from `node` to `node'`. -/
structure Frame (node node' : StashNode hashNew) : Prop where
  /-- The registry is the same. -/
  registry : node'.registry = node.registry
  /-- The handles are the same. -/
  handles : node'.handles = node.handles
  /-- The replicas are the same. -/
  docs : node'.docs = node.docs
  /-- The policy is the same. -/
  retention : node'.retention = node.retention

theorem Frame.refl (node : StashNode hashNew) : Frame node node := ⟨rfl, rfl, rfl, rfl⟩

theorem Frame.trans {node node' node'' : StashNode hashNew} (h : Frame node node')
    (h' : Frame node' node'') : Frame node node'' :=
  ⟨h'.registry.trans h.registry, h'.handles.trans h.handles, h'.docs.trans h.docs,
    h'.retention.trans h.retention⟩

variable {node : StashNode hashNew} {ns ns' : NamespaceId} {h h' : ContentHash}
  {entry live : TrackedEntry} {e : Entry} {deliveredBy : EndpointId} {present : Bool} {now : Nat}

theorem lookup_orInsert_self :
    (node.orInsert h entry).2.tracked.lookup h = some ((node.tracked.lookup h).getD entry) := by
  rw [orInsert]
  split
  · next hmem =>
    obtain ⟨live, hlive⟩ := Finmap.mem_iff.mp hmem
    simp [hlive]
  · next hmem => simp [Finmap.lookup_eq_none.mpr hmem]

theorem lookup_orInsert_of_ne (hne : h' ≠ h) :
    (node.orInsert h entry).2.tracked.lookup h' = node.tracked.lookup h' := by
  rw [orInsert]
  split
  · rfl
  · exact Finmap.lookup_insert_of_ne _ hne

theorem mem_tracked_orInsert :
    h' ∈ (node.orInsert h entry).2.tracked ↔ h' = h ∨ h' ∈ node.tracked := by
  by_cases hne : h' = h
  · subst hne
    exact ⟨fun _ ↦ Or.inl rfl, fun _ ↦ Finmap.mem_of_lookup_eq_some lookup_orInsert_self⟩
  · rw [or_iff_right hne, Finmap.mem_iff, Finmap.mem_iff]
    simp only [lookup_orInsert_of_ne hne]

theorem frame_onInsertRemote :
    Frame node (node.onInsertRemote ns e deliveredBy present now).1 := by
  cases present <;> exact ⟨rfl, rfl, rfl, rfl⟩

/-- The handler adds one reference. -/
theorem isTrackedFor_onInsertRemote :
    (node.onInsertRemote ns e deliveredBy present now).1.content.isTrackedFor ns' h' = true ↔
      (ns' = ns ∧ h' = e.contentHash) ∨ node.content.isTrackedFor ns' h' = true := by
  have hwant : (node.content.want ns e.contentHash).isTrackedFor ns' h' = true ↔ _ :=
    ContentIndex.isTrackedFor_want
  cases present
  · exact hwant
  · rw [← hwant]
    exact Bool.eq_iff_iff.mp ContentIndex.isTrackedFor_markPresent

/-- The handler puts the entry on the ledger unless its hash is there already. -/
theorem lookup_onInsertRemote_self :
    (node.onInsertRemote ns e deliveredBy present now).1.tracked.lookup e.contentHash =
      some ((node.tracked.lookup e.contentHash).getD
        (.arrived ns e deliveredBy present now)) := by
  cases present <;> exact lookup_orInsert_self

theorem lookup_onInsertRemote_of_ne (hne : h ≠ e.contentHash) :
    (node.onInsertRemote ns e deliveredBy present now).1.tracked.lookup h =
      node.tracked.lookup h := by
  cases present <;> exact lookup_orInsert_of_ne hne

/-- The handler issues a wake only when the hash was on the ledger before, not yet woken, and the
bytes are here: an entry it has just put there itself with the bytes here counts as woken. -/
theorem snd_onInsertRemote :
    (node.onInsertRemote ns e deliveredBy present now).2 =
      if present && (node.tracked.lookup e.contentHash).any (!·.woken) then
        [⟨e.contentHash, .arrived ns e deliveredBy present now, false⟩] else [] := by
  have hknown : (node.onInsertRemote ns e deliveredBy present now).2 =
      if present && !((node.tracked.lookup e.contentHash).getD
          (.arrived ns e deliveredBy present now)).woken then
        [⟨e.contentHash, .arrived ns e deliveredBy present now, false⟩] else [] := rfl
  rw [hknown]
  cases node.tracked.lookup e.contentHash with
  | none => cases present <;> simp [TrackedEntry.arrived]
  | some live => simp

/-- **What an upload can do**: nothing, or store the bytes of a referenced hash. -/
theorem putContent_cases (node : StashNode hashNew) (ns : NamespaceId) (expected : ContentHash)
    (bytes : Bytes) (fails : Bool) :
    ((node.putContent ns expected bytes fails).1 = node ∧
      (node.putContent ns expected bytes fails).2 ≠ some .stored) ∨
    (node.registry.isKnown ns = true ∧ node.content.isTrackedFor ns expected = true ∧
      hashNew bytes = expected ∧ fails = false ∧
      node.putContent ns expected bytes fails =
        ((node.addBytes bytes).2.markPresent expected, some .stored)) := by
  rw [putContent]
  by_cases hknown : node.registry.isKnown ns = true
  · by_cases htracked : node.content.isTrackedFor ns expected = true
    · by_cases hhash : hashNew bytes = expected
      · cases fails <;> simp [hknown, htracked, hhash, addBytes]
      · simp [hknown, htracked, hhash]
    · simp [hknown, htracked]
  · simp [hknown]

variable {expected : ContentHash} {bytes : Bytes} {fails : Bool}

theorem frame_putContent : Frame node (node.putContent ns expected bytes fails).1 := by
  rcases putContent_cases node ns expected bytes fails with ⟨h, -⟩ | ⟨-, -, -, -, h⟩
  · rw [h]
    exact Frame.refl node
  · rw [h]
    exact ⟨rfl, rfl, rfl, rfl⟩

theorem isTrackedFor_putContent :
    (node.putContent ns expected bytes fails).1.content.isTrackedFor ns' h' =
      node.content.isTrackedFor ns' h' := by
  rcases putContent_cases node ns expected bytes fails with ⟨h, -⟩ | ⟨-, -, -, -, h⟩
  · rw [h]
  · rw [h]
    exact ContentIndex.isTrackedFor_markPresent

theorem tracked_putContent :
    (node.putContent ns expected bytes fails).1.tracked = node.tracked := by
  rcases putContent_cases node ns expected bytes fails with ⟨h, -⟩ | ⟨-, -, -, -, h⟩
  · rw [h]
  · rw [h]
    rfl

end StashNode

end TrailStash
