import TrailStash.Basic
import TrailStash.Lib.RunningMax

/-!
# Which ciphertext may the stash stop holding?

`releaseDecisions` classifies the entries of one namespace.  Two independent rules apply.  A
location fix, an entry whose key is `hex(author)/{seq:020}`, is *superseded* when a fix of the
same author with a larger sequence number is among the entries; and an entry of any kind is
*expired* when it was written before the retention window.  An entry to which neither applies is
kept, which the code reports as `None`.

The code finds the newest fix of each author by one pass that keeps a running maximum in a hash
map.  `exists_latestByAuthor_gt` says what that maximum is good for, and from it
`releaseDecisions_eq_map` reads each decision off the entry alone: `Superseded` and `isExpired`
are all it depends on.  The two facts the sweep rests on follow from there — a superseded fix
stays superseded while entries are only added (`Superseded.mono`), and an expired entry stays
expired as time passes (`RetentionPolicy.isExpired_mono`).
-/

set_option autoImplicit false

namespace TrailStash

/-- Milliseconds in one hour. -/
def msPerHour : Nat := 3600000

/-- Key separator between the hex author and the zero-padded sequence number. -/
def keySep : UInt8 := '/'.toUInt8

/-- Width of the zero-padded decimal sequence number in fix keys. -/
def seqWidth : Nat := 20

/-! ## The retention window -/

/-- A retention window, in milliseconds. -/
structure RetentionPolicy where
  /-- The length of the window. -/
  retentionMs : Nat
  deriving DecidableEq, Repr

namespace RetentionPolicy

/-- Build a policy retaining the last `hours` of entries. -/
def fromHours (hours : Nat) : RetentionPolicy := ⟨satMul hours msPerHour⟩

/-- Entries with `ts < cutoff now` should be pruned. -/
def cutoff (p : RetentionPolicy) (nowMs : Nat) : Nat := nowMs - p.retentionMs

/-- Whether an entry written at `entryTsMs` is now outside the window. -/
def isExpired (p : RetentionPolicy) (entryTsMs nowMs : Nat) : Bool :=
  decide (entryTsMs < p.cutoff nowMs)

theorem isExpired_iff {p : RetentionPolicy} {ts now : Nat} :
    p.isExpired ts now = true ↔ ts < now - p.retentionMs :=
  decide_eq_true_iff

/-- Once outside the window, always outside it. -/
theorem isExpired_mono {p : RetentionPolicy} {ts now now' : Nat} (hle : now ≤ now')
    (h : p.isExpired ts now = true) : p.isExpired ts now' = true := by
  rw [isExpired_iff] at h ⊢
  omega

end RetentionPolicy

/-! ## Decoding a fix key -/

/-- A parsed location-fix key. -/
structure FixKey where
  /-- The author bytes, hex-decoded from the key. -/
  author : Bytes
  /-- The author's sequence number. -/
  seq : Nat
  deriving DecidableEq, Repr

/-- `u8::is_ascii_digit`. -/
def isAsciiDigit (b : UInt8) : Bool := 0x30 ≤ b && b ≤ 0x39

/-- `char::to_digit(16)` on a byte read as a character. -/
def toDigit16 (b : UInt8) : Option UInt8 :=
  if isAsciiDigit b then some (b - 0x30)
  else if 0x61 ≤ b && b ≤ 0x66 then some (b - 0x61 + 10)
  else if 0x41 ≤ b && b ≤ 0x46 then some (b - 0x41 + 10)
  else none

/-- A continuation byte of UTF-8 in the range `lo..=hi`. -/
def isContIn (lo hi b : UInt8) : Bool := lo ≤ b && b ≤ hi

/-- Whether a byte string is well-formed UTF-8. -/
def validUtf8 : Bytes → Bool
  | [] => true
  | b :: rest =>
    if b < 0x80 then validUtf8 rest
    else match rest with
      | [] => false
      | b₁ :: rest₁ =>
        if isContIn 0xC2 0xDF b then isContIn 0x80 0xBF b₁ && validUtf8 rest₁
        else match rest₁ with
          | [] => false
          | b₂ :: rest₂ =>
            if isContIn 0xE0 0xEF b then
              isContIn (if b = 0xE0 then 0xA0 else 0x80) (if b = 0xED then 0x9F else 0xBF) b₁ &&
                isContIn 0x80 0xBF b₂ && validUtf8 rest₂
            else match rest₂ with
              | [] => false
              | b₃ :: rest₃ =>
                isContIn 0xF0 0xF4 b &&
                  isContIn (if b = 0xF0 then 0x90 else 0x80) (if b = 0xF4 then 0x8F else 0xBF) b₁ &&
                  isContIn 0x80 0xBF b₂ && isContIn 0x80 0xBF b₃ && validUtf8 rest₃

/-- `std::str::from_utf8(..).ok()`; a `str` is represented by its bytes. -/
def fromUtf8 (bytes : Bytes) : Option Bytes := if validUtf8 bytes then some bytes else none

/-- The loop of `hex_decode`: two digits make a byte. -/
def hexDecodeLoop : Bytes → Option Bytes
  | [] => some []
  | [_] => none
  | b :: b' :: rest => do
    let hi ← toDigit16 b
    let lo ← toDigit16 b'
    let out ← hexDecodeLoop rest
    some (((hi <<< 4) ||| lo) :: out)

/-- Decode a hex string of either case. -/
def hexDecode (s : Bytes) : Option Bytes :=
  if s.length % 2 = 0 then hexDecodeLoop s else none

/-- The digit loop of `u64::from_str`, which stops on a bad digit and on overflow. -/
def parseDigits (acc : Nat) : Bytes → Option Nat
  | [] => some acc
  | b :: rest =>
    if isAsciiDigit b then
      if acc * 10 + (b - 0x30).toNat ≤ u64Max then
        parseDigits (acc * 10 + (b - 0x30).toNat) rest
      else none
    else none

/-- `str::parse::<u64>().ok()`: decimal digits, with one optional leading plus sign. -/
def parseU64 : Bytes → Option Nat
  | [] => none
  | [b] => parseDigits 0 [b]
  | b :: rest => if b = '+'.toUInt8 then parseDigits 0 rest else parseDigits 0 (b :: rest)

/-- Decode a location-fix key.  Anything that is not exactly one is `none`. -/
def decodeFixKey (key : Bytes) : Option FixKey := do
  let pos ← key.findIdx? (· == keySep)
  let authorHex ← fromUtf8 (key.take pos)
  let seqBytes := key.drop (pos + 1)
  if authorHex.isEmpty || seqBytes.length != seqWidth || !seqBytes.all isAsciiDigit then none
  else do
    let author ← hexDecode authorHex
    if author.isEmpty then none
    else do
      let seqStr ← fromUtf8 seqBytes
      let seq ← parseU64 seqStr
      some ⟨author, seq⟩

/-! ## The release selector -/

/-- One docs entry as the release selector sees it. -/
structure RetentionEntry where
  /-- Raw docs key bytes. -/
  key : Bytes
  /-- Entry write timestamp in milliseconds. -/
  writtenMs : Nat
  deriving DecidableEq, Repr

/-- Why an entry's content is eligible for release. -/
inductive ReleaseReason
  /-- A newer fix of the same author exists in the same namespace. -/
  | superseded
  /-- The entry aged past the window. -/
  | expired
  /-- Both rules matched. -/
  | supersededAndExpired
  deriving DecidableEq, Repr

/-- Whether this decision came from the latest-per-author rule. -/
def ReleaseReason.isSuperseded : ReleaseReason → Bool
  | .superseded | .supersededAndExpired => true
  | .expired => false

/-- Whether this decision came from the time-window backstop. -/
def ReleaseReason.isExpired : ReleaseReason → Bool
  | .expired | .supersededAndExpired => true
  | .superseded => false

/-- The newest sequence number of each author, by one pass over the parsed keys. -/
def latestByAuthor (parsed : List (Option FixKey)) : Finmap fun _ : Bytes ↦ Nat :=
  (parsed.filterMap id).foldl (fun latest key ↦ RunningMax.keepMax latest key.author key.seq) ∅

/-- The reason a decision reports, from what the two rules say. -/
def releaseReason : Bool → Bool → Option ReleaseReason
  | true, true => some .supersededAndExpired
  | true, false => some .superseded
  | false, true => some .expired
  | false, false => none

/-- Classify the entries of one namespace by the content-release policy. -/
def releaseDecisions (entries : List RetentionEntry) (policy : RetentionPolicy) (nowMs : Nat) :
    List (Option ReleaseReason) :=
  let parsed := entries.map fun entry ↦ decodeFixKey entry.key
  let latest := latestByAuthor parsed
  (entries.zip parsed).map fun (entry, key) ↦
    let superseded := key.any fun key ↦
      (latest.lookup key.author).any fun latest ↦ decide (key.seq < latest)
    let expired := policy.isExpired entry.writtenMs nowMs
    releaseReason superseded expired

/-! ## What the selector decides -/

/-- Among `keys` there is a fix key of the same author as `key` with a larger sequence number. -/
def Superseded (keys : List Bytes) (key : Bytes) : Prop :=
  ∃ k, decodeFixKey key = some k ∧
    ∃ key' ∈ keys, ∃ k', decodeFixKey key' = some k' ∧ k'.author = k.author ∧ k.seq < k'.seq

instance (keys : List Bytes) (key : Bytes) : Decidable (Superseded keys key) :=
  decidable_of_iff
    (((decodeFixKey key).any fun k ↦ keys.any fun key' ↦
      (decodeFixKey key').any fun k' ↦ k'.author = k.author && k.seq < k'.seq) = true)
    (by simp [Superseded, Option.any_eq_true])

/-- More keys supersede more. -/
theorem Superseded.mono {keys keys' : List Bytes} {key : Bytes} (hsub : keys ⊆ keys')
    (h : Superseded keys key) : Superseded keys' key := by
  obtain ⟨k, hk, key', hkey', hlater⟩ := h
  exact ⟨k, hk, key', hsub hkey', hlater⟩

/-- The newest fix of an author is later than `seq` exactly when some fix of the author is. -/
theorem exists_latestByAuthor_gt {parsed : List (Option FixKey)} {author : Bytes} {seq : Nat} :
    (∃ l, (latestByAuthor parsed).lookup author = some l ∧ seq < l) ↔
      ∃ k, some k ∈ parsed ∧ k.author = author ∧ seq < k.seq := by
  have hpairs : latestByAuthor parsed =
      RunningMax.runningMax ((parsed.filterMap id).map fun k ↦ (k.author, k.seq)) := by
    rw [latestByAuthor, RunningMax.runningMax, List.foldl_map]
  rw [hpairs, RunningMax.exists_lookup_runningMax_gt]
  constructor
  · rintro ⟨c, hc, hlt⟩
    obtain ⟨k, hk, hkc⟩ := List.mem_map.mp hc
    obtain ⟨rfl, rfl⟩ := Prod.mk.inj hkc
    exact ⟨k, by simpa using hk, rfl, hlt⟩
  · rintro ⟨k, hk, rfl, hlt⟩
    exact ⟨k.seq, List.mem_map.mpr ⟨k, by simpa using hk, rfl⟩, hlt⟩

/-- The test of the code for supersession, on the key of one entry. -/
theorem superseded_test_iff {entries : List RetentionEntry} {key : Bytes} :
    ((decodeFixKey key).any fun k ↦
      ((latestByAuthor (entries.map fun entry ↦ decodeFixKey entry.key)).lookup k.author).any
        fun l ↦ decide (k.seq < l)) = true ↔ Superseded (entries.map (·.key)) key := by
  simp only [Option.any_eq_true, decide_eq_true_eq, Superseded]
  refine exists_congr fun k ↦ and_congr_right fun _ ↦ ?_
  rw [exists_latestByAuthor_gt]
  constructor
  · rintro ⟨k', hk', hauthor, hlt⟩
    obtain ⟨e, he, hek⟩ := List.mem_map.mp hk'
    exact ⟨e.key, List.mem_map_of_mem he, k', hek, hauthor, hlt⟩
  · rintro ⟨key', hkey', k', hk', hauthor, hlt⟩
    obtain ⟨e, he, rfl⟩ := List.mem_map.mp hkey'
    exact ⟨k', List.mem_map.mpr ⟨e, he, hk'⟩, hauthor, hlt⟩

/-- The decision on one entry, from the keys of its namespace. -/
def decisionOn (keys : List Bytes) (policy : RetentionPolicy) (nowMs : Nat)
    (entry : RetentionEntry) : Option ReleaseReason :=
  releaseReason (decide (Superseded keys entry.key)) (policy.isExpired entry.writtenMs nowMs)

/-- **The selector looks at each entry on its own**, with nothing but the keys of its namespace
as context. -/
theorem releaseDecisions_eq_map (entries : List RetentionEntry) (policy : RetentionPolicy)
    (nowMs : Nat) : releaseDecisions entries policy nowMs =
      entries.map (decisionOn (entries.map (·.key)) policy nowMs) := by
  rw [releaseDecisions, ← List.map_prod_left_eq_zip, List.map_map]
  refine List.map_congr_left fun entry _ ↦ ?_
  rw [decisionOn]
  refine congrArg₂ releaseReason ?_ rfl
  rw [Bool.eq_iff_iff, decide_eq_true_iff]
  exact superseded_test_iff

theorem decisionOn_eq_none {keys : List Bytes} {policy : RetentionPolicy} {nowMs : Nat}
    {entry : RetentionEntry} : decisionOn keys policy nowMs entry = none ↔
      ¬ Superseded keys entry.key ∧ policy.isExpired entry.writtenMs nowMs = false := by
  rw [decisionOn]
  by_cases hs : Superseded keys entry.key <;>
    cases hx : policy.isExpired entry.writtenMs nowMs <;> simp [hs, releaseReason]

end TrailStash
