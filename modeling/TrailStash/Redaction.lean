import TrailStash.IpAddr
import TrailStash.KeyGrammar
import TrailStash.Lib.Cut
import TrailStash.Utf8

/-!
# Redaction of log lines

`redactLogLine` scans a line twice, for network addresses and for identity-like tokens, sorts the
ranges it has found, and copies the line without them.

`redactLogLine_eq` says what comes out.  The two scans find the runs of their characters that match
(`scan_spec`), the loop over the sorted ranges makes cuts of them, and the rest is what the library
says of cuts.  No slice stops the program: a run consists of ASCII characters, and on either side of
an ASCII character there is a boundary.
-/

set_option autoImplicit false

namespace TrailStash

open Slices Cuts

/-! ## The program -/

/-- `REDACTED` -/
def redacted : Bytes := asBytes "[REDACTED]"

/-- `u8::is_ascii_alphanumeric` -/
def isAsciiAlphanumeric (b : UInt8) : Bool :=
  isAsciiDigit b || (0x41 ≤ b && b ≤ 0x5A) || (0x61 ≤ b && b ≤ 0x7A)

/-- A character of a network address. -/
def isNetworkChar (b : UInt8) : Bool := isAsciiHexdigit b || b == dot || b == colon

/-- A character of an identity-like token. -/
def isOpaqueChar (b : UInt8) : Bool :=
  isAsciiAlphanumeric b || b == '_'.toUInt8 || b == '-'.toUInt8 || b == '+'.toUInt8 ||
    b == '/'.toUInt8 || b == '='.toUInt8

/-- `parse::<IpAddr>().is_ok() || parse::<SocketAddr>().is_ok()` -/
def isAddress (candidate : Bytes) : Bool :=
  (parseWith readIpAddr candidate).isSome || (parseWith readSocketAddr candidate).isSome

/-- Long, and with a digit or all of it hexadecimal. -/
def isIdentityLike (candidate : Bytes) : Bool :=
  decide (32 ≤ candidate.length) && (candidate.any isAsciiDigit || candidate.all isAsciiHexdigit)

/-- The inner loop of a scan: where the run that goes on at `i` ends. -/
def runEnd (isChar : UInt8 → Bool) (bytes : Bytes) (i : Nat) : Nat :=
  if h : i < bytes.length then if isChar bytes[i] then runEnd isChar bytes (i + 1) else i else i
termination_by bytes.length - i

theorem le_runEnd (isChar : UInt8 → Bool) (bytes : Bytes) (i : Nat) :
    i ≤ runEnd isChar bytes i := by
  induction i using runEnd.induct isChar bytes with
  | case1 i hi hc ih =>
    rw [runEnd, dif_pos hi, if_pos hc]
    omega
  | case2 i hi hc => rw [runEnd, dif_pos hi, if_neg hc]
  | case3 i hi => rw [runEnd, dif_neg hi]

theorem lt_runEnd {isChar : UInt8 → Bool} {bytes : Bytes} {i : Nat} (hi : i < bytes.length)
    (hc : isChar bytes[i] = true) : i < runEnd isChar bytes i := by
  rw [runEnd, dif_pos hi, if_pos hc]
  exact le_runEnd isChar bytes (i + 1)

/-- A scan from `i` on: the ranges of the runs that match. -/
def scan (isChar : UInt8 → Bool) (isMatch : Bytes → Bool) (input : Bytes) (i : Nat) :
    Except Panic (List (Nat × Nat)) :=
  if h : i < input.length then
    if hc : isChar input[i] = true then do
      let candidate ← textSlice input i (runEnd isChar input i)
      let ranges ← scan isChar isMatch input (runEnd isChar input i)
      .ok (if isMatch candidate then (i, runEnd isChar input i) :: ranges else ranges)
    else scan isChar isMatch input (i + 1)
  else .ok []
termination_by input.length - i
decreasing_by
  · have hlt := lt_runEnd h hc
    omega
  · omega

/-- The first scan. -/
def networkRanges (input : Bytes) : Except Panic (List (Nat × Nat)) :=
  scan isNetworkChar isAddress input 0

/-- The second scan. -/
def opaqueRanges (input : Bytes) : Except Panic (List (Nat × Nat)) :=
  scan isOpaqueChar isIdentityLike input 0

/-- The order of `sort_unstable` on pairs. -/
def rangeLE (x y : Nat × Nat) : Bool := decide (x.1 < y.1) || (x.1 == y.1 && decide (x.2 ≤ y.2))

/-- One `push_str` to the output. -/
inductive Push
  /-- A slice of the line. -/
  | copied (start stop : Nat) (text : Bytes)
  /-- The marker. -/
  | redacted
  deriving DecidableEq

/-- What it adds. -/
def Push.text : Push → Bytes
  | .copied _ _ text => text
  | .redacted => TrailStash.redacted

/-- The loop over the sorted ranges, and the push after it. -/
def pushRanges (input : Bytes) : Nat → List (Nat × Nat) → Except Panic (List Push)
  | copied, [] => do
    let text ← textSlice input copied input.length
    .ok [.copied copied input.length text]
  | copied, (start, stop) :: ranges =>
    if stop ≤ copied then pushRanges input copied ranges
    else do
      let text ← textSlice input copied (max start copied)
      let pushes ← pushRanges input stop ranges
      .ok (.copied copied (max start copied) text :: .redacted :: pushes)

/-- What `redact_log_line` pushes.  A line without ranges is handed back as it is. -/
def redactPushes (input : Bytes) : Except Panic (List Push) := do
  let network ← networkRanges input
  let opaques ← opaqueRanges input
  let ranges := network ++ opaques
  if ranges.isEmpty then .ok [.copied 0 input.length input]
  else pushRanges input 0 (ranges.mergeSort rangeLE)

/-- `redact_log_line` -/
def redactLogLine (input : Bytes) : Except Panic Bytes := do
  let pushes ← redactPushes input
  .ok (pushes.flatMap Push.text)

/-! ## What is matched -/

/-- A position lies in a run of characters that matches. -/
def MatchedBy (isChar : UInt8 → Bool) (isMatch : Bytes → Bool) (s : Bytes) (k : Nat) : Prop :=
  ∃ i j, IsRun (Holds isChar s) i j ∧ isMatch (part s i j) = true ∧ i ≤ k ∧ k < j

/-- A position lies in a run that one of the scans matches. -/
def Matched (s : Bytes) (k : Nat) : Prop :=
  MatchedBy isNetworkChar isAddress s k ∨ MatchedBy isOpaqueChar isIdentityLike s k

variable {isChar : UInt8 → Bool} {isMatch : Bytes → Bool} {s : Bytes} {b : UInt8} {i j k c n : Nat}
  {M : Nat → Prop} {ranges cuts : List (Nat × Nat)}

theorem isNetworkChar_of_hexdigit (h : isAsciiHexdigit b = true) : isNetworkChar b = true := by
  rw [isNetworkChar, h, Bool.true_or, Bool.true_or]

theorem isNetworkChar_ascii (h : isNetworkChar b = true) : b < 0x80 := by
  rw [isNetworkChar, Bool.or_eq_true, Bool.or_eq_true, beq_iff_eq, beq_iff_eq] at h
  rcases h with (h | rfl) | rfl
  · exact (ascii_of_hexdigit h).1
  · decide
  · decide

theorem isOpaqueChar_ascii : isOpaqueChar b = true → b < 0x80 := by
  refine forall_byte (P := fun b ↦ isOpaqueChar b = true → b < 0x80) ?_ b
  decide +kernel

theorem holds_ascii (hascii : ∀ b, isChar b = true → b < 0x80) (h : Holds isChar s k) :
    ∃ hk : k < s.length, s[k] < 0x80 := by
  obtain ⟨hk, hc⟩ := holds_iff.mp h
  exact ⟨hk, hascii _ hc⟩

/-- Whatever is matched is ASCII. -/
theorem Matched.ascii (h : Matched s k) : ∃ hk : k < s.length, s[k] < 0x80 := by
  rcases h with ⟨i, j, hrun, -, hik, hkj⟩ | ⟨i, j, hrun, -, hik, hkj⟩
  · exact holds_ascii (fun _ ↦ isNetworkChar_ascii) (hrun.all k hik hkj)
  · exact holds_ascii (fun _ ↦ isOpaqueChar_ascii) (hrun.all k hik hkj)

/-- A run of ASCII characters lies between boundaries. -/
theorem isCharBoundary_of_isRun (hs : IsText s) (hascii : ∀ b, isChar b = true → b < 0x80)
    (h : IsRun (Holds isChar s) i j) :
    isCharBoundary s i = true ∧ isCharBoundary s j = true := by
  have hlt := h.lt
  obtain ⟨hi, hbi⟩ := holds_ascii hascii (h.all i le_rfl hlt)
  obtain ⟨hj, hbj⟩ := holds_ascii hascii (h.all (j - 1) (by omega) (by omega))
  have hend := (hs.isCharBoundary hj hbj).2
  rw [Nat.sub_add_cancel (by omega)] at hend
  exact ⟨(hs.isCharBoundary hi hbi).1, hend⟩

/-! ## The scans -/

theorem runEnd_spec (isChar : UInt8 → Bool) (s : Bytes) (i : Nat) :
    (∀ k, i ≤ k → k < runEnd isChar s i → Holds isChar s k) ∧
      ¬ Holds isChar s (runEnd isChar s i) ∧ (i ≤ s.length → runEnd isChar s i ≤ s.length) := by
  induction i using runEnd.induct isChar s with
  | case1 i hi hc ih =>
    rw [runEnd, dif_pos hi, if_pos hc]
    refine ⟨fun k hik hk ↦ ?_, ih.2.1, fun _ ↦ ih.2.2 hi⟩
    rcases Nat.eq_or_lt_of_le hik with rfl | hlt
    · exact holds_iff.mpr ⟨hi, hc⟩
    · exact ih.1 k hlt hk
  | case2 i hi hc =>
    rw [runEnd, dif_pos hi, if_neg hc]
    refine ⟨fun k hik hk ↦ by omega, fun hholds ↦ ?_, id⟩
    obtain ⟨_, hc'⟩ := holds_iff.mp hholds
    exact hc hc'
  | case3 i hi =>
    rw [runEnd, dif_neg hi]
    exact ⟨fun k hik hk ↦ by omega, fun hholds ↦ hi hholds.lt, id⟩

/-- **A scan finds the runs that match**, and no slice of it stops the program. -/
theorem scan_spec (hs : IsText s) (hascii : ∀ b, isChar b = true → b < 0x80)
    (hi : i ≤ s.length) (hstart : Holds isChar s i → ∀ k, k + 1 = i → ¬ Holds isChar s k) :
    ∃ ranges, scan isChar isMatch s i = .ok ranges ∧ ∀ x, x ∈ ranges ↔
      i ≤ x.1 ∧ IsRun (Holds isChar s) x.1 x.2 ∧ isMatch (part s x.1 x.2) = true := by
  induction i using scan.induct isChar s with
  | case1 i hlt hc ih =>
    obtain ⟨hall, hafter, hend⟩ := runEnd_spec isChar s i
    have hholds : Holds isChar s i := holds_iff.mpr ⟨hlt, hc⟩
    have hrun : IsRun (Holds isChar s) i (runEnd isChar s i) :=
      ⟨lt_runEnd hlt hc, hall, hstart hholds, hafter⟩
    obtain ⟨hbi, hbj⟩ := isCharBoundary_of_isRun hs hascii hrun
    obtain ⟨ranges, hranges, hmem⟩ := ih (hend hi) fun hnext ↦ absurd hnext hafter
    rw [scan, dif_pos hlt, dif_pos hc, textSlice_eq_ok hrun.lt.le (hend hi) hbi hbj, ok_bind,
      hranges, ok_bind]
    refine ⟨_, rfl, fun x ↦ ?_⟩
    rw [← and_assoc, hrun.from_iff, or_and_right, and_assoc, ← hmem]
    split
    · next hmatch =>
      rw [List.mem_cons]
      refine or_congr_left ⟨fun h ↦ ⟨h, by rw [h]; exact hmatch⟩, And.left⟩
    · next hmatch =>
      refine ⟨Or.inr, fun h ↦ h.resolve_left fun h ↦ hmatch ?_⟩
      rw [h.1] at h
      exact h.2
  | case2 i hlt hc ih =>
    have hnot : ¬ Holds isChar s i := fun h ↦ hc (holds_iff.mp h).2
    obtain ⟨ranges, hranges, hmem⟩ := ih hlt fun _ k hk ↦ by
      obtain rfl : k = i := by omega
      exact hnot
    rw [scan, dif_pos hlt, dif_neg hc]
    refine ⟨ranges, hranges, fun x ↦ (hmem x).trans (and_congr_left fun hx ↦ ?_)⟩
    refine ⟨fun hle ↦ by omega, fun hle ↦ ?_⟩
    rcases Nat.eq_or_lt_of_le hle with heq | hlt
    · exact absurd (heq ▸ hx.1.all x.1 le_rfl hx.1.lt) hnot
    · exact hlt
  | case3 i hge =>
    rw [scan, dif_neg hge]
    refine ⟨[], rfl, fun x ↦ iff_of_false List.not_mem_nil ?_⟩
    rintro ⟨hix, hx, -⟩
    exact hge (hix.trans_lt (hx.all x.1 le_rfl hx.lt).lt)

/-- What a scan of the whole line finds. -/
theorem scan_covers (hs : IsText s) (hascii : ∀ b, isChar b = true → b < 0x80) :
    ∃ ranges, scan isChar isMatch s 0 = .ok ranges ∧
      (∀ x ∈ ranges, IsRun (Holds isChar s) x.1 x.2) ∧
      ∀ k, Covered ranges k ↔ MatchedBy isChar isMatch s k := by
  obtain ⟨ranges, hranges, hmem⟩ :=
    scan_spec hs hascii (Nat.zero_le _) (fun _ k hk ↦ absurd hk (Nat.succ_ne_zero k))
  refine ⟨ranges, hranges, fun x hx ↦ ((hmem x).mp hx).2.1, fun k ↦ ⟨?_, ?_⟩⟩
  · rintro ⟨x, hx, hk⟩
    obtain ⟨-, hrun, hmatch⟩ := (hmem x).mp hx
    exact ⟨x.1, x.2, hrun, hmatch, hk⟩
  · rintro ⟨i, j, hrun, hmatch, hk⟩
    exact ⟨(i, j), (hmem (i, j)).mpr ⟨Nat.zero_le _, hrun, hmatch⟩, hk⟩

/-! ## The output -/

/-- The pushes that go with cuts. -/
def cutPushes (s : Bytes) : Nat → List (Nat × Nat) → List Push
  | c, [] => [.copied c s.length (part s c s.length)]
  | c, (a, b) :: cuts => .copied c a (part s c a) :: .redacted :: cutPushes s b cuts

theorem flatMap_cutPushes : (cutPushes s c cuts).flatMap Push.text = cutOut redacted s c cuts := by
  induction cuts generalizing c with
  | nil => rw [cutPushes, cutOut, List.flatMap_singleton, Push.text, part, List.take_length]
  | cons x cuts ih =>
    rw [cutPushes, cutOut, List.flatMap_cons, List.flatMap_cons, ih]
    rfl

/-- The loop pushes what goes with the cuts, if the ranges lie between boundaries. -/
theorem pushRanges_eq (hlt : ∀ x ∈ ranges, x.1 < x.2) (hle : ∀ x ∈ ranges, x.2 ≤ s.length)
    (hbound : ∀ x ∈ ranges, isCharBoundary s x.1 = true ∧ isCharBoundary s x.2 = true)
    (hc : c ≤ s.length) (hbc : isCharBoundary s c = true) :
    pushRanges s c ranges = .ok (cutPushes s c (mergeFrom c ranges)) := by
  induction ranges generalizing c with
  | nil =>
    rw [pushRanges, textSlice_eq_ok hc le_rfl hbc (isCharBoundary_length s), ok_bind]
    rfl
  | cons x ranges ih =>
    obtain ⟨a, b⟩ := x
    obtain ⟨hab, hlt⟩ := List.forall_mem_cons.mp hlt
    obtain ⟨hb, hle⟩ := List.forall_mem_cons.mp hle
    obtain ⟨⟨hba, hbb⟩, hbound⟩ := List.forall_mem_cons.mp hbound
    rw [pushRanges, mergeFrom]
    split
    · exact ih hlt hle hbound hc hbc
    · next hskip =>
      have hmax : isCharBoundary s (max a c) = true := by
        rcases max_choice a c with h | h <;> rw [h] <;> assumption
      have hmaxle : max a c ≤ s.length := max_le (hab.le.trans hb) hc
      rw [textSlice_eq_ok (le_max_right a c) hmaxle hbc hmax, ok_bind, ih hlt hle hbound hb hbb,
        ok_bind]
      rfl

theorem rangeLE_iff {x y : Nat × Nat} :
    rangeLE x y = true ↔ x.1 < y.1 ∨ (x.1 = y.1 ∧ x.2 ≤ y.2) := by
  simp [rangeLE]

/-- The sorted ranges are sorted by where they start. -/
theorem pairwise_mergeSort_rangeLE (ranges : List (Nat × Nat)) :
    (ranges.mergeSort rangeLE).Pairwise fun x y ↦ x.1 ≤ y.1 := by
  have htrans : ∀ x y z : Nat × Nat, rangeLE x y = true → rangeLE y z = true →
      rangeLE x z = true := fun x y z hxy hyz ↦ by
    rw [rangeLE_iff] at hxy hyz ⊢
    omega
  have htotal : ∀ x y : Nat × Nat, (rangeLE x y || rangeLE y x) = true := fun x y ↦ by
    rw [Bool.or_eq_true, rangeLE_iff, rangeLE_iff]
    omega
  refine (List.pairwise_mergeSort htrans htotal ranges).imp fun {x y} hxy ↦ ?_
  rcases rangeLE_iff.mp hxy with h | h
  · exact h.le
  · exact h.1.le

/-- **What redaction pushes**: it cuts out what is matched, and no slice stops the program. -/
theorem redactPushes_eq (hs : IsText s) : ∃ cuts, Cut (Matched s) s.length 0 cuts ∧
    redactPushes s = .ok (cutPushes s 0 cuts) := by
  obtain ⟨network, hnetwork, hrunN, hcoverN⟩ : ∃ ranges, networkRanges s = .ok ranges ∧ _ :=
    scan_covers hs fun _ ↦ isNetworkChar_ascii
  obtain ⟨opaques, hopaque, hrunO, hcoverO⟩ : ∃ ranges, opaqueRanges s = .ok ranges ∧ _ :=
    scan_covers hs fun _ ↦ isOpaqueChar_ascii
  have hcovered : ∀ k, Covered (network ++ opaques) k ↔ Matched s k := fun k ↦ by
    rw [Matched, ← hcoverN k, ← hcoverO k]
    simp only [Covered, List.mem_append, or_and_right, exists_or]
  rw [redactPushes, hnetwork, ok_bind, hopaque, ok_bind]
  dsimp only
  split
  · next hempty =>
    rw [List.isEmpty_iff] at hempty
    refine ⟨[], .done (Nat.zero_le _) fun k _ _ hk ↦ ?_, ?_⟩
    · obtain ⟨x, hx, -⟩ := (hcovered k).mpr hk
      rw [hempty] at hx
      exact absurd hx List.not_mem_nil
    · rw [cutPushes, part_self]
  · have hmem : ∀ x, x ∈ (network ++ opaques).mergeSort rangeLE ↔ x ∈ network ∨ x ∈ opaques :=
      fun x ↦ by rw [List.mem_mergeSort, List.mem_append]
    have hrange : ∀ x ∈ (network ++ opaques).mergeSort rangeLE, x.1 < x.2 ∧ x.2 ≤ s.length ∧
        isCharBoundary s x.1 = true ∧ isCharBoundary s x.2 = true := by
      intro x hx
      rcases (hmem x).mp hx with hx | hx
      · have hrun := hrunN x hx
        exact ⟨hrun.lt, hrun.end_le_length,
          isCharBoundary_of_isRun hs (fun _ ↦ isNetworkChar_ascii) hrun⟩
      · have hrun := hrunO x hx
        exact ⟨hrun.lt, hrun.end_le_length,
          isCharBoundary_of_isRun hs (fun _ ↦ isOpaqueChar_ascii) hrun⟩
    have hcut := cut_mergeFrom (pairwise_mergeSort_rangeLE (network ++ opaques))
      (fun x hx ↦ (hrange x hx).1) (fun x hx ↦ (hrange x hx).2.1) (Nat.zero_le s.length)
    refine ⟨_, hcut.congr fun k _ ↦ ?_, pushRanges_eq (fun x hx ↦ (hrange x hx).1)
      (fun x hx ↦ (hrange x hx).2.1) (fun x hx ↦ (hrange x hx).2.2) (Nat.zero_le _)
      (isCharBoundary_zero s)⟩
    rw [← hcovered k]
    simp only [Covered, List.mem_mergeSort]

/-- What is left is a text. -/
theorem isText_cutOut (h : Cut M s.length c cuts)
    (hM : ∀ k, M k → ∃ hk : k < s.length, s[k] < 0x80) (hs : IsText (s.drop c)) :
    IsText (cutOut redacted s c cuts) := by
  induction h with
  | done => exact hs
  | @next c a b cuts hca hab hkeep hcut hrest ih =>
    have hb := hrest.le
    -- the line is cut before an ASCII character and after one
    obtain ⟨ha, hascii⟩ := hM a (hcut a le_rfl hab)
    obtain ⟨hlast, hascii'⟩ := hM (b - 1) (hcut (b - 1) (by omega) (by omega))
    have hleft : s.drop c = part s c a ++ s[a] :: s.drop (a + 1) := by
      rw [← List.drop_eq_getElem_cons ha]
      exact drop_eq_part_append hca ha.le
    have hright : s.drop c = part s c (b - 1) ++ s[b - 1] :: s.drop b := by
      have hcons := List.drop_eq_getElem_cons hlast
      rw [Nat.sub_add_cancel (by omega)] at hcons
      rw [← hcons]
      exact drop_eq_part_append (by omega) hlast.le
    refine (IsText.split (hleft ▸ hs) hascii).1.append ((isText_asBytes _).append (ih ?_))
    exact (IsText.split (hright ▸ hs) hascii').2

/-- What comes out is what the cuts leave. -/
theorem redactLogLine_eq (hs : IsText s) : ∃ cuts, Cut (Matched s) s.length 0 cuts ∧
    redactLogLine s = .ok (cutOut redacted s 0 cuts) ∧ IsText (cutOut redacted s 0 cuts) := by
  obtain ⟨cuts, hcut, hpushes⟩ := redactPushes_eq hs
  refine ⟨cuts, hcut, ?_, isText_cutOut hcut (fun _ ↦ Matched.ascii) hs⟩
  rw [redactLogLine, hpushes, ok_bind, flatMap_cutPushes]

/-- **Redaction removes exactly what is matched.**  It never stops the program, and what comes out
is the line with each longest matched stretch replaced by one or more markers. -/
theorem redactLogLine_replaces (line : String) : ∃ out : String,
    redactLogLine (asBytes line) = .ok (asBytes out) ∧
      Replaces redacted (asBytes line) (Matched (asBytes line)) 0 (asBytes out) := by
  obtain ⟨cuts, hcut, hout, htext⟩ := redactLogLine_eq (isText_asBytes line)
  obtain ⟨out, hbytes⟩ := htext.exists_asBytes
  exact ⟨out, by rw [hbytes, hout], by rw [hbytes]; exact replaces_cutOut hcut⟩

example : redactLogLine (asBytes "remote=198.51.100.8:443") =
    .ok (asBytes "remote=[REDACTED]") := by decide +kernel

end TrailStash
