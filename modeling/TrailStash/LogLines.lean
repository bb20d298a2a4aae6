import TrailStash.Push
import TrailStash.Redacted

/-!
# Redaction, piece by piece

A character that belongs neither to an address nor to a token keeps what stands on its left and on
its right apart: no run reaches across it, so the ranges that the scans find, the cuts and what they
leave are those of the two sides.  So a line is redacted piece by piece
(`redactLogLine_intercalate`).

A field of an event stands between such characters.  The short form of an id comes out of every line
as it went in, so that events can still be joined on it, and the full id never does
(`join_keys_survive`).
-/

set_option autoImplicit false

namespace TrailStash

open Slices Cuts

variable {isChar : UInt8 → Bool} {isMatch : Bytes → Bool} {s u v : Bytes} {c : UInt8} {i : Nat}
  {ranges left right : List (Nat × Nat)}

/-- A character that is in no address and in no token. -/
def isSeparator (b : UInt8) : Bool := decide (b < 0x80) && !isNetworkChar b && !isOpaqueChar b

theorem isSeparator_iff : isSeparator c = true ↔
    c < 0x80 ∧ isNetworkChar c = false ∧ isOpaqueChar c = false := by
  simp [isSeparator, and_assoc]

/-! ## The scans -/

/-- A scan finds nothing twice. -/
theorem nodup_scan (hs : IsText s) (hascii : ∀ b, isChar b = true → b < 0x80) (hi : i ≤ s.length)
    (hstart : Holds isChar s i → ∀ k, k + 1 = i → ¬ Holds isChar s k)
    (hranges : scan isChar isMatch s i = .ok ranges) : ranges.Nodup := by
  induction i using scan.induct isChar s generalizing ranges with
  | case1 i hlt hc ih =>
    obtain ⟨hall, hafter, hend⟩ := runEnd_spec isChar s i
    have hrun : IsRun (Holds isChar s) i (runEnd isChar s i) :=
      ⟨lt_runEnd hlt hc, hall, hstart (holds_iff.mpr ⟨hlt, hc⟩), hafter⟩
    obtain ⟨hbi, hbj⟩ := isCharBoundary_of_isRun hs hascii hrun
    have hnext : Holds isChar s (runEnd isChar s i) →
        ∀ k, k + 1 = runEnd isChar s i → ¬ Holds isChar s k := fun h ↦ absurd h hafter
    obtain ⟨rest, hrest, hmem⟩ : ∃ rest, scan isChar isMatch s (runEnd isChar s i) = .ok rest ∧ _ :=
      scan_spec hs hascii (hend hlt.le) hnext
    rw [scan, dif_pos hlt, dif_pos hc, textSlice_eq_ok hrun.lt.le (hend hlt.le) hbi hbj, ok_bind,
      hrest, ok_bind] at hranges
    obtain rfl := Except.ok.inj hranges
    split
    · refine List.nodup_cons.mpr ⟨fun hin ↦ ?_, ih (hend hlt.le) hnext hrest⟩
      exact absurd ((hmem _).mp hin).1 (not_le.mpr hrun.lt)
    · exact ih (hend hlt.le) hnext hrest
  | case2 i hlt hc ih =>
    rw [scan, dif_pos hlt, dif_neg hc] at hranges
    refine ih hlt (fun _ k hk ↦ ?_) hranges
    obtain rfl : k = i := by omega
    exact fun h ↦ hc (holds_iff.mp h).2
  | case3 i hge =>
    rw [scan, dif_neg hge] at hranges
    obtain rfl := Except.ok.inj hranges
    exact List.nodup_nil

/-- What a scan of a whole line finds, each once. -/
theorem scan_finds (hs : IsText s) (hascii : ∀ b, isChar b = true → b < 0x80) :
    ∃ ranges, scan isChar isMatch s 0 = .ok ranges ∧ ranges.Nodup ∧ ∀ x, x ∈ ranges ↔
      IsRun (Holds isChar s) x.1 x.2 ∧ isMatch (part s x.1 x.2) = true := by
  have hstart : Holds isChar s 0 → ∀ k, k + 1 = 0 → ¬ Holds isChar s k :=
    fun _ k hk ↦ absurd hk (Nat.succ_ne_zero k)
  obtain ⟨ranges, hranges, hmem⟩ := scan_spec hs hascii (Nat.zero_le _) hstart
  refine ⟨ranges, hranges, nodup_scan hs hascii (Nat.zero_le _) hstart hranges, fun x ↦ ?_⟩
  rw [hmem, and_iff_right (Nat.zero_le _)]

/-- **A scan finds what it finds on the two sides of a character that it does not look for.** -/
theorem scan_append (hs : IsText (u ++ c :: v)) (hascii : ∀ b, isChar b = true → b < 0x80)
    (hc : c < 0x80) (hchar : isChar c = false)
    (hranges : scan isChar isMatch (u ++ c :: v) 0 = .ok ranges)
    (hleft : scan isChar isMatch u 0 = .ok left) (hright : scan isChar isMatch v 0 = .ok right) :
    ranges.Perm (left ++ right.map (shift (u.length + 1))) := by
  obtain ⟨hu, hv⟩ := hs.split hc
  have hfinds : ∀ {s}, IsText s → ∃ ranges, scan isChar isMatch s 0 = .ok ranges ∧ _ := fun hs ↦
    scan_finds hs hascii
  obtain ⟨ranges', hranges', hnodup, hmem⟩ := hfinds hs
  obtain ⟨left', hleft', hnodupL, hmemL⟩ := hfinds hu
  obtain ⟨right', hright', hnodupR, hmemR⟩ := hfinds hv
  obtain rfl := Except.ok.inj (hranges.symm.trans hranges')
  obtain rfl := Except.ok.inj (hleft.symm.trans hleft')
  obtain rfl := Except.ok.inj (hright.symm.trans hright')
  have hinj : Function.Injective (shift (u.length + 1)) := fun x y hxy ↦ by
    simp only [shift, Prod.mk.injEq, Nat.add_left_cancel_iff] at hxy
    exact Prod.ext hxy.1 hxy.2
  have hapart : ∀ x ∈ left, ∀ y ∈ right.map (shift (u.length + 1)), x ≠ y := by
    intro x hx y hy hxy
    obtain ⟨z, -, rfl⟩ := List.mem_map.mp hy
    have hrun := ((hmemL x).mp hx).1
    have hlt := hrun.lt
    have hle := hrun.end_le_length
    rw [hxy, shift] at hlt hle
    omega
  refine (List.perm_ext_iff_of_nodup hnodup ?_).mpr fun x ↦ ?_
  · exact List.nodup_append.mpr ⟨hnodupL, hnodupR.map hinj, hapart⟩
  · rw [hmem, List.mem_append, hmemL, List.mem_map, isRun_append_iff hchar, or_and_right]
    refine or_congr (and_congr_right fun hrun ↦ by rw [part_left hrun.end_le_length]) ?_
    constructor
    · rintro ⟨⟨a, b, hrun, heq⟩, hmatch⟩
      refine ⟨(a, b), (hmemR _).mpr ⟨hrun, ?_⟩, heq.symm⟩
      obtain ⟨h₁, h₂⟩ := Prod.mk.inj heq
      rwa [h₁, h₂, part_right] at hmatch
    · rintro ⟨y, hy, rfl⟩
      obtain ⟨hrun, hmatch⟩ := (hmemR y).mp hy
      refine ⟨⟨y.1, y.2, hrun, rfl⟩, ?_⟩
      rwa [shift, part_right]

/-! ## The loop -/

/-- What the two scans find, in the order in which the loop takes it. -/
def Finds (s : Bytes) (ranges : List (Nat × Nat)) : Prop :=
  ∃ network opaques, networkRanges s = .ok network ∧ opaqueRanges s = .ok opaques ∧
    ranges = (network ++ opaques).mergeSort rangeLE

/-- What is found are ranges of the line, and what they leave comes out. -/
theorem exists_finds (hs : IsText s) : ∃ ranges, Finds s ranges ∧
    (∀ x ∈ ranges, x.1 < x.2 ∧ x.2 ≤ s.length) ∧
    redactLogLine s = .ok (cutOut redacted s 0 (mergeFrom 0 ranges)) := by
  obtain ⟨network, hnetwork, -, hmemN⟩ : ∃ ranges, networkRanges s = .ok ranges ∧ _ :=
    scan_finds hs fun _ ↦ isNetworkChar_ascii
  obtain ⟨opaques, hopaque, -, hmemO⟩ : ∃ ranges, opaqueRanges s = .ok ranges ∧ _ :=
    scan_finds hs fun _ ↦ isOpaqueChar_ascii
  have hrange : ∀ x ∈ (network ++ opaques).mergeSort rangeLE, (x.1 < x.2 ∧ x.2 ≤ s.length) ∧
      isCharBoundary s x.1 = true ∧ isCharBoundary s x.2 = true := by
    intro x hx
    rcases List.mem_append.mp (List.mem_mergeSort.mp hx) with hx | hx
    · have hrun := ((hmemN x).mp hx).1
      exact ⟨⟨hrun.lt, hrun.end_le_length⟩,
        isCharBoundary_of_isRun hs (fun _ ↦ isNetworkChar_ascii) hrun⟩
    · have hrun := ((hmemO x).mp hx).1
      exact ⟨⟨hrun.lt, hrun.end_le_length⟩,
        isCharBoundary_of_isRun hs (fun _ ↦ isOpaqueChar_ascii) hrun⟩
  refine ⟨_, ⟨network, opaques, hnetwork, hopaque, rfl⟩, fun x hx ↦ (hrange x hx).1, ?_⟩
  rw [redactLogLine, redactPushes, hnetwork, ok_bind, hopaque, ok_bind]
  dsimp only
  split
  · next hempty =>
    rw [List.isEmpty_iff.mp hempty, ok_bind]
    simp [mergeFrom, cutOut, Push.text]
  · rw [pushRanges_eq (fun x hx ↦ (hrange x hx).1.1) (fun x hx ↦ (hrange x hx).1.2)
      (fun x hx ↦ (hrange x hx).2) (Nat.zero_le _) (isCharBoundary_zero s), ok_bind,
      flatMap_cutPushes]

/-- The order of the loop is one of the pairs, so it determines the list. -/
theorem pairwise_mergeSort_rangeLE' (ranges : List (Nat × Nat)) :
    (ranges.mergeSort rangeLE).Pairwise fun x y ↦ rangeLE x y = true := by
  refine List.pairwise_mergeSort (fun x y z hxy hyz ↦ ?_) (fun x y ↦ ?_) ranges
  · rw [rangeLE_iff] at hxy hyz ⊢
    omega
  · rw [Bool.or_eq_true, rangeLE_iff, rangeLE_iff]
    omega

/-- **What is found is what is found on the two sides.** -/
theorem finds_append (hs : IsText (u ++ c :: v)) (hsep : isSeparator c = true)
    (hranges : Finds (u ++ c :: v) ranges) (hleft : Finds u left) (hright : Finds v right)
    (hle : ∀ x ∈ left, x.1 < x.2 ∧ x.2 ≤ u.length) :
    ranges = left ++ right.map (shift (u.length + 1)) := by
  obtain ⟨hc, hnetworkChar, hopaqueChar⟩ := isSeparator_iff.mp hsep
  obtain ⟨network, opaques, hN, hO, rfl⟩ := hranges
  obtain ⟨networkL, opaquesL, hNL, hOL, rfl⟩ := hleft
  obtain ⟨networkR, opaquesR, hNR, hOR, rfl⟩ := hright
  have hpermN := scan_append hs (fun _ ↦ isNetworkChar_ascii) hc hnetworkChar hN hNL hNR
  have hpermO := scan_append hs (fun _ ↦ isOpaqueChar_ascii) hc hopaqueChar hO hOL hOR
  have hsorted := pairwise_mergeSort_rangeLE' (networkR ++ opaquesR)
  refine List.Perm.eq_of_pairwise (fun x y _ _ (hxy : rangeLE x y = true) hyx ↦ ?_)
    (pairwise_mergeSort_rangeLE' _) ?_ ?_
  · rw [rangeLE_iff] at hxy hyx
    exact Prod.ext (by omega) (by omega)
  · refine List.pairwise_append.mpr ⟨pairwise_mergeSort_rangeLE' _, ?_, fun x hx y hy ↦ ?_⟩
    · refine List.pairwise_map.mpr (hsorted.imp fun {x y} hxy ↦ ?_)
      rw [rangeLE_iff] at hxy ⊢
      simp only [shift]
      omega
    · -- what is on the left starts before the separator, and what is on the right after it
      obtain ⟨z, -, rfl⟩ := List.mem_map.mp hy
      have hin := hle x hx
      exact rangeLE_iff.mpr (Or.inl (by simp only [shift]; omega))
  · have hswap : ((networkL ++ networkR.map (shift (u.length + 1))) ++
        (opaquesL ++ opaquesR.map (shift (u.length + 1)))).Perm
          ((networkL ++ opaquesL) ++ (networkR ++ opaquesR).map (shift (u.length + 1))) := by
      refine List.perm_iff_count.mpr fun x ↦ ?_
      simp only [List.map_append, List.count_append]
      omega
    exact (List.mergeSort_perm _ _).trans ((hpermN.append hpermO).trans (hswap.trans
      ((List.mergeSort_perm _ _).symm.append ((List.mergeSort_perm _ _).symm.map _))))

/-- **A separator is left as it is, and what is on its two sides is redacted apart.** -/
theorem redactLogLine_append (hs : IsText (u ++ c :: v)) (hsep : isSeparator c = true) :
    ∃ out out', redactLogLine u = .ok out ∧ redactLogLine v = .ok out' ∧
      redactLogLine (u ++ c :: v) = .ok (out ++ c :: out') := by
  obtain ⟨hu, hv⟩ := hs.split (isSeparator_iff.mp hsep).1
  obtain ⟨ranges, hfinds, -, hout⟩ := exists_finds hs
  obtain ⟨left, hfindsL, hleL, houtL⟩ := exists_finds hu
  obtain ⟨right, hfindsR, hleR, houtR⟩ := exists_finds hv
  refine ⟨_, _, houtL, houtR, ?_⟩
  have hcut : Cut (Covered left) u.length 0 (mergeFrom 0 left) := by
    obtain ⟨network, opaques, -, -, rfl⟩ := hfindsL
    exact cut_mergeFrom (pairwise_mergeSort_rangeLE _) (fun x hx ↦ (hleL x hx).1)
      (fun x hx ↦ (hleL x hx).2) (Nat.zero_le _)
  rw [hout, finds_append hs hsep hfinds hfindsL hfindsR hleL,
    mergeFrom_append (Nat.zero_le _) (fun x hx ↦ (hleL x hx).2) (fun x hx ↦ (hleR x hx).1),
    cutOut_append hcut]

/-- ASCII bytes are a text. -/
theorem isText_of_ascii (hs : ∀ b ∈ s, b < 0x80) : IsText s := by
  induction s with
  | nil => exact ⟨[], rfl⟩
  | cons b s ih =>
    obtain ⟨hb, hs⟩ := List.forall_mem_cons.mp hs
    obtain ⟨hascii, hsame⟩ := charOfByte_ascii hb
    have hhead : IsText [b] :=
      ⟨[Char.ofNat b.toNat], by rw [List.flatMap_singleton, utf8EncodeChar_ascii hascii, hsame]⟩
    exact hhead.append (ih hs)

theorem IsText.join (hu : IsText u) (hv : IsText v) (hc : c < 0x80) : IsText (u ++ c :: v) := by
  have hmiddle : IsText [c] := isText_of_ascii (List.forall_mem_singleton.mpr hc)
  exact hu.append (hmiddle.append hv)

theorem isText_intercalate (hc : c < 0x80) (pieces : List String) :
    IsText ([c].intercalate (pieces.map asBytes)) := by
  induction pieces with
  | nil => exact ⟨[], rfl⟩
  | cons piece pieces ih =>
    cases pieces with
    | nil => simpa using isText_asBytes piece
    | cons next pieces =>
      rw [List.map_cons, List.map_cons, List.intercalate_cons_cons, List.append_assoc]
      exact (isText_asBytes piece).join ih hc

/-- What comes out of a text is a text. -/
theorem exists_redacted (piece : String) :
    ∃ out : String, redactLogLine (asBytes piece) = .ok (asBytes out) := by
  obtain ⟨cuts, -, hout, htext⟩ := redactLogLine_eq (isText_asBytes piece)
  obtain ⟨out, hbytes⟩ := htext.exists_asBytes
  exact ⟨out, by rw [hbytes, hout]⟩

theorem redactLogLine_nil : redactLogLine [] = .ok [] := by decide +kernel

/-- **A text is redacted piece by piece**: lines that are joined by line breaks, or fields that are
joined by blanks, come out as they would on their own. -/
theorem redactLogLine_intercalate (hsep : isSeparator c = true) (pieces : List String) :
    ∃ outs : List String,
      List.Forall₂ (fun piece out ↦ redactLogLine (asBytes piece) = .ok (asBytes out)) pieces outs ∧
      redactLogLine ([c].intercalate (pieces.map asBytes)) =
        .ok ([c].intercalate (outs.map asBytes)) := by
  induction pieces with
  | nil => exact ⟨[], .nil, redactLogLine_nil⟩
  | cons piece pieces ih =>
    obtain ⟨outs, houts, hall⟩ := ih
    cases houts with
    | nil =>
      obtain ⟨out, hout⟩ := exists_redacted piece
      exact ⟨[out], .cons hout .nil, by simpa using hout⟩
    | @cons next out pieces outs hnext hrest =>
      have hc := (isSeparator_iff.mp hsep).1
      have hjoined := (isText_asBytes piece).join (isText_intercalate hc (next :: pieces)) hc
      obtain ⟨first, rest, hfirst, hrest', hboth⟩ := redactLogLine_append hjoined hsep
      obtain ⟨text, htext⟩ := exists_redacted piece
      obtain rfl := Except.ok.inj (htext.symm.trans hfirst)
      obtain rfl := Except.ok.inj (hall.symm.trans hrest')
      refine ⟨text :: out :: outs, .cons hfirst (.cons hnext hrest), ?_⟩
      rw [List.map_cons, List.map_cons, List.intercalate_cons_cons, List.append_assoc]
      exact hboth

/-- Lines. -/
theorem redactLogLine_intercalate_lines : ∃ outs : List String,
    List.Forall₂ (fun piece out ↦ redactLogLine (asBytes piece) = .ok (asBytes out))
      ["peer 192.0.2.44", "stored"] outs ∧
    redactLogLine (['\n'.toUInt8].intercalate (["peer 192.0.2.44", "stored"].map asBytes)) =
      .ok (['\n'.toUInt8].intercalate (outs.map asBytes)) :=
  redactLogLine_intercalate (by decide) ["peer 192.0.2.44", "stored"]

/-! ## Tokens -/

section Hexadecimal

variable {radix result count max n limit : Nat} {tooMany : Nat → Nat → Bool} {x : Nat × Nat}
  {maxDigits : Option Nat} {allowZeroPrefix : Bool} {rest : Bytes}

/-- Digits are read off the front. -/
theorem readDigits_suffix (h : readDigits radix tooMany result count s = some (x, rest)) :
    rest <:+ s := by
  induction s generalizing result count with
  | nil =>
    obtain ⟨-, rfl⟩ := Prod.mk.inj (Option.some.inj h)
    exact List.suffix_refl _
  | cons b s ih =>
    rw [readDigits] at h
    split at h
    · obtain ⟨-, rfl⟩ := Prod.mk.inj (Option.some.inj h)
      exact List.suffix_refl _
    · dsimp only at h
      split at h
      · simp at h
      · exact (ih h).trans (List.suffix_cons b s)

theorem readNumber_suffix {value : Nat}
    (h : readNumber max radix maxDigits allowZeroPrefix s = some (value, rest)) : rest <:+ s := by
  obtain ⟨⟨⟨result, count⟩, mid⟩, hdigits, hrest⟩ := Option.bind_eq_some_iff.mp h
  dsimp only at hrest
  split_ifs at hrest
  obtain ⟨-, rfl⟩ := Prod.mk.inj (Option.some.inj hrest)
  exact readDigits_suffix hdigits

theorem readGivenChar_of_notMem {target : UInt8} (h : target ∉ s) :
    readGivenChar target s = none := by
  refine Option.eq_none_iff_forall_ne_some.mpr fun rest hrest ↦ h ?_
  rw [readGivenChar_eq_some_iff.mp hrest]
  exact List.mem_cons_self

/-- No group after the first is read where no colon is. -/
theorem readGroups_of_no_colon (hlimit : n < limit) (hs : colon ∉ s) :
    readGroups limit n s = (([], false), s) := by
  cases n with
  | zero => rfl
  | succ n =>
    have hnone : ∀ {α : Type} (inner : Reader α),
        readSeparator colon (limit - (n + 1)) inner s = none := fun inner ↦ by
      rw [readSeparator, if_pos (by omega), readGivenChar_of_notMem hs, Option.bind_none]
    simp [readGroups, hnone]

/-- Without a dot and a colon one group is read at most. -/
theorem readIpv6Addr_of_no_colon (hquad : readIpv4Addr s = none) (hs : colon ∉ s) :
    readIpv6Addr s = none := by
  obtain ⟨groups, rest, hlen, hsuffix, hread⟩ : ∃ groups rest, groups.length ≤ 1 ∧ rest <:+ s ∧
      readGroups 8 8 s = ((groups, false), rest) := by
    have hfirst : ∀ {α : Type} (inner : Reader α), readSeparator colon 0 inner s = inner s :=
      fun inner ↦ if_neg (Nat.lt_irrefl 0)
    cases hnumber : readNumber 0xffff 16 (some 4) true s with
    | none =>
      refine ⟨[], s, Nat.zero_le 1, List.suffix_refl s, ?_⟩
      rw [readGroups]
      simp [hfirst, hquad, hnumber]
    | some x =>
      obtain ⟨group, rest⟩ := x
      have hsuffix := readNumber_suffix hnumber
      have hmore : readGroups 8 7 rest = (([], false), rest) :=
        readGroups_of_no_colon (by decide) fun hmem ↦ hs (hsuffix.subset hmem)
      refine ⟨[group], rest, le_rfl, hsuffix, ?_⟩
      rw [readGroups]
      simp [hfirst, hquad, hnumber, hmore]
  have hgiven : readGivenChar colon rest = none :=
    readGivenChar_of_notMem fun hmem ↦ hs (hsuffix.subset hmem)
  have hfew : groups.length ≠ 8 := by omega
  simp [readIpv6Addr, hread, hfew, hgiven]

/-- **A hexadecimal text is no address**: that takes a dot or a colon. -/
theorem isAddress_of_hexdigits (hs : ∀ b ∈ s, isAsciiHexdigit b = true) : isAddress s = false := by
  have hnot : ∀ b, isAsciiHexdigit b = false → b ∉ s := fun b hb hmem ↦
    absurd (hs b hmem) (by simp [hb])
  have hquad : readIpv4Addr s = none := by
    refine Option.eq_none_iff_forall_ne_some.mpr fun x hread ↦ ?_
    obtain ⟨pre, rfl, hdot⟩ := dot_mem_of_readIpv4Addr hread
    exact hnot dot (by decide) (List.mem_append_left _ hdot)
  have hgroups := readIpv6Addr_of_no_colon hquad (hnot colon (by decide))
  have hbracket : readGivenChar '['.toUInt8 s = none :=
    readGivenChar_of_notMem (hnot _ (by decide))
  simp [isAddress, parseWith, readIpAddr, readSocketAddr, readSocketAddrV4, readSocketAddrV6, hquad,
    hgroups, hbracket]

end Hexadecimal

variable {w r : Bytes}

/-- The elements of a run. -/
theorem of_mem_run (h : HasRun isChar s r) : ∀ b ∈ r, b ∈ s ∧ isChar b = true := by
  obtain ⟨i, j, hrun, rfl⟩ := h
  intro b hb
  obtain ⟨k, hik, hkj, hk⟩ := (mem_part hrun.end_le_length).mp hb
  obtain ⟨hlt, hc⟩ := holds_iff.mp (hrun.all k hik hkj)
  rw [List.getElem?_eq_getElem hlt, Option.some_inj] at hk
  exact ⟨hk ▸ List.getElem_mem hlt, hk ▸ hc⟩

theorem length_le_of_hasRun (h : HasRun isChar s r) : r.length ≤ s.length := by
  obtain ⟨i, j, hrun, rfl⟩ := h
  rw [length_part hrun.end_le_length]
  exact (Nat.sub_le j i).trans hrun.end_le_length

/-- No run of a token is an address. -/
theorem isAddress_of_hasRun (hw : ∀ b ∈ w, isOpaqueChar b = true) (h : HasRun isNetworkChar w r) :
    isAddress r = false := by
  have hboth : ∀ b, isNetworkChar b = true → isOpaqueChar b = true → isAsciiHexdigit b = true :=
    forall_byte (by decide +kernel)
  exact isAddress_of_hexdigits fun b hb ↦
    hboth b (of_mem_run h b hb).2 (hw b (of_mem_run h b hb).1)

/-- **A token goes as a whole, or stays as it is.** -/
theorem redactLogLine_token (hne : w ≠ []) (hw : ∀ b ∈ w, isOpaqueChar b = true) :
    redactLogLine w = .ok (if isIdentityLike w then redacted else w) := by
  have htext : IsText w := isText_of_ascii fun b hb ↦ isOpaqueChar_ascii (hw b hb)
  obtain ⟨network, hN, -, hmemN⟩ : ∃ ranges, networkRanges w = .ok ranges ∧ _ :=
    scan_finds htext fun _ ↦ isNetworkChar_ascii
  obtain ⟨opaques, hO, hnodup, hmemO⟩ : ∃ ranges, opaqueRanges w = .ok ranges ∧ _ :=
    scan_finds htext fun _ ↦ isOpaqueChar_ascii
  obtain ⟨ranges, ⟨network', opaques', hN', hO', rfl⟩, -, hout⟩ := exists_finds htext
  obtain rfl := Except.ok.inj (hN.symm.trans hN')
  obtain rfl := Except.ok.inj (hO.symm.trans hO')
  have hnetwork : network = [] := List.eq_nil_iff_forall_not_mem.mpr fun x hx ↦ by
    obtain ⟨hrun, hmatch⟩ := (hmemN x).mp hx
    exact absurd hmatch (by simp [isAddress_of_hasRun hw ⟨x.1, x.2, hrun, rfl⟩])
  -- the token is its only run
  have hall : IsRun (Holds isOpaqueChar w) 0 w.length := by
    have hrun := isRun_middle (p := isOpaqueChar) (u := []) (w := []) hne hw (by simp) (by simp)
    simpa using hrun
  have honly : ∀ x, x ∈ opaques ↔ x = (0, w.length) ∧ isIdentityLike w = true := by
    refine fun x ↦ (hmemO x).trans ⟨fun ⟨hrun, hmatch⟩ ↦ ?_, ?_⟩
    · obtain ⟨h₁, h₂⟩ := hall.unique hrun (Nat.zero_le x.1)
        (hrun.lt.trans_le hrun.end_le_length) le_rfl hrun.lt
      rw [← h₁, ← h₂, part_self] at hmatch
      exact ⟨Prod.ext h₁.symm h₂.symm, hmatch⟩
    · rintro ⟨rfl, hlike⟩
      exact ⟨hall, by rwa [part_self]⟩
  rw [hout, hnetwork, List.nil_append]
  cases hlike : isIdentityLike w with
  | false =>
    have hnone : opaques = [] := List.eq_nil_iff_forall_not_mem.mpr fun x hx ↦
      absurd ((honly x).mp hx).2 (by simp [hlike])
    simp [hnone, mergeFrom, cutOut]
  | true =>
    have hone : opaques = [(0, w.length)] := by
      refine List.perm_singleton.mp ((List.perm_ext_iff_of_nodup hnodup
        (List.nodup_singleton _)).mpr fun x ↦ ?_)
      rw [honly, List.mem_singleton, and_iff_left hlike]
    simp [hone, mergeFrom, cutOut, hne]

/-! ## Fields of an event -/

/-- First 10 hex chars of an id, the form of the join keys. -/
def shortHex (bytes : Bytes) : Bytes := (bytes.take 5).flatMap hexByte

/-- The names of the fields that carry an id in this form. -/
def joinKeys : List Bytes := ["sc.namespace", "sc.entry_hash", "sc.author"].map asBytes

/-- A field as it stands in a line. -/
def field (key value : Bytes) : Bytes := key ++ '='.toUInt8 :: value

/-- The id in full. -/
theorem hexEncode_eq_append (id : Bytes) : hexEncode id = shortHex id ++ hexEncode (id.drop 5) := by
  rw [shortHex, hexEncode, hexEncode, ← List.flatMap_append, List.take_append_drop]

theorem hexdigit_of_mem_hexEncode {id : Bytes} {b : UInt8} (hb : b ∈ hexEncode id) :
    isAsciiHexdigit b = true :=
  List.all_eq_true.mp (hexEncode_spec id).2.1 b hb

theorem length_hexEncode (id : Bytes) : (hexEncode id).length = 2 * id.length := by
  induction id with
  | nil => rfl
  | cons b id ih =>
    rw [hexEncode, List.flatMap_cons, List.length_append, ← hexEncode, ih, List.length_cons]
    simp only [hexByte, List.length_cons, List.length_nil]
    omega

theorem isOpaqueChar_of_hexdigit {b : UInt8} : isAsciiHexdigit b = true → isOpaqueChar b = true :=
  forall_byte (P := fun b ↦ isAsciiHexdigit b = true → isOpaqueChar b = true)
    (by decide +kernel) b

/-- No part of a key is an address. -/
theorem joinKeys_clean {key : Bytes} (hkey : key ∈ joinKeys) (h : HasRun isNetworkChar key r) :
    isAddress r = false := by
  have hparts : ∀ key ∈ joinKeys, ∀ i < 14, ∀ j < 14, isAddress (part key i j) = false := by
    decide +kernel
  have hlen : ∀ key ∈ joinKeys, key.length < 14 := by decide +kernel
  obtain ⟨i, j, hrun, rfl⟩ := h
  have hlt := hrun.lt
  have hj := hrun.end_le_length.trans_lt (hlen key hkey)
  exact hparts key hkey i (hlt.trans hj) j hj

/-- **A join key stays**: it is too short for an identity, and no part of it is an address. -/
theorem redactLogLine_field {key : Bytes} (hkey : key ∈ joinKeys) (id : Bytes) :
    IsText (field key (shortHex id)) ∧
      redactLogLine (field key (shortHex id)) = .ok (field key (shortHex id)) := by
  have hkeys : ∀ key ∈ joinKeys, key.length ≤ 13 ∧ ∀ b ∈ key, b < 0x80 := by decide +kernel
  obtain ⟨hlen, hascii⟩ := hkeys key hkey
  have hvalue : ∀ b ∈ shortHex id, isAsciiHexdigit b = true := fun b hb ↦
    hexdigit_of_mem_hexEncode (hexEncode_eq_append id ▸ List.mem_append_left _ hb)
  have hshort : (shortHex id).length ≤ 10 := by
    have htaken : (id.take 5).length ≤ 5 := List.length_take_le 5 id
    rw [shortHex, ← hexEncode, length_hexEncode]
    omega
  have htext : IsText (field key (shortHex id)) :=
    (isText_of_ascii hascii).join
      (isText_of_ascii fun b hb ↦ (ascii_of_hexdigit (hvalue b hb)).1) (by decide)
  refine ⟨htext, (redactLogLine_fixed_iff htext).mpr ?_⟩
  rintro k (hk | hk)
  · obtain ⟨r, hr, hmatch⟩ := exists_matchedBy_iff.mp ⟨k, hk⟩
    have hequals : isNetworkChar '='.toUInt8 = false := by decide
    rcases (hasRun_append hequals).mp hr with hr | hr
    · exact absurd hmatch (by simp [joinKeys_clean hkey hr])
    · have hdigits := isAddress_of_hexdigits fun b hb ↦ hvalue b (of_mem_run hr b hb).1
      exact absurd hmatch (by simp [hdigits])
  · obtain ⟨r, hr, hmatch⟩ := exists_matchedBy_iff.mp ⟨k, hk⟩
    have hle := length_le_of_hasRun hr
    rw [isIdentityLike, Bool.and_eq_true, decide_eq_true_iff] at hmatch
    rw [field, List.length_append, List.length_cons] at hle
    omega

/-- The whole id, if it has sixteen bytes at least, does not. -/
theorem redactLogLine_hexEncode {id : Bytes} (hid : 16 ≤ id.length) :
    IsText (hexEncode id) ∧ redactLogLine (hexEncode id) = .ok redacted := by
  have hlen := length_hexEncode id
  have hne : hexEncode id ≠ [] := List.ne_nil_of_length_pos (by omega)
  have hdigits : ∀ b ∈ hexEncode id, isAsciiHexdigit b = true := fun b ↦ hexdigit_of_mem_hexEncode
  have hlike : isIdentityLike (hexEncode id) = true := by
    rw [isIdentityLike, decide_eq_true (by omega), Bool.true_and,
      List.all_eq_true.mpr hdigits, Bool.or_true]
  have htoken := redactLogLine_token hne fun b hb ↦ isOpaqueChar_of_hexdigit (hdigits b hb)
  rw [if_pos hlike] at htoken
  exact ⟨isText_of_ascii fun b hb ↦ (ascii_of_hexdigit (hdigits b hb)).1, htoken⟩

/-- What stands between two separators is redacted as if it were alone, and so is the rest. -/
theorem redactLogLine_delimited {c d : UInt8} {out : Bytes} {before after out₁ out₂ : String}
    (hc : isSeparator c = true) (hd : isSeparator d = true) (hw : IsText w)
    (hout : redactLogLine w = .ok out)
    (hbefore : redactLogLine (asBytes before) = .ok (asBytes out₁))
    (hafter : redactLogLine (asBytes after) = .ok (asBytes out₂)) :
    redactLogLine (asBytes before ++ c :: (w ++ d :: asBytes after)) =
      .ok (asBytes out₁ ++ c :: (out ++ d :: asBytes out₂)) := by
  have hright := hw.join (isText_asBytes after) (isSeparator_iff.mp hd).1
  have hall := (isText_asBytes before).join hright (isSeparator_iff.mp hc).1
  obtain ⟨w', after', hw', hafter', hjoined⟩ := redactLogLine_append hright hd
  obtain ⟨before', right', hbefore', hright', hwhole⟩ := redactLogLine_append hall hc
  obtain rfl := Except.ok.inj (hout.symm.trans hw')
  obtain rfl := Except.ok.inj (hafter.symm.trans hafter')
  obtain rfl := Except.ok.inj (hbefore.symm.trans hbefore')
  obtain rfl := Except.ok.inj (hjoined.symm.trans hright')
  exact hwhole

/-- **The join keys survive, and the ids they stand for do not.**  Between separators, whatever the
rest of the line is, the field with the short form of an id comes out as it is, and a full id of
sixteen bytes at least comes out as the marker.  The rest is redacted as if it were alone. -/
theorem join_keys_survive {c d : UInt8} {key : Bytes} (hc : isSeparator c = true)
    (hd : isSeparator d = true) (hkey : key ∈ joinKeys) (id : Bytes) (before after : String) :
    ∃ out₁ out₂ : String, redactLogLine (asBytes before) = .ok (asBytes out₁) ∧
      redactLogLine (asBytes after) = .ok (asBytes out₂) ∧
      redactLogLine (asBytes before ++ c :: (field key (shortHex id) ++ d :: asBytes after)) =
        .ok (asBytes out₁ ++ c :: (field key (shortHex id) ++ d :: asBytes out₂)) ∧
      (16 ≤ id.length →
        redactLogLine (asBytes before ++ c :: (hexEncode id ++ d :: asBytes after)) =
          .ok (asBytes out₁ ++ c :: (redacted ++ d :: asBytes out₂))) := by
  obtain ⟨out₁, hbefore⟩ := exists_redacted before
  obtain ⟨out₂, hafter⟩ := exists_redacted after
  obtain ⟨htext, hfield⟩ := redactLogLine_field hkey id
  refine ⟨out₁, out₂, hbefore, hafter, redactLogLine_delimited hc hd htext hfield hbefore hafter,
    fun hid ↦ ?_⟩
  obtain ⟨hfull, hmarker⟩ := redactLogLine_hexEncode hid
  exact redactLogLine_delimited hc hd hfull hmarker hbefore hafter

/-- Blanks are separators. -/
theorem join_keys_survive_fix : ∃ out₁ out₂ : String,
    redactLogLine (asBytes "stash.sync") = .ok (asBytes out₁) ∧
    redactLogLine (asBytes "peer=10.0.0.1") = .ok (asBytes out₂) ∧
    redactLogLine (asBytes "stash.sync" ++ ' '.toUInt8 ::
        (field (asBytes "sc.author") (shortHex (List.replicate 32 7)) ++
          ' '.toUInt8 :: asBytes "peer=10.0.0.1")) =
      .ok (asBytes out₁ ++ ' '.toUInt8 ::
        (field (asBytes "sc.author") (shortHex (List.replicate 32 7)) ++
          ' '.toUInt8 :: asBytes out₂)) ∧
    redactLogLine (asBytes "stash.sync" ++ ' '.toUInt8 ::
        (hexEncode (List.replicate 32 7) ++ ' '.toUInt8 :: asBytes "peer=10.0.0.1")) =
      .ok (asBytes out₁ ++ ' '.toUInt8 :: (redacted ++ ' '.toUInt8 :: asBytes out₂)) := by
  have hspace : isSeparator ' '.toUInt8 = true := by decide
  obtain ⟨out₁, out₂, hbefore, hafter, hfield, hfull⟩ := join_keys_survive hspace hspace
    (by decide : asBytes "sc.author" ∈ joinKeys) (List.replicate 32 7) "stash.sync" "peer=10.0.0.1"
  exact ⟨out₁, out₂, hbefore, hafter, hfield, hfull (by decide)⟩

end TrailStash
