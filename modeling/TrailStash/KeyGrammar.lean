import Mathlib.Data.Nat.Digits.Lemmas
import TrailStash.Api
import TrailStash.FixKeys
import TrailStash.Utf8

/-!
# Exactly the fix keys are decoded

The phones write `hex(author)/{seq:020}`, and the stash decides about releasing content on what it
reads back.  `Spells` is the grammar of these keys, and `decodeFixKey_grammar` says that the decoder
accepts it and nothing else, and that it is the inverse of the encoder up to the letter case of the
author.

The decoder indexes its input byte by byte.  `decodeFixKeyAt` is the decoder with these reads
written out, and `decodeFixKeyAt_eq` says that none of them is out of bounds, whatever the input.
-/

set_option autoImplicit false

namespace TrailStash

open Slices

variable {b d : UInt8} {s ds author : Bytes} {acc n : Nat} {key : Bytes} {k : FixKey}

/-! ## The encoder -/

/-- Control-key tag. -/
def ctlTag : Bytes := ['c'.toUInt8, 't'.toUInt8, 'l'.toUInt8]

/-- Lower-case hexadecimal. -/
def hexEncode (bytes : Bytes) : Bytes := bytes.flatMap hexByte

/-- A number in decimal, filled up with zeros on the left: `{n:0width$}`. -/
def zeroPadded (width n : Nat) : Bytes :=
  ((Nat.digits 10 n).reverse.map fun d ↦ '0'.toUInt8 + UInt8.ofNat d).leftpad width '0'.toUInt8

/-- The key under which a fix is written. -/
def fixKey (author : Bytes) (seq : Nat) : Bytes :=
  hexEncode author ++ keySep :: zeroPadded seqWidth seq

/-! ## The grammar -/

/-- `u8::is_ascii_hexdigit` -/
def isAsciiHexdigit (b : UInt8) : Bool :=
  isAsciiDigit b || (0x41 ≤ b && b ≤ 0x46) || (0x61 ≤ b && b ≤ 0x66)

/-- The number that decimal digits denote. -/
def decimalValue (ds : Bytes) : Nat :=
  Nat.ofDigits 10 (ds.reverse.map fun b ↦ (b - '0'.toUInt8).toNat)

/-- The key spells the fix: the author in hexadecimal of either case, at least one byte, then the
separator and twenty decimal digits. -/
def Spells (key : Bytes) (k : FixKey) : Prop :=
  ∃ hex digits, key = hex ++ keySep :: digits ∧
    (hex ≠ [] ∧ hex.length % 2 = 0 ∧ hex.all isAsciiHexdigit = true ∧
      hex.map toAsciiLower = hexEncode k.author) ∧
    digits.length = 20 ∧ digits.all isAsciiDigit = true ∧ decimalValue digits = k.seq ∧
      k.seq < 2 ^ 64

/-! ## Hexadecimal -/

theorem isAsciiHexdigit_iff : isAsciiHexdigit b = true ↔ ∃ d, toDigit16 b = some d := by
  rw [← Option.isSome_iff_exists, toDigit16, isAsciiHexdigit]
  split
  · next h => simp [h]
  · next h =>
    split
    · next h' => simp [h']
    · next h' =>
      split
      · next h'' => simp [h'']
      · next h'' => simp_all

/-- A hexadecimal digit is read as what its lower-case form stands for. -/
theorem toDigit16_of_lower (hb : isAsciiHexdigit b = true) (hd : d < 16)
    (h : toAsciiLower b = hexDigit d) : toDigit16 b = some d := by
  obtain ⟨d', hd'⟩ := isAsciiHexdigit_iff.mp hb
  obtain ⟨hlt, hlower⟩ := toDigit16_spec hd'
  have hsame : some d' = some d := by
    rw [← lowerHexVal_hexDigit hlt, ← lowerHexVal_hexDigit hd, ← hlower, h]
  rw [hd', hsame]

/-- **Hexadecimal, read and written.** -/
theorem hexDecodeLoop_eq_some_iff : hexDecodeLoop s = some author ↔
    s.length % 2 = 0 ∧ s.all isAsciiHexdigit = true ∧ s.map toAsciiLower = hexEncode author := by
  induction s using hexDecodeLoop.induct generalizing author with
  | case1 =>
    rw [hexDecodeLoop, Option.some_inj]
    cases author with
    | nil => simp [hexEncode]
    | cons a author => simp [hexEncode, hexByte]
  | case2 b => simp [hexDecodeLoop]
  | case3 b b' s ih =>
    have hlen : (b :: b' :: s).length % 2 = s.length % 2 := by
      rw [List.length_cons, List.length_cons]
      omega
    constructor
    · intro h
      obtain ⟨hi, lo, rest, hhi, hlo, hrest, rfl⟩ := hexDecodeLoop_cons h
      obtain ⟨heven, hall, hlower⟩ := ih.mp hrest
      obtain ⟨hlt, hbl⟩ := toDigit16_spec hhi
      obtain ⟨hlt', hbl'⟩ := toDigit16_spec hlo
      obtain ⟨hhi16, hlo16, hbyte⟩ := nibbles ((hi <<< 4) ||| lo)
      obtain ⟨hhi', hlo'⟩ := digits_of_byte hhi16 hlo16 hlt hlt' hbyte
      refine ⟨hlen.trans heven, ?_, ?_⟩
      · rw [List.all_cons, List.all_cons, isAsciiHexdigit_iff.mpr ⟨hi, hhi⟩,
          isAsciiHexdigit_iff.mpr ⟨lo, hlo⟩, hall, Bool.and_true, Bool.and_true]
      · rw [List.map_cons, List.map_cons, hbl, hbl', hlower, hexEncode, hexEncode,
          List.flatMap_cons, hexByte, hhi', hlo']
        rfl
    · rintro ⟨heven, hall, hlower⟩
      rw [List.all_cons, List.all_cons, Bool.and_eq_true, Bool.and_eq_true] at hall
      obtain ⟨hb, hb', hall⟩ := hall
      cases author with
      | nil => exact absurd hlower (by simp [hexEncode])
      | cons a author =>
        rw [List.map_cons, List.map_cons, hexEncode, List.flatMap_cons, hexByte,
          List.cons_append, List.cons_append, List.nil_append] at hlower
        obtain ⟨hbl, hrest⟩ := List.cons.inj hlower
        obtain ⟨hbl', hrest⟩ := List.cons.inj hrest
        obtain ⟨hhi16, hlo16, hbyte⟩ := nibbles a
        rw [hexDecodeLoop, toDigit16_of_lower hb hhi16 hbl, toDigit16_of_lower hb' hlo16 hbl',
          ih.mpr ⟨hlen.symm.trans heven, hall, hrest⟩]
        exact congrArg (fun b ↦ some (b :: author)) hbyte

/-! ## Decimals -/

@[simp] theorem decimalValue_nil : decimalValue [] = 0 := rfl

theorem decimalValue_cons : decimalValue (b :: ds) =
    (b - '0'.toUInt8).toNat * 10 ^ ds.length + decimalValue ds := by
  rw [decimalValue, List.reverse_cons, List.map_append, Nat.ofDigits_append, List.map_singleton,
    Nat.ofDigits_singleton, List.length_map, List.length_reverse, decimalValue]
  ring

/-- **Decimals, read.**  The digit loop fails on overflow only. -/
theorem parseDigits_of_digits (hall : ds.all isAsciiDigit = true) (hacc : acc ≤ u64Max) :
    parseDigits acc ds = if acc * 10 ^ ds.length + decimalValue ds ≤ u64Max then
      some (acc * 10 ^ ds.length + decimalValue ds) else none := by
  induction ds generalizing acc with
  | nil =>
    rw [parseDigits, List.length_nil, pow_zero, mul_one, decimalValue_nil, add_zero, if_pos hacc]
  | cons b ds ih =>
    rw [List.all_cons, Bool.and_eq_true] at hall
    have hvalue : acc * 10 ^ (b :: ds).length + decimalValue (b :: ds) =
        (acc * 10 + (b - '0'.toUInt8).toNat) * 10 ^ ds.length + decimalValue ds := by
      rw [decimalValue_cons, List.length_cons]
      ring
    rw [parseDigits, if_pos hall.1, hvalue]
    split
    · next hle => exact ih hall.2 hle
    · next hlt =>
      -- once too large, the number only grows
      have hgrow := Nat.le_mul_of_pos_right (acc * 10 + (b - '0'.toUInt8).toNat)
        (Nat.pow_pos (n := ds.length) (by decide : 0 < 10))
      refine (if_neg fun hle ↦ hlt ?_).symm
      exact (hgrow.trans (Nat.le_add_right _ _)).trans hle

theorem digitByte_spec {d : Nat} (hd : d < 10) :
    isAsciiDigit ('0'.toUInt8 + UInt8.ofNat d) = true ∧
      ('0'.toUInt8 + UInt8.ofNat d - '0'.toUInt8).toNat = d := by
  have hall : ∀ d : Fin 10, isAsciiDigit ('0'.toUInt8 + UInt8.ofNat d) = true ∧
      ('0'.toUInt8 + UInt8.ofNat d - '0'.toUInt8).toNat = d := by decide
  exact hall ⟨d, hd⟩

/-- **Decimals, written.**  A number that fits the width takes all of it. -/
theorem zeroPadded_spec (width : Nat) (hn : n < 10 ^ width) :
    (zeroPadded width n).length = width ∧ (zeroPadded width n).all isAsciiDigit = true ∧
      decimalValue (zeroPadded width n) = n := by
  have hdigit : ∀ d ∈ Nat.digits 10 n, d < 10 := fun d hd ↦ Nat.digits_lt_base (by decide) hd
  refine ⟨?_, ?_, ?_⟩
  · rw [zeroPadded, List.length_leftpad, List.length_map, List.length_reverse]
    exact max_eq_left ((Nat.digits_length_le_iff (by decide) n).mpr hn)
  · rw [zeroPadded, List.leftpad, List.all_append, Bool.and_eq_true, List.all_eq_true,
      List.all_eq_true]
    refine ⟨fun b hb ↦ ?_, fun b hb ↦ ?_⟩
    · rw [List.eq_of_mem_replicate hb]
      decide
    · obtain ⟨d, hd, rfl⟩ := List.mem_map.mp hb
      exact (digitByte_spec (hdigit d (List.mem_reverse.mp hd))).1
  · have hback : (Nat.digits 10 n).map (fun d ↦ ('0'.toUInt8 + UInt8.ofNat d - '0'.toUInt8).toNat) =
        Nat.digits 10 n := by
      conv_rhs => rw [← List.map_id (Nat.digits 10 n)]
      exact List.map_congr_left fun d hd ↦ (digitByte_spec (hdigit d hd)).2
    rw [decimalValue, zeroPadded, List.leftpad, List.reverse_append, List.reverse_replicate,
      List.map_append, List.map_replicate, ← List.map_reverse, List.reverse_reverse, List.map_map]
    have hzero : ('0'.toUInt8 - '0'.toUInt8).toNat = 0 := by decide
    rw [Function.comp_def, hback, hzero, Nat.ofDigits_append_replicate_zero, Nat.ofDigits_digits]

/-! ## The decoder and the grammar -/

theorem isAsciiHexdigit_of_digit (h : isAsciiDigit b = true) : isAsciiHexdigit b = true := by
  rw [isAsciiHexdigit, h, Bool.true_or, Bool.true_or]

/-- A hexadecimal digit is ASCII and no separator. -/
theorem ascii_of_hexdigit (h : isAsciiHexdigit b = true) : b < 0x80 ∧ b ≠ keySep :=
  forall_byte (P := fun b ↦ isAsciiHexdigit b = true → b < 0x80 ∧ b ≠ keySep)
    (by decide +kernel) b h

theorem fromUtf8_of_hexdigits (h : s.all isAsciiHexdigit = true) : fromUtf8 s = some s := by
  rw [fromUtf8, if_pos]
  exact validUtf8_of_ascii fun b hb ↦ (ascii_of_hexdigit (List.all_eq_true.mp h b hb)).1

theorem hexDecode_eq_some_iff : hexDecode s = some author ↔
    s.length % 2 = 0 ∧ s.all isAsciiHexdigit = true ∧ s.map toAsciiLower = hexEncode author := by
  rw [← hexDecodeLoop_eq_some_iff]
  refine ⟨hexDecode_eq_some, fun h ↦ ?_⟩
  rw [hexDecode, if_pos (hexDecodeLoop_eq_some_iff.mp h).1, h]

theorem findIdx?_keySep_eq_none (h : keySep ∉ s) : s.findIdx? (· == keySep) = none := by
  refine List.findIdx?_eq_none_iff.mpr fun b hb ↦ beq_eq_false_iff_ne.mpr ?_
  rintro rfl
  exact h hb

/-- The decoder on a key cut at its first separator. -/
theorem decodeFixKey_append {hex digits : Bytes} (hsep : keySep ∉ hex) :
    decodeFixKey (hex ++ keySep :: digits) = some k ↔
      hex ≠ [] ∧ hexDecode hex = some k.author ∧ digits.length = seqWidth ∧
        digits.all isAsciiDigit = true ∧ parseU64 digits = some k.seq := by
  have hpos : (hex ++ keySep :: digits).findIdx? (· == keySep) = some hex.length := by
    rw [List.findIdx?_append, findIdx?_keySep_eq_none hsep, List.findIdx?_cons,
      beq_self_eq_true]
    simp
  have htake : (hex ++ keySep :: digits).take hex.length = hex := List.take_left
  have hdrop : (hex ++ keySep :: digits).drop (hex.length + 1) = digits := by
    rw [← List.drop_drop, List.drop_left, List.drop_one, List.tail_cons]
  rw [decodeFixKey, hpos]
  simp only [Option.bind_eq_bind, Option.bind_some, htake, hdrop]
  constructor
  · intro hkey
    obtain ⟨authorHex, hhex, h⟩ := Option.bind_eq_some_iff.mp hkey
    rw [fromUtf8_eq_some hhex] at h
    split at h
    · exact absurd h (by simp)
    · next hshape =>
      simp only [Bool.or_eq_true, bne_iff_ne, Bool.not_eq_true', not_or, ne_eq, not_not,
        Bool.not_eq_false] at hshape
      obtain ⟨⟨hne, hlen⟩, hall⟩ := hshape
      obtain ⟨author, hauthor, h⟩ := Option.bind_eq_some_iff.mp h
      split at h
      · exact absurd h (by simp)
      · obtain ⟨seqStr, hstr, h⟩ := Option.bind_eq_some_iff.mp h
        rw [fromUtf8_eq_some hstr] at h
        obtain ⟨seq, hseq, h⟩ := Option.bind_eq_some_iff.mp h
        obtain rfl := Option.some.inj h
        exact ⟨by simpa using hne, hauthor, hlen, hall, hseq⟩
  · rintro ⟨hne, hauthor, hlen, hall, hseq⟩
    obtain ⟨-, hhexdigits, hlower⟩ := hexDecode_eq_some_iff.mp hauthor
    have hdigits : fromUtf8 digits = some digits := fromUtf8_of_hexdigits <|
      List.all_eq_true.mpr fun b hb ↦ isAsciiHexdigit_of_digit (List.all_eq_true.mp hall b hb)
    have hnonempty : k.author ≠ [] := by
      intro hnil
      rw [hnil] at hlower
      exact hne (List.map_eq_nil_iff.mp hlower)
    rw [fromUtf8_of_hexdigits hhexdigits, Option.bind_some, if_neg (by simp [hne, hlen, hall]),
      hauthor, Option.bind_some, if_neg (by simpa using hnonempty), hdigits, Option.bind_some,
      hseq]
    rfl

/-- **The decoder accepts exactly the grammar.** -/
theorem decodeFixKey_iff_spells : decodeFixKey key = some k ↔ Spells key k := by
  constructor
  · intro h
    have hmem : keySep ∈ key := by
      by_contra hnot
      rw [decodeFixKey, findIdx?_keySep_eq_none hnot] at h
      exact absurd h (by simp)
    obtain ⟨hex, digits, rfl, hsep⟩ := List.eq_append_cons_of_mem hmem
    obtain ⟨hne, hauthor, hlen, hall, hseq⟩ := (decodeFixKey_append hsep).mp h
    rw [parseU64_of_digits (by rw [hlen]; decide) hall, parseDigits_of_digits hall (Nat.zero_le _),
      Nat.zero_mul, Nat.zero_add] at hseq
    obtain ⟨heven, hhexdigits, hlower⟩ := hexDecode_eq_some_iff.mp hauthor
    split at hseq
    · next hle =>
      refine ⟨hex, digits, rfl, ⟨hne, heven, hhexdigits, hlower⟩, hlen, hall,
        Option.some.inj hseq, ?_⟩
      rw [← Option.some.inj hseq]
      exact Nat.lt_of_le_sub_one (by decide) hle
    · exact absurd hseq (by simp)
  · rintro ⟨hex, digits, rfl, ⟨hne, heven, hhexdigits, hlower⟩, hlen, hall, hvalue, hlt⟩
    have hle : k.seq ≤ u64Max := Nat.le_sub_one_of_lt hlt
    have hsep : keySep ∉ hex := fun hmem ↦
      (ascii_of_hexdigit (List.all_eq_true.mp hhexdigits _ hmem)).2 rfl
    refine (decodeFixKey_append hsep).mpr
      ⟨hne, hexDecode_eq_some_iff.mpr ⟨heven, hhexdigits, hlower⟩, hlen, hall, ?_⟩
    rw [parseU64_of_digits (by rw [hlen]; decide) hall, parseDigits_of_digits hall (Nat.zero_le _),
      Nat.zero_mul, Nat.zero_add, hvalue, if_pos hle]

/-! ## The decoder, read by read -/

/-- The loop of `hex_decode`, which reads the bytes at `i` and `i + 1`. -/
def hexDecodeLoopAt (b : Bytes) (i : Nat) (out : Bytes) : Except Panic (Option Bytes) :=
  if i < b.length then do
    match toDigit16 (← index b i) with
    | none => return none
    | some hi =>
      match toDigit16 (← index b (i + 1)) with
      | none => return none
      | some lo => hexDecodeLoopAt b (i + 2) (out ++ [(hi <<< 4) ||| lo])
  else return some out
termination_by b.length - i

/-- `hex_decode` with its reads. -/
def hexDecodeAt (s : Bytes) : Except Panic (Option Bytes) :=
  if s.length % 2 = 0 then hexDecodeLoopAt s 0 [] else return none

/-- `decode_fix_key` with its reads. -/
def decodeFixKeyAt (key : Bytes) : Except Panic (Option FixKey) := do
  match key.findIdx? (· == keySep) with
  | none => return none
  | some pos =>
    match fromUtf8 (← slice key 0 pos) with
    | none => return none
    | some authorHex =>
      let seqBytes ← slice key (pos + 1) key.length
      if authorHex.isEmpty || seqBytes.length != seqWidth || !seqBytes.all isAsciiDigit then
        return none
      else
        match ← hexDecodeAt authorHex with
        | none => return none
        | some author =>
          if author.isEmpty then return none
          else return (fromUtf8 seqBytes).bind fun seqStr ↦
            (parseU64 seqStr).bind fun seq ↦ some ⟨author, seq⟩

theorem hexDecodeLoopAt_eq {i : Nat} {out : Bytes} (heven : s.length % 2 = 0) (hi : i % 2 = 0) :
    hexDecodeLoopAt s i out = .ok ((hexDecodeLoop (s.drop i)).map (out ++ ·)) := by
  induction hm : s.length - i using Nat.strong_induction_on generalizing i out with
  | _ m ih =>
    rw [hexDecodeLoopAt]
    split
    · next hlt =>
      -- an even position is followed by another
      have hlt' : i + 1 < s.length := by omega
      have hdrop : s.drop i = s[i] :: s[i + 1] :: s.drop (i + 2) := by
        rw [List.drop_eq_getElem_cons hlt, List.drop_eq_getElem_cons hlt']
      rw [index_eq_ok hlt, index_eq_ok hlt', hdrop, hexDecodeLoop]
      simp only [ok_bind]
      cases hhi : toDigit16 s[i] with
      | none => rfl
      | some hi' =>
        cases hlo : toDigit16 s[i + 1] with
        | none => rfl
        | some lo =>
          dsimp only
          rw [ih (s.length - (i + 2)) (by omega) (by omega) rfl]
          cases hexDecodeLoop (s.drop (i + 2)) with
          | none => rfl
          | some rest => simp
    · next hge =>
      rw [List.drop_eq_nil_of_le (not_lt.mp hge), hexDecodeLoop, Option.map_some, List.append_nil]
      rfl

/-- **The digit loop stays within an even number of digits.** -/
theorem hexDecodeAt_eq (s : Bytes) : hexDecodeAt s = .ok (hexDecode s) := by
  rw [hexDecodeAt, hexDecode]
  split
  · next heven =>
    rw [hexDecodeLoopAt_eq heven rfl, List.drop_zero]
    simp
  · rfl

/-- **The decoder never reads out of bounds.** -/
theorem decodeFixKeyAt_eq (key : Bytes) : decodeFixKeyAt key = .ok (decodeFixKey key) := by
  rw [decodeFixKeyAt, decodeFixKey]
  cases hpos : key.findIdx? (· == keySep) with
  | none => rfl
  | some pos =>
    obtain ⟨hlt, -, -⟩ := List.findIdx?_eq_some_iff_getElem.mp hpos
    dsimp only
    rw [slice_eq_ok (Nat.zero_le _) hlt.le, slice_eq_ok hlt le_rfl, List.drop_zero,
      List.take_length]
    simp only [ok_bind, Option.bind_eq_bind, Option.bind_some]
    cases fromUtf8 (key.take pos) with
    | none => rfl
    | some authorHex =>
      simp only [Option.bind_some]
      split
      · rfl
      · rw [hexDecodeAt_eq, ok_bind]
        cases hexDecode authorHex with
        | none => rfl
        | some author =>
          simp only [Option.bind_some]
          split <;> rfl

/-! ## The main result -/

theorem toAsciiLower_hexDigit (h : d < 16) :
    toAsciiLower (hexDigit d) = hexDigit d ∧ isAsciiHexdigit (hexDigit d) = true :=
  forall_nibble (P := fun d ↦ toAsciiLower (hexDigit d) = hexDigit d ∧
    isAsciiHexdigit (hexDigit d) = true) (by decide) h

/-- The encoder writes pairs of lower-case digits. -/
theorem hexEncode_spec (author : Bytes) : (hexEncode author).length % 2 = 0 ∧
    (hexEncode author).all isAsciiHexdigit = true ∧
    (hexEncode author).map toAsciiLower = hexEncode author := by
  induction author with
  | nil => exact ⟨rfl, rfl, rfl⟩
  | cons a author ih =>
    obtain ⟨heven, hall, hlower⟩ := ih
    obtain ⟨hhi, hlo, -⟩ := nibbles a
    obtain ⟨hhi', hhidigit⟩ := toAsciiLower_hexDigit hhi
    obtain ⟨hlo', hlodigit⟩ := toAsciiLower_hexDigit hlo
    have hcons : hexEncode (a :: author) =
        hexDigit (a >>> 4) :: hexDigit (a &&& 0xf) :: hexEncode author := rfl
    rw [hcons]
    refine ⟨?_, ?_, ?_⟩
    · rw [List.length_cons, List.length_cons]
      omega
    · rw [List.all_cons, List.all_cons, hhidigit, hlodigit, hall, Bool.and_true, Bool.and_true]
    · rw [List.map_cons, List.map_cons, hhi', hlo', hlower]

/-- The encoder writes keys of the grammar. -/
theorem spells_fixKey {seq : Nat} (hauthor : author ≠ []) (hseq : seq < 2 ^ 64) :
    Spells (fixKey author seq) ⟨author, seq⟩ := by
  obtain ⟨heven, hall, hlower⟩ := hexEncode_spec author
  obtain ⟨hlen, hdigits, hvalue⟩ := zeroPadded_spec seqWidth (hseq.trans (by decide))
  refine ⟨hexEncode author, zeroPadded seqWidth seq, rfl, ⟨?_, heven, hall, hlower⟩, hlen, hdigits,
    hvalue, hseq⟩
  obtain ⟨a, rest, rfl⟩ := List.exists_cons_of_ne_nil hauthor
  exact List.cons_ne_nil _ _

/-- Twenty digits are determined by their value. -/
theorem zeroPadded_decimalValue (hlen : ds.length = 20) (hall : ds.all isAsciiDigit = true)
    (hlt : decimalValue ds < 2 ^ 64) : zeroPadded seqWidth (decimalValue ds) = ds := by
  obtain ⟨hlen', hall', hvalue⟩ :=
    zeroPadded_spec seqWidth (n := decimalValue ds) (hlt.trans (by decide))
  have hread : ∀ ds' : Bytes, ds'.all isAsciiDigit = true → decimalValue ds' = decimalValue ds →
      parseDigits 0 ds' = some (decimalValue ds) := by
    intro ds' hds' heq
    have hle : decimalValue ds ≤ u64Max := Nat.le_sub_one_of_lt hlt
    rw [parseDigits_of_digits hds' (Nat.zero_le _), Nat.zero_mul, Nat.zero_add, heq, if_pos hle]
  exact (eq_of_parseDigits (hlen'.trans hlen.symm) (hread _ hall' hvalue) (hread ds hall rfl)).2

/-- **The fix-key decoder.**  It accepts exactly the keys that spell a fix, and gives that fix.  It
reads back what the encoder writes; writing what it read gives the key again, with the author in
lower case.  It takes no control key, and it never reads out of bounds. -/
theorem decodeFixKey_grammar :
    (∀ key k, decodeFixKey key = some k ↔ Spells key k) ∧
    (∀ author seq, author ≠ [] → seq < 2 ^ 64 →
      decodeFixKey (fixKey author seq) = some ⟨author, seq⟩) ∧
    (∀ key k, decodeFixKey key = some k → ∃ hex digits, key = hex ++ keySep :: digits ∧
      keySep ∉ hex ∧ fixKey k.author k.seq = hex.map toAsciiLower ++ keySep :: digits) ∧
    (∀ rest, decodeFixKey (ctlTag ++ keySep :: rest) = none) ∧
    ∀ key, decodeFixKeyAt key = .ok (decodeFixKey key) := by
  refine ⟨fun key k ↦ decodeFixKey_iff_spells, fun author seq hauthor hseq ↦
    decodeFixKey_iff_spells.mpr (spells_fixKey hauthor hseq), fun key k h ↦ ?_, fun rest ↦ ?_,
    decodeFixKeyAt_eq⟩
  · obtain ⟨hex, digits, rfl, ⟨-, -, hhex, hlower⟩, hlen, hall, hvalue, hlt⟩ :=
      decodeFixKey_iff_spells.mp h
    refine ⟨hex, digits, rfl, fun hmem ↦ ?_, ?_⟩
    · exact (ascii_of_hexdigit (List.all_eq_true.mp hhex _ hmem)).2 rfl
    · rw [← hvalue] at hlt
      rw [fixKey, hlower, ← hvalue, zeroPadded_decimalValue hlen hall hlt]
  · cases hk : decodeFixKey (ctlTag ++ keySep :: rest) with
    | none => rfl
    | some k =>
      obtain ⟨-, hauthor, -⟩ := (decodeFixKey_append (by decide)).mp hk
      exact absurd hauthor (by simp [hexDecode, ctlTag])

/-- The largest sequence number of all takes twenty digits. -/
theorem decodeFixKey_grammar_max :
    decodeFixKey (fixKey [0xab, 0xcd] u64Max) = some ⟨[0xab, 0xcd], u64Max⟩ :=
  decodeFixKey_grammar.2.1 [0xab, 0xcd] u64Max (by decide) (by decide)

end TrailStash
