import TrailStash.Retention

/-!
# What a fix key spells

A fix key is the author in hexadecimal, a slash, and the sequence number in twenty decimal digits.
The decoder reads hexadecimal digits of either case, so a fix can be spelled in several ways; but
two keys that spell the same fix differ in the case of these digits only
(`sameButCase_of_decodeFixKey`).
-/

set_option autoImplicit false

namespace TrailStash

/-- `u8::to_ascii_lowercase` -/
def toAsciiLower (b : UInt8) : UInt8 := if 0x41 ≤ b && b ≤ 0x5A then b + 0x20 else b

/-- Two byte strings that differ in the case of ASCII letters at most. -/
def SameButCase (k k' : Bytes) : Prop := k.map toAsciiLower = k'.map toAsciiLower

instance (k k' : Bytes) : Decidable (SameButCase k k') :=
  inferInstanceAs (Decidable (_ = _))

variable {b b' d d' : UInt8} {s s' ds ds' out : Bytes} {acc acc' v : Nat} {key key' : Bytes}
  {k : FixKey}

/-! ## Digits -/

/-- What a byte that is read as a digit looks like. -/
theorem toDigit16_spec (h : toDigit16 b = some d) : d < 16 ∧ toAsciiLower b = hexDigit d := by
  have hb : (toDigit16 b).all (fun d ↦ d < 16 && toAsciiLower b == hexDigit d) = true :=
    forall_byte (P := fun b ↦ (toDigit16 b).all
      (fun d ↦ d < 16 && toAsciiLower b == hexDigit d) = true) (by decide +kernel) b
  simpa [h] using hb

/-- A byte made of two digits determines them. -/
theorem digits_of_byte (hd : d < 16) (hb : b < 16) (hd' : d' < 16) (hb' : b' < 16)
    (h : (d <<< 4) ||| b = (d' <<< 4) ||| b') : d = d' ∧ b = b' := by
  have hvalue : ∀ {u v : UInt8}, u < 16 → v < 16 →
      ((u <<< 4) ||| v).toNat = u.toNat * 16 + v.toNat := by
    intro u v hu hv
    have hu' : u.toNat < 16 := UInt8.lt_iff_toNat_lt.mp hu
    have hv' : v.toNat < 2 ^ 4 := UInt8.lt_iff_toNat_lt.mp hv
    have hshift : (u <<< 4).toNat = u.toNat <<< 4 := by
      simp [UInt8.toNat_shiftLeft, Nat.shiftLeft_eq]
      omega
    rw [UInt8.toNat_or, hshift, ← Nat.shiftLeft_add_eq_or_of_lt hv', Nat.shiftLeft_eq]
  have heq := congrArg UInt8.toNat h
  rw [hvalue hd hb, hvalue hd' hb'] at heq
  have hlt : b.toNat < 16 := UInt8.lt_iff_toNat_lt.mp hb
  have hlt' : b'.toNat < 16 := UInt8.lt_iff_toNat_lt.mp hb'
  rw [← UInt8.toNat_inj, ← UInt8.toNat_inj]
  omega

/-- One pair of digits and the rest. -/
theorem hexDecodeLoop_cons (h : hexDecodeLoop (b :: b' :: s) = some out) :
    ∃ hi lo rest, toDigit16 b = some hi ∧ toDigit16 b' = some lo ∧ hexDecodeLoop s = some rest ∧
      out = ((hi <<< 4) ||| lo) :: rest := by
  simp only [hexDecodeLoop, Option.bind_eq_bind, Option.bind_eq_some_iff, Option.some_inj] at h
  obtain ⟨hi, hhi, lo, hlo, rest, hrest, rfl⟩ := h
  exact ⟨hi, lo, rest, hhi, hlo, hrest, rfl⟩

/-- **Hexadecimal is read one way**, up to the case of the digits. -/
theorem sameButCase_of_hexDecodeLoop (h : hexDecodeLoop s = some out)
    (h' : hexDecodeLoop s' = some out) : SameButCase s s' := by
  induction s using hexDecodeLoop.induct generalizing s' out with
  | case1 =>
    obtain rfl : [] = out := Option.some.inj h
    match s', h' with
    | [], _ => rfl
    | _ :: _ :: _, h' =>
      obtain ⟨_, _, _, _, _, _, hout⟩ := hexDecodeLoop_cons h'
      exact absurd hout (by simp)
  | case2 => exact absurd h (by simp [hexDecodeLoop])
  | case3 b₁ b₂ s ih =>
    obtain ⟨hi, lo, rest, hhi, hlo, hrest, rfl⟩ := hexDecodeLoop_cons h
    match s', h' with
    | [], h' => exact absurd h' (by simp [hexDecodeLoop])
    | c₁ :: c₂ :: s', h' =>
      obtain ⟨hi', lo', rest', hhi', hlo', hrest', hout⟩ := hexDecodeLoop_cons h'
      obtain ⟨hbyte, rfl⟩ := List.cons.inj hout
      obtain ⟨hlt, hlower⟩ := toDigit16_spec hhi
      obtain ⟨hlt₂, hlower₂⟩ := toDigit16_spec hlo
      obtain ⟨hlt', hlower'⟩ := toDigit16_spec hhi'
      obtain ⟨hlt₂', hlower₂'⟩ := toDigit16_spec hlo'
      obtain ⟨rfl, rfl⟩ := digits_of_byte hlt hlt₂ hlt' hlt₂' hbyte
      have htail : s.map toAsciiLower = s'.map toAsciiLower := ih hrest hrest'
      rw [SameButCase, List.map_cons, List.map_cons, List.map_cons, List.map_cons, hlower, hlower₂,
        hlower', hlower₂', htail]

/-- A decimal digit is read as a number up to nine, which it is determined by. -/
theorem toNat_digit (h : isAsciiDigit b = true) :
    (b - 0x30).toNat ≤ 9 ∧ (b - 0x30).toNat + 0x30 = b.toNat := by
  rw [isAsciiDigit, Bool.and_eq_true, decide_eq_true_iff, decide_eq_true_iff] at h
  have hlow : 0x30 ≤ b.toNat := UInt8.le_iff_toNat_le.mp h.1
  have hhigh : b.toNat ≤ 0x39 := UInt8.le_iff_toNat_le.mp h.2
  have hsub : (b - 0x30).toNat = b.toNat - 0x30 := UInt8.toNat_sub_of_le _ _ h.1
  omega

theorem parseDigits_cons (h : parseDigits acc (b :: ds) = some v) :
    isAsciiDigit b = true ∧ parseDigits (acc * 10 + (b - 0x30).toNat) ds = some v := by
  rw [parseDigits] at h
  split at h
  · next hb =>
    split at h
    · exact ⟨hb, h⟩
    · exact absurd h (by simp)
  · exact absurd h (by simp)

/-- **Decimal digits are read one way**, if there are equally many. -/
theorem eq_of_parseDigits (hlen : ds.length = ds'.length) (h : parseDigits acc ds = some v)
    (h' : parseDigits acc' ds' = some v) : acc = acc' ∧ ds = ds' := by
  induction ds generalizing acc acc' ds' with
  | nil =>
    obtain rfl : ds' = [] := List.length_eq_zero_iff.mp hlen.symm
    exact ⟨(Option.some.inj h).trans (Option.some.inj h').symm, rfl⟩
  | cons b ds ih =>
    match ds', hlen, h' with
    | b' :: ds', hlen, h' =>
      obtain ⟨hb, hrest⟩ := parseDigits_cons h
      obtain ⟨hb', hrest'⟩ := parseDigits_cons h'
      obtain ⟨hacc, rfl⟩ := ih (Nat.succ.inj hlen) hrest hrest'
      obtain ⟨hle, hsum⟩ := toNat_digit hb
      obtain ⟨hle', hsum'⟩ := toNat_digit hb'
      have hdigit : b.toNat = b'.toNat := by omega
      refine ⟨by omega, ?_⟩
      rw [UInt8.toNat_inj.mp hdigit]

/-! ## Keys -/

theorem fromUtf8_eq_some (h : fromUtf8 s = some s') : s' = s := by
  rw [fromUtf8] at h
  split at h
  · exact (Option.some.inj h).symm
  · exact absurd h (by simp)

theorem hexDecode_eq_some (h : hexDecode s = some out) : hexDecodeLoop s = some out := by
  rw [hexDecode] at h
  split at h
  · exact h
  · exact absurd h (by simp)

/-- Digits only are read without a sign. -/
theorem parseU64_of_digits (hlen : 2 ≤ ds.length) (hall : ds.all isAsciiDigit = true) :
    parseU64 ds = parseDigits 0 ds := by
  match ds, hlen with
  | b :: b' :: ds, _ =>
    have hb : isAsciiDigit b = true := List.all_eq_true.mp hall b List.mem_cons_self
    have hplus : b ≠ '+'.toUInt8 := by
      rintro rfl
      exact absurd hb (by decide)
    rw [parseU64, if_neg hplus]
    exact nofun

/-- A key that decodes, taken apart. -/
theorem decodeFixKey_eq_some (h : decodeFixKey key = some k) :
    ∃ hex digits, key = hex ++ keySep :: digits ∧ hexDecodeLoop hex = some k.author ∧
      digits.length = seqWidth ∧ parseDigits 0 digits = some k.seq := by
  simp only [decodeFixKey, Option.bind_eq_bind, Option.bind_eq_some_iff] at h
  obtain ⟨pos, hpos, authorHex, hhex, h⟩ := h
  obtain rfl := fromUtf8_eq_some hhex
  split at h
  · exact absurd h (by simp)
  · next hshape =>
    simp only [Bool.or_eq_true, bne_iff_ne, Bool.not_eq_true', not_or, ne_eq, not_not,
      Bool.not_eq_false] at hshape
    obtain ⟨⟨-, hlen⟩, hall⟩ := hshape
    obtain ⟨author, hauthor, h⟩ := Option.bind_eq_some_iff.mp h
    split at h
    · exact absurd h (by simp)
    · obtain ⟨seqStr, hstr, h⟩ := Option.bind_eq_some_iff.mp h
      obtain rfl := fromUtf8_eq_some hstr
      obtain ⟨seq, hseq, h⟩ := Option.bind_eq_some_iff.mp h
      obtain rfl := Option.some.inj h
      -- the slash is where the search stopped
      obtain ⟨hlt, hsep, -⟩ := List.findIdx?_eq_some_iff_getElem.mp hpos
      have hkey : key = key.take pos ++ keySep :: key.drop (pos + 1) := by
        rw [← beq_iff_eq.mp hsep, ← List.drop_eq_getElem_cons hlt, List.take_append_drop]
      refine ⟨_, _, hkey, hexDecode_eq_some hauthor, hlen, ?_⟩
      rw [← parseU64_of_digits (by rw [hlen]; decide) hall]
      exact hseq

/-- **Two keys of one fix** differ in the case of letters only. -/
theorem sameButCase_of_decodeFixKey (h : decodeFixKey key = some k)
    (h' : decodeFixKey key' = some k) : SameButCase key key' := by
  obtain ⟨hex, digits, rfl, hauthor, hlen, hseq⟩ := decodeFixKey_eq_some h
  obtain ⟨hex', digits', rfl, hauthor', hlen', hseq'⟩ := decodeFixKey_eq_some h'
  have hhex : hex.map toAsciiLower = hex'.map toAsciiLower :=
    sameButCase_of_hexDecodeLoop hauthor hauthor'
  obtain ⟨-, rfl⟩ := eq_of_parseDigits (hlen.trans hlen'.symm) hseq hseq'
  rw [SameButCase, List.map_append, List.map_append, hhex]

end TrailStash
