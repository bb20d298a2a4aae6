import TrailStash.Api
import TrailStash.FixKeys
import TrailStash.Utf8

/-!
# Namespace ids survive the wire

A namespace id goes out in a push payload as `namespaceHex` and comes back in a path, where
`parseNamespaceHex` reads it; `decodeHex32` is a second reader of the same format, for the secret
key.  `namespaceHex_wire` says that the readers agree, that they take the sixty-four lower-case
digits of some id and nothing else, and that reading and writing are inverse to each other.

Both readers check a length in bytes and then index bytes.  `parseNamespaceHexAt` and `decodeHex32`
have these reads written out, and none of them is out of bounds on any input, of several bytes to a
character or not.
-/

set_option autoImplicit false

namespace TrailStash

open Slices

variable {b d : UInt8} {s : Bytes} {out : Bytes} {text : String}

/-! ## The readers, read by read -/

/-- The loop `for i in 0..32`, from `i` on: byte `i` is made of two digits. -/
def hexPairsAt (digit : UInt8 → Option UInt8) (bytes : Bytes) (i : Nat) (out : Vector UInt8 32) :
    Except Panic (Option (Vector UInt8 32)) :=
  if h : i < 32 then do
    match digit (← index bytes (2 * i)) with
    | none => return none
    | some hi =>
      match digit (← index bytes (2 * i + 1)) with
      | none => return none
      | some lo => hexPairsAt digit bytes (i + 1) (out.set i ((hi <<< 4) ||| lo) h)
  else return some out
termination_by 32 - i

/-- `parse_namespace_hex` with its reads. -/
def parseNamespaceHexAt (s : Bytes) : Except Panic (Except ApiError NamespaceId) := do
  if s.length ≠ 64 then return .error .badNamespace
  else
    match ← hexPairsAt lowerHexVal s 0 (Vector.replicate 32 0) with
    | none => return .error .badNamespace
    | some out => return .ok out

/-- The digit reader of the binary. -/
def lowerHex (b : UInt8) : Option UInt8 :=
  if '0'.toUInt8 ≤ b && b ≤ '9'.toUInt8 then some (b - '0'.toUInt8)
  else if 'a'.toUInt8 ≤ b && b ≤ 'f'.toUInt8 then some (b - 'a'.toUInt8 + 10)
  else none

/-- `decode_hex_32`: exactly 32 bytes from 64 lower-case hex characters. -/
def decodeHex32 (s : Bytes) : Except Panic (Option (Vector UInt8 32)) :=
  if s.length ≠ 64 then return none else hexPairsAt lowerHex s 0 (Vector.replicate 32 0)

theorem hexPairsAt_eq {i : Nat} (out : Vector UInt8 32) (hs : s.length = 64) (hi : i ≤ 32) :
    ∃ r, hexPairsAt lowerHexVal s i out = .ok r ∧
      r.map Vector.toList = (parseHexPairs (s.drop (2 * i))).map (out.toList.take i ++ ·) := by
  induction hm : 32 - i using Nat.strong_induction_on generalizing i out with
  | _ m ih =>
    rw [hexPairsAt]
    split
    · next hlt =>
      have hdrop : s.drop (2 * i) = s[2 * i] :: s[2 * i + 1] :: s.drop (2 * (i + 1)) := by
        rw [List.drop_eq_getElem_cons (by omega), List.drop_eq_getElem_cons (by omega),
          Nat.mul_add]
      rw [index_eq_ok (by omega), index_eq_ok (by omega), hdrop, parseHexPairs]
      simp only [ok_bind]
      cases hhi : lowerHexVal s[2 * i] with
      | none => exact ⟨none, rfl, rfl⟩
      | some hi' =>
        cases hlo : lowerHexVal s[2 * i + 1] with
        | none => exact ⟨none, rfl, rfl⟩
        | some lo =>
          dsimp only
          obtain ⟨r, hr, hlist⟩ := ih (32 - (i + 1)) (by omega) (i := i + 1)
            (out.set i ((hi' <<< 4) ||| lo) hlt) hlt rfl
          refine ⟨r, hr, ?_⟩
          -- what is set is what is taken next
          have htake : (out.set i ((hi' <<< 4) ||| lo) hlt).toList.take (i + 1) =
              out.toList.take i ++ [(hi' <<< 4) ||| lo] := by
            rw [Vector.toList_set, List.take_succ_eq_append_getElem (by simpa using hlt),
              List.getElem_set_self, List.take_set_of_le le_rfl]
          rw [hlist, htake]
          cases parseHexPairs (s.drop (2 * (i + 1))) with
          | none => rfl
          | some rest => simp
    · next hge =>
      obtain rfl : i = 32 := by omega
      refine ⟨some out, rfl, ?_⟩
      rw [List.drop_eq_nil_of_le (by omega)]
      simp [parseHexPairs]

/-- The path parser on a text of the right length. -/
theorem parseNamespaceHex_of_length (hs : s.length = 64) {r : Option NamespaceId}
    (h : r.map Vector.toList = parseHexPairs s) :
    parseNamespaceHex s = r.elim (.error .badNamespace) .ok := by
  rw [parseNamespaceHex, dif_pos hs]
  split
  · next out hout =>
    obtain ⟨ns, rfl, rfl⟩ := Option.map_eq_some_iff.mp (h.trans hout)
    rfl
  · next hnone =>
    obtain rfl := Option.map_eq_none_iff.mp (h.trans hnone)
    rfl

/-- **The path parser never reads out of bounds.** -/
theorem parseNamespaceHexAt_eq (s : Bytes) :
    parseNamespaceHexAt s = .ok (parseNamespaceHex s) := by
  rw [parseNamespaceHexAt]
  by_cases hs : s.length = 64
  · obtain ⟨r, hr, hlist⟩ := hexPairsAt_eq (Vector.replicate 32 0) hs (Nat.zero_le 32)
    rw [if_neg (not_not.mpr hs), hr, ok_bind,
      parseNamespaceHex_of_length (r := r) hs (by rw [hlist]; simp)]
    cases r <;> rfl
  · rw [if_pos hs, parseNamespaceHex, dif_neg hs]
    rfl

/-- The binary reads what the path parser reads. -/
theorem decodeHex32_eq (s : Bytes) : decodeHex32 s = .ok (parseNamespaceHex s).toOption := by
  have hdigit : lowerHex = lowerHexVal := rfl
  rw [decodeHex32, hdigit]
  by_cases hs : s.length = 64
  · obtain ⟨r, hr, hlist⟩ := hexPairsAt_eq (Vector.replicate 32 0) hs (Nat.zero_le 32)
    rw [if_neg (not_not.mpr hs), hr,
      parseNamespaceHex_of_length (r := r) hs (by rw [hlist]; simp)]
    cases r <;> rfl
  · rw [if_pos hs, parseNamespaceHex, dif_neg hs]
    rfl

/-! ## What is read -/

/-- One of `0`, …, `9`, `a`, …, `f`. -/
def isLowerHex (b : UInt8) : Bool :=
  ('0'.toUInt8 ≤ b && b ≤ '9'.toUInt8) || ('a'.toUInt8 ≤ b && b ≤ 'f'.toUInt8)

/-- What a byte that is read as a digit looks like. -/
theorem lowerHexVal_spec (b : UInt8) :
    if isLowerHex b then ∃ d, lowerHexVal b = some d ∧ d < 16 ∧ hexDigit d = b
    else lowerHexVal b = none := by
  obtain ⟨hsome, hvalue⟩ := forall_byte (P := fun b ↦ (lowerHexVal b).isSome = isLowerHex b ∧
    (lowerHexVal b).all (fun d ↦ d < 16 && hexDigit d == b) = true) (by decide +kernel) b
  rw [← hsome]
  cases hd : lowerHexVal b with
  | none => simp
  | some d =>
    rw [hd, Option.all_some, Bool.and_eq_true, decide_eq_true_eq, beq_iff_eq] at hvalue
    simpa using hvalue

/-- A byte made of two digits is written as these. -/
theorem hexByte_of_digits {hi lo : UInt8} (hhi : hi < 16) (hlo : lo < 16) :
    hexByte ((hi <<< 4) ||| lo) = [hexDigit hi, hexDigit lo] := by
  obtain ⟨hhi16, hlo16, hbyte⟩ := nibbles ((hi <<< 4) ||| lo)
  obtain ⟨hhi', hlo'⟩ := digits_of_byte hhi16 hlo16 hhi hlo hbyte
  rw [hexByte, hhi', hlo']

/-- **Pairs of digits, read and written.** -/
theorem parseHexPairs_spec (hs : s.length % 2 = 0) :
    if s.all isLowerHex then ∃ out, parseHexPairs s = some out ∧ out.flatMap hexByte = s
    else parseHexPairs s = none := by
  induction s using parseHexPairs.induct with
  | case1 hi lo s ih =>
    have heven : s.length % 2 = 0 := by
      rw [List.length_cons, List.length_cons] at hs
      omega
    have hspec := ih heven
    have hhi := lowerHexVal_spec hi
    have hlo := lowerHexVal_spec lo
    rw [List.all_cons, List.all_cons, parseHexPairs]
    split at hhi
    · next hhidigit =>
      obtain ⟨hi', hhi', hlt, rfl⟩ := hhi
      rw [hhidigit, hhi', Bool.true_and]
      split at hlo
      · next hlodigit =>
        obtain ⟨lo', hlo', hlt', rfl⟩ := hlo
        rw [hlodigit, hlo', Bool.true_and]
        split at hspec
        · next hrest =>
          obtain ⟨out, hout, hwritten⟩ := hspec
          rw [if_pos hrest, hout]
          refine ⟨_, rfl, ?_⟩
          rw [List.flatMap_cons, hexByte_of_digits hlt hlt', hwritten]
          rfl
        · next hrest =>
          rw [if_neg hrest, hspec]
          rfl
      · next hlodigit =>
        rw [if_neg (by simp [hlodigit]), hlo]
        rfl
    · next hhidigit =>
      rw [if_neg (by simp [hhidigit]), hhi]
      rfl
  | case2 s hshort =>
    rcases s with _ | ⟨hi, _ | ⟨lo, s⟩⟩
    · exact ⟨[], rfl, rfl⟩
    · simp at hs
    · exact absurd rfl (hshort hi lo s)

theorem parseNamespaceHex_eq_ok {ns : NamespaceId} (h : parseNamespaceHex s = .ok ns) :
    s.length = 64 ∧ parseHexPairs s = some ns.toList := by
  rw [parseNamespaceHex] at h
  split at h
  · next hs =>
    refine ⟨hs, ?_⟩
    split at h
    · next out hout =>
      obtain rfl := Except.ok.inj h
      exact hout
    · exact absurd h (by simp)
  · exact absurd h (by simp)

/-- **What the path parser accepts.** -/
theorem exists_parseNamespaceHex_iff :
    (∃ ns, parseNamespaceHex s = .ok ns) ↔ s.length = 64 ∧ s.all isLowerHex = true := by
  constructor
  · rintro ⟨ns, h⟩
    obtain ⟨hs, hpairs⟩ := parseNamespaceHex_eq_ok h
    refine ⟨hs, ?_⟩
    have hspec := parseHexPairs_spec (s := s) (by omega)
    split at hspec
    · next hall => exact hall
    · exact absurd (hpairs.symm.trans hspec) (by simp)
  · rintro ⟨hs, hall⟩
    have hspec := parseHexPairs_spec (s := s) (by omega)
    rw [if_pos hall] at hspec
    obtain ⟨out, hout, -⟩ := hspec
    have hlen : out.length = 32 := by rw [length_parseHexPairs hout, hs]
    exact ⟨⟨out.toArray, hlen⟩, parseNamespaceHex_of_length (r := some ⟨out.toArray, hlen⟩) hs
      hout.symm⟩

theorem lt_of_isLowerHex (h : isLowerHex b = true) : b < 0x80 :=
  forall_byte (P := fun b ↦ isLowerHex b = true → b < 0x80) (by decide +kernel) b h

/-- One of `0`, …, `9`, `a`, …, `f`, as a character. -/
def IsLowerHexChar (c : Char) : Prop := ('0' ≤ c ∧ c ≤ '9') ∨ ('a' ≤ c ∧ c ≤ 'f')

instance : DecidablePred IsLowerHexChar := fun c ↦
  inferInstanceAs (Decidable (('0' ≤ c ∧ c ≤ '9') ∨ ('a' ≤ c ∧ c ≤ 'f')))

theorem isLowerHexChar_iff {c : Char} (h : c.toNat < 0x80) :
    IsLowerHexChar c ↔ isLowerHex (UInt8.ofNat c.toNat) = true := by
  have hall : ∀ n : Fin 128, IsLowerHexChar (Char.ofNat n) ↔ isLowerHex (UInt8.ofNat n) = true := by
    decide +kernel
  have hc := hall ⟨c.toNat, h⟩
  rwa [Char.ofNat_toNat] at hc

theorem IsLowerHexChar.ascii {c : Char} (h : IsLowerHexChar c) : c.toNat < 0x80 := by
  rcases h with h | h
  · exact (Char.le_def.mp h.2).trans_lt (by decide)
  · exact (Char.le_def.mp h.2).trans_lt (by decide)

/-- Sixty-four digits, counted in characters. -/
theorem lowerHex_asBytes_iff : (asBytes text).length = 64 ∧ (asBytes text).all isLowerHex = true ↔
    text.toList.length = 64 ∧ ∀ c ∈ text.toList, IsLowerHexChar c := by
  have hmap : ∀ l : List Char, (l.map fun c ↦ UInt8.ofNat c.toNat).all isLowerHex = true ↔
      ∀ c ∈ l, isLowerHex (UInt8.ofNat c.toNat) = true := by simp
  constructor
  · rintro ⟨hlen, hall⟩
    have hascii : ∀ c ∈ text.toList, c.toNat < 0x80 := fun c hc ↦
      ascii_of_asBytes (fun b hb ↦ lt_of_isLowerHex (List.all_eq_true.mp hall b hb)) hc
    rw [asBytes_ascii hascii] at hlen hall
    exact ⟨by rwa [List.length_map] at hlen,
      fun c hc ↦ (isLowerHexChar_iff (hascii c hc)).mpr ((hmap _).mp hall c hc)⟩
  · rintro ⟨hlen, hall⟩
    have hascii : ∀ c ∈ text.toList, c.toNat < 0x80 := fun c hc ↦ (hall c hc).ascii
    rw [asBytes_ascii hascii]
    exact ⟨by rwa [List.length_map],
      (hmap _).mpr fun c hc ↦ (isLowerHexChar_iff (hascii c hc)).mp (hall c hc)⟩

/-! ## The main result -/

/-- **Namespace ids survive the wire.**  An id is read back from what is written for it.  What is
read is sixty-four digits `0`, …, `9`, `a`, …, `f`, counted in bytes or in characters, and writing
gives them again.  The binary's reader agrees, and neither reads out of bounds. -/
theorem namespaceHex_wire :
    (∀ ns, parseNamespaceHex (namespaceHex ns) = .ok ns) ∧
    (∀ s, (∃ ns, parseNamespaceHex s = .ok ns) ↔ s.length = 64 ∧ s.all isLowerHex = true) ∧
    (∀ text : String, (∃ ns, parseNamespaceHex (asBytes text) = .ok ns) ↔
      text.toList.length = 64 ∧ ∀ c ∈ text.toList, IsLowerHexChar c) ∧
    (∀ s ns, parseNamespaceHex s = .ok ns → namespaceHex ns = s) ∧
    (∀ s, parseNamespaceHexAt s = .ok (parseNamespaceHex s)) ∧
    ∀ s, ∃ r, decodeHex32 s = .ok r ∧ ∀ b, r = some b ↔ parseNamespaceHex s = .ok b := by
  refine ⟨parseNamespaceHex_namespaceHex, fun s ↦ exists_parseNamespaceHex_iff,
    fun text ↦ exists_parseNamespaceHex_iff.trans lowerHex_asBytes_iff, fun s ns h ↦ ?_,
    parseNamespaceHexAt_eq, fun s ↦ ⟨_, decodeHex32_eq s, fun b ↦ ?_⟩⟩
  · obtain ⟨hs, hpairs⟩ := parseNamespaceHex_eq_ok h
    have hspec := parseHexPairs_spec (s := s) (by omega)
    split at hspec
    · obtain ⟨out, hout, hwritten⟩ := hspec
      obtain rfl : ns.toList = out := Option.some.inj (hpairs.symm.trans hout)
      exact hwritten
    · next hnone => exact absurd (hpairs.symm.trans hspec) (by simp)
  · cases parseNamespaceHex s <;> simp [Except.toOption]

/-- A character of two bytes is no digit. -/
example : decodeHex32 (asBytes "é") = .ok none := by decide

end TrailStash
