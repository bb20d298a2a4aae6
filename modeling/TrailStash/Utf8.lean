import TrailStash.Lib.Slice
import TrailStash.Retention

/-!
# The bytes of a text

A `str` is handled byte by byte in many places, and is a sequence of characters for a reader.
`asBytes` is the passage from one to the other.  The ASCII characters are those whose encoding is
one byte below `0x80`; every byte of any other character is above.
-/

set_option autoImplicit false

namespace TrailStash

variable {b : UInt8} {s : Bytes} {text : String} {c : Char}

/-- `str::as_bytes` -/
def asBytes (text : String) : Bytes := text.toList.flatMap String.utf8EncodeChar

/-- Two texts with the same bytes are the same. -/
theorem asBytes_inj {text text' : String} (h : asBytes text = asBytes text') : text = text' := by
  rw [← String.toByteArray_inj, ← String.ofList_toList (s := text),
    ← String.ofList_toList (s := text'), String.toByteArray_ofList, String.toByteArray_ofList,
    List.utf8Encode, List.utf8Encode]
  exact congrArg List.toByteArray h

theorem asBytes_append (text text' : String) :
    asBytes (text ++ text') = asBytes text ++ asBytes text' := by
  rw [asBytes, asBytes, asBytes, String.toList_append, List.flatMap_append]

/-! ## ASCII -/

theorem utf8EncodeChar_ascii (h : c.toNat < 0x80) :
    String.utf8EncodeChar c = [UInt8.ofNat c.toNat] := by
  rw [String.utf8EncodeChar]
  exact if_pos (Nat.le_of_lt_succ h)

/-- Two numbers that make a byte of a longer encoding. -/
theorem le_encodedByte {low high : Nat} (h : 0x80 ≤ high) (hlt : low + high < 256) :
    (0x80 : UInt8) ≤ UInt8.ofNat (low + high) := by
  rw [UInt8.le_iff_toNat_le, UInt8.toNat_ofNat_of_lt' hlt]
  exact h.trans (Nat.le_add_left _ _)

/-- No byte of a character that is not ASCII is. -/
theorem le_of_mem_utf8EncodeChar (h : 0x80 ≤ c.toNat) (hb : b ∈ String.utf8EncodeChar c) :
    0x80 ≤ b := by
  have hlarge : ¬ c.val.toNat ≤ 0x7f := Nat.not_le.mpr h
  rw [String.utf8EncodeChar, if_neg hlarge] at hb
  split at hb
  · simp only [List.mem_cons, List.not_mem_nil, or_false] at hb
    rcases hb with rfl | rfl <;> exact le_encodedByte (by decide) (by omega)
  · split at hb
    · simp only [List.mem_cons, List.not_mem_nil, or_false] at hb
      rcases hb with rfl | rfl | rfl <;> exact le_encodedByte (by decide) (by omega)
    · simp only [List.mem_cons, List.not_mem_nil, or_false] at hb
      rcases hb with rfl | rfl | rfl | rfl <;> exact le_encodedByte (by decide) (by omega)

theorem utf8EncodeChar_ne_nil (c : Char) : String.utf8EncodeChar c ≠ [] := by
  refine List.ne_nil_of_length_pos ?_
  rw [String.length_utf8EncodeChar]
  exact c.utf8Size_pos

/-- A text of ASCII characters is these characters, byte by byte. -/
theorem asBytes_ascii (h : ∀ c ∈ text.toList, c.toNat < 0x80) :
    asBytes text = text.toList.map fun c ↦ UInt8.ofNat c.toNat := by
  rw [asBytes, ← List.flatMap_singleton' (text.toList.map fun c ↦ UInt8.ofNat c.toNat),
    List.flatMap_map]
  exact List.flatMap_congr fun c hc ↦ utf8EncodeChar_ascii (h c hc)

/-- If all bytes of a text are ASCII, so are its characters. -/
theorem ascii_of_asBytes (h : ∀ b ∈ asBytes text, b < 0x80) (hc : c ∈ text.toList) :
    c.toNat < 0x80 := by
  by_contra hlarge
  obtain ⟨b, hb⟩ : ∃ b, b ∈ String.utf8EncodeChar c :=
    List.exists_mem_of_ne_nil _ (utf8EncodeChar_ne_nil c)
  have hmem : b ∈ asBytes text := List.mem_flatMap.mpr ⟨c, hc, hb⟩
  exact absurd (h b hmem) (UInt8.not_lt.mpr (le_of_mem_utf8EncodeChar (not_lt.mp hlarge) hb))

/-- A byte string of ASCII only is UTF-8. -/
theorem validUtf8_of_ascii (h : ∀ b ∈ s, b < 0x80) : validUtf8 s = true := by
  induction s with
  | nil => rfl
  | cons b s ih =>
    unfold validUtf8
    rw [if_pos (h b List.mem_cons_self)]
    exact ih fun b' hb' ↦ h b' (List.mem_cons_of_mem b hb')

/-! ## Pieces of texts -/

/-- The bytes are those of a text. -/
def IsText (s : Bytes) : Prop := ∃ cs : List Char, cs.flatMap String.utf8EncodeChar = s

theorem isText_asBytes (text : String) : IsText (asBytes text) := ⟨text.toList, rfl⟩

theorem IsText.exists_asBytes (h : IsText s) : ∃ text, asBytes text = s := by
  obtain ⟨cs, rfl⟩ := h
  exact ⟨String.ofList cs, by rw [asBytes, String.toList_ofList]⟩

theorem IsText.append {s' : Bytes} (h : IsText s) (h' : IsText s') : IsText (s ++ s') := by
  obtain ⟨cs, rfl⟩ := h
  obtain ⟨cs', rfl⟩ := h'
  exact ⟨cs ++ cs', List.flatMap_append⟩

/-- **On either side of an ASCII byte there is a text.** -/
theorem IsText.split {u v : Bytes} (h : IsText (u ++ b :: v)) (hb : b < 0x80) :
    IsText u ∧ IsText v := by
  obtain ⟨cs, hcs⟩ := h
  induction cs generalizing u with
  | nil => exact absurd hcs (by simp)
  | cons c cs ih =>
    rw [List.flatMap_cons] at hcs
    by_cases hc : c.toNat < 0x80
    · rw [utf8EncodeChar_ascii hc, List.singleton_append] at hcs
      cases u with
      | nil => exact ⟨⟨[], rfl⟩, ⟨cs, (List.cons.inj hcs).2⟩⟩
      | cons x u =>
        obtain ⟨rfl, hrest⟩ := List.cons.inj hcs
        obtain ⟨hu, hv⟩ := ih hrest
        refine ⟨IsText.append (s := [_]) ⟨[c], ?_⟩ hu, hv⟩
        rw [List.flatMap_singleton, utf8EncodeChar_ascii hc]
    · -- the byte is not one of this character
      have hnot : ∀ x ∈ String.utf8EncodeChar c, 0x80 ≤ x := fun x hx ↦
        le_of_mem_utf8EncodeChar (not_lt.mp hc) hx
      rcases List.append_eq_append_iff.mp hcs with ⟨u', rfl, hrest⟩ | ⟨w, hw, hrest⟩
      · obtain ⟨hu, hv⟩ := ih hrest
        exact ⟨IsText.append ⟨[c], by rw [List.flatMap_singleton]⟩ hu, hv⟩
      · rcases w with - | ⟨x, w⟩
        · rw [List.append_nil] at hw
          obtain ⟨-, hv⟩ := ih (u := []) hrest.symm
          exact ⟨⟨[c], by rw [List.flatMap_singleton, hw]⟩, hv⟩
        · obtain ⟨rfl, -⟩ := List.cons.inj hrest
          refine absurd hb (UInt8.not_lt.mpr (hnot b ?_))
          rw [hw]
          exact List.mem_append_right u List.mem_cons_self

theorem notContinuation_of_lt {n : Nat} (h : n < 0x80) :
    Slices.isContinuation (UInt8.ofNat n) = false := by
  have hlow : ¬ (0x80 : UInt8) ≤ UInt8.ofNat n := by
    rw [UInt8.le_iff_toNat_le, UInt8.toNat_ofNat_of_lt' (h.trans (by decide))]
    exact not_le.mpr h
  rw [Slices.isContinuation, decide_eq_false hlow, Bool.false_and]

theorem notContinuation_of_ge {low high : Nat} (h : 0xC0 ≤ high) (hlt : low + high < 256) :
    Slices.isContinuation (UInt8.ofNat (low + high)) = false := by
  have hhigh : ¬ UInt8.ofNat (low + high) < (0xC0 : UInt8) := by
    rw [UInt8.lt_iff_toNat_lt, UInt8.toNat_ofNat_of_lt' hlt]
    exact not_lt.mpr (h.trans (Nat.le_add_left _ _))
  rw [Slices.isContinuation, decide_eq_false hhigh, Bool.and_false]

/-- No text begins with a byte that continues a character. -/
theorem IsText.head_not_continuation {v : Bytes} (h : IsText (b :: v)) :
    Slices.isContinuation b = false := by
  obtain ⟨cs, hcs⟩ := h
  rcases cs with - | ⟨c, cs⟩
  · exact absurd hcs (by simp)
  · rw [List.flatMap_cons] at hcs
    by_cases hc : c.toNat < 0x80
    · rw [utf8EncodeChar_ascii hc] at hcs
      obtain ⟨rfl, -⟩ := List.cons.inj hcs
      exact notContinuation_of_lt hc
    · have hlarge : ¬ c.val.toNat ≤ 0x7f := fun hle ↦ hc (Nat.lt_succ_of_le hle)
      rw [String.utf8EncodeChar, if_neg hlarge] at hcs
      split at hcs
      · obtain ⟨rfl, -⟩ := List.cons.inj hcs
        exact notContinuation_of_ge (by decide) (by omega)
      · split at hcs
        · obtain ⟨rfl, -⟩ := List.cons.inj hcs
          exact notContinuation_of_ge (by decide) (by omega)
        · obtain ⟨rfl, -⟩ := List.cons.inj hcs
          exact notContinuation_of_ge (by decide) (by omega)

/-- **On either side of an ASCII byte there is a boundary.** -/
theorem IsText.isCharBoundary {k : Nat} (h : IsText s) (hk : k < s.length) (hb : s[k] < 0x80) :
    Slices.isCharBoundary s k = true ∧ Slices.isCharBoundary s (k + 1) = true := by
  have hsplit : s.take k ++ s[k] :: s.drop (k + 1) = s := by
    rw [← List.drop_eq_getElem_cons hk, List.take_append_drop]
  have hrest : IsText (s.drop (k + 1)) := (IsText.split (hsplit.symm ▸ h) hb).2
  constructor
  · refine Slices.isCharBoundary_of_getElem hk ?_
    rw [Slices.isContinuation, decide_eq_false (UInt8.not_le.mpr hb), Bool.false_and]
  · rcases Nat.lt_or_eq_of_le (show k + 1 ≤ s.length from hk) with hlt | heq
    · rw [List.drop_eq_getElem_cons hlt] at hrest
      exact Slices.isCharBoundary_of_getElem hlt hrest.head_not_continuation
    · rw [heq]
      exact Slices.isCharBoundary_length s

end TrailStash
