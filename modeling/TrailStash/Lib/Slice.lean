import Mathlib.Data.List.Basic

/-!
# Reads that may stop the program

Indexing a sequence and slicing one stop the program when a bound is wrong, and slicing a text stops
it as well when a bound falls inside a character.  A computation that reads like this is an
`Except Panic`; that it never stops is an equation with `.ok` on the right, and `index_eq_ok`,
`slice_eq_ok` and `textSlice_eq_ok` are what such an equation is proved with.

A text is its UTF-8 bytes.  All that matters of the encoding here is which bytes continue a
character that was begun before them.
-/

set_option autoImplicit false

namespace Slices

/-- Why a read stops the program. -/
inductive Panic
  /-- An index or a bound is beyond the end, or two bounds are in the wrong order. -/
  | outOfBounds
  /-- A bound is inside a character. -/
  | notCharBoundary
  deriving DecidableEq, Repr

variable {α : Type*} {s : List α} {i j : Nat}

/-- `s[i]` -/
def index (s : List α) (i : Nat) : Except Panic α :=
  match s[i]? with
  | some a => .ok a
  | none => .error .outOfBounds

/-- `&s[i..j]` -/
def slice (s : List α) (i j : Nat) : Except Panic (List α) :=
  if i ≤ j ∧ j ≤ s.length then .ok ((s.take j).drop i) else .error .outOfBounds

/-- A read that succeeds hands on what it read. -/
theorem ok_bind {α β : Type} (a : α) (f : α → Except Panic β) : (Except.ok a >>= f) = f a := rfl

theorem index_eq_ok (h : i < s.length) : index s i = .ok s[i] := by
  rw [index, List.getElem?_eq_getElem h]

theorem slice_eq_ok (hij : i ≤ j) (hj : j ≤ s.length) :
    slice s i j = .ok ((s.take j).drop i) :=
  if_pos ⟨hij, hj⟩

/-! ## Texts -/

/-- The byte continues a character. -/
def isContinuation (b : UInt8) : Bool := 0x80 ≤ b && b < 0xC0

/-- A character begins at `i`, or the text ends there. -/
def isCharBoundary (s : List UInt8) (i : Nat) : Bool :=
  i == 0 || i == s.length || s[i]?.any fun b ↦ !isContinuation b

/-- `&s[i..j]` for a text `s`. -/
def textSlice (s : List UInt8) (i j : Nat) : Except Panic (List UInt8) :=
  if i ≤ j ∧ j ≤ s.length then
    if isCharBoundary s i ∧ isCharBoundary s j then .ok ((s.take j).drop i)
    else .error .notCharBoundary
  else .error .outOfBounds

theorem isCharBoundary_zero (s : List UInt8) : isCharBoundary s 0 = true := by
  rw [isCharBoundary, beq_self_eq_true, Bool.true_or, Bool.true_or]

theorem isCharBoundary_length (s : List UInt8) : isCharBoundary s s.length = true := by
  rw [isCharBoundary, beq_self_eq_true, Bool.or_true, Bool.true_or]

theorem isCharBoundary_of_getElem {s : List UInt8} (hi : i < s.length)
    (h : isContinuation s[i] = false) : isCharBoundary s i = true := by
  rw [isCharBoundary, List.getElem?_eq_getElem hi, Option.any_some, h, Bool.not_false,
    Bool.or_true]

theorem textSlice_eq_ok {s : List UInt8} (hij : i ≤ j) (hj : j ≤ s.length)
    (hi : isCharBoundary s i = true) (hbj : isCharBoundary s j = true) :
    textSlice s i j = .ok ((s.take j).drop i) := by
  rw [textSlice, if_pos ⟨hij, hj⟩, if_pos ⟨hi, hbj⟩]

end Slices
