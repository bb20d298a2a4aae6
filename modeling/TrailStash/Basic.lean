import Mathlib.Algebra.Group.Nat.Defs
import Mathlib.Data.Finset.Basic

/-!
# Bytes, identifiers and machine arithmetic

The vocabulary shared by every module.  Identifiers are 32-byte arrays, as in the source; byte
strings are lists of bytes.  Clock readings and counters are natural numbers, and the few places
where the source leaves exact arithmetic — `saturating_mul`, `saturating_add`, and the one plain
`+` on a `u64` — say so with `satMul`, `satSucc32` and `wrapAdd`.  `saturating_sub` is subtraction
of natural numbers.

The order in which a hash table is walked is not specified and not stable from one walk to the
next.  `IterOrder` stands for one such order; a function that walks a hash table takes it as an
argument, and what is proved holds for all of them.
-/

set_option autoImplicit false

namespace TrailStash

/-- A byte string: a docs key, a ciphertext, the bytes of a `str`. -/
abbrev Bytes := List UInt8

/-- An iroh-docs namespace id. -/
abbrev NamespaceId := Vector UInt8 32

/-- An iroh-blobs content hash. -/
abbrev ContentHash := Vector UInt8 32

/-- An iroh endpoint id, the identity of a peer. -/
abbrev EndpointId := Vector UInt8 32

/-- The identifier whose bytes are all `b`, for runs on fixed inputs. -/
def idOf (b : UInt8) : Vector UInt8 32 := Vector.replicate 32 b

/-- What holds of the 256 bytes holds of every byte. -/
theorem forall_byte {P : UInt8 → Prop} (h : ∀ n : Fin 256, P (UInt8.ofNat n)) (b : UInt8) :
    P b := by
  have hb := h ⟨b.toNat, b.toNat_lt_size⟩
  rwa [UInt8.ofNat_toNat] at hb

/-- What holds of the sixteen smallest bytes holds below sixteen. -/
theorem forall_nibble {P : UInt8 → Prop} (h : ∀ n : Fin 16, P (UInt8.ofNat n)) {d : UInt8}
    (hd : d < 16) : P d := by
  have hb := h ⟨d.toNat, UInt8.lt_iff_toNat_lt.mp hd⟩
  rwa [UInt8.ofNat_toNat] at hb

/-! ## Hexadecimal -/

/-- The lower-case digit for a number below sixteen. -/
def hexDigit (d : UInt8) : UInt8 := if d < 10 then 0x30 + d else 0x57 + d

/-- `format!("{b:02x}")` -/
def hexByte (b : UInt8) : Bytes := [hexDigit (b >>> 4), hexDigit (b &&& 0xf)]

/-! ## Fixed-width arithmetic -/

/-- `u64::MAX`. -/
def u64Max : Nat := 2 ^ 64 - 1

/-- `u64::saturating_mul`. -/
def satMul (a b : Nat) : Nat := min (a * b) u64Max

/-- `u32::saturating_add(1)`. -/
def satSucc32 (a : Nat) : Nat := min (a + 1) (2 ^ 32 - 1)

/-- `a + b` on `u64` as a release build computes it. -/
def wrapAdd (a b : Nat) : Nat := (a + b) % 2 ^ 64

/-! ## Walking a hash table -/

/-- An order in which the elements of a hash set, or the keys of a hash map, may be visited. -/
structure IterOrder (α : Type) where
  /-- The elements in the order they are visited. -/
  list : Finset α → List α
  /-- No element is visited twice. -/
  nodup : ∀ s, (list s).Nodup
  /-- Exactly the elements of the set are visited. -/
  mem_list : ∀ s x, x ∈ list s ↔ x ∈ s

/-- Some order always exists. -/
noncomputable def IterOrder.any (α : Type) : IterOrder α where
  list s := s.toList
  nodup s := s.nodup_toList
  mem_list s x := by simp

/-- An order that visits `x` before everything else. -/
noncomputable def IterOrder.first {α : Type} [DecidableEq α] (x : α) : IterOrder α where
  list s := if x ∈ s then x :: (s.erase x).toList else s.toList
  nodup s := by
    split
    · exact List.nodup_cons.mpr ⟨by simp, (s.erase x).nodup_toList⟩
    · exact s.nodup_toList
  mem_list s y := by
    split
    · next hx =>
      rw [List.mem_cons, Finset.mem_toList, Finset.mem_erase]
      by_cases hy : y = x
      · simp [hy, hx]
      · simp [hy]
    · exact Finset.mem_toList

theorem IterOrder.list_first {α : Type} [DecidableEq α] {x y : α} (h : y ≠ x) :
    (IterOrder.first x).list {x, y} = [x, y] := by
  have herase : ({x, y} : Finset α).erase x = {y} :=
    Finset.erase_insert (by simpa using h.symm)
  rw [IterOrder.first]
  dsimp only
  rw [if_pos (Finset.mem_insert_self x {y}), herase, Finset.toList_singleton]

/-- There is one order in which to visit a single element. -/
theorem IterOrder.list_singleton {α : Type} (order : IterOrder α) (x : α) :
    order.list {x} = [x] := by
  have hperm : (order.list {x}).Perm [x] :=
    (List.perm_ext_iff_of_nodup (order.nodup _) (List.nodup_singleton x)).mpr fun y ↦ by
      rw [order.mem_list, Finset.mem_singleton, List.mem_singleton]
  exact List.perm_singleton.mp hperm

end TrailStash
