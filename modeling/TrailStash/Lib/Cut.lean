import Mathlib.Data.List.Infix
import Mathlib.Data.List.TakeDrop
import Mathlib.Data.Nat.Find
import Mathlib.Order.Basic

/-!
# Cutting stretches out of a list

Some positions of a list are to go, and a marker comes in their place.  `Replaces` says what the
result looks like: a position that stays is copied, and a longest stretch that goes becomes one or
more markers.

The positions are given by ranges.  Ranges that are sorted by where they start may nest, touch or
overlap; a loop that remembers how far it has come turns them into cuts, and `cut_mergeFrom` says
that the cuts are the union of the ranges.  `replaces_cutOut` is what the cuts leave.

`IsRun` is a longest stretch of positions with a property, `HasRun` the same for the elements of a
list.  `hasRun_cutOut` compares the two: the runs in the result are those of the positions that
stayed, and those of the marker.

Cutting is local: where a list is joined at an element that no run contains, its runs, its cuts and
what these leave are those of the two sides (`isRun_append_iff`, `mergeFrom_append`,
`cutOut_append`).
-/

set_option autoImplicit false

namespace Cuts

variable {α : Type*} {q q' : Nat → Prop} {p : α → Bool} {s u v r : List α} {c n m i j a b k : Nat}

/-! ## Runs of positions -/

/-- `[i, j)` is a longest stretch of positions with `q`. -/
structure IsRun (q : Nat → Prop) (i j : Nat) : Prop where
  /-- It is not empty. -/
  lt : i < j
  /-- All its positions have `q`. -/
  all : ∀ k, i ≤ k → k < j → q k
  /-- The position before it does not. -/
  before : ∀ k, k + 1 = i → ¬ q k
  /-- Nor does the one after it. -/
  after : ¬ q j

/-- Two runs with a position in common start at the same place. -/
theorem IsRun.le_of_mem (h : IsRun q i j) (h' : IsRun q a b) (hk : i ≤ k) (hkb : k < b) :
    i ≤ a := by
  by_contra hlt
  -- the position before `i` is in the other run
  refine h.before (i - 1) (by omega) (h'.all (i - 1) (by omega) (by omega))

theorem IsRun.end_le (h : IsRun q i j) (h' : IsRun q a b) (hkj : k < j) (hka : a ≤ k) : b ≤ j := by
  by_contra hlt
  exact h.after (h'.all j (by omega) (by omega))

/-- **Two runs with a position in common are the same.** -/
theorem IsRun.unique (h : IsRun q i j) (h' : IsRun q a b) (hk : i ≤ k) (hkj : k < j) (hka : a ≤ k)
    (hkb : k < b) : i = a ∧ j = b :=
  ⟨le_antisymm (h.le_of_mem h' hk hkb) (h'.le_of_mem h hka hkj),
    le_antisymm (h'.end_le h hkb hk) (h.end_le h' hkj hka)⟩

/-- A run from where a run begins is this run, or begins after it. -/
theorem IsRun.from_iff (h : IsRun q i j) {x : Nat × Nat} :
    i ≤ x.1 ∧ IsRun q x.1 x.2 ↔ x = (i, j) ∨ (j ≤ x.1 ∧ IsRun q x.1 x.2) := by
  constructor
  · rintro ⟨hix, hx⟩
    rcases Nat.lt_or_ge x.1 j with hin | hout
    · have hsame := h.unique hx hix hin le_rfl hx.lt
      exact Or.inl (Prod.ext hsame.1.symm hsame.2.symm)
    · exact Or.inr ⟨hout, hx⟩
  · rintro (rfl | ⟨hout, hx⟩)
    · exact ⟨le_rfl, h⟩
    · exact ⟨h.lt.le.trans hout, hx⟩

/-- **A position is in a run**, if the property ends somewhere. -/
theorem exists_isRun (hq : q k) (hend : ∃ n, ∀ m, n ≤ m → ¬ q m) :
    ∃ i j, IsRun q i j ∧ i ≤ k ∧ k < j := by
  classical
  obtain ⟨n, hn⟩ := hend
  have hkn : k < n := by
    by_contra hle
    exact hn k (by omega) hq
  -- the first position after `k` without the property
  have hex : ∃ m, k < m ∧ ¬ q m := ⟨n, hkn, hn n le_rfl⟩
  obtain ⟨hkj, hnj⟩ := Nat.find_spec hex
  have hall : ∀ m, k ≤ m → m < Nat.find hex → q m := fun m hm hmj ↦ by
    rcases hm.eq_or_lt with rfl | hlt
    · exact hq
    · exact not_not.mp fun hnot ↦ Nat.find_min hex hmj ⟨hlt, hnot⟩
  -- and the first from which it holds up to `k`
  have hex' : ∃ m, m ≤ k ∧ ∀ l, m ≤ l → l ≤ k → q l :=
    ⟨k, le_rfl, fun l hl hlk ↦ le_antisymm hl hlk ▸ hq⟩
  obtain ⟨hik, hbelow⟩ := Nat.find_spec hex'
  refine ⟨Nat.find hex', Nat.find hex, ⟨by omega, fun m hm hmj ↦ ?_, fun m hm hqm ↦ ?_, hnj⟩, hik,
    hkj⟩
  · rcases le_total m k with hmk | hkm
    · exact hbelow m hm hmk
    · exact hall m hkm hmj
  · refine Nat.find_min hex' (show m < Nat.find hex' by omega) ⟨by omega, fun l hl hlk ↦ ?_⟩
    rcases hl.eq_or_lt with rfl | hlt
    · exact hqm
    · exact hbelow l (by omega) hlk

/-- A run stays one if the property changes only elsewhere. -/
theorem IsRun.congr (h : IsRun q i j) (hq : ∀ k, i ≤ k + 1 → k ≤ j → (q k ↔ q' k)) : IsRun q' i j :=
  ⟨h.lt, fun k hk hkj ↦ (hq k (by omega) (by omega)).mp (h.all k hk hkj),
    fun k hk hqk ↦ h.before k hk ((hq k (by omega) (by have := h.lt; omega)).mpr hqk),
    fun hqj ↦ h.after ((hq j (by have := h.lt; omega) le_rfl).mpr hqj)⟩

/-- **A position without the property separates the runs.** -/
theorem isRun_split (hm : ¬ q m) : IsRun q i j ↔
    IsRun (fun k ↦ q k ∧ k < m) i j ∨ IsRun (fun k ↦ q k ∧ m < k) i j := by
  constructor
  · intro h
    have hside : j ≤ m ∨ m < i := by
      by_contra hboth
      exact hm (h.all m (by omega) (by omega))
    rcases hside with hle | hlt
    · left
      refine ⟨h.lt, fun k hk hkj ↦ ⟨h.all k hk hkj, by omega⟩, fun k hk hqk ↦ h.before k hk hqk.1,
        fun hqj ↦ h.after hqj.1⟩
    · right
      refine ⟨h.lt, fun k hk hkj ↦ ⟨h.all k hk hkj, by omega⟩, fun k hk hqk ↦ h.before k hk hqk.1,
        fun hqj ↦ h.after hqj.1⟩
  · rintro (h | h)
    · have hjm := (h.all (j - 1) (by have := h.lt; omega) (by have := h.lt; omega)).2
      refine ⟨h.lt, fun k hk hkj ↦ (h.all k hk hkj).1,
        fun k hk hqk ↦ h.before k hk ⟨hqk, by have := h.lt; omega⟩, fun hqj ↦ ?_⟩
      rcases Nat.lt_or_ge j m with hlt | hge
      · exact h.after ⟨hqj, hlt⟩
      · obtain rfl : j = m := by omega
        exact hm hqj
    · have him := (h.all i le_rfl h.lt).2
      refine ⟨h.lt, fun k hk hkj ↦ (h.all k hk hkj).1, fun k hk hqk ↦ ?_,
        fun hqj ↦ h.after ⟨hqj, by have := h.lt; omega⟩⟩
      rcases Nat.lt_or_ge m k with hlt | hge
      · exact h.before k hk ⟨hqk, hlt⟩
      · obtain rfl : k = m := by omega
        exact hm hqk

/-- **Cutting whole runs out of others.**  If `A` does not change along a run of `P`, the runs of
what is in `P` and neither in `A` nor in `B` are those of what is in `P` and not in `B` that `A`
leaves alone. -/
theorem isRun_diff_iff {P A B : Nat → Prop} (hA : ∀ k, P k → P (k + 1) → (A k ↔ A (k + 1))) :
    IsRun (fun k ↦ P k ∧ ¬ A k ∧ ¬ B k) i j ↔ IsRun (fun k ↦ P k ∧ ¬ B k) i j ∧ ¬ A i := by
  constructor
  · intro h
    have hlt := h.lt
    obtain ⟨hPi, hAi, -⟩ := h.all i le_rfl hlt
    obtain ⟨hPj, hAj, -⟩ := h.all (j - 1) (by omega) (by omega)
    refine ⟨⟨hlt, fun k hk hkj ↦ ⟨(h.all k hk hkj).1, (h.all k hk hkj).2.2⟩, ?_, ?_⟩, hAi⟩
    · rintro k rfl ⟨hPk, hBk⟩
      exact h.before k rfl ⟨hPk, (hA k hPk hPi).not.mpr hAi, hBk⟩
    · rintro ⟨hP, hB⟩
      have hstep := hA (j - 1) hPj
      rw [Nat.sub_add_cancel (by omega)] at hstep
      exact h.after ⟨hP, (hstep hP).not.mp hAj, hB⟩
  · rintro ⟨h, hAi⟩
    -- along the run `A` is as at its start
    have hall : ∀ k, i ≤ k → k < j → ¬ A k := fun k hk ↦ by
      induction k, hk using Nat.le_induction with
      | base => exact fun _ ↦ hAi
      | succ k hk ih =>
        intro hkj
        have hstep := hA k (h.all k hk (by omega)).1 (h.all (k + 1) (by omega) hkj).1
        exact hstep.not.mp (ih (by omega))
    exact ⟨h.lt, fun k hk hkj ↦ ⟨(h.all k hk hkj).1, hall k hk hkj, (h.all k hk hkj).2⟩,
      fun k hk hq ↦ h.before k hk ⟨hq.1, hq.2.2⟩, fun hq ↦ h.after ⟨hq.1, hq.2.2⟩⟩

/-! ## Runs of elements -/

/-- The element at position `k` is one of those `p` selects. -/
def Holds (p : α → Bool) (s : List α) (k : Nat) : Prop := s[k]?.any p = true

/-- What stands between two positions. -/
abbrev part (s : List α) (i j : Nat) : List α := (s.take j).drop i

/-- `r` is a longest stretch of elements that `p` selects. -/
def HasRun (p : α → Bool) (s r : List α) : Prop := ∃ i j, IsRun (Holds p s) i j ∧ part s i j = r

theorem Holds.lt (h : Holds p s k) : k < s.length := by
  by_contra hge
  rw [Holds, List.getElem?_eq_none (by omega)] at h
  exact absurd h (by simp)

theorem holds_iff : Holds p s k ↔ ∃ h : k < s.length, p s[k] = true := by
  constructor
  · intro h
    have hlt : k < s.length := h.lt
    refine ⟨hlt, ?_⟩
    rwa [Holds, List.getElem?_eq_getElem hlt, Option.any_some] at h
  · rintro ⟨hlt, h⟩
    rwa [Holds, List.getElem?_eq_getElem hlt, Option.any_some]

theorem IsRun.end_le_length (h : IsRun (Holds p s) i j) : j ≤ s.length := by
  have hlast := (h.all (j - 1) (by have := h.lt; omega) (by have := h.lt; omega)).lt
  omega

theorem length_part (hj : j ≤ s.length) : (part s i j).length = j - i := by
  rw [List.length_drop, List.length_take, min_eq_left hj]

theorem getElem?_part (hkj : i + k < j) : (part s i j)[k]? = s[i + k]? := by
  rw [List.getElem?_drop, List.getElem?_take, if_pos hkj]

/-- An element of a part. -/
theorem mem_part {x : α} (hj : j ≤ s.length) :
    x ∈ part s i j ↔ ∃ k, i ≤ k ∧ k < j ∧ s[k]? = some x := by
  rw [List.mem_iff_getElem?]
  constructor
  · rintro ⟨k, hk⟩
    have hlt : i + k < j := by
      have hin := (List.getElem?_eq_some_iff.mp hk).1
      rw [length_part hj] at hin
      omega
    exact ⟨i + k, by omega, hlt, by rw [← getElem?_part hlt, hk]⟩
  · rintro ⟨k, hik, hkj, hk⟩
    refine ⟨k - i, ?_⟩
    rw [getElem?_part (by omega), Nat.add_sub_cancel' hik, hk]

theorem holds_part (hj : j ≤ s.length) :
    Holds p (part s i j) k ↔ i + k < j ∧ Holds p s (i + k) := by
  constructor
  · intro h
    have hlt := h.lt
    rw [length_part hj] at hlt
    refine ⟨by omega, ?_⟩
    rwa [Holds, getElem?_part (by omega)] at h
  · rintro ⟨hlt, h⟩
    rwa [Holds, getElem?_part hlt]

theorem part_part (hj : i + b ≤ j) : part (part s i j) a b = part s (i + a) (i + b) := by
  rw [part, part, part, List.take_drop, List.drop_drop, List.take_take, min_eq_left hj]

theorem drop_eq_part_append (hca : c ≤ a) (ha : a ≤ s.length) :
    s.drop c = part s c a ++ s.drop a := by
  conv_lhs => rw [← List.take_append_drop a s]
  rw [List.drop_append_of_le_length (by rw [List.length_take]; omega)]

theorem isRun_shift : IsRun (fun k ↦ q (c + k)) i j ↔
    IsRun (fun k ↦ c ≤ k ∧ q k) (c + i) (c + j) := by
  constructor
  · intro h
    have hlt := h.lt
    refine ⟨by omega, fun k hk hkj ↦ ⟨by omega, ?_⟩, fun k hk hqk ↦ ?_, fun hqj ↦ h.after hqj.2⟩
    · have hkq := h.all (k - c) (by omega) (by omega)
      rwa [Nat.add_sub_cancel' (by omega)] at hkq
    · have hkq := h.before (k - c) (by omega)
      rw [Nat.add_sub_cancel' hqk.1] at hkq
      exact hkq hqk.2
  · intro h
    have hlt := h.lt
    exact ⟨by omega, fun k hk hkj ↦ (h.all (c + k) (by omega) (by omega)).2,
      fun k hk hqk ↦ h.before (c + k) (by omega) ⟨by omega, hqk⟩,
      fun hqj ↦ h.after ⟨by omega, hqj⟩⟩

/-- **The runs of a part** are the runs of its positions. -/
theorem hasRun_part (ha : a ≤ s.length) : HasRun p (part s c a) r ↔
    ∃ i j, IsRun (fun k ↦ c ≤ k ∧ k < a ∧ Holds p s k) i j ∧ part s i j = r := by
  have hq : Holds p (part s c a) = fun k ↦ c + k < a ∧ Holds p s (c + k) :=
    funext fun k ↦ propext (holds_part ha)
  have hshift : ∀ i j, IsRun (Holds p (part s c a)) i j ↔
      IsRun (fun k ↦ c ≤ k ∧ k < a ∧ Holds p s k) (c + i) (c + j) := fun i j ↦ by
    rw [hq]
    exact isRun_shift (q := fun k ↦ k < a ∧ Holds p s k)
  have hinside : ∀ {i j}, IsRun (fun k ↦ c ≤ k ∧ k < a ∧ Holds p s k) i j → c ≤ i ∧ j ≤ a :=
    fun {i j} h ↦ by
      have hlt := h.lt
      have hlast := (h.all (j - 1) (by omega) (by omega)).2.1
      exact ⟨(h.all i le_rfl hlt).1, by omega⟩
  constructor
  · rintro ⟨i, j, h, rfl⟩
    have hwindow := (hshift i j).mp h
    exact ⟨c + i, c + j, hwindow, (part_part (hinside hwindow).2).symm⟩
  · rintro ⟨i, j, h, rfl⟩
    obtain ⟨hci, hja⟩ := hinside h
    have hlt := h.lt
    refine ⟨i - c, j - c, (hshift _ _).mpr ?_, ?_⟩
    · rwa [Nat.add_sub_cancel' hci, Nat.add_sub_cancel' (by omega)]
    · rw [part_part (by omega), Nat.add_sub_cancel' hci, Nat.add_sub_cancel' (by omega)]

theorem part_self : part s 0 s.length = s := by
  rw [part, List.take_length, List.drop_zero]

theorem not_hasRun_nil : ¬ HasRun p [] r := by
  rintro ⟨i, j, h, -⟩
  exact absurd (h.all i le_rfl h.lt).lt (Nat.not_lt_zero _)

/-- **An element that `p` does not select separates the runs.** -/
theorem hasRun_append {x : α} (hx : p x = false) :
    HasRun p (u ++ x :: v) r ↔ HasRun p u r ∨ HasRun p v r := by
  have hsep : ¬ Holds p (u ++ x :: v) u.length := by
    rw [Holds, List.getElem?_append_right le_rfl, Nat.sub_self, List.getElem?_cons_zero,
      Option.any_some, hx]
    exact Bool.false_ne_true
  have hlen : (u ++ x :: v).length = u.length + 1 + v.length := by
    rw [List.length_append, List.length_cons]
    omega
  have hu : part (u ++ x :: v) 0 u.length = u := by
    rw [part, List.take_left, List.drop_zero]
  have hv : part (u ++ x :: v) (u.length + 1) (u ++ x :: v).length = v := by
    rw [part, List.take_length, List.drop_append, List.drop_of_length_le (by omega)]
    simp
  have hbelow := hasRun_part (p := p) (s := u ++ x :: v) (c := 0) (r := r) (a := u.length)
    (by omega)
  have habove := hasRun_part (p := p) (s := u ++ x :: v) (c := u.length + 1) (r := r) le_rfl
  rw [hu] at hbelow
  rw [hv] at habove
  rw [hbelow, habove, HasRun]
  simp only [isRun_split hsep, or_and_right, exists_or]
  refine or_congr (exists₂_congr fun i j ↦ and_congr_left fun _ ↦ ?_)
    (exists₂_congr fun i j ↦ and_congr_left fun _ ↦ ?_)
  · exact iff_of_eq (congrArg (IsRun · i j) (funext fun k ↦ propext
      ⟨fun h ↦ ⟨Nat.zero_le k, h.2, h.1⟩, fun h ↦ ⟨h.2.2, h.2.1⟩⟩))
  · exact iff_of_eq (congrArg (IsRun · i j) (funext fun k ↦ propext
      ⟨fun h ↦ ⟨h.2, h.1.lt, h.1⟩, fun h ↦ ⟨h.2.2, h.1⟩⟩))

theorem part_middle {w : List α} :
    part (u ++ v ++ w) u.length (u.length + v.length) = v := by
  rw [part, ← List.length_append, List.take_left, List.drop_left]

/-- **A stretch that nothing extends is a run.** -/
theorem isRun_middle {w : List α} (hv : v ≠ []) (hall : ∀ x ∈ v, p x = true)
    (hu : ∀ x ∈ u.getLast?, p x = false) (hw : ∀ x ∈ w.head?, p x = false) :
    IsRun (Holds p (u ++ v ++ w)) u.length (u.length + v.length) := by
  have hpos : 0 < v.length := List.length_pos_of_ne_nil hv
  refine ⟨by omega, fun k hk hkv ↦ ?_, fun k hk ↦ ?_, ?_⟩
  · have hget : (u ++ v ++ w)[k]? = some v[k - u.length] := by
      rw [List.append_assoc, List.getElem?_append_right hk,
        List.getElem?_append_left (by omega), List.getElem?_eq_getElem]
    rw [Holds, hget]
    exact hall _ (List.getElem_mem _)
  · have hget : (u ++ v ++ w)[k]? = u.getLast? := by
      rw [List.append_assoc, List.getElem?_append_left (by omega), List.getLast?_eq_getElem?,
        ← hk, Nat.add_sub_cancel]
    rw [Holds, hget]
    cases hlast : u.getLast? with
    | none => exact Bool.false_ne_true
    | some x => exact Bool.eq_false_iff.mp (hu x hlast)
  · have hget : (u ++ v ++ w)[u.length + v.length]? = w.head? := by
      rw [← List.length_append, List.getElem?_append_right le_rfl, Nat.sub_self,
        List.head?_eq_getElem?]
    rw [Holds, hget]
    cases hhead : w.head? with
    | none => exact Bool.false_ne_true
    | some x => exact Bool.eq_false_iff.mp (hw x hhead)

/-- The list begins and ends with elements that `p` does not select. -/
def Fenced (p : α → Bool) (w : List α) : Prop :=
  ∃ x w' y, w = x :: (w' ++ [y]) ∧ p x = false ∧ p y = false

/-- A fenced list in the middle keeps the runs apart. -/
theorem Fenced.hasRun_append {w : List α} (hw : Fenced p w) :
    HasRun p (u ++ (w ++ v)) r ↔ HasRun p u r ∨ HasRun p w r ∨ HasRun p v r := by
  obtain ⟨x, w', y, rfl, hx, hy⟩ := hw
  have hinner : HasRun p (x :: (w' ++ [y])) r ↔ HasRun p w' r := by
    have hsplit := Cuts.hasRun_append (u := []) (v := w' ++ [y]) (r := r) hx
    rw [List.nil_append] at hsplit
    rw [hsplit, or_iff_right not_hasRun_nil, Cuts.hasRun_append hy, or_iff_left not_hasRun_nil]
  have hsplit : u ++ (x :: (w' ++ [y]) ++ v) = u ++ x :: (w' ++ y :: v) := by simp
  rw [hsplit, Cuts.hasRun_append hx, Cuts.hasRun_append hy, hinner]

/-! ## Cuts -/

/-- A position is in one of the ranges. -/
def Covered (ranges : List (Nat × Nat)) (k : Nat) : Prop := ∃ x ∈ ranges, x.1 ≤ k ∧ k < x.2

/-- From `c` on, the cuts take out the positions in `M` and no others. -/
inductive Cut (M : Nat → Prop) (n : Nat) : Nat → List (Nat × Nat) → Prop
  | done {c : Nat} (hc : c ≤ n) (hkeep : ∀ k, c ≤ k → k < n → ¬ M k) : Cut M n c []
  | next {c a b : Nat} {cuts : List (Nat × Nat)} (hca : c ≤ a) (hab : a < b)
      (hkeep : ∀ k, c ≤ k → k < a → ¬ M k) (hcut : ∀ k, a ≤ k → k < b → M k)
      (hrest : Cut M n b cuts) : Cut M n c ((a, b) :: cuts)

/-- What is left of the list from `c` on. -/
def cutOut (marker s : List α) : Nat → List (Nat × Nat) → List α
  | c, [] => s.drop c
  | c, (a, b) :: cuts => part s c a ++ (marker ++ cutOut marker s b cuts)

/-- The cuts that ranges make, by a loop that has come to `c`. -/
def mergeFrom : Nat → List (Nat × Nat) → List (Nat × Nat)
  | _, [] => []
  | c, (a, b) :: ranges =>
    if b ≤ c then mergeFrom c ranges else (max a c, b) :: mergeFrom b ranges

variable {M M' : Nat → Prop} {cuts ranges : List (Nat × Nat)} {marker out : List α}

theorem Cut.le (h : Cut M n c cuts) : c ≤ n := by
  induction h with
  | done hc => exact hc
  | next hca hab _ _ _ ih => omega

/-- Only the positions from `c` on matter. -/
theorem Cut.congr (h : Cut M n c cuts) (hM : ∀ k, c ≤ k → (M k ↔ M' k)) : Cut M' n c cuts := by
  induction h with
  | done hc hkeep => exact .done hc fun k hk hkn ↦ (hM k hk).not.mp (hkeep k hk hkn)
  | next hca hab hkeep hcut hrest ih =>
    exact .next hca hab (fun k hk hka ↦ (hM k hk).not.mp (hkeep k hk hka))
      (fun k hk hkb ↦ (hM k (by omega)).mp (hcut k hk hkb)) (ih fun k hk ↦ hM k (by omega))

/-- **The cuts are the union of the ranges**, if these are sorted by where they start. -/
theorem cut_mergeFrom (hsorted : ranges.Pairwise fun x y ↦ x.1 ≤ y.1)
    (hlt : ∀ x ∈ ranges, x.1 < x.2) (hle : ∀ x ∈ ranges, x.2 ≤ n) (hc : c ≤ n) :
    Cut (Covered ranges) n c (mergeFrom c ranges) := by
  induction ranges generalizing c with
  | nil => exact .done hc fun k _ _ ⟨_, hx, _⟩ ↦ absurd hx List.not_mem_nil
  | cons x ranges ih =>
    obtain ⟨a, b⟩ := x
    obtain ⟨hfirst, hsorted⟩ := List.pairwise_cons.mp hsorted
    obtain ⟨hab, hlt⟩ := List.forall_mem_cons.mp hlt
    obtain ⟨hbn, hle⟩ := List.forall_mem_cons.mp hle
    -- beyond the first range only the others count
    have hbeyond : ∀ k, b ≤ k → (Covered ranges k ↔ Covered ((a, b) :: ranges) k) := by
      refine fun k hk ↦ ⟨fun ⟨y, hy, hky⟩ ↦ ⟨y, List.mem_cons_of_mem _ hy, hky⟩, ?_⟩
      rintro ⟨y, hy, hky⟩
      rcases List.mem_cons.mp hy with rfl | hy
      · exact absurd hky.2 (not_lt.mpr hk)
      · exact ⟨y, hy, hky⟩
    rw [mergeFrom]
    split
    · next hbc => exact (ih hsorted hlt hle hc).congr fun k hk ↦ hbeyond k (hbc.trans hk)
    · next hbc =>
      have hbc : c < b := not_le.mp hbc
      refine .next (le_max_right _ _) (max_lt hab hbc) ?_ ?_
        ((ih hsorted hlt hle hbn).congr hbeyond)
      · rintro k hk hka ⟨y, hy, hyk, -⟩
        -- every range starts at `a` or later
        have hay : a ≤ y.1 := by
          rcases List.mem_cons.mp hy with rfl | hy
          · exact le_rfl
          · exact hfirst y hy
        omega
      · exact fun k hk hkb ↦ ⟨(a, b), List.mem_cons_self, (le_max_left _ _).trans hk, hkb⟩

/-! ## What the cuts leave -/

/-- `out` is what becomes of the list from `i` on when the positions in `M` go and markers come in
their place. -/
inductive Replaces (marker s : List α) (M : Nat → Prop) : Nat → List α → Prop
  /-- The list has ended. -/
  | done : Replaces marker s M s.length []
  /-- A position stays. -/
  | keep {i : Nat} {out : List α} (hi : i < s.length) (hM : ¬ M i)
      (hrest : Replaces marker s M (i + 1) out) : Replaces marker s M i (s[i] :: out)
  /-- A longest stretch goes, and one or more markers come. -/
  | block {i j m : Nat} {out : List α} (hij : i < j) (hj : j ≤ s.length)
      (hM : ∀ k, i ≤ k → k < j → M k) (hmax : j = s.length ∨ ¬ M j)
      (hrest : Replaces marker s M j out) :
      Replaces marker s M i ((List.replicate (m + 1) marker).flatten ++ out)

/-- A stretch that stays. -/
theorem Replaces.keep_part (h : Replaces marker s M a out) (hca : c ≤ a) (ha : a ≤ s.length)
    (hkeep : ∀ k, c ≤ k → k < a → ¬ M k) : Replaces marker s M c (part s c a ++ out) := by
  induction hca using Nat.decreasingInduction with
  | self =>
    rw [part, List.drop_of_length_le (List.length_take_le _ _), List.nil_append]
    exact h
  | of_succ c hca ih =>
    have hcons : part s c a = s[c] :: part s (c + 1) a := by
      rw [part, List.drop_eq_getElem_cons (by rw [List.length_take]; omega), List.getElem_take]
    rw [hcons, List.cons_append]
    exact .keep (by omega) (hkeep c le_rfl hca) (ih fun k hk ↦ hkeep k (by omega))

/-- One more stretch that goes, before what goes already or what stays. -/
theorem Replaces.cut_part (h : Replaces marker s M b out) (hab : a < b) (hb : b ≤ s.length)
    (hcut : ∀ k, a ≤ k → k < b → M k) : Replaces marker s M a (marker ++ out) := by
  have hone : ∀ out : List α, marker ++ out = (List.replicate 1 marker).flatten ++ out := by simp
  cases h with
  | done =>
    rw [hone]
    exact .block (m := 0) hab hb hcut (Or.inl rfl) .done
  | keep hi hM hrest =>
    rw [hone]
    exact .block (m := 0) hab hb hcut (Or.inr hM) (.keep hi hM hrest)
  | @block _ j m out hbj hj hM hmax hrest =>
    rw [← List.append_assoc, ← List.flatten_cons, ← List.replicate_succ]
    refine .block (by omega) hj (fun k hk hkj ↦ ?_) hmax hrest
    rcases Nat.lt_or_ge k b with hkb | hbk
    · exact hcut k hk hkb
    · exact hM k hbk hkj

/-- **What the cuts leave.** -/
theorem replaces_cutOut (h : Cut M s.length c cuts) :
    Replaces marker s M c (cutOut marker s c cuts) := by
  induction h with
  | @done c hc hkeep =>
    have hall : s.drop c = part s c s.length ++ [] := by
      rw [part, List.take_length, List.append_nil]
    rw [cutOut, hall]
    exact Replaces.done.keep_part hc le_rfl hkeep
  | next hca hab hkeep hcut hrest ih =>
    have hb := hrest.le
    exact (ih.cut_part hab hb hcut).keep_part hca (by omega) hkeep

/-- If nothing goes, nothing changes. -/
theorem Replaces.eq_drop (h : Replaces marker s M i out) (hnone : ∀ k, ¬ M k) : out = s.drop i := by
  induction h with
  | done => rw [List.drop_length]
  | keep hi _ _ ih => rw [ih, ← List.drop_eq_getElem_cons hi]
  | block hij _ hM => exact absurd (hM _ le_rfl hij) (hnone _)

/-- A stretch without `x` does not count. -/
theorem count_drop [DecidableEq α] {x : α} (hij : i ≤ j) (hj : j ≤ s.length)
    (hx : ∀ k, i ≤ k → k < j → s[k]? ≠ some x) : (s.drop i).count x = (s.drop j).count x := by
  induction hij using Nat.decreasingInduction with
  | self => rfl
  | of_succ i hij ih =>
    have hi : i < s.length := by omega
    have hne : s[i] ≠ x := fun heq ↦ hx i le_rfl hij (by rw [List.getElem?_eq_getElem hi, heq])
    rw [List.drop_eq_getElem_cons hi, List.count_cons_of_ne hne,
      ih fun k hk ↦ hx k (by omega)]

/-- What does not go is as frequent as before, at least. -/
theorem Replaces.count_le [DecidableEq α] {x : α} (h : Replaces marker s M i out)
    (hx : ∀ k, M k → s[k]? ≠ some x) : (s.drop i).count x ≤ out.count x := by
  induction h with
  | done => rw [List.drop_length]
  | keep hi _ _ ih =>
    rw [List.drop_eq_getElem_cons hi, List.count_cons, List.count_cons]
    omega
  | block hij hj hM _ _ ih =>
    rw [count_drop hij.le hj fun k hk hkj ↦ hx k (hM k hk hkj), List.count_append]
    omega

/-- **If something goes, there is one marker more.** -/
theorem Replaces.count_lt [DecidableEq α] {x : α} (h : Replaces marker s M i out)
    (hx : ∀ k, M k → s[k]? ≠ some x) (hmarker : x ∈ marker) (hik : i ≤ k) (hk : k < s.length)
    (hM : M k) : (s.drop i).count x < out.count x := by
  induction h with
  | done => omega
  | @keep i out hi hMi hrest ih =>
    have hne : i ≠ k := fun heq ↦ hMi (heq ▸ hM)
    have hrec := ih (by omega)
    rw [List.drop_eq_getElem_cons hi, List.count_cons, List.count_cons]
    omega
  | block hij hj hMij hmax hrest =>
    have hle := hrest.count_le hx
    rw [count_drop hij.le hj fun k hk hkj ↦ hx k (hMij k hk hkj), List.replicate_succ,
      List.flatten_cons, List.count_append, List.count_append]
    have hpos := List.count_pos_iff.mpr hmarker
    omega

/-- **The runs of what the cuts leave** are those of the positions that stay, and those of the
marker. -/
theorem hasRun_cutOut (h : Cut M s.length c cuts) (hmarker : Fenced p marker) :
    HasRun p (cutOut marker s c cuts) r ↔ (cuts ≠ [] ∧ HasRun p marker r) ∨
      ∃ i j, IsRun (fun k ↦ c ≤ k ∧ ¬ M k ∧ Holds p s k) i j ∧ part s i j = r := by
  induction h with
  | @done c hc hkeep =>
    have hall : s.drop c = part s c s.length := by rw [part, List.take_length]
    have hq : (fun k ↦ c ≤ k ∧ k < s.length ∧ Holds p s k) =
        fun k ↦ c ≤ k ∧ ¬ M k ∧ Holds p s k :=
      funext fun k ↦ propext ⟨fun hk ↦ ⟨hk.1, hkeep k hk.1 hk.2.1, hk.2.2⟩,
        fun hk ↦ ⟨hk.1, hk.2.2.lt, hk.2.2⟩⟩
    rw [cutOut, hall, hasRun_part le_rfl, hq, or_iff_right fun hc ↦ hc.1 rfl]
  | @next c a b cuts hca hab hkeep hcut hrest ih =>
    have hb := hrest.le
    have hM : ¬ (c ≤ a ∧ ¬ M a ∧ Holds p s a) := fun ha ↦ ha.2.1 (hcut a le_rfl hab)
    have hbelow : (fun k ↦ c ≤ k ∧ k < a ∧ Holds p s k) =
        fun k ↦ (c ≤ k ∧ ¬ M k ∧ Holds p s k) ∧ k < a :=
      funext fun k ↦ propext ⟨fun hk ↦ ⟨⟨hk.1, hkeep k hk.1 hk.2.1, hk.2.2⟩, hk.2.1⟩,
        fun hk ↦ ⟨hk.1.1, hk.2, hk.1.2.2⟩⟩
    have habove : (fun k ↦ b ≤ k ∧ ¬ M k ∧ Holds p s k) =
        fun k ↦ (c ≤ k ∧ ¬ M k ∧ Holds p s k) ∧ a < k := by
      refine funext fun k ↦ propext ⟨fun hk ↦ ⟨⟨by omega, hk.2⟩, by omega⟩, fun hk ↦ ⟨?_, hk.1.2⟩⟩
      exact not_lt.mp fun hkb ↦ hk.1.2.1 (hcut k hk.2.le hkb)
    rw [cutOut, hmarker.hasRun_append, ih, hasRun_part (by omega), hbelow, habove]
    have hsplit := fun i j ↦
      isRun_split (q := fun k ↦ c ≤ k ∧ ¬ M k ∧ Holds p s k) (i := i) (j := j) hM
    simp only [hsplit, or_and_right, exists_or]
    constructor
    · rintro (ha | hm | ⟨-, hm⟩ | hb)
      · exact Or.inr (Or.inl ha)
      · exact Or.inl ⟨List.cons_ne_nil _ _, hm⟩
      · exact Or.inl ⟨List.cons_ne_nil _ _, hm⟩
      · exact Or.inr (Or.inr hb)
    · rintro (⟨-, hm⟩ | ha | hb)
      · exact Or.inr (Or.inl hm)
      · exact Or.inl ha
      · exact Or.inr (Or.inr (Or.inr hb))

/-! ## Lists that are joined at an element

An element that no run contains keeps what is left of it and what is right of it apart. -/

/-- The range, further to the right. -/
def shift (m : Nat) (x : Nat × Nat) : Nat × Nat := (m + x.1, m + x.2)

variable {x : α} {ranges' cuts' : List (Nat × Nat)} {e : Nat}

theorem part_left (hj : j ≤ u.length) : part (u ++ x :: v) i j = part u i j := by
  rw [part, List.take_append_of_le_length hj]

theorem part_right : part (u ++ x :: v) (u.length + 1 + i) (u.length + 1 + j) = part v i j := by
  have hlen : (u ++ [x]).length = u.length + 1 := by simp
  rw [List.append_cons, part, ← hlen, List.take_length_add_append, List.drop_length_add_append]

/-- What stands between a position on the left and one on the right. -/
theorem part_across (hc : c ≤ u.length) :
    part (u ++ x :: v) c (u.length + 1 + j) = u.drop c ++ x :: v.take j := by
  have hlen : (u ++ [x]).length = u.length + 1 := by simp
  rw [List.append_cons, part, ← hlen, List.take_length_add_append, List.append_assoc,
    List.drop_append_of_le_length hc]
  rfl

/-- **The runs of a list that is joined at an element** are those of its two sides. -/
theorem isRun_append_iff (hx : p x = false) : IsRun (Holds p (u ++ x :: v)) i j ↔
    IsRun (Holds p u) i j ∨
      ∃ a b, IsRun (Holds p v) a b ∧ (i, j) = shift (u.length + 1) (a, b) := by
  have hsep : ¬ Holds p (u ++ x :: v) u.length := by
    rw [Holds, List.getElem?_append_right le_rfl, Nat.sub_self, List.getElem?_cons_zero,
      Option.any_some, hx]
    exact Bool.false_ne_true
  have hleft : (fun k ↦ Holds p (u ++ x :: v) k ∧ k < u.length) = Holds p u := by
    refine funext fun k ↦ propext ⟨fun ⟨hk, hlt⟩ ↦ ?_, fun hk ↦ ⟨?_, hk.lt⟩⟩
    · rwa [Holds, List.getElem?_append_left hlt] at hk
    · rwa [Holds, List.getElem?_append_left hk.lt]
  have hright : (fun k ↦ Holds p (u ++ x :: v) (u.length + 1 + k)) = Holds p v := by
    refine funext fun k ↦ ?_
    rw [Holds, Holds, List.getElem?_append_right (by omega), Nat.add_assoc, Nat.add_sub_cancel_left,
      Nat.add_comm 1 k, List.getElem?_cons_succ]
  rw [isRun_split hsep, hleft]
  refine or_congr_right ⟨fun h ↦ ?_, ?_⟩
  · have hi := (h.all i le_rfl h.lt).2
    have hlt := h.lt
    refine ⟨i - (u.length + 1), j - (u.length + 1), ?_, Prod.ext (by simp [shift]; omega)
      (by simp [shift]; omega)⟩
    rw [← hright, isRun_shift, Nat.add_sub_cancel' (by omega), Nat.add_sub_cancel' (by omega)]
    exact h.congr fun k _ _ ↦ and_comm
  · rintro ⟨a, b, h, heq⟩
    obtain ⟨rfl, rfl⟩ := Prod.mk.inj heq
    rw [← hright, isRun_shift] at h
    exact h.congr fun k _ _ ↦ and_comm

/-- Ranges that are shifted make shifted cuts. -/
theorem mergeFrom_shift : mergeFrom (m + c) (ranges.map (shift m)) =
    (mergeFrom c ranges).map (shift m) := by
  induction ranges generalizing c with
  | nil => rfl
  | cons y ranges ih =>
    obtain ⟨a, b⟩ := y
    simp only [List.map_cons, shift, mergeFrom, Nat.add_le_add_iff_left]
    split
    · exact ih
    · rw [List.map_cons, shift, ← ih, Nat.add_max_add_left]

/-- **Ranges on two sides of an element make their cuts apart.** -/
theorem mergeFrom_append (hc : c ≤ u.length) (hle : ∀ y ∈ ranges, y.2 ≤ u.length)
    (hpos : ∀ y ∈ ranges', y.1 < y.2) :
    mergeFrom c (ranges ++ ranges'.map (shift (u.length + 1))) =
      mergeFrom c ranges ++ (mergeFrom 0 ranges').map (shift (u.length + 1)) := by
  induction ranges generalizing c with
  | nil =>
    cases ranges' with
    | nil => rfl
    | cons y ranges' =>
      obtain ⟨a, b⟩ := y
      have hab : a < b := hpos _ List.mem_cons_self
      have hfirst : ¬ u.length + 1 + b ≤ c := by omega
      have hstart : max (u.length + 1 + a) c = u.length + 1 + a := by omega
      have hzero : ¬ b ≤ 0 := by omega
      simp only [List.nil_append, List.map_cons, shift, mergeFrom, if_neg hfirst, if_neg hzero,
        hstart, mergeFrom_shift, Nat.max_zero]
  | cons y ranges ih =>
    obtain ⟨a, b⟩ := y
    obtain ⟨hb, hle⟩ := List.forall_mem_cons.mp hle
    rw [List.cons_append, mergeFrom, mergeFrom]
    split
    · exact ih hc hle
    · rw [ih hb hle, List.cons_append]

theorem cutOut_shift : cutOut marker (u ++ x :: v) (u.length + 1 + c)
    (cuts.map (shift (u.length + 1))) = cutOut marker v c cuts := by
  induction cuts generalizing c with
  | nil =>
    have hlen : (u ++ [x]).length = u.length + 1 := by simp
    rw [List.map_nil, cutOut, cutOut, List.append_cons, ← hlen, List.drop_length_add_append]
  | cons y cuts ih =>
    obtain ⟨a, b⟩ := y
    simp only [List.map_cons, shift, cutOut, part_right, ih]

/-- **Cuts on two sides of an element leave the two sides, and the element.** -/
theorem cutOut_append (h : Cut M u.length c cuts) :
    cutOut marker (u ++ x :: v) c (cuts ++ cuts'.map (shift (u.length + 1))) =
      cutOut marker u c cuts ++ x :: cutOut marker v 0 cuts' := by
  induction h with
  | @done c hc hkeep =>
    cases cuts' with
    | nil => rw [List.map_nil, List.nil_append, cutOut, cutOut, cutOut,
        List.drop_append_of_le_length hc, List.drop_zero]
    | cons y cuts' =>
      obtain ⟨a, b⟩ := y
      simp only [List.nil_append, List.map_cons, shift, cutOut, part_across hc, cutOut_shift, part,
        List.drop_zero, List.append_assoc, List.cons_append]
  | @next c a b cuts hca hab hkeep hcut hrest ih =>
    have hb := hrest.le
    rw [List.cons_append, cutOut, part_left (by omega), ih, cutOut, List.append_assoc,
      List.append_assoc]

end Cuts
