import TrailStash.Redaction

/-!
# What redaction leaves behind

Is a redacted line clean, so that redacting it again changes nothing?

The two scans do not see each other.  What one of them cuts out can end in the middle of a run of
the other, and a part of that run stays.  A part of an unmatched token never matches
(`not_isIdentityLike_loose`): if it did it would be hexadecimal, and an address that borders on it
would have gone on.  A part of an unmatched network run can be an address, when the token that was
cut out was what spoiled it.  `redactLogLine_clean_iff` says that this is the only way.
-/

set_option autoImplicit false

namespace TrailStash

open Slices Cuts

/-- A network character that is in no matched token. -/
def Bare (s : Bytes) (k : Nat) : Prop :=
  Holds isNetworkChar s k ∧ ¬ MatchedBy isOpaqueChar isIdentityLike s k

/-- Without the matched tokens, the network runs show no address that is not in an address already:
a longest stretch of network characters outside matched tokens, if it is an address, lies in a
network run that is one. -/
def NoneExposed (s : Bytes) : Prop :=
  ∀ i j, IsRun (Bare s) i j → isAddress (part s i j) = true →
    MatchedBy isNetworkChar isAddress s i

variable {isChar : UInt8 → Bool} {isMatch : Bytes → Bool} {s r : Bytes} {b : UInt8} {i j k : Nat}
  {M : Nat → Prop} {cuts : List (Nat × Nat)}

/-! ## Runs that match -/

theorem MatchedBy.holds (h : MatchedBy isChar isMatch s k) : Holds isChar s k := by
  obtain ⟨i, j, hrun, -, hik, hkj⟩ := h
  exact hrun.all k hik hkj

/-- A run matches as a whole. -/
theorem matchedBy_succ_iff (isMatch : Bytes → Bool) (hk : Holds isChar s k)
    (hk' : Holds isChar s (k + 1)) :
    MatchedBy isChar isMatch s k ↔ MatchedBy isChar isMatch s (k + 1) := by
  constructor
  · rintro ⟨i, j, hrun, hmatch, hik, hkj⟩
    have hne : j ≠ k + 1 := fun h ↦ hrun.after (h ▸ hk')
    exact ⟨i, j, hrun, hmatch, by omega, by omega⟩
  · rintro ⟨i, j, hrun, hmatch, hik, hkj⟩
    have hne : i ≠ k + 1 := fun h ↦ hrun.before k h.symm hk
    exact ⟨i, j, hrun, hmatch, by omega, by omega⟩

theorem exists_matchedBy_iff :
    (∃ k, MatchedBy isChar isMatch s k) ↔ ∃ r, HasRun isChar s r ∧ isMatch r = true := by
  constructor
  · rintro ⟨k, i, j, hrun, hmatch, -⟩
    exact ⟨part s i j, ⟨i, j, hrun, rfl⟩, hmatch⟩
  · rintro ⟨-, ⟨i, j, hrun, rfl⟩, hmatch⟩
    exact ⟨i, i, j, hrun, hmatch, le_rfl, hrun.lt⟩

/-! ## The marker -/

theorem fenced_redacted_network : Fenced isNetworkChar redacted :=
  ⟨'['.toUInt8, asBytes "REDACTED", ']'.toUInt8, by decide, by decide, by decide⟩

theorem fenced_redacted_opaque : Fenced isOpaqueChar redacted :=
  ⟨'['.toUInt8, asBytes "REDACTED", ']'.toUInt8, by decide, by decide, by decide⟩

/-- No part of the marker matches. -/
theorem redacted_clean (h : HasRun isChar redacted r) :
    isAddress r = false ∧ isIdentityLike r = false := by
  have hparts : ∀ i < 11, ∀ j < 11, isAddress (part redacted i j) = false ∧
      isIdentityLike (part redacted i j) = false := by decide +kernel
  obtain ⟨i, j, hrun, rfl⟩ := h
  have hj : j ≤ 10 := hrun.end_le_length
  have hlt := hrun.lt
  exact hparts i (by omega) j (by omega)

/-! ## Tokens -/

/-- The positions of a token that are in no address. -/
abbrev Loose (s : Bytes) (k : Nat) : Prop :=
  Holds isOpaqueChar s k ∧ ¬ MatchedBy isNetworkChar isAddress s k

/-- What is left of a token, if it begins with a network character, begins where the token does: an
address before it would have gone on. -/
theorem loose_starts (h : IsRun (Loose s) i j) (hi : Holds isNetworkChar s i) :
    ∀ k, k + 1 = i → ¬ Holds isOpaqueChar s k := by
  rintro k rfl hk
  have hmatched : MatchedBy isNetworkChar isAddress s k := by
    by_contra hnot
    exact h.before k rfl ⟨hk, hnot⟩
  exact (h.all (k + 1) le_rfl h.lt).2 ((matchedBy_succ_iff _ hmatched.holds hi).mp hmatched)

/-- Likewise at the end. -/
theorem loose_ends (h : IsRun (Loose s) i j) (hj : Holds isNetworkChar s (j - 1)) :
    ¬ Holds isOpaqueChar s j := by
  intro hk
  have hlt := h.lt
  have hmatched : MatchedBy isNetworkChar isAddress s j := by
    by_contra hnot
    exact h.after ⟨hk, hnot⟩
  have hstep := matchedBy_succ_iff isAddress hj
  rw [Nat.sub_add_cancel (by omega)] at hstep
  exact (h.all (j - 1) (by omega) (by omega)).2 ((hstep hmatched.holds).mpr hmatched)

/-- **What is left of an unmatched token does not match.** -/
theorem not_isIdentityLike_loose (h : IsRun (Loose s) i j)
    (hnot : ¬ MatchedBy isOpaqueChar isIdentityLike s i) :
    isIdentityLike (part s i j) = false := by
  rw [Bool.eq_false_iff]
  intro hlike
  have hlt := h.lt
  have hj : j ≤ s.length := by
    have hlast := (h.all (j - 1) (by omega) (by omega)).1.lt
    omega
  have hparts := hlike
  rw [isIdentityLike, Bool.and_eq_true, decide_eq_true_iff, Bool.or_eq_true,
    length_part hj] at hparts
  rcases hparts.2 with hdigit | hhex
  · -- the token is as long, and has the digit as well
    obtain ⟨a, e, hrun, hai, hie⟩ :=
      exists_isRun (h.all i le_rfl hlt).1 ⟨s.length, fun m hm hm' ↦ absurd hm'.lt (by omega)⟩
    have hje : j ≤ e := by
      by_contra hej
      exact hrun.after (h.all e (by omega) (by omega)).1
    have he := hrun.end_le_length
    obtain ⟨x, hx, hxd⟩ := List.any_eq_true.mp hdigit
    obtain ⟨k, hik, hkj, hk⟩ := (mem_part hj).mp hx
    have hmem : x ∈ part s a e := (mem_part he).mpr ⟨k, by omega, by omega, hk⟩
    refine hnot ⟨a, e, hrun, ?_, hai, hie⟩
    rw [isIdentityLike, decide_eq_true (by rw [length_part he]; omega), Bool.true_and,
      List.any_eq_true.mpr ⟨x, hmem, hxd⟩, Bool.true_or]
  · -- it is hexadecimal, so it is all of the token
    have hnetwork : ∀ k, i ≤ k → k < j → Holds isNetworkChar s k := fun k hik hkj ↦ by
      have hks : k < s.length := by omega
      have hmem : s[k] ∈ part s i j :=
        (mem_part hj).mpr ⟨k, hik, hkj, List.getElem?_eq_getElem hks⟩
      exact holds_iff.mpr ⟨hks, isNetworkChar_of_hexdigit (List.all_eq_true.mp hhex _ hmem)⟩
    have hrun : IsRun (Holds isOpaqueChar s) i j :=
      ⟨hlt, fun k hik hkj ↦ (h.all k hik hkj).1, loose_starts h (hnetwork i le_rfl hlt),
        loose_ends h (hnetwork (j - 1) (by omega) (by omega))⟩
    exact hnot ⟨i, j, hrun, hlike, le_rfl, hlt⟩

/-! ## Redacting again -/

/-- The positions that stay, as `isRun_diff_iff` has them. -/
theorem stays_iff {P A B : Prop} : (0 ≤ k ∧ ¬ (A ∨ B) ∧ P) ↔ P ∧ ¬ A ∧ ¬ B := by
  rw [not_or, and_iff_right (Nat.zero_le k), and_comm]

/-- The network runs of what is left that are addresses were exposed. -/
theorem address_left_iff (hcut : Cut (Matched s) s.length 0 cuts) :
    (∃ k, MatchedBy isNetworkChar isAddress (cutOut redacted s 0 cuts) k) ↔ ¬ NoneExposed s := by
  have hleft : ∀ i j, IsRun (fun k ↦ 0 ≤ k ∧ ¬ Matched s k ∧ Holds isNetworkChar s k) i j ↔
      IsRun (Bare s) i j ∧ ¬ MatchedBy isNetworkChar isAddress s i := fun i j ↦ by
    simp only [Matched, stays_iff]
    exact isRun_diff_iff fun k ↦ matchedBy_succ_iff isAddress
  rw [exists_matchedBy_iff]
  simp only [hasRun_cutOut hcut fenced_redacted_network, hleft, NoneExposed, not_forall]
  constructor
  · rintro ⟨r, ⟨-, hr⟩ | ⟨i, j, ⟨hrun, hnot⟩, rfl⟩, hmatch⟩
    · exact absurd hmatch (by rw [(redacted_clean hr).1]; decide)
    · exact ⟨i, j, hrun, hmatch, hnot⟩
  · rintro ⟨i, j, hrun, hmatch, hnot⟩
    exact ⟨_, Or.inr ⟨i, j, ⟨hrun, hnot⟩, rfl⟩, hmatch⟩

/-- No token of what is left matches. -/
theorem no_identity_left (hcut : Cut (Matched s) s.length 0 cuts) :
    ¬ ∃ k, MatchedBy isOpaqueChar isIdentityLike (cutOut redacted s 0 cuts) k := by
  rw [exists_matchedBy_iff]
  rintro ⟨r, hr, hmatch⟩
  rcases (hasRun_cutOut hcut fenced_redacted_opaque).mp hr with ⟨-, hr⟩ | ⟨i, j, hrun, rfl⟩
  · exact absurd hmatch (by rw [(redacted_clean hr).2]; decide)
  · simp only [Matched, or_comm (a := MatchedBy isNetworkChar _ _ _), stays_iff] at hrun
    have hA : ∀ k, Holds isOpaqueChar s k → Holds isOpaqueChar s (k + 1) →
        (MatchedBy isOpaqueChar isIdentityLike s k ↔
          MatchedBy isOpaqueChar isIdentityLike s (k + 1)) :=
      fun k ↦ matchedBy_succ_iff isIdentityLike
    obtain ⟨hleft, hnot⟩ := (isRun_diff_iff hA).mp hrun
    exact absurd hmatch (by rw [not_isIdentityLike_loose hleft hnot]; decide)

/-- A line that redaction does not change has nothing that matches: a marker adds brackets. -/
theorem redactLogLine_fixed_iff (hs : IsText s) :
    redactLogLine s = .ok s ↔ ∀ k, ¬ Matched s k := by
  obtain ⟨cuts, hcut, hout, -⟩ := redactLogLine_eq hs
  have hreplaces : Replaces redacted s (Matched s) 0 (cutOut redacted s 0 cuts) :=
    replaces_cutOut hcut
  rw [hout]
  constructor
  · intro hsame k hk
    obtain ⟨hks, -⟩ := hk.ascii
    have hbracket : ∀ k, Matched s k → s[k]? ≠ some '['.toUInt8 := fun k hk heq ↦ by
      rcases hk with hk | hk
      · exact absurd hk.holds (by rw [Holds, heq]; decide)
      · exact absurd hk.holds (by rw [Holds, heq]; decide)
    have hmore := hreplaces.count_lt hbracket (by decide) (Nat.zero_le k) hks hk
    rw [Except.ok.inj hsame, List.drop_zero] at hmore
    exact lt_irrefl _ hmore
  · intro hnone
    rw [hreplaces.eq_drop hnone, List.drop_zero]

/-- **When is a redacted line clean?**  Redacting it again changes nothing, and nothing in it
matches, exactly if cutting out the matched tokens exposes no address. -/
theorem redactLogLine_clean_iff (line : String) : ∃ out : String,
    redactLogLine (asBytes line) = .ok (asBytes out) ∧
      (redactLogLine (asBytes out) = .ok (asBytes out) ↔ NoneExposed (asBytes line)) ∧
      ((∀ k, ¬ Matched (asBytes out) k) ↔ NoneExposed (asBytes line)) := by
  obtain ⟨cuts, hcut, hout, htext⟩ := redactLogLine_eq (isText_asBytes line)
  obtain ⟨out, hbytes⟩ := htext.exists_asBytes
  have hclean : (∀ k, ¬ Matched (asBytes out) k) ↔ NoneExposed (asBytes line) := by
    rw [← not_iff_not, ← address_left_iff hcut, ← hbytes, not_forall]
    simp only [Matched, not_not, exists_or]
    rw [or_iff_left]
    rw [hbytes]
    exact no_identity_left hcut
  exact ⟨out, by rw [hbytes, hout],
    (redactLogLine_fixed_iff (isText_asBytes out)).trans hclean, hclean⟩

/-- A token of 32 digits before the loopback address: the run of both is no address, the token goes,
and the address stays. -/
theorem exists_exposed : ¬ ∀ line out : String,
    redactLogLine (asBytes line) = .ok (asBytes out) →
      redactLogLine (asBytes out) = .ok (asBytes out) := by
  intro hclean
  have hfirst : redactLogLine (asBytes "node=0123456789abcdef0123456789abcdef::1") =
      .ok (asBytes "[REDACTED]::1") := by decide +kernel
  have hagain : redactLogLine (asBytes "[REDACTED]::1") =
      .ok (asBytes "[REDACTED][REDACTED]") := by decide +kernel
  have hsame := hagain.symm.trans (hclean _ _ hfirst)
  exact absurd hsame (by decide +kernel)

end TrailStash
