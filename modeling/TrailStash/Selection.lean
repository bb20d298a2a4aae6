import TrailStash.FixKeys
import TrailStash.Node

/-!
# What the release selector guarantees

Three results about `releaseDecisions` on the entries of one namespace.

The selector computes with saturating machine integers, in milliseconds, and finds the newest fix of
each author with a running maximum.  `releaseDecisions_exact` says that none of this shows: the
decisions are those of the policy stated in exact arithmetic on the microseconds of the entries.

The policy is meant to keep one fix for each author.  It compares authors by their decoded bytes and
fixes by sequence number with a strict `<`, so it does — unless two keys spell the author's newest
fix in different letter case (`retainedFixes_subsingleton_iff`).

Letting go of content cannot be undone, so a verdict must not flip.  It does not, while entries are
only added and the clock goes forward; and one sweep leaves nothing for a second
(`releaseDecisions_stable`).
-/

set_option autoImplicit false

namespace TrailStash

variable {entries : List RetentionEntry} {e e' : RetentionEntry} {policy : RetentionPolicy}
  {now : Nat} {author : Bytes}

/-! ## Exact arithmetic -/

/-- The window in exact arithmetic. -/
def Expired (hours now : Nat) (e : Entry) : Prop :=
  e.timestamp + hours * 3600000000 < now * 1000

instance (hours now : Nat) (e : Entry) : Decidable (Expired hours now e) :=
  inferInstanceAs (Decidable (_ < _))

/-- **The window.**  Neither the conversion to milliseconds nor saturation changes a verdict. -/
theorem isExpired_fromHours {hours : Nat} {e : Entry} (hnow : now ≤ u64Max) :
    (RetentionPolicy.fromHours hours).isExpired (entryWrittenMs e) now = true ↔
      Expired hours now e := by
  rw [RetentionPolicy.isExpired_iff, RetentionPolicy.fromHours, entryWrittenMs, Expired, satMul,
    msPerHour]
  rcases le_total (hours * 3600000) u64Max with hle | hle
  · rw [Nat.min_eq_left hle]
    dsimp only
    omega
  · -- the window saturates, and is longer than any clock reading
    rw [Nat.min_eq_right hle]
    dsimp only
    omega

/-- An entry as the selector is given it. -/
def Entry.forRetention (e : Entry) : RetentionEntry := ⟨e.key, entryWrittenMs e⟩

theorem releaseReason_isSuperseded {superseded expired : Bool} :
    (releaseReason superseded expired).any (·.isSuperseded) = superseded := by
  cases superseded <;> cases expired <;> rfl

theorem releaseReason_isExpired {superseded expired : Bool} :
    (releaseReason superseded expired).any (·.isExpired) = expired := by
  cases superseded <;> cases expired <;> rfl

/-- A key that does not decode is not superseded, and supersedes none. -/
theorem superseded_filter_iff {keys : List Bytes} {key : Bytes} :
    Superseded (keys.filter fun key ↦ (decodeFixKey key).isSome) key ↔ Superseded keys key := by
  refine exists_congr fun k ↦ and_congr_right fun _ ↦ exists_congr fun key' ↦ ?_
  rw [List.mem_filter, and_assoc]
  refine and_congr_right fun _ ↦ and_iff_right_of_imp ?_
  rintro ⟨k', hk', -⟩
  rw [hk', Option.isSome_some]

/-- **The selector is its policy.**  There is one decision for each entry.  It reports supersession
when the key decodes and some key of the list decodes to the same author with a larger sequence
number, and expiry when the entry was written before the window, in exact arithmetic.  Keys that do
not decode play no part in the first rule and are subject to the second. -/
theorem releaseDecisions_exact (entries : List Entry) (hours : Nat) (now : UInt64) :
    releaseDecisions (entries.map Entry.forRetention) (.fromHours hours) now.toNat =
      entries.map (fun e ↦ releaseReason (decide (Superseded (entries.map (·.key)) e.key))
        (decide (Expired hours now.toNat e))) ∧
    (∀ e decision, (e, decision) ∈ entries.zip (releaseDecisions (entries.map Entry.forRetention)
        (.fromHours hours) now.toNat) →
      (decision.any (·.isSuperseded) = true ↔ Superseded (entries.map (·.key)) e.key) ∧
      (decision.any (·.isExpired) = true ↔ Expired hours now.toNat e) ∧
      (decodeFixKey e.key = none → decision = if Expired hours now.toNat e then some .expired
        else none)) ∧
    ∀ key, Superseded ((entries.map (·.key)).filter fun key ↦ (decodeFixKey key).isSome) key ↔
      Superseded (entries.map (·.key)) key := by
  have hnow : now.toNat ≤ u64Max := Nat.le_sub_one_of_lt now.toNat_lt
  have hmap : releaseDecisions (entries.map Entry.forRetention) (.fromHours hours) now.toNat =
      entries.map fun e ↦ releaseReason (decide (Superseded (entries.map (·.key)) e.key))
        (decide (Expired hours now.toNat e)) := by
    rw [releaseDecisions_eq_map, List.map_map, List.map_map]
    refine List.map_congr_left fun e _ ↦ congrArg₂ releaseReason rfl ?_
    rw [Bool.eq_iff_iff, decide_eq_true_iff]
    exact isExpired_fromHours hnow
  refine ⟨hmap, fun e decision hmem ↦ ?_, fun key ↦ superseded_filter_iff⟩
  rw [hmap, ← List.map_prod_left_eq_zip] at hmem
  obtain ⟨e', -, heq⟩ := List.mem_map.mp hmem
  obtain ⟨rfl, rfl⟩ := Prod.mk.inj heq
  refine ⟨?_, ?_, fun hnone ↦ ?_⟩
  · rw [releaseReason_isSuperseded, decide_eq_true_iff]
  · rw [releaseReason_isExpired, decide_eq_true_iff]
  · have hnot : ¬ Superseded (entries.map (·.key)) e'.key := by
      rintro ⟨k, hk, -⟩
      exact absurd hk (by simp [hnone])
    rw [decide_eq_false hnot]
    split
    · next hexp => rw [decide_eq_true hexp, releaseReason]
    · next hexp => rw [decide_eq_false hexp, releaseReason]

/-! ## One fix for each author -/

/-- The entries that the selector keeps and whose key decodes to a fix of the author. -/
def retainedFixes (entries : List RetentionEntry) (policy : RetentionPolicy) (now : Nat)
    (author : Bytes) : Set RetentionEntry :=
  {e | (e, none) ∈ entries.zip (releaseDecisions entries policy now) ∧
    ∃ k, decodeFixKey e.key = some k ∧ k.author = author}

/-- The key of the entry decodes to a fix of the author, and no entry has a later one. -/
def IsLatest (entries : List RetentionEntry) (author : Bytes) (e : RetentionEntry) : Prop :=
  ∃ k, decodeFixKey e.key = some k ∧ k.author = author ∧
    ∀ e' ∈ entries, ∀ k', decodeFixKey e'.key = some k' → k'.author = author → k'.seq ≤ k.seq

/-- The decisions stand in the order of the entries. -/
theorem mem_zip_releaseDecisions {decision : Option ReleaseReason} :
    (e, decision) ∈ entries.zip (releaseDecisions entries policy now) ↔
      e ∈ entries ∧ decisionOn (entries.map (·.key)) policy now e = decision := by
  rw [releaseDecisions_eq_map, ← List.map_prod_left_eq_zip, List.mem_map]
  constructor
  · rintro ⟨e', he', heq⟩
    obtain ⟨rfl, hdecision⟩ := Prod.mk.inj heq
    exact ⟨he', hdecision⟩
  · rintro ⟨he, hdecision⟩
    exact ⟨e, he, by rw [hdecision]⟩

theorem mem_retainedFixes : e ∈ retainedFixes entries policy now author ↔
    e ∈ entries ∧ IsLatest entries author e ∧ policy.isExpired e.writtenMs now = false := by
  rw [retainedFixes, Set.mem_ofPred_eq, mem_zip_releaseDecisions, decisionOn_eq_none]
  constructor
  · rintro ⟨⟨he, hsup, hexp⟩, k, hk, hauthor⟩
    refine ⟨he, ⟨k, hk, hauthor, fun e' he' k' hk' hauthor' ↦ ?_⟩, hexp⟩
    by_contra hlt
    exact hsup ⟨k, hk, e'.key, List.mem_map_of_mem he', k', hk', hauthor'.trans hauthor.symm,
      not_le.mp hlt⟩
  · rintro ⟨he, ⟨k, hk, hauthor, hlatest⟩, hexp⟩
    refine ⟨⟨he, ?_, hexp⟩, k, hk, hauthor⟩
    rintro ⟨k₁, hk₁, key', hkey', k', hk', hauthor', hlt⟩
    obtain rfl : k = k₁ := Option.some.inj (hk.symm.trans hk₁)
    obtain ⟨e', he', rfl⟩ := List.mem_map.mp hkey'
    exact absurd (hlatest e' he' k' hk' (hauthor'.trans hauthor)) (not_le.mpr hlt)

/-- The latest fixes of an author have one sequence number. -/
theorem IsLatest.sameButCase (h : IsLatest entries author e) (h' : IsLatest entries author e')
    (he : e ∈ entries) (he' : e' ∈ entries) : SameButCase e.key e'.key := by
  obtain ⟨⟨a, n⟩, hk, rfl, hlatest⟩ := h
  obtain ⟨⟨a', n'⟩, hk', rfl, hlatest'⟩ := h'
  have hle : n' ≤ n := hlatest e' he' _ hk' rfl
  have hle' : n ≤ n' := hlatest' e he _ hk rfl
  obtain rfl : n = n' := le_antisymm hle' hle
  exact sameButCase_of_decodeFixKey hk hk'

/-- **One fix for each author.**  Of entries with distinct keys the selector keeps at most one fix
of an author exactly when, of any two keys that spell the author's latest fix and differ in the case
of letters, one belongs to an entry outside the window. -/
theorem retainedFixes_subsingleton_iff (hkeys : (entries.map (·.key)).Nodup) :
    (retainedFixes entries policy now author).Subsingleton ↔
      ∀ e ∈ entries, ∀ e' ∈ entries, e.key ≠ e'.key → SameButCase e.key e'.key →
        IsLatest entries author e → IsLatest entries author e' →
          policy.isExpired e.writtenMs now = true ∨ policy.isExpired e'.writtenMs now = true := by
  constructor
  · intro hone e he e' he' hne _ hlatest hlatest'
    by_contra hfresh
    rw [not_or, Bool.not_eq_true, Bool.not_eq_true] at hfresh
    exact hne (congrArg _ (hone (mem_retainedFixes.mpr ⟨he, hlatest, hfresh.1⟩)
      (mem_retainedFixes.mpr ⟨he', hlatest', hfresh.2⟩)))
  · intro hall e hmem e' hmem'
    obtain ⟨he, hlatest, hexp⟩ := mem_retainedFixes.mp hmem
    obtain ⟨he', hlatest', hexp'⟩ := mem_retainedFixes.mp hmem'
    by_contra hne
    have hkey : e.key ≠ e'.key := fun heq ↦ hne (List.inj_on_of_nodup_map hkeys he he' heq)
    have hsame : SameButCase e.key e'.key := hlatest.sameButCase hlatest' he he'
    rcases hall e he e' he' hkey hsame hlatest hlatest' with h | h
    · rw [hexp] at h
      exact absurd h (by simp)
    · rw [hexp'] at h
      exact absurd h (by simp)

/-- Fix number `d` of the author with the one byte `0xaa`, spelled in this way. -/
def spelledFix (hex : List Char) (d : UInt8) : RetentionEntry :=
  ⟨hex.map Char.toUInt8 ++ keySep :: (List.replicate 19 '0'.toUInt8 ++ ['0'.toUInt8 + d]), 0⟩

/-- Two fixes of an author whose keys are spelled alike. -/
theorem retainedFixes_alike : (retainedFixes [spelledFix ['a', 'a'] 1, spelledFix ['a', 'a'] 2]
    (.fromHours 1) 0 [0xaa]).Subsingleton := by
  refine (retainedFixes_subsingleton_iff (by decide)).mpr fun e he e' he' hne hsame ↦ ?_
  have halike : ∀ e ∈ [spelledFix ['a', 'a'] 1, spelledFix ['a', 'a'] 2],
      ∀ e' ∈ [spelledFix ['a', 'a'] 1, spelledFix ['a', 'a'] 2],
        e.key ≠ e'.key → ¬ SameButCase e.key e'.key := by decide
  exact absurd hsame (halike e he e' he' hne)

/-- **Two fixes of one author are kept**, if their keys spell the author once in lower and once in
upper case. -/
theorem exists_twinFixes : ¬ ∀ (entries : List RetentionEntry) (policy : RetentionPolicy)
    (now : Nat) (author : Bytes), (entries.map (·.key)).Nodup →
      (retainedFixes entries policy now author).Subsingleton := by
  intro hall
  let lower := spelledFix ['a', 'a'] 1
  let upper := spelledFix ['A', 'A'] 1
  have hfix : ∀ e ∈ [lower, upper], decodeFixKey e.key = some ⟨[0xaa], 1⟩ := by decide
  have hmem : ∀ e ∈ [lower, upper], e ∈ retainedFixes [lower, upper] (.fromHours 1) 0 [0xaa] := by
    intro e he
    refine mem_retainedFixes.mpr ⟨he, ⟨_, hfix e he, rfl, fun e' he' k' hk' _ ↦ ?_⟩, ?_⟩
    · rw [hfix e' he'] at hk'
      exact (congrArg FixKey.seq (Option.some.inj hk')).ge
    · exact decide_eq_false (by simp [RetentionPolicy.cutoff])
  have heq := hall [lower, upper] (.fromHours 1) 0 [0xaa] (by decide) (hmem lower (by simp))
    (hmem upper (by simp))
  exact absurd heq (by decide)

/-! ## Verdicts do not flip -/

/-- The entries that the selector keeps. -/
def keptEntries (entries : List RetentionEntry) (policy : RetentionPolicy) (now : Nat) :
    List RetentionEntry :=
  ((entries.zip (releaseDecisions entries policy now)).filter fun p ↦ p.2.isNone).map Prod.fst

theorem getElem?_releaseDecisions {i : Nat} (he : entries[i]? = some e) :
    (releaseDecisions entries policy now)[i]? =
      some (decisionOn (entries.map (·.key)) policy now e) := by
  rw [releaseDecisions_eq_map, List.getElem?_map, he, Option.map_some]

/-- A release is repeated later, and when there are more keys. -/
theorem decisionOn_ne_none_mono {keys keys' : List Bytes} {now' : Nat} (hsub : keys ⊆ keys')
    (hle : now ≤ now') (h : decisionOn keys policy now e ≠ none) :
    decisionOn keys' policy now' e ≠ none := by
  intro hnone
  obtain ⟨hsup, hexp⟩ := decisionOn_eq_none.mp hnone
  refine h (decisionOn_eq_none.mpr
    ⟨fun hs ↦ hsup (hs.mono hsub), Bool.eq_false_iff.mpr fun hx ↦ ?_⟩)
  rw [RetentionPolicy.isExpired_mono hle hx] at hexp
  exact absurd hexp (by simp)

theorem mem_keptEntries : e ∈ keptEntries entries policy now ↔
    e ∈ entries ∧ decisionOn (entries.map (·.key)) policy now e = none := by
  rw [← mem_zip_releaseDecisions, keptEntries, List.mem_map]
  constructor
  · rintro ⟨⟨e', decision⟩, hp, rfl⟩
    obtain ⟨hmem, hnone⟩ := List.mem_filter.mp hp
    obtain rfl : decision = none := Option.isNone_iff_eq_none.mp hnone
    exact hmem
  · intro hmem
    exact ⟨(e, none), List.mem_filter.mpr ⟨hmem, rfl⟩, rfl⟩

/-- **Verdicts do not flip.**  Wherever an entry that was released stands in a list with all the
entries there were, it is released at any later time.  And of the entries that are kept none is
released when the selector sees only these. -/
theorem releaseDecisions_stable (entries entries' : List RetentionEntry) (policy : RetentionPolicy)
    (now now' : Nat) (hsub : entries ⊆ entries') (hle : now ≤ now') :
    (∀ (i i' : Nat) (e : RetentionEntry) reason, entries[i]? = some e → entries'[i']? = some e →
      (releaseDecisions entries policy now)[i]? = some (some reason) →
        ∃ reason', (releaseDecisions entries' policy now')[i']? = some (some reason')) ∧
    ∀ decision ∈ releaseDecisions (keptEntries entries policy now) policy now,
      decision = none := by
  constructor
  · intro i i' e reason he he' hreason
    rw [getElem?_releaseDecisions he, Option.some_inj] at hreason
    have hwas : decisionOn (entries.map (·.key)) policy now e ≠ none := by simp [hreason]
    have hstill := decisionOn_ne_none_mono (List.map_subset (·.key) hsub) hle hwas
    obtain ⟨reason', hreason'⟩ := Option.ne_none_iff_exists'.mp hstill
    exact ⟨reason', by rw [getElem?_releaseDecisions he', hreason']⟩
  · intro decision hmem
    rw [releaseDecisions_eq_map, List.mem_map] at hmem
    obtain ⟨e, he, rfl⟩ := hmem
    obtain ⟨-, hnone⟩ := mem_keptEntries.mp he
    by_contra hreleased
    -- fewer keys cannot release what more keys keep
    have hkeys : (keptEntries entries policy now).map (·.key) ⊆ entries.map (·.key) :=
      List.map_subset _ fun e' he' ↦ (mem_keptEntries.mp he').1
    exact decisionOn_ne_none_mono hkeys le_rfl hreleased hnone

/-- A superseded fix stays superseded when a third fix arrives. -/
theorem releaseDecisions_stable_fixes :
    let fixes := [spelledFix ['a', 'a'] 1, spelledFix ['a', 'a'] 2]
    ∃ reason', (releaseDecisions (spelledFix ['a', 'a'] 3 :: fixes) (.fromHours 1) 7)[1]? =
      some (some reason') := by
  intro fixes
  exact (releaseDecisions_stable fixes (spelledFix ['a', 'a'] 3 :: fixes) (.fromHours 1) 5 7
    (List.subset_cons_self _ _) (by decide)).1 0 1 (spelledFix ['a', 'a'] 1) .superseded rfl rfl
      (by decide)

end TrailStash
