import TrailStash.Config

/-!
# The pre-shared key

Requests on the `/v1` routes pass a gate.  Three pieces of code have to agree on every string: the
configuration trims the key it is given, `bearerToken` takes a header apart and trims what is left,
and `ctEq` compares two byte strings without stopping at the first difference.  `psk_gate` says that
the gate lets a request through exactly when it carries the key, whatever key the environment can
yield.
-/

set_option autoImplicit false

namespace TrailStash

/-! ## The gate -/

/-- Outcome of checking a request's bearer against the configured key. -/
inductive AuthOutcome
  /-- No key is configured: the gate is disabled. -/
  | disabled
  /-- The bearer matched. -/
  | ok
  /-- A key is configured, and the bearer was missing or wrong. -/
  | denied
  deriving DecidableEq, Repr

/-- Whether the request may proceed. -/
def AuthOutcome.isAllowed : AuthOutcome → Bool
  | .disabled | .ok => true
  | .denied => false

/-- The bitwise differences of two byte strings, or-ed together. -/
def ctDiff : Bytes → Bytes → UInt8 → UInt8
  | x :: a, y :: b, diff => ctDiff a b (diff ||| (x ^^^ y))
  | _, _, diff => diff

/-- Comparison of byte strings that looks at all of both. -/
def ctEq (a b : Bytes) : Bool :=
  if a.length ≠ b.length then false else ctDiff a b 0 == 0

/-- Decide whether a request may proceed. -/
def authorize (expected provided : Option String) : AuthOutcome :=
  match expected with
  | none => .disabled
  | some psk =>
    match provided with
    | some tok => if ctEq (asBytes psk) (asBytes tok) then .ok else .denied
    | none => .denied

/-- `str::split_once` -/
def splitOnce (c : Char) (s : String) : Option (String × String) :=
  (s.toList.findIdx? (· == c)).map fun i ↦
    (String.ofList (s.toList.take i), String.ofList (s.toList.drop (i + 1)))

/-- `str::eq_ignore_ascii_case` -/
def eqIgnoreAsciiCase (s t : String) : Bool :=
  s.toList.map Char.toLower == t.toList.map Char.toLower

/-- The token of an `Authorization` header value `Bearer <token>`. -/
def bearerToken (headerValue : Option String) : Option String := do
  let v ← headerValue.map trim
  let (scheme, token) ← splitOnce ' ' v
  if eqIgnoreAsciiCase scheme "bearer" && !(trim token).isEmpty then some (trim token) else none

/-- The gate in front of the protected routes, given the header as a string, if it has one: what it
answers, or nothing if it lets the request through. -/
def pskGuard (psk header : Option String) : Option Response :=
  if (authorize psk (bearerToken header)).isAllowed then none
  else some ⟨401, "missing or invalid pre-shared key"⟩

/-! ## The comparison -/

/-- **No difference is lost on the way.** -/
theorem ctDiff_eq_zero_iff {a b : Bytes} {diff : UInt8} (hlen : a.length = b.length) :
    ctDiff a b diff = 0 ↔ diff = 0 ∧ a = b := by
  induction a generalizing b diff with
  | nil =>
    obtain rfl : b = [] := List.length_eq_zero_iff.mp hlen.symm
    rw [ctDiff]
    · exact (and_iff_left rfl).symm
    · exact nofun
  | cons x a ih =>
    match b, hlen with
    | y :: b, hlen =>
      rw [ctDiff, ih (Nat.succ.inj hlen), UInt8.or_eq_zero_iff, UInt8.xor_eq_zero_iff, and_assoc,
        List.cons.injEq]

theorem ctEq_iff {a b : Bytes} : ctEq a b = true ↔ a = b := by
  rw [ctEq]
  split
  · next hlen => exact iff_of_false Bool.false_ne_true fun heq ↦ hlen (congrArg List.length heq)
  · next hlen =>
    rw [beq_iff_eq, ctDiff_eq_zero_iff (not_not.mp hlen)]
    exact and_iff_right rfl

theorem isAllowed_authorize {expected provided : Option String} :
    (authorize expected provided).isAllowed = true ↔
      expected = none ∨ ∃ psk, expected = some psk ∧ ∃ tok, provided = some tok ∧
        asBytes tok = asBytes psk := by
  cases expected with
  | none => simp [authorize, AuthOutcome.isAllowed]
  | some psk =>
    cases provided with
    | none => simp [authorize, AuthOutcome.isAllowed]
    | some tok =>
      rw [authorize]
      split
      · next heq => simp [AuthOutcome.isAllowed, ctEq_iff.mp heq]
      · next hne =>
        rw [ctEq_iff] at hne
        simp [AuthOutcome.isAllowed, Ne.symm hne]

/-! ## The header -/

/-- Where a string is split. -/
theorem splitOnce_eq_some_iff {c : Char} {v scheme rest : String} :
    splitOnce c v = some (scheme, rest) ↔
      v.toList = scheme.toList ++ c :: rest.toList ∧ c ∉ scheme.toList := by
  rw [splitOnce, Option.map_eq_some_iff]
  constructor
  · rintro ⟨i, hi, heq⟩
    obtain ⟨hlt, hc, hbefore⟩ := List.findIdx?_eq_some_iff_getElem.mp hi
    obtain ⟨rfl, rfl⟩ := Prod.mk.inj heq
    rw [String.toList_ofList, String.toList_ofList]
    constructor
    · rw [← beq_iff_eq.mp hc, ← List.drop_eq_getElem_cons hlt, List.take_append_drop]
    · intro hmem
      obtain ⟨j, hj, hget⟩ := List.mem_iff_getElem.mp hmem
      rw [List.length_take] at hj
      rw [List.getElem_take] at hget
      exact absurd (beq_iff_eq.mpr hget) (hbefore j (by omega))
  · rintro ⟨hv, hnot⟩
    refine ⟨scheme.toList.length, ?_, ?_⟩
    · have hnone : scheme.toList.findIdx? (· == c) = none := by
        refine List.findIdx?_eq_none_iff.mpr fun c' hc' ↦ beq_eq_false_iff_ne.mpr ?_
        rintro rfl
        exact hnot hc'
      rw [hv, List.findIdx?_append, hnone, List.findIdx?_cons, beq_self_eq_true]
      simp
    · rw [hv, List.take_left, ← List.drop_drop, List.drop_left, List.drop_one, List.tail_cons,
        String.ofList_toList, String.ofList_toList]

/-- What a header has to look like to carry a token. -/
theorem bearerToken_eq_some_iff {header : Option String} {tok : String} :
    bearerToken header = some tok ↔ ∃ v scheme rest, header = some v ∧
      (trim v).toList = scheme.toList ++ ' ' :: rest.toList ∧ ' ' ∉ scheme.toList ∧
        eqIgnoreAsciiCase scheme "bearer" = true ∧ trim rest = tok ∧ tok ≠ "" := by
  cases header with
  | none => simp [bearerToken]
  | some v =>
    rw [bearerToken, Option.map_some, Option.bind_eq_bind, Option.bind_some]
    constructor
    · intro h
      obtain ⟨⟨scheme, rest⟩, hsplit, hif⟩ := Option.bind_eq_some_iff.mp h
      obtain ⟨hv, hnot⟩ := splitOnce_eq_some_iff.mp hsplit
      dsimp only at hif
      split at hif
      · next hcond =>
        rw [Bool.and_eq_true] at hcond
        obtain rfl := Option.some.inj hif
        exact ⟨v, scheme, rest, rfl, hv, hnot, hcond.1, rfl, by simpa using hcond.2⟩
      · exact absurd hif (by simp)
    · rintro ⟨v', scheme, rest, heq, hv, hnot, hscheme, rfl, hne⟩
      obtain rfl := Option.some.inj heq
      refine Option.bind_eq_some_iff.mpr
        ⟨(scheme, rest), splitOnce_eq_some_iff.mpr ⟨hv, hnot⟩, ?_⟩
      dsimp only
      rw [if_pos]
      rw [hscheme, Bool.true_and]
      simpa using hne

/-- A trimmed string stays what it is behind a word. -/
theorem trim_append {word s : String} {c : Char} {l : List Char} (hs : IsTrimmed s)
    (hword : word.toList = c :: l) (hc : isWhitespace c = false) :
    trim (word ++ s) = word ++ s := by
  obtain ⟨hne, htrim⟩ := hs
  have hlist : s.toList ≠ [] := fun hnil ↦ hne (String.toList_eq_nil_iff.mp hnil)
  -- nothing is cut off the end
  have hend : s.toList.rdropWhile isWhitespace = s.toList := by
    have hfix := congrArg String.toList htrim
    rw [trim, String.toList_ofList] at hfix
    rw [← hfix, List.rdropWhile_idempotent]
  have hboth : (word ++ s).toList.rdropWhile isWhitespace = (word ++ s).toList := by
    rw [List.rdropWhile_eq_self_iff] at hend ⊢
    intro hnil
    have hlast : (word ++ s).toList.getLast hnil = s.toList.getLast hlist := by
      simp only [String.toList_append]
      exact List.getLast_append_of_ne_nil _ hlist
    rw [hlast]
    exact hend hlist
  have hstart : (word ++ s).toList.dropWhile isWhitespace = (word ++ s).toList := by
    rw [String.toList_append, hword, List.cons_append, List.dropWhile_cons_of_neg (by simp [hc])]
  rw [trim, hstart, hboth, String.ofList_toList]

/-! ## The main result -/

/-- **The gate admits exactly the holders of the key.**  A request passes if no key is configured,
or if its header, trimmed, is split by its first space into the word `bearer` in whatever case and
a rest that, trimmed, is the key byte for byte.  The header `Bearer <key>` passes for every key that
the environment can yield. -/
theorem psk_gate (get : String → Option String) :
    (∀ header, (authorize (StashConfig.fromEnv get).psk (bearerToken header)).isAllowed = true ↔
      (StashConfig.fromEnv get).psk = none ∨ ∃ key v scheme rest,
        (StashConfig.fromEnv get).psk = some key ∧ header = some v ∧
          (trim v).toList = scheme.toList ++ ' ' :: rest.toList ∧ ' ' ∉ scheme.toList ∧
            eqIgnoreAsciiCase scheme "bearer" = true ∧ asBytes (trim rest) = asBytes key) ∧
    (∀ key, (StashConfig.fromEnv get).psk = some key →
      (authorize (StashConfig.fromEnv get).psk (bearerToken (some ("Bearer " ++ key)))).isAllowed =
        true) ∧
    ∀ header, pskGuard (StashConfig.fromEnv get).psk header = none ↔
      (authorize (StashConfig.fromEnv get).psk (bearerToken header)).isAllowed = true := by
  have hwf := StashConfig.wellFormed_fromEnv get
  refine ⟨fun header ↦ ?_, fun key hkey ↦ ?_, fun header ↦ ?_⟩
  · rw [isAllowed_authorize]
    refine or_congr_right (exists_congr fun key ↦ ?_)
    constructor
    · rintro ⟨hkey, tok, htok, hbytes⟩
      obtain ⟨v, scheme, rest, hheader, hv, hnot, hscheme, rfl, -⟩ :=
        bearerToken_eq_some_iff.mp htok
      exact ⟨v, scheme, rest, hkey, hheader, hv, hnot, hscheme, hbytes⟩
    · rintro ⟨v, scheme, rest, hkey, hheader, hv, hnot, hscheme, hbytes⟩
      -- the key is not empty, so neither is the token
      have hne : trim rest ≠ "" := fun hempty ↦
        (hwf.psk key hkey).1 ((asBytes_inj hbytes).symm.trans hempty)
      exact ⟨hkey, trim rest, bearerToken_eq_some_iff.mpr
        ⟨v, scheme, rest, hheader, hv, hnot, hscheme, rfl, hne⟩, hbytes⟩
  · have htrimmed := hwf.psk key hkey
    have htoken : bearerToken (some ("Bearer " ++ key)) = some key := by
      refine bearerToken_eq_some_iff.mpr ⟨"Bearer " ++ key, "Bearer", key, rfl, ?_, by decide,
        by decide, htrimmed.2, htrimmed.1⟩
      rw [trim_append htrimmed rfl rfl, String.toList_append]
      rfl
    exact isAllowed_authorize.mpr (.inr ⟨key, hkey, key, htoken, rfl⟩)
  · rw [pskGuard, ite_eq_left_iff]
    simp

/-- An environment that yields a key. -/
example : (StashConfig.fromEnv fun name ↦
    if name = "TRAIL_STASH_PSK" then some " s3cret " else none).psk = some "s3cret" := by decide

end TrailStash
