import TrailStash.FixKeys

/-!
# Network addresses in a text

`candidate.parse::<IpAddr>()` and `candidate.parse::<SocketAddr>()`, as the standard library reads
them: a reader takes a value off the front of the bytes and leaves the rest, or fails and takes
nothing, and a text is an address if a reader takes all of it.

The readers of dotted quads look one byte ahead at most: `readIpv4Addr_append` and
`readSocketAddrV4_append` say that they read the same when something follows that is no digit.
-/

set_option autoImplicit false

namespace TrailStash

/-- A reader: the value and what is left, or `none` if it fails. -/
abbrev Reader (α : Type) := Bytes → Option (α × Bytes)

/-- `'.'` -/
def dot : UInt8 := '.'.toUInt8

/-- `':'` -/
def colon : UInt8 := ':'.toUInt8

/-- `char::from(b).to_digit(radix)`, for a radix of 16 at most. -/
def toDigit (radix : Nat) (b : UInt8) : Option Nat :=
  (toDigit16 b).bind fun d ↦ if d.toNat < radix then some d.toNat else none

/-- `read_given_char` -/
def readGivenChar (target : UInt8) : Bytes → Option Bytes
  | [] => none
  | b :: rest => if b = target then some rest else none

/-- `read_separator`: the separator stands before every item but the first. -/
def readSeparator {α : Type} (sep : UInt8) (index : Nat) (inner : Reader α) : Reader α := fun s ↦
  if 0 < index then (readGivenChar sep s).bind inner else inner s

/-- The loop of `read_number`: the value and the number of the digits, unless they are too many. -/
def readDigits (radix : Nat) (tooMany : Nat → Nat → Bool) (result digitCount : Nat) :
    Bytes → Option ((Nat × Nat) × Bytes)
  | [] => some ((result, digitCount), [])
  | b :: rest =>
    match toDigit radix b with
    | none => some ((result, digitCount), b :: rest)
    | some digit =>
      let result := result * radix + digit
      let digitCount := digitCount + 1
      if tooMany result digitCount then none else readDigits radix tooMany result digitCount rest

/-- `read_number::<T>`, where `max` is `T::MAX`.  With a bound on the digits the value is checked
at the end; without one, each multiplication and each addition is. -/
def readNumber (max radix : Nat) (maxDigits : Option Nat) (allowZeroPrefix : Bool) : Reader Nat :=
  fun s ↦ do
    let hasLeadingZero := s.head? == some '0'.toUInt8
    let tooMany := fun result digitCount ↦
      match maxDigits with
      | some maxDigits => decide (maxDigits < digitCount)
      | none => decide (max < result)
    let ((result, digitCount), rest) ← readDigits radix tooMany 0 0 s
    if digitCount = 0 then none
    else if !allowZeroPrefix && hasLeadingZero && decide (1 < digitCount) then none
    else if result ≤ max then some (result, rest) else none

/-- The loop of `read_ipv4_addr`: `n` more octets, from the given index on. -/
def readOctets : Nat → Nat → Reader (List Nat)
  | 0, _, s => some ([], s)
  | n + 1, i, s => do
    let (octet, s) ← readSeparator dot i (readNumber 255 10 (some 3) false) s
    let (octets, s) ← readOctets n (i + 1) s
    some (octet :: octets, s)

/-- `read_ipv4_addr` -/
def readIpv4Addr : Reader (List Nat) := readOctets 4 0

/-- Two octets as a group of an IPv6 address. -/
def toGroups : List Nat → List Nat
  | one :: two :: octets => (one * 256 + two) :: toGroups octets
  | _ => []

/-- `read_groups`, with `n` of the `limit` groups still to read: the groups, and whether an IPv4
address was read for the last two of them. -/
def readGroups (limit : Nat) : Nat → Bytes → (List Nat × Bool) × Bytes
  | 0, s => (([], false), s)
  | n + 1, s =>
    let i := limit - (n + 1)
    match if i < limit - 1 then readSeparator colon i readIpv4Addr s else none with
    | some (octets, s) => ((toGroups octets, true), s)
    | none =>
      match readSeparator colon i (readNumber 0xffff 16 (some 4) true) s with
      | none => (([], false), s)
      | some (group, s) =>
        let ((groups, ipv4), s) := readGroups limit n s
        ((group :: groups, ipv4), s)

/-- `read_ipv6_addr` -/
def readIpv6Addr : Reader (List Nat) := fun s ↦
  let ((head, headIpv4), s) := readGroups 8 8 s
  if head.length = 8 then some (head, s)
  else if headIpv4 then none
  else do
    let s ← readGivenChar colon s
    let s ← readGivenChar colon s
    -- `::` stands for one group of zeros at least
    let limit := 8 - (head.length + 1)
    let ((tail, _), s) := readGroups limit limit s
    some (head ++ List.replicate (8 - head.length - tail.length) 0 ++ tail, s)

/-- `IpAddr` -/
inductive IpAddr
  /-- Four octets. -/
  | v4 (octets : List Nat)
  /-- Eight groups. -/
  | v6 (groups : List Nat)
  deriving DecidableEq, Repr

/-- `SocketAddr`, without the flow information, which is not read. -/
inductive SocketAddr
  /-- An address and a port. -/
  | v4 (octets : List Nat) (port : Nat)
  /-- An address, a port and a scope. -/
  | v6 (groups : List Nat) (port scopeId : Nat)
  deriving DecidableEq, Repr

/-- `read_ip_addr` -/
def readIpAddr : Reader IpAddr := fun s ↦
  match readIpv4Addr s with
  | some (octets, s) => some (.v4 octets, s)
  | none => (readIpv6Addr s).map fun x ↦ (.v6 x.1, x.2)

/-- `read_port` -/
def readPort : Reader Nat := fun s ↦ (readGivenChar colon s).bind (readNumber 0xffff 10 none true)

/-- `read_scope_id` -/
def readScopeId : Reader Nat := fun s ↦
  (readGivenChar '%'.toUInt8 s).bind (readNumber 0xffffffff 10 none true)

/-- `read_socket_addr_v4` -/
def readSocketAddrV4 : Reader SocketAddr := fun s ↦ do
  let (octets, s) ← readIpv4Addr s
  let (port, s) ← readPort s
  some (.v4 octets port, s)

/-- `read_socket_addr_v6` -/
def readSocketAddrV6 : Reader SocketAddr := fun s ↦ do
  let s ← readGivenChar '['.toUInt8 s
  let (groups, s) ← readIpv6Addr s
  let (scopeId, s) := (readScopeId s).getD (0, s)
  let s ← readGivenChar ']'.toUInt8 s
  let (port, s) ← readPort s
  some (.v6 groups port scopeId, s)

/-- `read_socket_addr` -/
def readSocketAddr : Reader SocketAddr := fun s ↦
  match readSocketAddrV4 s with
  | some x => some x
  | none => readSocketAddrV6 s

/-- `parse_with`: the reader takes all of the text. -/
def parseWith {α : Type} (read : Reader α) (s : Bytes) : Option α :=
  match read s with
  | some (a, []) => some a
  | _ => none

/-! ## Dotted quads -/

variable {α β : Type} {read : Reader α} {s rest t : Bytes} {b : UInt8} {n i d max : Nat}

/-- A byte of a dotted quad with a port. -/
def IsQuadByte (b : UInt8) : Prop := isAsciiDigit b = true ∨ b = dot ∨ b = colon

/-- The text is empty or does not begin with a digit. -/
def NoDigit (t : Bytes) : Prop := ∀ b ∈ t.head?, toDigit 10 b = none

/-- A reader of dotted quads: it takes bytes of these only, and reads the same when something
follows that does not begin with a digit. -/
structure ReadsQuads (read : Reader α) : Prop where
  /-- What it takes. -/
  took : ∀ {s x rest}, read s = some (x, rest) →
    ∃ pre, s = pre ++ rest ∧ ∀ b ∈ pre, IsQuadByte b
  /-- What may follow. -/
  append : ∀ {s x rest t}, read s = some (x, rest) → NoDigit t →
    read (s ++ t) = some (x, rest ++ t)

theorem isAsciiDigit_of_toDigit (h : toDigit 10 b = some d) : isAsciiDigit b = true := by
  have hall : ∀ b, (toDigit 10 b).isSome = true → isAsciiDigit b = true :=
    forall_byte (by decide +kernel)
  exact hall b (by rw [h]; rfl)

theorem readGivenChar_eq_some_iff : readGivenChar b s = some rest ↔ s = b :: rest := by
  rcases s with - | ⟨x, s⟩
  · exact iff_of_false nofun nofun
  · rw [readGivenChar]
    split
    · next hx => rw [hx, Option.some.injEq, List.cons.injEq, and_iff_right rfl]
    · next hx => exact iff_of_false nofun fun h ↦ hx (List.cons.inj h).1

namespace ReadsQuads

theorem pure (x : α) : ReadsQuads fun s ↦ some (x, s) where
  took h := by
    obtain ⟨-, rfl⟩ := Prod.mk.inj (Option.some.inj h)
    exact ⟨[], rfl, nofun⟩
  append h _ := by
    obtain ⟨rfl, rfl⟩ := Prod.mk.inj (Option.some.inj h)
    rfl

/-- One reader after another. -/
theorem bind {next : α → Reader β} (h : ReadsQuads read) (h' : ∀ x, ReadsQuads (next x)) :
    ReadsQuads fun s ↦ (read s).bind fun x ↦ next x.1 x.2 where
  took hs := by
    obtain ⟨⟨x, mid⟩, hread, hnext⟩ := Option.bind_eq_some_iff.mp hs
    obtain ⟨pre, rfl, hpre⟩ := h.took hread
    obtain ⟨pre', rfl, hpre'⟩ := (h' x).took hnext
    refine ⟨pre ++ pre', (List.append_assoc _ _ _).symm, fun b hb ↦ ?_⟩
    exact (List.mem_append.mp hb).elim (hpre b) (hpre' b)
  append hs ht := by
    obtain ⟨⟨x, mid⟩, hread, hnext⟩ := Option.bind_eq_some_iff.mp hs
    rw [h.append hread ht, Option.bind_some]
    exact (h' x).append hnext ht

/-- A given character before. -/
theorem given {sep : UInt8} (hsep : IsQuadByte sep) (h : ReadsQuads read) :
    ReadsQuads fun s ↦ (readGivenChar sep s).bind read where
  took hs := by
    obtain ⟨mid, hgiven, hread⟩ := Option.bind_eq_some_iff.mp hs
    obtain ⟨pre, rfl, hpre⟩ := h.took hread
    exact ⟨sep :: pre, readGivenChar_eq_some_iff.mp hgiven,
      List.forall_mem_cons.mpr ⟨hsep, hpre⟩⟩
  append hs ht := by
    obtain ⟨mid, hgiven, hread⟩ := Option.bind_eq_some_iff.mp hs
    rw [readGivenChar_eq_some_iff.mp hgiven, List.cons_append,
      readGivenChar_eq_some_iff.mpr rfl, Option.bind_some]
    exact h.append hread ht

theorem digits (tooMany : Nat → Nat → Bool) (result count : Nat) :
    ReadsQuads (readDigits 10 tooMany result count) where
  took {s x rest} h := by
    induction s generalizing result count with
    | nil =>
      obtain ⟨-, rfl⟩ := Prod.mk.inj (Option.some.inj h)
      exact ⟨[], rfl, nofun⟩
    | cons b s ih =>
      rw [readDigits] at h
      split at h
      · obtain ⟨-, rfl⟩ := Prod.mk.inj (Option.some.inj h)
        exact ⟨[], rfl, nofun⟩
      · next digit hdigit =>
        dsimp only at h
        split at h
        · exact absurd h nofun
        · obtain ⟨pre, rfl, hpre⟩ := ih _ _ h
          exact ⟨b :: pre, rfl, List.forall_mem_cons.mpr
            ⟨Or.inl (isAsciiDigit_of_toDigit hdigit), hpre⟩⟩
  append {s x rest t} h ht := by
    induction s generalizing result count with
    | nil =>
      obtain ⟨rfl, rfl⟩ := Prod.mk.inj (Option.some.inj h)
      rcases t with - | ⟨b, t⟩
      · rfl
      · rw [List.nil_append, readDigits, ht b rfl]
    | cons b s ih =>
      rw [readDigits] at h
      rw [List.cons_append, readDigits]
      split at h
      · obtain ⟨rfl, rfl⟩ := Prod.mk.inj (Option.some.inj h)
        rfl
      · dsimp only at h ⊢
        split at h
        · exact absurd h nofun
        · next hfew =>
          rw [if_neg hfew]
          exact ih _ _ h

theorem number (max : Nat) (maxDigits : Option Nat) (allowZeroPrefix : Bool) :
    ReadsQuads (readNumber max 10 maxDigits allowZeroPrefix) where
  took h := by
    obtain ⟨⟨⟨result, count⟩, mid⟩, hdigits, hrest⟩ := Option.bind_eq_some_iff.mp h
    obtain ⟨pre, rfl, hpre⟩ := (digits _ _ _).took hdigits
    dsimp only at hrest
    split_ifs at hrest
    obtain ⟨-, rfl⟩ := Prod.mk.inj (Option.some.inj hrest)
    exact ⟨pre, rfl, hpre⟩
  append {s _ _ t} h ht := by
    obtain ⟨⟨⟨result, count⟩, mid⟩, hdigits, hrest⟩ := Option.bind_eq_some_iff.mp h
    rcases s with - | ⟨b, s⟩
    · obtain ⟨hcount, -⟩ := Prod.mk.inj (Option.some.inj hdigits)
      obtain ⟨-, rfl⟩ := Prod.mk.inj hcount
      exact absurd hrest nofun
    · refine Option.bind_eq_some_iff.mpr ⟨_, (digits _ _ _).append hdigits ht, ?_⟩
      dsimp only at hrest ⊢
      split_ifs at hrest with h1 h2 h3
      obtain ⟨rfl, rfl⟩ := Prod.mk.inj (Option.some.inj hrest)
      rw [if_neg h1]
      exact (if_neg h2).trans (if_pos h3)

/-- A separator before every item but the first. -/
theorem separator {sep : UInt8} (hsep : IsQuadByte sep) (i : Nat) (h : ReadsQuads read) :
    ReadsQuads (readSeparator sep i read) := by
  rcases Nat.eq_zero_or_pos i with rfl | hi
  · exact h
  · have hgiven : readSeparator sep i read = fun s ↦ (readGivenChar sep s).bind read :=
      funext fun s ↦ if_pos hi
    rw [hgiven]
    exact h.given hsep

theorem octets (n i : Nat) : ReadsQuads (readOctets n i) := by
  induction n generalizing i with
  | zero => exact pure []
  | succ n ih =>
    exact ((number 255 (some 3) false).separator (Or.inr (Or.inl rfl)) i).bind fun octet ↦
      (ih (i + 1)).bind fun octets ↦ pure (octet :: octets)

theorem ipv4Addr : ReadsQuads readIpv4Addr := octets 4 0

theorem port : ReadsQuads readPort := (number 0xffff none true).given (Or.inr (Or.inr rfl))

theorem socketAddrV4 : ReadsQuads readSocketAddrV4 :=
  ipv4Addr.bind fun octets ↦ port.bind fun port ↦ pure (SocketAddr.v4 octets port)

end ReadsQuads

/-- Something is left. -/
theorem parseWith_of_ne_nil {x : α} (h : read s = some (x, rest)) (hrest : rest ≠ []) :
    parseWith read s = none := by
  rw [parseWith, h]
  rcases rest with - | ⟨b, rest⟩
  · exact absurd rfl hrest
  · rfl

theorem parseWith_eq_some_iff {x : α} : parseWith read s = some x ↔ read s = some (x, []) := by
  rw [parseWith]
  split
  · next y hread =>
    rw [hread, Option.some.injEq, Option.some.injEq, Prod.mk.injEq, and_iff_left rfl]
  · next hnot => exact iff_of_false nofun (hnot x)

theorem readIpAddr_of_readIpv4Addr {octets : List Nat}
    (h : readIpv4Addr s = some (octets, rest)) : readIpAddr s = some (.v4 octets, rest) := by
  rw [readIpAddr, h]

theorem readSocketAddr_of_readSocketAddrV4 {x : SocketAddr}
    (h : readSocketAddrV4 s = some (x, rest)) : readSocketAddr s = some (x, rest) := by
  rw [readSocketAddr, h]

theorem exists_of_readOctets_succ {x : List Nat} (h : readOctets (n + 1) i s = some (x, rest)) :
    ∃ octet mid octets, readSeparator dot i (readNumber 255 10 (some 3) false) s =
      some (octet, mid) ∧ readOctets n (i + 1) mid = some (octets, rest) := by
  obtain ⟨⟨octet, mid⟩, hfirst, hmore⟩ := Option.bind_eq_some_iff.mp h
  obtain ⟨⟨octets, rest'⟩, hothers, hdone⟩ := Option.bind_eq_some_iff.mp hmore
  obtain ⟨-, rfl⟩ := Prod.mk.inj (Option.some.inj hdone)
  exact ⟨octet, mid, octets, hfirst, hothers⟩

/-- **A dotted quad has a dot.** -/
theorem dot_mem_of_readIpv4Addr {octets : List Nat} (h : readIpv4Addr s = some (octets, rest)) :
    ∃ pre, s = pre ++ rest ∧ dot ∈ pre := by
  obtain ⟨octet, mid, octets', hfirst, hmore⟩ := exists_of_readOctets_succ h
  obtain ⟨pre, rfl, -⟩ :=
    ((ReadsQuads.number 255 (some 3) false).separator (Or.inr (Or.inl rfl)) 0).took hfirst
  obtain ⟨pre', rfl, -⟩ := (ReadsQuads.octets 3 1).took hmore
  -- the second octet is read after a dot
  obtain ⟨octet', mid', _, hsecond, hthen⟩ := exists_of_readOctets_succ hmore
  obtain ⟨tail, hgiven, hnumber⟩ := Option.bind_eq_some_iff.mp hsecond
  obtain ⟨pre₁, rfl, -⟩ := (ReadsQuads.number 255 (some 3) false).took hnumber
  obtain ⟨pre₂, rfl, -⟩ := (ReadsQuads.octets 2 2).took hthen
  have hdot : pre' ++ rest = (dot :: (pre₁ ++ pre₂)) ++ rest := by
    rw [readGivenChar_eq_some_iff.mp hgiven, List.cons_append, List.append_assoc]
  refine ⟨pre ++ pre', (List.append_assoc _ _ _).symm, List.mem_append_right pre ?_⟩
  rw [List.append_cancel_right hdot]
  exact List.mem_cons_self

end TrailStash
