import TrailStash.Api
import TrailStash.Redaction

/-!
# Dotted quads in log lines

Does redaction remove an IPv4 address that stands by itself, with white space or punctuation on
either side?

Most punctuation ends the network run, which is then the address and matches
(`isAddress_of_isQuad`).  A full stop or a colon belongs to the run, and an address with one of
these behind it is not an address (`isAddress_quad_append`): `quad_removed_iff` says that the
address stays in the line exactly then.
-/

set_option autoImplicit false

namespace TrailStash

open Slices Cuts

/-- An IPv4 address, or one with a port. -/
def IsQuad (a : Bytes) : Prop :=
  (parseWith readIpv4Addr a).isSome = true ∨ (parseWith readSocketAddrV4 a).isSome = true

/-- The line ends here, or goes on with white space. -/
def StartsBlank (cs : List Char) : Prop := ∀ c ∈ cs.head?, isWhitespace c = true

/-- What may stand before an address. -/
def Opens (p : String) : Prop :=
  ∀ c ∈ p.toList.getLast?, isWhitespace c = true ∨ c ∈ ['=', '(', '[', '"']

/-- What may stand after it: white space, or one punctuation character that white space follows. -/
def Closes (s : String) : Prop :=
  StartsBlank s.toList ∨
    ∃ c cs, s.toList = c :: cs ∧ c ∈ [':', '.', ',', ';', ')', ']', '"'] ∧ StartsBlank cs

/-- The network run goes on. -/
def RunsOn (s : String) : Prop := ∃ c cs, s.toList = c :: cs ∧ (c = '.' ∨ c = ':')

/-- A push copies the byte at this position. -/
def Copies (pushes : List Push) (k : Nat) : Prop :=
  ∃ i j text, .copied i j text ∈ pushes ∧ i ≤ k ∧ k < j

variable {a s u v w rest : Bytes} {b : UInt8} {c : Nat} {k n : Nat} {M : Nat → Prop}
  {cuts : List (Nat × Nat)}

/-! ## What is copied -/

/-- **What is not cut out is copied.** -/
theorem copies_cutPushes (h : Cut M s.length c cuts) :
    Copies (cutPushes s c cuts) k ↔ c ≤ k ∧ k < s.length ∧ ¬ M k := by
  induction h with
  | @done c hc hkeep =>
    constructor
    · rintro ⟨i, j, text, hmem, hik, hkj⟩
      obtain ⟨rfl, rfl, -⟩ := Push.copied.inj (List.mem_singleton.mp hmem)
      exact ⟨hik, hkj, hkeep k hik hkj⟩
    · rintro ⟨hck, hks, -⟩
      exact ⟨c, s.length, _, List.mem_singleton_self _, hck, hks⟩
  | @next c a b cuts hca hab hkeep hcut hrest ih =>
    have hb := hrest.le
    have hcons : Copies (cutPushes s c ((a, b) :: cuts)) k ↔
        (c ≤ k ∧ k < a) ∨ Copies (cutPushes s b cuts) k := by
      constructor
      · rintro ⟨i, j, text, hmem, hk⟩
        rcases List.mem_cons.mp hmem with heq | hmem
        · obtain ⟨rfl, rfl, -⟩ := Push.copied.inj heq
          exact Or.inl hk
        · exact Or.inr ⟨i, j, text, (List.mem_cons.mp hmem).resolve_left nofun, hk⟩
      · rintro (hk | ⟨i, j, text, hmem, hk⟩)
        · exact ⟨c, a, _, List.mem_cons_self, hk⟩
        · exact ⟨i, j, text, List.mem_cons_of_mem _ (List.mem_cons_of_mem _ hmem), hk⟩
    rw [hcons, ih]
    constructor
    · rintro (⟨hck, hka⟩ | ⟨hbk, hks, hM⟩)
      · exact ⟨hck, by omega, hkeep k hck hka⟩
      · exact ⟨by omega, hks, hM⟩
    · rintro ⟨hck, hks, hM⟩
      rcases Nat.lt_or_ge k a with hka | hak
      · exact Or.inl ⟨hck, hka⟩
      · refine Or.inr ⟨not_lt.mp fun hkb ↦ hM (hcut k hak hkb), hks, hM⟩

/-! ## Quads -/

theorem isNetworkChar_of_isQuadByte (h : IsQuadByte b) : isNetworkChar b = true := by
  rcases h with h | rfl | rfl
  · exact isNetworkChar_of_hexdigit (isAsciiHexdigit_of_digit h)
  · decide
  · decide

theorem IsQuad.cases (h : IsQuad a) : (∃ octets, readIpv4Addr a = some (octets, [])) ∨
    ∃ x octets rest, readSocketAddrV4 a = some (x, []) ∧ readIpv4Addr a = some (octets, rest) := by
  rcases h with h | h
  · obtain ⟨octets, hread⟩ := Option.isSome_iff_exists.mp h
    exact Or.inl ⟨octets, parseWith_eq_some_iff.mp hread⟩
  · obtain ⟨x, hread⟩ := Option.isSome_iff_exists.mp h
    have hread := parseWith_eq_some_iff.mp hread
    obtain ⟨⟨octets, rest⟩, hquad, -⟩ := Option.bind_eq_some_iff.mp hread
    exact Or.inr ⟨x, octets, rest, hread, hquad⟩

theorem IsQuad.bytes (h : IsQuad a) : ∀ b ∈ a, IsQuadByte b := by
  rcases h.cases with ⟨octets, hread⟩ | ⟨x, octets, rest, hread, -⟩
  · obtain ⟨pre, rfl, hpre⟩ := ReadsQuads.ipv4Addr.took hread
    rwa [List.append_nil]
  · obtain ⟨pre, rfl, hpre⟩ := ReadsQuads.socketAddrV4.took hread
    rwa [List.append_nil]

theorem IsQuad.dot_mem (h : IsQuad a) : dot ∈ a := by
  have hread : ∃ octets rest, readIpv4Addr a = some (octets, rest) := by
    rcases h.cases with ⟨octets, hread⟩ | ⟨x, octets, rest, -, hread⟩
    · exact ⟨octets, [], hread⟩
    · exact ⟨octets, rest, hread⟩
  obtain ⟨octets, rest, hread⟩ := hread
  obtain ⟨pre, rfl, hdot⟩ := dot_mem_of_readIpv4Addr hread
  exact List.mem_append_left rest hdot

/-- **A quad is an address.** -/
theorem isAddress_of_isQuad (h : IsQuad a) : isAddress a = true := by
  rw [isAddress, Bool.or_eq_true]
  rcases h.cases with ⟨octets, hread⟩ | ⟨x, octets, rest, hread, -⟩
  · left
    rw [parseWith_eq_some_iff.mpr (readIpAddr_of_readIpv4Addr hread)]
    rfl
  · right
    rw [parseWith_eq_some_iff.mpr (readSocketAddr_of_readSocketAddrV4 hread)]
    rfl

/-- What begins like a quad is no IPv6 address with a port. -/
theorem readSocketAddrV6_of_isQuadByte (h : ∀ b ∈ s.head?, IsQuadByte b) :
    readSocketAddrV6 s = none := by
  rcases s with - | ⟨b, s⟩
  · rfl
  · have hne : b ≠ '['.toUInt8 := by
      rintro rfl
      exact absurd (h _ rfl) (by unfold IsQuadByte; decide)
    rw [readSocketAddrV6, readGivenChar, if_neg hne]
    rfl

/-- **A quad with a full stop or a colon behind it is not an address.** -/
theorem isAddress_quad_append (h : IsQuad a) (hb : b = dot ∨ b = colon) :
    isAddress (a ++ [b]) = false := by
  have hstop : NoDigit [b] := by
    rintro _ ⟨rfl⟩
    rcases hb with rfl | rfl <;> decide
  have hport : readPort [b] = none := by rcases hb with rfl | rfl <;> decide
  have hhead : ∀ x ∈ (a ++ [b]).head?, IsQuadByte x := fun x hx ↦ by
    rcases List.mem_append.mp (List.mem_of_mem_head? hx) with hx | hx
    · exact h.bytes x hx
    · rw [List.mem_singleton.mp hx]
      exact Or.inr hb
  rw [isAddress, Bool.or_eq_false_iff, Option.isSome_eq_false_iff, Option.isSome_eq_false_iff,
    Option.isNone_iff_eq_none, Option.isNone_iff_eq_none]
  rcases h.cases with ⟨octets, hread⟩ | ⟨x, octets, rest, hread, hquad⟩
  · have hread := ReadsQuads.ipv4Addr.append hread hstop
    have hsocket : readSocketAddrV4 (a ++ [b]) = none := by
      rw [readSocketAddrV4, hread]
      exact congrArg (Option.bind · _) hport
    refine ⟨parseWith_of_ne_nil (readIpAddr_of_readIpv4Addr hread) (List.cons_ne_nil b []), ?_⟩
    rw [parseWith, readSocketAddr, hsocket, readSocketAddrV6_of_isQuadByte hhead]
  · have hread := ReadsQuads.socketAddrV4.append hread hstop
    have hquad := ReadsQuads.ipv4Addr.append hquad hstop
    exact ⟨parseWith_of_ne_nil (readIpAddr_of_readIpv4Addr hquad) (by simp),
      parseWith_of_ne_nil (readSocketAddr_of_readSocketAddrV4 hread) (List.cons_ne_nil b [])⟩

/-! ## The characters around a quad -/

/-- White space and most punctuation end a network run. -/
theorem not_isNetworkChar_of_char {ch : Char}
    (h : isWhitespace ch = true ∨ ch ∈ ['=', '(', '[', '"', ',', ';', ')', ']']) :
    ∀ b ∈ String.utf8EncodeChar ch, isNetworkChar b = false := by
  have hall : ∀ n < 128, (isWhitespace (Char.ofNat n) = true ∨
      Char.ofNat n ∈ ['=', '(', '[', '"', ',', ';', ')', ']']) →
        isNetworkChar (UInt8.ofNat n) = false := by decide +kernel
  intro b hb
  by_cases hascii : ch.toNat < 0x80
  · rw [utf8EncodeChar_ascii hascii, List.mem_singleton] at hb
    rw [hb]
    exact hall ch.toNat hascii (by rwa [Char.ofNat_toNat])
  · rw [Bool.eq_false_iff]
    intro hnetwork
    exact absurd (isNetworkChar_ascii hnetwork)
      (UInt8.not_lt.mpr (le_of_mem_utf8EncodeChar (not_lt.mp hascii) hb))

/-- What stands before a quad does not extend the run. -/
theorem Opens.getLast {p : String} (hp : Opens p) :
    ∀ b ∈ (asBytes p).getLast?, isNetworkChar b = false := by
  intro b hb
  rcases List.eq_nil_or_concat' p.toList with hnil | ⟨cs, ch, hcs⟩
  · simp [asBytes, hnil] at hb
  · have hmem : b ∈ String.utf8EncodeChar ch := by
      rw [asBytes, hcs, List.flatMap_append, List.flatMap_singleton,
        List.getLast?_append_of_ne_nil] at hb
      · exact List.mem_of_getLast? hb
      · exact utf8EncodeChar_ne_nil ch
    refine not_isNetworkChar_of_char ?_ b hmem
    refine (hp ch (by rw [hcs]; simp)).imp_right fun hpunct ↦ ?_
    exact List.mem_append_left [',', ';', ')', ']'] hpunct

/-- The first byte of a text is its first character's. -/
theorem mem_head_flatMap {cs : List Char} {b : UInt8}
    (hb : b ∈ (cs.flatMap String.utf8EncodeChar).head?) :
    ∃ ch ∈ cs.head?, b ∈ String.utf8EncodeChar ch := by
  rcases cs with - | ⟨ch, cs⟩
  · exact absurd hb nofun
  · refine ⟨ch, rfl, ?_⟩
    rw [List.flatMap_cons, List.head?_append_of_ne_nil] at hb
    · exact List.mem_of_mem_head? hb
    · exact utf8EncodeChar_ne_nil ch

theorem StartsBlank.head {cs : List Char} (h : StartsBlank cs) :
    ∀ b ∈ (cs.flatMap String.utf8EncodeChar).head?, isNetworkChar b = false := by
  intro b hb
  obtain ⟨ch, hch, hmem⟩ := mem_head_flatMap hb
  exact not_isNetworkChar_of_char (Or.inl (h ch hch)) b hmem

/-- Behind a quad either the run ends, or one full stop or colon comes and then it ends. -/
theorem Closes.cases {s : String} (hs : Closes s) :
    (¬ RunsOn s ∧ ∀ b ∈ (asBytes s).head?, isNetworkChar b = false) ∨
    (RunsOn s ∧ ∃ b w, asBytes s = b :: w ∧ (b = dot ∨ b = colon) ∧
      ∀ x ∈ w.head?, isNetworkChar x = false) := by
  rcases hs with hblank | ⟨ch, cs, hcs, hch, hblank⟩
  · refine Or.inl ⟨?_, hblank.head⟩
    rintro ⟨ch, cs, hcs, hpunct⟩
    have hspace : isWhitespace ch = true := hblank ch (by rw [hcs]; rfl)
    rcases hpunct with rfl | rfl <;> exact absurd hspace (by decide)
  · by_cases hpunct : ch = '.' ∨ ch = ':'
    · right
      refine ⟨⟨ch, cs, hcs, hpunct⟩, ?_⟩
      have hbytes : asBytes s = UInt8.ofNat ch.toNat :: cs.flatMap String.utf8EncodeChar := by
        rw [asBytes, hcs, List.flatMap_cons, utf8EncodeChar_ascii, List.singleton_append]
        rcases hpunct with rfl | rfl <;> decide
      refine ⟨_, _, hbytes, ?_, hblank.head⟩
      rcases hpunct with rfl | rfl
      · exact Or.inl rfl
      · exact Or.inr rfl
    · left
      refine ⟨?_, fun b hb ↦ ?_⟩
      · rintro ⟨ch', cs', hcs', hpunct'⟩
        obtain ⟨rfl, -⟩ := List.cons.inj (hcs.symm.trans hcs')
        exact hpunct hpunct'
      · obtain ⟨ch', hch', hmem⟩ := mem_head_flatMap hb
        rw [hcs] at hch'
        obtain rfl : ch = ch' := Option.some.inj hch'
        have hstops : ch ∈ [',', ';', ')', ']', '"'] := by
          rcases List.mem_cons.mp hch with hcolon | hch
          · exact absurd (Or.inr hcolon) hpunct
          · exact (List.mem_cons.mp hch).resolve_left fun hdot ↦ hpunct (Or.inl hdot)
        have hsub : [',', ';', ')', ']', '"'] ⊆ ['=', '(', '[', '"', ',', ';', ')', ']'] := by
          decide
        exact not_isNetworkChar_of_char (Or.inr (hsub hstops)) b hmem

/-! ## Quads in lines -/

/-- A run of network characters that is no address, at a dot: nothing matches there. -/
theorem not_matched_of_dot {i j : Nat} (hrun : IsRun (Holds isNetworkChar s) i j)
    (hnot : isAddress (part s i j) = false) (hik : i ≤ k) (hkj : k < j) (hdot : s[k]? = some dot) :
    ¬ Matched s k := by
  rintro (⟨a, e, hrun', hmatch, hak, hke⟩ | ⟨a, e, hrun', -, hak, hke⟩)
  · obtain ⟨rfl, rfl⟩ := hrun.unique hrun' hik hkj hak hke
    exact absurd hmatch (by rw [hnot]; decide)
  · have hopaque := hrun'.all k hak hke
    rw [Holds, hdot] at hopaque
    exact absurd hopaque (by decide)

/-- **Is a quad that stands by itself removed?**  No byte of it is copied to the output exactly if
neither a full stop nor a colon stands behind it. -/
theorem quad_removed_iff {p a s : String} (hp : Opens p) (ha : IsQuad (asBytes a))
    (hs : Closes s) : ∃ pushes, redactPushes (asBytes (p ++ a ++ s)) = .ok pushes ∧
      ((∀ k, (asBytes p).length ≤ k → k < (asBytes p).length + (asBytes a).length →
        ¬ Copies pushes k) ↔ ¬ RunsOn s) := by
  obtain ⟨cuts, hcut, hpushes⟩ := redactPushes_eq (isText_asBytes (p ++ a ++ s))
  refine ⟨_, hpushes, ?_⟩
  have hbytes : asBytes (p ++ a ++ s) = asBytes p ++ asBytes a ++ asBytes s := by
    rw [asBytes_append, asBytes_append]
  have hnetwork : ∀ b ∈ asBytes a, isNetworkChar b = true := fun b hb ↦
    isNetworkChar_of_isQuadByte (ha.bytes b hb)
  have hne : asBytes a ≠ [] := List.ne_nil_of_mem ha.dot_mem
  have hlen : (asBytes (p ++ a ++ s)).length =
      (asBytes p).length + (asBytes a).length + (asBytes s).length := by
    rw [hbytes, List.length_append, List.length_append]
  simp only [copies_cutPushes hcut]
  rcases hs.cases with ⟨hstop, hhead⟩ | ⟨hgoes, b, w, hb, hpunct, hhead⟩
  · -- the run is the quad
    refine iff_of_true (fun k hk hka hcopied ↦ hcopied.2.2 (Or.inl ?_)) hstop
    have hrun := isRun_middle hne hnetwork hp.getLast hhead
    rw [← hbytes] at hrun
    refine ⟨_, _, hrun, ?_, hk, hka⟩
    rw [hbytes, part_middle]
    exact isAddress_of_isQuad ha
  · -- the run is longer, and no address
    refine iff_of_false (fun hnone ↦ ?_) (not_not.mpr hgoes)
    have hline : asBytes (p ++ a ++ s) = asBytes p ++ (asBytes a ++ [b]) ++ w := by
      rw [hbytes, hb]
      simp
    have hall : ∀ x ∈ asBytes a ++ [b], isNetworkChar x = true := fun x hx ↦ by
      rcases List.mem_append.mp hx with hx | hx
      · exact hnetwork x hx
      · rw [List.mem_singleton.mp hx]
        exact isNetworkChar_of_isQuadByte (Or.inr hpunct)
    have hrun := isRun_middle (List.append_ne_nil_of_left_ne_nil hne [b]) hall hp.getLast hhead
    have hpart : part (asBytes (p ++ a ++ s)) (asBytes p).length
        ((asBytes p).length + (asBytes a ++ [b]).length) = asBytes a ++ [b] := by
      rw [hline, part_middle]
    rw [← hline] at hrun
    obtain ⟨k, hk, hdot⟩ := List.getElem_of_mem ha.dot_mem
    have hget : (asBytes (p ++ a ++ s))[(asBytes p).length + k]? = some dot := by
      rw [hbytes, List.append_assoc, List.getElem?_append_right (by omega),
        Nat.add_sub_cancel_left, List.getElem?_append_left hk, List.getElem?_eq_getElem hk, hdot]
    have hkj : (asBytes p).length + k < (asBytes p).length + (asBytes a ++ [b]).length := by
      rw [List.length_append]
      omega
    refine hnone ((asBytes p).length + k) (by omega) (by omega) ⟨Nat.zero_le _, by omega, ?_⟩
    refine not_matched_of_dot hrun ?_ (by omega) hkj hget
    rw [hpart]
    exact isAddress_quad_append ha hpunct

/-- A peer's address and port, with a comma behind it. -/
theorem quad_removed_iff_comma : ∃ pushes,
    redactPushes (asBytes ("peer=" ++ "192.0.2.44:443" ++ ", up")) = .ok pushes ∧
      ∀ k, 5 ≤ k → k < 19 → ¬ Copies pushes k := by
  have hp : Opens "peer=" := by
    rintro ch hch
    rw [show "peer=".toList.getLast? = some '=' by decide] at hch
    obtain rfl : '=' = ch := Option.some.inj hch
    exact Or.inr (by decide)
  have hs : Closes ", up" := by
    refine Or.inr ⟨',', [' ', 'u', 'p'], by decide, by decide, ?_⟩
    rintro ch ⟨rfl⟩
    decide
  obtain ⟨pushes, hpushes, hiff⟩ :=
    quad_removed_iff hp (Or.inr (by decide +kernel) : IsQuad (asBytes "192.0.2.44:443")) hs
  refine ⟨pushes, hpushes, hiff.mpr ?_⟩
  rintro ⟨ch, cs, hcs, hpunct⟩
  rw [show ", up".toList = [',', ' ', 'u', 'p'] by decide] at hcs
  obtain ⟨rfl, -⟩ := List.cons.inj hcs
  rcases hpunct with h | h <;> exact absurd h (by decide)

/-- An address at the end of a sentence stays in the line. -/
theorem exists_copied_quad : ¬ ∀ p a s : String, Opens p → IsQuad (asBytes a) → Closes s →
    ∃ pushes, redactPushes (asBytes (p ++ a ++ s)) = .ok pushes ∧
      ∀ k, (asBytes p).length ≤ k → k < (asBytes p).length + (asBytes a).length →
        ¬ Copies pushes k := by
  intro hall
  have hp : Opens "" := fun ch hch ↦ absurd hch nofun
  have hs : Closes "." := Or.inr ⟨'.', [], by decide, by decide, nofun⟩
  obtain ⟨pushes, hpushes, hnone⟩ := hall "" "192.0.2.44" "." hp (Or.inl (by decide +kernel)) hs
  have hcopied : redactPushes (asBytes ("" ++ "192.0.2.44" ++ ".")) =
      .ok [.copied 0 11 (asBytes "192.0.2.44.")] := by decide +kernel
  obtain rfl := Except.ok.inj (hpushes.symm.trans hcopied)
  exact hnone 0 (Nat.zero_le _) (by decide)
    ⟨0, 11, _, List.mem_singleton_self _, le_rfl, by decide⟩

end TrailStash
