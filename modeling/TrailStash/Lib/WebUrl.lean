import Mathlib.Data.List.DropRight
import TrailStash.Lib.Url

/-!
# URLs as HTTP clients read them

An HTTP client does not take the text of a URL as it is written.  It strips controls and spaces from
its ends and removes tabs and line breaks anywhere; before the query a backslash is a slash to it;
it does not count the slashes behind the scheme; and a segment that is a full stop, or two, escaped
or not, is not a segment but a step on the way, in the latter case upwards.

`parseWeb` is this reader, for `http` and `https`, as far as the parts of the URL go: what a client
makes of the authority, and which characters of a segment it escapes, is left open.

What can be read is `webPlain_of_parseWeb`, `segments_of_parseWeb` and `isControl_of_parseWeb`, and
`parseWeb_text` is the converse: a URL of such parts is read as it is written.
-/

set_option autoImplicit false

namespace Urls

/-! ## What a client changes -/

/-- A C0 control or a space. -/
def isControl (c : Char) : Bool := c ≤ ' '

/-- A tab or a line break. -/
def isBreak (c : Char) : Bool := c == '\t' || c == '\n' || c == '\r'

/-- A backslash is a slash. -/
def slash (c : Char) : Char := if c = '\\' then '/' else c

/-- A character that a client does not take for itself. -/
def isWebDelim (c : Char) : Bool := isDelim c || c == '\\' || isBreak c

/-- A client takes every character of the text for itself. -/
def WebPlain (s : List Char) : Prop := ∀ c ∈ s, isWebDelim c = false

instance (s : List Char) : Decidable (WebPlain s) := List.decidableBAll _ s

theorem WebPlain.plain {s : List Char} (h : WebPlain s) : Plain s := fun c hc ↦ by
  have hdelim := h c hc
  rw [isWebDelim, Bool.or_eq_false_iff, Bool.or_eq_false_iff] at hdelim
  exact hdelim.1.1

/-- A full stop, escaped or not. -/
def dots : List (List Char) := [['.'], ['%', '2', 'e'], ['%', '2', 'E']]

/-- A segment that stands for this place in the path. -/
def IsSingleDot (s : List Char) : Prop := s ∈ dots

/-- A segment that stands for the place above. -/
def IsDoubleDot (s : List Char) : Prop := ∃ a ∈ dots, ∃ b ∈ dots, s = a ++ b

instance (s : List Char) : Decidable (IsSingleDot s) := inferInstanceAs (Decidable (s ∈ dots))

instance (s : List Char) : Decidable (IsDoubleDot s) :=
  inferInstanceAs (Decidable (∃ a ∈ dots, ∃ b ∈ dots, s = a ++ b))

/-- A segment that is a step on the way. -/
def IsWebDots (s : List Char) : Prop := IsSingleDot s ∨ IsDoubleDot s

instance (s : List Char) : Decidable (IsWebDots s) :=
  inferInstanceAs (Decidable (IsSingleDot s ∨ IsDoubleDot s))

theorem IsDots.isWebDots {s : List Char} (h : IsDots s) : IsWebDots s := by
  rcases h with rfl | rfl <;> decide

/-- The text can stand for itself as an authority. -/
def IsHost (s : List Char) : Prop := s ≠ [] ∧ WebPlain s

instance (s : List Char) : Decidable (IsHost s) :=
  inferInstanceAs (Decidable (s ≠ [] ∧ WebPlain s))

/-- The text can stand for itself as the last segment of a URL. -/
def IsSegment (s : List Char) : Prop :=
  WebPlain s ∧ ¬ IsWebDots s ∧ ∀ c ∈ s.getLast?, isControl c = false

instance (s : List Char) : Decidable (IsSegment s) :=
  -- only the last character is looked at, if there is one
  have : Decidable (∀ c ∈ s.getLast?, isControl c = false) := Option.decidableForallMem _
  inferInstanceAs (Decidable (WebPlain s ∧ ¬ IsWebDots s ∧ ∀ c ∈ s.getLast?, isControl c = false))

/-! ## The reader -/

/-- The text without what is stripped and removed. -/
def clean (s : List Char) : List Char :=
  ((s.dropWhile isControl).rdropWhile isControl).filter fun c ↦ !isBreak c

/-- Take one segment; a step on the way leaves an empty one if it is the last. -/
def enter (path : List (List Char)) (s : List Char) (last : Bool) : List (List Char) :=
  if IsDoubleDot s then path.dropLast ++ if last then [[]] else []
  else if IsSingleDot s then path ++ if last then [[]] else []
  else path ++ [s]

/-- Take the segments one after the other. -/
def resolve : List (List Char) → List (List Char) → List (List Char)
  | path, [] => path
  | path, s :: segments => resolve (enter path s segments.isEmpty) segments

/-- Every segment of the path that was taken is empty, or was there and is no step on the way. -/
theorem mem_resolve {path segments : List (List Char)} {x : List Char}
    (hx : x ∈ resolve path segments) :
    x ∈ path ∨ x = [] ∨ (x ∈ segments ∧ ¬ IsWebDots x) := by
  have hblank : ∀ last : Bool, x ∈ (if last then [[]] else []) → x = [] := by
    intro last hx
    cases last with
    | true => exact List.mem_singleton.mp hx
    | false => exact absurd hx List.not_mem_nil
  induction segments generalizing path with
  | nil => exact Or.inl hx
  | cons s segments ih =>
    rcases ih hx with hpath | hempty | ⟨hmem, hdots⟩
    · rw [enter] at hpath
      split at hpath
      · rcases List.mem_append.mp hpath with hpath | hlast
        · exact Or.inl (List.dropLast_subset path hpath)
        · exact Or.inr (Or.inl (hblank _ hlast))
      · split at hpath
        · exact (List.mem_append.mp hpath).imp_right fun hlast ↦ Or.inl (hblank _ hlast)
        · next hdouble hsingle =>
          refine (List.mem_append.mp hpath).imp_right fun hs ↦ ?_
          obtain rfl := List.mem_singleton.mp hs
          exact Or.inr ⟨List.mem_cons_self, not_or.mpr ⟨hsingle, hdouble⟩⟩
    · exact Or.inr (Or.inl hempty)
    · exact Or.inr (Or.inr ⟨List.mem_cons_of_mem s hmem, hdots⟩)

/-- Without steps on the way the segments are taken as they are. -/
theorem resolve_of_not_dots {path segments : List (List Char)}
    (h : ∀ s ∈ segments, ¬ IsWebDots s) : resolve path segments = path ++ segments := by
  induction segments generalizing path with
  | nil => exact (List.append_nil path).symm
  | cons s segments ih =>
    obtain ⟨hs, hsegments⟩ := List.forall_mem_cons.mp h
    obtain ⟨hsingle, hdouble⟩ := not_or.mp hs
    rw [resolve, enter, if_neg hdouble, if_neg hsingle, ih hsegments, List.append_assoc]
    rfl

/-- What is taken last is empty, or was there last. -/
theorem getLast_resolve {path segments : List (List Char)} {x : List Char}
    (hne : segments ≠ []) (hx : (resolve path segments).getLast? = some x) :
    x = [] ∨ segments.getLast? = some x := by
  induction segments generalizing path with
  | nil => exact absurd rfl hne
  | cons s segments ih =>
    cases segments with
    | nil =>
      rw [resolve, resolve, enter] at hx
      split at hx
      · exact Or.inl (by simpa using hx.symm)
      · split at hx
        · exact Or.inl (by simpa using hx.symm)
        · exact Or.inr (by simpa using hx)
    | cons s' segments =>
      exact (ih (List.cons_ne_nil _ _) hx).imp_right fun h ↦ by rwa [List.getLast?_cons_cons]

/-- The URL after the steps on the way; a path that is empty has one empty segment. -/
def Url.resolved (u : Url) : Url where
  __ := u
  segments := if u.segments = [] then [[]] else resolve [] u.segments
  plain_segments := by
    intro s hs
    split at hs
    · rw [List.mem_singleton.mp hs]
      exact List.forall_mem_nil _
    · rcases mem_resolve hs with hnil | rfl | ⟨hmem, -⟩
      · exact absurd hnil List.not_mem_nil
      · exact List.forall_mem_nil _
      · exact u.plain_segments s hmem

/-- What stands before the query, with slashes only. -/
def readFront (s : List Char) : List Char := ((clean s).takeWhile isPathChar).map slash

/-- The query and the fragment. -/
def readTail (s : List Char) : List Char := (clean s).dropWhile isPathChar

/-- Read a URL as a client does. -/
def parseWeb (s : List Char) : Option Url :=
  if hscheme : isScheme ((readFront s).takeWhile (· != ':')) = true then
    match (readFront s).dropWhile (· != ':') with
    | ':' :: rest => some (urlOf _ hscheme (rest.dropWhile (· == '/') ++ readTail s)).resolved
    | _ => none
  else none

/-! ## What can be read -/

variable {s rest : List Char} {u r : Url}

theorem isPathChar_slash (c : Char) : isPathChar (slash c) = isPathChar c := by
  rw [slash]
  split
  · next h =>
    rw [h]
    decide
  · rfl

/-- Nothing is left that is removed. -/
theorem isBreak_of_mem_clean {c : Char} (hc : c ∈ clean s) : isBreak c = false := by
  simpa using (List.mem_filter.mp hc).2

theorem isBreak_of_not_isControl {c : Char} (hc : isControl c = false) : isBreak c = false := by
  by_contra hb
  simp only [isBreak, Bool.not_eq_false, Bool.or_eq_true, beq_iff_eq] at hb
  rcases hb with (rfl | rfl) | rfl
  · exact absurd hc (by decide)
  · exact absurd hc (by decide)
  · exact absurd hc (by decide)

/-- What is left does not end in a control. -/
theorem isControl_of_getLast_clean {c : Char} (hc : c ∈ (clean s).getLast?) :
    isControl c = false := by
  set l := (s.dropWhile isControl).rdropWhile isControl with hl
  rcases List.eq_nil_or_concat l with hnil | ⟨l', a, hconcat⟩
  · rw [clean, ← hl, hnil] at hc
    exact absurd hc nofun
  · have hne : l ≠ [] := by simp [hconcat]
    have hlast : ¬ isControl (l.getLast hne) = true := List.rdropWhile_last_not isControl _ hne
    have ha : isControl a = false := by simpa [hconcat] using hlast
    rw [clean, ← hl, hconcat, List.concat_eq_append, List.filter_append,
      List.filter_cons_of_pos (by simp [isBreak_of_not_isControl ha]), List.filter_nil,
      List.getLast?_concat] at hc
    exact Option.some.inj hc ▸ ha

theorem isPathChar_of_mem_readFront {c : Char} (hc : c ∈ readFront s) : isPathChar c = true := by
  obtain ⟨c', hc', rfl⟩ := List.mem_map.mp hc
  exact (isPathChar_slash c').trans (List.mem_takeWhile_imp hc')

/-- What stands before the query does not end in a control, if it is all there is. -/
theorem isControl_of_getLast_readFront (hnone : readTail s = []) {c : Char}
    (hc : c ∈ (readFront s).getLast?) : isControl c = false := by
  have hclean : (clean s).takeWhile isPathChar = clean s := by
    have hall := List.takeWhile_append_dropWhile (p := isPathChar) (l := clean s)
    rwa [← readTail, hnone, List.append_nil] at hall
  rw [readFront, hclean, List.getLast?_map] at hc
  obtain ⟨c', hc', rfl⟩ := Option.map_eq_some_iff.mp hc
  rw [slash]
  split
  · decide
  · exact isControl_of_getLast_clean hc'

theorem head_readTail {c : Char} (hc : c ∈ (readTail s).head?) : isPathChar c = false :=
  head_dropWhile hc

namespace Url

theorem isPathChar_of_mem_front {c : Char} (hc : c ∈ u.authority ++ u.path) :
    isPathChar c = true := by
  rcases List.mem_append.mp hc with hc | hc
  · have hplain := u.plain_authority c hc
    rw [← Bool.not_eq_false, isPathChar_eq_false]
    exact fun hend ↦ absurd (isDelim_iff.mpr (Or.inr hend)) (Bool.eq_false_iff.mp hplain)
  · exact isPathChar_of_mem_path hc

/-- The path ends as its last segment does. -/
theorem getLast_path {x : List Char} (hx : u.segments.getLast? = some x) :
    u.path.getLast? = some (x.getLast?.getD '/') := by
  obtain ⟨init, hinit⟩ := List.getLast?_eq_some_iff.mp hx
  have hpath : u.path = init.flatMap ('/' :: ·) ++ '/' :: x := by simp [path, hinit]
  rw [hpath, List.getLast?_append, List.getLast?_cons]
  rfl

end Url

/-- **What a client reads**: the URL that it makes of the text, with the steps on the way taken. -/
theorem exists_of_parseWeb (h : parseWeb s = some u) : ∃ (r : Url) (rest : List Char),
    u = r.resolved ∧ readFront s = r.scheme ++ ':' :: rest ∧
      r.authority ++ r.path = rest.dropWhile (· == '/') ∧ r.tail = readTail s := by
  rw [parseWeb] at h
  split at h
  · next hscheme =>
    split at h
    · next rest hrest =>
      refine ⟨_, rest, (Option.some.inj h).symm, ?_, ?_⟩
      · show _ = (readFront s).takeWhile (· != ':') ++ ':' :: rest
        rw [← hrest, List.takeWhile_append_dropWhile]
      · set r := urlOf _ hscheme (rest.dropWhile (· == '/') ++ readTail s) with hr
        have htext : r.text = r.scheme ++ _ := text_urlOf hscheme
        rw [Url.text, List.append_cancel_left_eq, ← List.append_assoc] at htext
        simp only [List.cons.injEq, true_and] at htext
        -- both sides have their path before the first question mark or number sign
        have hrestChar : ∀ c ∈ rest.dropWhile (· == '/'), isPathChar c = true := fun c hc ↦ by
          have hmem : c ∈ ':' :: rest :=
            List.mem_cons_of_mem _ ((List.dropWhile_sublist _).subset hc)
          rw [← hrest] at hmem
          exact isPathChar_of_mem_readFront ((List.dropWhile_sublist _).subset hmem)
        obtain ⟨hfront, htail⟩ := takeWhile_append (fun c hc ↦ r.isPathChar_of_mem_front hc)
          (fun c hc ↦ r.head_tail hc)
        obtain ⟨hfront', htail'⟩ := takeWhile_append hrestChar (fun c hc ↦ head_readTail hc)
        rw [htext] at hfront htail
        exact ⟨hfront.symm.trans hfront', htail.symm.trans htail'⟩
    · exact absurd h (by simp)
  · exact absurd h (by simp)

/-- Before the query there is no backslash left, nor what is removed. -/
theorem not_mem_readFront {c : Char} (hc : c ∈ readFront s) : c ≠ '\\' ∧ isBreak c = false := by
  obtain ⟨c', hc', rfl⟩ := List.mem_map.mp hc
  have hbreak := isBreak_of_mem_clean ((List.takeWhile_sublist _).subset hc')
  rw [slash]
  split
  · exact ⟨by decide, by decide⟩
  · next hne => exact ⟨hne, hbreak⟩

/-- The authority and the segments that a client reads hold only characters that it takes for
themselves, and no segment is a step on the way. -/
theorem webPlain_of_parseWeb (h : parseWeb s = some u) :
    WebPlain u.authority ∧ ∀ x ∈ u.segments, WebPlain x ∧ ¬ IsWebDots x := by
  obtain ⟨r, rest, rfl, hfront, hrest, -⟩ := exists_of_parseWeb h
  have hplain : ∀ c ∈ r.authority ++ r.path, isDelim c = false → isWebDelim c = false := by
    intro c hc hdelim
    have hmem : c ∈ readFront s := by
      rw [hrest] at hc
      rw [hfront]
      exact List.mem_append_right _ (List.mem_cons_of_mem _ ((List.dropWhile_sublist _).subset hc))
    obtain ⟨hne, hbreak⟩ := not_mem_readFront hmem
    simp [isWebDelim, hdelim, hne, hbreak]
  have hblank : WebPlain [] ∧ ¬ IsWebDots [] := ⟨List.forall_mem_nil _, by decide⟩
  refine ⟨fun c hc ↦ hplain c (List.mem_append_left _ hc) (r.plain_authority c hc),
    fun x hx ↦ ?_⟩
  dsimp only [Url.resolved] at hx
  split at hx
  · rw [List.mem_singleton.mp hx]
    exact hblank
  · rcases mem_resolve hx with hnil | rfl | ⟨hmem, hdots⟩
    · exact absurd hnil List.not_mem_nil
    · exact hblank
    · refine ⟨fun c hc ↦ ?_, hdots⟩
      have hpath : c ∈ r.path := List.mem_flatMap.mpr ⟨x, hmem, List.mem_cons_of_mem _ hc⟩
      exact hplain c (List.mem_append_right _ hpath) (r.plain_segments x hmem c hc)

/-- Slashes behind the scheme do not count, so without an authority there is no path. -/
theorem segments_of_parseWeb (h : parseWeb s = some u) (hnil : u.authority = []) :
    u.segments = [[]] := by
  obtain ⟨r, rest, rfl, -, hrest, -⟩ := exists_of_parseWeb h
  have hauthority : r.authority = [] := hnil
  have hsegments : r.segments = [] := by
    by_contra hne
    obtain ⟨x, xs, hxs⟩ := List.exists_cons_of_ne_nil hne
    rw [hauthority, Url.path, hxs] at hrest
    have hhead : '/' ∈ (rest.dropWhile (· == '/')).head? := by
      rw [← hrest]
      rfl
    exact absurd (head_dropWhile hhead) (by decide)
  exact if_pos hsegments

/-- Nor does the text end in a control. -/
theorem isControl_of_parseWeb (h : parseWeb s = some u) (htail : u.tail = []) {x : List Char}
    (hx : u.segments.getLast? = some x) {c : Char} (hc : c ∈ x.getLast?) :
    isControl c = false := by
  obtain ⟨r, rest, rfl, hfront, hrest, hr⟩ := exists_of_parseWeb h
  have hlast : r.segments.getLast? = some x := by
    have hempty : x ≠ [] := by
      rintro rfl
      exact absurd hc nofun
    dsimp only [Url.resolved] at hx
    split at hx
    · exact absurd (Option.some.inj hx).symm hempty
    · next hne => exact (getLast_resolve hne hx).resolve_left hempty
  -- so the text before the query, which is all there is, ends as the segment does
  have hpath : r.path.getLast? = some c := by
    rw [Url.getLast_path hlast, hc]
    rfl
  obtain ⟨slashes, hslashes⟩ := List.dropWhile_suffix (l := rest) (· == '/')
  refine isControl_of_getLast_readFront (hr.symm.trans htail) ?_
  rw [hfront, ← hslashes, ← hrest]
  simp [List.getLast?_append, List.getLast?_cons, hpath]

/-! ## What is read as it is written -/

/-- A character that a client leaves where it stands in the text before the query. -/
def isKept (c : Char) : Bool := c != '\\' && !isBreak c && isPathChar c

theorem isKept_of_webPlain {c : Char} (hc : isWebDelim c = false) : isKept c = true := by
  simp only [isWebDelim, isDelim, Bool.or_eq_false_iff, beq_eq_false_iff_ne] at hc
  simp [isKept, isPathChar, hc]

theorem isKept_iff {c : Char} :
    isKept c = true ↔ c ∉ ['\\', '\t', '\n', '\r', '?', '#'] := by
  simp [isKept, isBreak, isPathChar, and_assoc]

theorem isKept_of_isScheme (hs : isScheme s = true) : ∀ c ∈ s, isKept c = true := by
  have hkept : ∀ c : Char, (c.isAlphanum || c == '+' || c == '-' || c == '.') = true →
      isKept c = true := by
    intro c hc
    refine isKept_iff.mpr fun hmem ↦ ?_
    simp only [List.mem_cons, List.not_mem_nil, or_false] at hmem
    rcases hmem with rfl | rfl | rfl | rfl | rfl | rfl <;> exact absurd hc (by decide)
  cases s with
  | nil => exact List.forall_mem_nil _
  | cons c s =>
    rw [isScheme, Bool.and_eq_true, List.all_eq_true] at hs
    refine List.forall_mem_cons.mpr ⟨hkept c ?_, fun x hx ↦ hkept x (hs.2 x hx)⟩
    simp [Char.isAlphanum, hs.1]

theorem isControl_of_isAlpha {c : Char} (hc : c.isAlpha = true) : isControl c = false := by
  have hletter : 'A'.val ≤ c.val := by
    rcases (Bool.or_eq_true _ _).mp hc with hupper | hlower
    · exact (of_decide_eq_true hupper).1
    · have ha : 'a'.val ≤ c.val := of_decide_eq_true (Bool.and_eq_true_iff.mp hlower).1
      exact UInt32.le_trans (by decide) ha
  refine decide_eq_false_iff_not.mpr fun hspace ↦ ?_
  have hle : 'A'.val ≤ ' '.val := UInt32.le_trans hletter hspace
  exact absurd hle (by decide)

/-- A text of such characters that neither starts nor ends in a control is left as it is. -/
theorem readFront_eq_self (hkept : ∀ c ∈ s, isKept c = true)
    (hhead : ∀ c ∈ s.head?, isControl c = false) (hlast : ∀ c ∈ s.getLast?, isControl c = false) :
    readFront s = s ∧ readTail s = [] := by
  have hdrop : s.dropWhile isControl = s := by
    cases s with
    | nil => rfl
    | cons c s => exact List.dropWhile_cons_of_neg (by simp [hhead c rfl])
  have hrdrop : s.rdropWhile isControl = s := by
    refine List.rdropWhile_eq_self_iff.mpr fun hne ↦ ?_
    simp [hlast _ (List.getLast?_eq_some_getLast hne)]
  have hchar : ∀ c ∈ s, c ≠ '\\' ∧ isBreak c = false ∧ isPathChar c = true := by
    intro c hc
    simpa [isKept, and_assoc] using hkept c hc
  have hclean : clean s = s := by
    rw [clean, hdrop, hrdrop, List.filter_eq_self]
    exact fun c hc ↦ by simp [(hchar c hc).2.1]
  obtain ⟨hfront, htail⟩ := takeWhile_append (v := []) (fun c hc ↦ (hchar c hc).2.2) nofun
  rw [List.append_nil] at hfront htail
  refine ⟨?_, by rw [readTail, hclean, htail]⟩
  rw [readFront, hclean, hfront]
  exact (List.map_congr_left fun c hc ↦ if_neg (hchar c hc).1).trans (List.map_id s)

/-- A URL without query and fragment is its front. -/
theorem Url.text_of_tail (htail : u.tail = []) :
    u.text = u.scheme ++ ':' :: '/' :: '/' :: (u.authority ++ u.path) := by
  rw [text, htail, List.append_nil]

/-- There is nothing that a client would change before the query. -/
theorem isKept_of_mem_text (hhost : WebPlain u.authority) (hsegments : ∀ x ∈ u.segments, WebPlain x)
    (htail : u.tail = []) : ∀ c ∈ u.text, isKept c = true := by
  rw [Url.text_of_tail htail]
  simp only [List.forall_mem_append, List.forall_mem_cons]
  refine ⟨isKept_of_isScheme u.isScheme_scheme, by decide, by decide, by decide,
    fun c hc ↦ isKept_of_webPlain (hhost c hc), fun c hc ↦ ?_⟩
  obtain ⟨x, hx, hmem⟩ := List.mem_flatMap.mp hc
  rcases List.mem_cons.mp hmem with rfl | hmem
  · decide
  · exact isKept_of_webPlain (hsegments x hx c hmem)

/-- A URL begins with a letter. -/
theorem isControl_of_head_text {c : Char} (hc : c ∈ u.text.head?) : isControl c = false := by
  have hscheme := u.isScheme_scheme
  rw [Url.text] at hc
  cases hs : u.scheme with
  | nil => exact absurd (hs ▸ hscheme) (by decide)
  | cons c' cs =>
    rw [hs] at hc hscheme
    obtain rfl : c' = c := Option.some.inj hc
    rw [isScheme, Bool.and_eq_true] at hscheme
    exact isControl_of_isAlpha hscheme.1

/-- It ends as its last segment does, if nothing follows. -/
theorem isControl_of_getLast_text {x : List Char} (hx : u.segments.getLast? = some x)
    (hlast : ∀ c ∈ x.getLast?, isControl c = false) (htail : u.tail = []) {c : Char}
    (hc : c ∈ u.text.getLast?) : isControl c = false := by
  have hend : u.text.getLast? = some (x.getLast?.getD '/') := by
    rw [Url.text_of_tail htail]
    simp [List.getLast?_append, List.getLast?_cons, Url.getLast_path hx]
  obtain rfl : x.getLast?.getD '/' = c := Option.some.inj (hend.symm.trans hc)
  cases hxlast : x.getLast? with
  | none => decide
  | some c' => exact hlast c' hxlast

/-- **A URL that a client takes as it is written**: it has an authority, a path and nothing else,
and there is nothing in them that the client would change. -/
theorem parseWeb_text (hhost : IsHost u.authority) (hne : u.segments ≠ [])
    (hsegments : ∀ x ∈ u.segments, WebPlain x ∧ ¬ IsWebDots x)
    (hlast : ∀ x ∈ u.segments.getLast?, ∀ c ∈ x.getLast?, isControl c = false)
    (htail : u.tail = []) : parseWeb u.text = some u := by
  have hx := List.getLast?_eq_some_getLast hne
  obtain ⟨hfront, hnone⟩ := readFront_eq_self
    (isKept_of_mem_text hhost.2 (fun x hx ↦ (hsegments x hx).1) htail)
    (fun _ hc ↦ isControl_of_head_text hc)
    (fun _ hc ↦ isControl_of_getLast_text hx (hlast _ hx) htail hc)
  obtain ⟨hscheme, hrest⟩ := takeWhile_append
    (fun c hc ↦ bne_iff_ne.mpr (ne_colon_of_isScheme u.isScheme_scheme c hc))
    (v := ':' :: '/' :: '/' :: (u.authority ++ u.path)) (by rintro c ⟨rfl⟩; decide)
  rw [← Url.text_of_tail htail] at hscheme hrest
  have hslashes : ('/' :: '/' :: (u.authority ++ u.path)).dropWhile (· == '/') =
      u.authority ++ (u.path ++ u.tail) := by
    obtain ⟨c, cs, hcs⟩ := List.exists_cons_of_ne_nil hhost.1
    have hc : c ≠ '/' := by
      rintro rfl
      exact absurd (hhost.2 '/' (hcs ▸ List.mem_cons_self)) (by decide)
    rw [htail, List.append_nil, hcs]
    simp [hc]
  have hresolved : u.resolved = u :=
    Url.ext rfl rfl ((if_neg hne).trans (resolve_of_not_dots fun x hx ↦ (hsegments x hx).2)) rfl rfl
  rw [parseWeb, dif_pos (by rw [hfront, hscheme, u.isScheme_scheme])]
  simp only [hfront, hscheme, hrest, hnone, hslashes, List.append_nil, u.urlOf_text, hresolved]

end Urls
