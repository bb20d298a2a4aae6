import Mathlib.Data.List.TakeWhile

/-!
# URLs in the generic syntax

A URL with an authority is a scheme, `://`, the authority, segments with a slash before each, and
perhaps a query behind a question mark and a fragment behind a number sign.

A `Url` is these parts, and carries that no part contains what would end it.  So its text tells the
parts (`parse_text`), and `parse` succeeds on the texts of URLs and on nothing else
(`parse_eq_some_iff`).  The authority does not depend on what comes behind it
(`exists_parse_authority`).
-/

set_option autoImplicit false

namespace Urls

/-! ## Splitting lists -/

section Splitting

variable {α : Type*} {p : α → Bool} {u v l : List α}

/-- A list is cut where the first element fails. -/
theorem takeWhile_append (hu : ∀ x ∈ u, p x = true) (hv : ∀ x ∈ v.head?, p x = false) :
    (u ++ v).takeWhile p = u ∧ (u ++ v).dropWhile p = v := by
  rw [List.takeWhile_append_of_pos hu, List.dropWhile_append_of_pos hu]
  cases v with
  | nil => exact ⟨List.append_nil u, rfl⟩
  | cons x v =>
    have hx : ¬ p x = true := Bool.eq_false_iff.mp (hv x rfl)
    rw [List.takeWhile_cons_of_neg hx, List.dropWhile_cons_of_neg hx]
    exact ⟨List.append_nil u, rfl⟩

theorem head_dropWhile {x : α} (hx : x ∈ (l.dropWhile p).head?) : p x = false := by
  have h := List.head?_dropWhile_not p l
  rw [Option.mem_def.mp hx] at h
  simpa using h

theorem head_takeWhile {x : α} (hx : x ∈ (l.takeWhile p).head?) : x ∈ l.head? ∧ p x = true := by
  rw [List.head?_takeWhile] at hx
  exact ⟨(Option.filter_eq_some_iff.mp hx).1, (Option.filter_eq_some_iff.mp hx).2⟩

/-- An optional part behind a separator is read back. -/
theorem tail?_elim (a : α) (o : Option (List α)) : (o.elim [] (a :: ·)).tail? = o := by
  cases o <;> rfl

theorem elim_tail? {a : α} (h : ∀ x ∈ l.head?, x = a) : l.tail?.elim [] (a :: ·) = l := by
  cases l with
  | nil => rfl
  | cons x l => exact congrArg (· :: l) (h x rfl).symm

/-- Separators between are separators before all but the first. -/
theorem intercalate_cons (a : α) (s : List α) (segments : List (List α)) :
    [a].intercalate (s :: segments) = s ++ segments.flatMap (a :: ·) := by
  induction segments generalizing s with
  | nil => simp
  | cons t segments ih => rw [List.intercalate_cons_cons, ih, List.flatMap_cons]; simp

variable [DecidableEq α] {a : α} {segments : List (List α)} {s : List α}

/-- What stands behind the separators is read back. -/
theorem tail_splitOn (h : ∀ s ∈ segments, a ∉ s) :
    ((segments.flatMap (a :: ·)).splitOn a).tail = segments := by
  have hsplit : ([a].intercalate ([] :: segments)).splitOn a = [] :: segments :=
    List.splitOn_intercalate a (List.forall_mem_cons.mpr ⟨List.not_mem_nil, h⟩)
      (List.cons_ne_nil _ _)
  rw [intercalate_cons, List.nil_append] at hsplit
  rw [hsplit, List.tail_cons]

/-- And what is read is what stands behind the separators, if one comes first. -/
theorem flatMap_tail_splitOn (h : ∀ x ∈ l.head?, x = a) :
    (l.splitOn a).tail.flatMap (a :: ·) = l := by
  cases l with
  | nil => rfl
  | cons x l =>
    obtain rfl : x = a := h x rfl
    obtain ⟨s, segments, hsplit⟩ := List.exists_cons_of_ne_nil (List.splitOn_ne_nil x l)
    have hjoin : [x].intercalate (l.splitOn x) = l := List.intercalate_splitOn x
    rw [hsplit, intercalate_cons] at hjoin
    rw [List.splitOn_cons_eq_if_modifyHead, if_pos (beq_self_eq_true x), List.tail_cons, hsplit,
      List.flatMap_cons, List.cons_append, hjoin]

/-- The pieces of a split hold what the list holds, without the separators. -/
theorem mem_of_mem_splitOn (h : s ∈ l.splitOn a) {x : α} (hx : x ∈ s) : x ∈ l ∧ x ≠ a := by
  induction l generalizing s with
  | nil =>
    rw [List.splitOn_nil, List.mem_singleton] at h
    exact absurd (h ▸ hx) List.not_mem_nil
  | cons y l ih =>
    rw [List.splitOn_cons_eq_if_modifyHead] at h
    split at h
    · rcases List.mem_cons.mp h with rfl | h
      · exact absurd hx List.not_mem_nil
      · exact (ih h hx).imp_left (List.mem_cons_of_mem y)
    · next hy =>
      obtain ⟨t, pieces, hsplit⟩ := List.exists_cons_of_ne_nil (List.splitOn_ne_nil a l)
      rw [hsplit] at ih
      rw [hsplit, List.modifyHead_cons] at h
      rcases List.mem_cons.mp h with rfl | h
      · rcases List.mem_cons.mp hx with rfl | hx
        · exact ⟨List.mem_cons_self, by simpa using hy⟩
        · exact (ih List.mem_cons_self hx).imp_left (List.mem_cons_of_mem y)
      · exact (ih (List.mem_cons_of_mem t h) hx).imp_left (List.mem_cons_of_mem y)

end Splitting

/-! ## URLs -/

/-- A character that ends an authority or a segment. -/
def isDelim (c : Char) : Bool := c == '/' || c == '?' || c == '#'

/-- A character of a path. -/
def isPathChar (c : Char) : Bool := c != '?' && c != '#'

/-- A letter, and then letters, digits, plus signs, hyphens and full stops. -/
def isScheme : List Char → Bool
  | [] => false
  | c :: cs => c.isAlpha && cs.all fun c ↦ c.isAlphanum || c == '+' || c == '-' || c == '.'

/-- Nothing in the text ends an authority or a segment. -/
def Plain (s : List Char) : Prop := ∀ c ∈ s, isDelim c = false

instance (s : List Char) : Decidable (Plain s) := List.decidableBAll _ s

/-- A segment that stands for this place in the path, or for the one above. -/
def IsDots (s : List Char) : Prop := s = ['.'] ∨ s = ['.', '.']

instance (s : List Char) : Decidable (IsDots s) :=
  inferInstanceAs (Decidable (s = ['.'] ∨ s = ['.', '.']))

/-- A URL with an authority. -/
@[ext] structure Url where
  /-- What stands before `://`. -/
  scheme : List Char
  /-- The host, and perhaps a user before it and a port behind. -/
  authority : List Char
  /-- The segments of the path. -/
  segments : List (List Char)
  /-- What stands behind the question mark. -/
  query : Option (List Char)
  /-- What stands behind the number sign. -/
  fragment : Option (List Char)
  /-- The scheme is one. -/
  isScheme_scheme : isScheme scheme = true
  /-- Nothing ends the authority early. -/
  plain_authority : Plain authority
  /-- Nothing ends a segment early. -/
  plain_segments : ∀ s ∈ segments, Plain s
  /-- Nothing ends the query early. -/
  plain_query : ∀ q ∈ query, '#' ∉ q

namespace Url

/-- The path as it is written. -/
def path (u : Url) : List Char := u.segments.flatMap ('/' :: ·)

/-- The query and the fragment as they are written. -/
def tail (u : Url) : List Char := u.query.elim [] ('?' :: ·) ++ u.fragment.elim [] ('#' :: ·)

/-- The URL as it is written. -/
def text (u : Url) : List Char :=
  u.scheme ++ ':' :: '/' :: '/' :: (u.authority ++ (u.path ++ u.tail))

end Url

theorem ne_colon_of_isScheme {s : List Char} (h : isScheme s = true) : ∀ c ∈ s, c ≠ ':' := by
  cases s with
  | nil => exact fun c hc ↦ absurd hc List.not_mem_nil
  | cons c s =>
    rw [isScheme, Bool.and_eq_true, List.all_eq_true] at h
    refine List.forall_mem_cons.mpr ⟨?_, fun x hx ↦ ?_⟩
    · rintro rfl
      exact absurd h.1 (by decide)
    · rintro rfl
      exact absurd (h.2 _ hx) (by decide)

/-! ## Reading a URL -/

section Reading

variable (rest : List Char)

/-- Up to the first delimiter. -/
def readAuthority : List Char := rest.takeWhile fun c ↦ !isDelim c

/-- From there on. -/
def afterAuthority : List Char := rest.dropWhile fun c ↦ !isDelim c

/-- The query and the fragment, with the characters that introduce them. -/
def afterPath : List Char := (afterAuthority rest).dropWhile isPathChar

/-- The segments: the first piece of the path is what stands before its first slash, and empty. -/
def readSegments : List (List Char) :=
  (((afterAuthority rest).takeWhile isPathChar).splitOn '/').tail

/-- Up to the number sign. -/
def readQuery : Option (List Char) := ((afterPath rest).takeWhile (· != '#')).tail?

/-- From the number sign on. -/
def readFragment : Option (List Char) := ((afterPath rest).dropWhile (· != '#')).tail?

end Reading

variable {s rest scheme : List Char} {u : Url}

theorem plain_readAuthority : Plain (readAuthority rest) := fun c hc ↦ by
  simpa using List.mem_takeWhile_imp hc

theorem plain_readSegments : ∀ s ∈ readSegments rest, Plain s := by
  intro s hs c hc
  obtain ⟨hpath, hslash⟩ := mem_of_mem_splitOn (List.mem_of_mem_tail hs) hc
  have hchar := List.mem_takeWhile_imp hpath
  simp only [isPathChar, Bool.and_eq_true, bne_iff_ne] at hchar
  simp [isDelim, hslash, hchar.1, hchar.2]

theorem plain_readQuery : ∀ q ∈ readQuery rest, '#' ∉ q := by
  intro q hq hmem
  rw [readQuery] at hq
  have hin : '#' ∈ (afterPath rest).takeWhile (· != '#') := by
    cases hl : (afterPath rest).takeWhile (· != '#') with
    | nil => simp [hl] at hq
    | cons c l =>
      rw [hl] at hq
      obtain rfl : l = q := Option.some.inj hq
      exact List.mem_cons_of_mem c hmem
  exact absurd (List.mem_takeWhile_imp hin) (by decide)

/-- The URL of a scheme and what stands behind `://`. -/
def urlOf (scheme : List Char) (hscheme : isScheme scheme = true) (rest : List Char) : Url where
  scheme := scheme
  authority := readAuthority rest
  segments := readSegments rest
  query := readQuery rest
  fragment := readFragment rest
  isScheme_scheme := hscheme
  plain_authority := plain_readAuthority
  plain_segments := plain_readSegments
  plain_query := plain_readQuery

/-- Read a URL. -/
def parse (s : List Char) : Option Url :=
  if hscheme : isScheme (s.takeWhile (· != ':')) = true then
    match s.dropWhile (· != ':') with
    | ':' :: '/' :: '/' :: rest => some (urlOf (s.takeWhile (· != ':')) hscheme rest)
    | _ => none
  else none

/-! ## Reading what was written -/

theorem isDelim_iff {c : Char} : isDelim c = true ↔ c = '/' ∨ c = '?' ∨ c = '#' := by
  simp [isDelim, or_assoc]

theorem isPathChar_eq_false {c : Char} : isPathChar c = false ↔ c = '?' ∨ c = '#' := by
  rw [isPathChar, Bool.and_eq_false_iff, bne_eq_false_iff_eq, bne_eq_false_iff_eq]

/-- The path is written as it was read. -/
theorem flatMap_readSegments (rest : List Char) :
    (readSegments rest).flatMap ('/' :: ·) = (afterAuthority rest).takeWhile isPathChar := by
  refine flatMap_tail_splitOn fun c hc ↦ ?_
  obtain ⟨hhead, hpath⟩ := head_takeWhile hc
  have hdelim : isDelim c = true := by simpa using head_dropWhile hhead
  rcases isDelim_iff.mp hdelim with rfl | rfl | rfl
  · rfl
  · exact absurd hpath (by decide)
  · exact absurd hpath (by decide)

/-- So are the query and the fragment. -/
theorem elim_readQuery (rest : List Char) :
    (readQuery rest).elim [] ('?' :: ·) = (afterPath rest).takeWhile (· != '#') := by
  refine elim_tail? fun c hc ↦ ?_
  obtain ⟨hhead, hne⟩ := head_takeWhile hc
  rcases isPathChar_eq_false.mp (head_dropWhile hhead) with rfl | rfl
  · rfl
  · exact absurd hne (by decide)

theorem elim_readFragment (rest : List Char) :
    (readFragment rest).elim [] ('#' :: ·) = (afterPath rest).dropWhile (· != '#') :=
  elim_tail? fun c hc ↦ by simpa using head_dropWhile hc

/-- What is read is written as it was. -/
theorem text_urlOf (hscheme : isScheme scheme = true) :
    (urlOf scheme hscheme rest).text = scheme ++ ':' :: '/' :: '/' :: rest := by
  have htail : (urlOf scheme hscheme rest).tail = afterPath rest := by
    rw [Url.tail, urlOf, elim_readQuery, elim_readFragment, List.takeWhile_append_dropWhile]
  have hpath : (urlOf scheme hscheme rest).path ++ afterPath rest = afterAuthority rest := by
    rw [Url.path, urlOf, flatMap_readSegments, afterPath, List.takeWhile_append_dropWhile]
  rw [Url.text, htail, hpath]
  exact congrArg (scheme ++ ':' :: '/' :: '/' :: ·) List.takeWhile_append_dropWhile

/-! ## Writing what will be read -/

namespace Url

theorem isPathChar_of_mem_path {c : Char} (hc : c ∈ u.path) : isPathChar c = true := by
  obtain ⟨s, hs, hmem⟩ := List.mem_flatMap.mp hc
  rcases List.mem_cons.mp hmem with rfl | hmem
  · decide
  · have hplain := u.plain_segments s hs c hmem
    rw [← Bool.not_eq_false, isPathChar_eq_false]
    intro hend
    exact absurd (isDelim_iff.mpr (Or.inr hend)) (Bool.eq_false_iff.mp hplain)

theorem head_tail {c : Char} (hc : c ∈ u.tail.head?) : isPathChar c = false := by
  rw [isPathChar_eq_false]
  rw [tail] at hc
  cases hq : u.query with
  | some q =>
    rw [hq] at hc
    exact Or.inl (Option.some.inj hc).symm
  | none =>
    cases hf : u.fragment with
    | some f =>
      rw [hq, hf] at hc
      exact Or.inr (Option.some.inj hc).symm
    | none =>
      rw [hq, hf] at hc
      exact absurd hc nofun

theorem head_path_tail {c : Char} (hc : c ∈ (u.path ++ u.tail).head?) : isDelim c = true := by
  rw [path] at hc
  cases hs : u.segments with
  | nil =>
    rw [hs] at hc
    exact isDelim_iff.mpr (Or.inr (isPathChar_eq_false.mp (head_tail hc)))
  | cons s segments =>
    rw [hs] at hc
    exact isDelim_iff.mpr (Or.inl (Option.some.inj hc).symm)

theorem afterAuthority_text : readAuthority (u.authority ++ (u.path ++ u.tail)) = u.authority ∧
    afterAuthority (u.authority ++ (u.path ++ u.tail)) = u.path ++ u.tail :=
  takeWhile_append (fun c hc ↦ by rw [u.plain_authority c hc, Bool.not_false])
    (fun c hc ↦ by rw [head_path_tail hc, Bool.not_true])

theorem tail_split : u.tail.takeWhile (· != '#') = u.query.elim [] ('?' :: ·) ∧
    u.tail.dropWhile (· != '#') = u.fragment.elim [] ('#' :: ·) := by
  refine takeWhile_append (fun c hc ↦ ?_) (fun c hc ↦ ?_)
  · rw [bne_iff_ne]
    rintro rfl
    cases hq : u.query with
    | none =>
      rw [hq] at hc
      exact absurd hc List.not_mem_nil
    | some q =>
      rw [hq] at hc
      exact u.plain_query q hq ((List.mem_cons.mp hc).resolve_left (by decide))
  · cases hf : u.fragment with
    | none =>
      rw [hf] at hc
      exact absurd hc nofun
    | some f =>
      rw [hf] at hc
      rw [← Option.some.inj hc]
      decide

/-- What is written is read as it was. -/
theorem urlOf_text (u : Url) :
    urlOf u.scheme u.isScheme_scheme (u.authority ++ (u.path ++ u.tail)) = u := by
  obtain ⟨hauthority, hafter⟩ := u.afterAuthority_text
  obtain ⟨hpath, htail⟩ := takeWhile_append (fun c hc ↦ isPathChar_of_mem_path hc)
    (fun c hc ↦ u.head_tail hc)
  obtain ⟨hquery, hfragment⟩ := u.tail_split
  have hslash : ∀ s ∈ u.segments, '/' ∉ s := fun s hs hmem ↦
    absurd (u.plain_segments s hs '/' hmem) (by decide)
  refine Url.ext rfl hauthority ?_ ?_ ?_
  · show readSegments _ = _
    rw [readSegments, hafter, hpath]
    exact tail_splitOn hslash
  · show readQuery _ = _
    rw [readQuery, afterPath, hafter, htail, hquery, tail?_elim]
  · show readFragment _ = _
    rw [readFragment, afterPath, hafter, htail, hfragment, tail?_elim]

end Url

/-- **The text of a URL is read as that URL.** -/
theorem parse_text (u : Url) : parse u.text = some u := by
  have hcolon : ∀ c ∈ u.scheme, (c != ':') = true := fun c hc ↦
    bne_iff_ne.mpr (ne_colon_of_isScheme u.isScheme_scheme c hc)
  have hhead : ∀ c ∈ (':' :: '/' :: '/' :: (u.authority ++ (u.path ++ u.tail))).head?,
      (c != ':') = false := by
    rintro c ⟨rfl⟩
    decide
  obtain ⟨hscheme, hrest⟩ := takeWhile_append hcolon hhead
  rw [parse, dif_pos (by rw [Url.text, hscheme, u.isScheme_scheme])]
  simp only [Url.text, hscheme, hrest]
  exact congrArg some u.urlOf_text

/-- **What is read is the URL whose text it is.** -/
theorem parse_eq_some_iff : parse s = some u ↔ u.text = s := by
  constructor
  · intro h
    rw [parse] at h
    split at h
    · next hscheme =>
      split at h
      · next rest hrest =>
        obtain rfl := Option.some.inj h
        rw [text_urlOf, ← hrest, List.takeWhile_append_dropWhile]
      · exact absurd h nofun
    · exact absurd h nofun
  · rintro rfl
    exact parse_text u

end Urls
