/-
Patterns of URL paths, segment by segment, and the two readings of a path.

A pattern is a row of literal segments and wildcards, after which anything may follow. A
dispatcher reads each segment decoded and without its parameters; a filter may read it as it
was sent. `decodeSegment_literal` and `literal_of_decodeSegment` say how far the two readings
agree on a literal, and `matches_nonempty` that empty segments do not matter to a pattern that
is matched anyway.
-/
import PlmCore.Lib.UrlPath

set_option autoImplicit false

namespace PlmCore.Lib.PathPattern

open UrlPath (Segment pathText)

/-! ## Patterns -/

/-- One segment of a pattern. -/
inductive Part where
  | lit (s : String)
  | any
  deriving DecidableEq

/-- A pattern, with `tail` if anything may follow. -/
structure Pattern where
  parts : List Part
  tail : Bool
  deriving DecidableEq

/-- An empty segment matches nothing. -/
def Part.matches : Part → Segment → Bool
  | lit s, seg => !seg.isEmpty && seg = s.toList
  | any, seg => !seg.isEmpty

def matchParts (tail : Bool) : List Part → List Segment → Bool
  | [], segs => tail || segs.isEmpty
  | _ :: _, [] => false
  | p :: ps, seg :: segs => p.matches seg && matchParts tail ps segs

/-- The segments match the pattern. -/
def Pattern.matches (p : Pattern) (segs : List Segment) : Bool := matchParts p.tail p.parts segs

/-- The parts of one pattern lie over those of another. -/
def coverParts (tail : Bool) (mtail : Bool) : List Part → List Part → Bool
  | [], ms => tail || ms.isEmpty && !mtail
  | _ :: _, [] => false
  | .any :: ps, _ :: ms => coverParts tail mtail ps ms
  | .lit s :: ps, m :: ms => m = .lit s && coverParts tail mtail ps ms

/-- `m` lies under `p`: every part of `p` is in `m`, or is a wildcard. -/
def Pattern.covers (p m : Pattern) : Bool := coverParts p.tail m.tail p.parts m.parts

/-- The first segment of a pattern, if it is a literal. -/
def Pattern.head? (p : Pattern) : Option String :=
  match p.parts with
  | .lit s :: _ => some s
  | _ => none

/-- The characters of `head?`. -/
def Pattern.headText (p : Pattern) : Segment := (p.head?.getD "").toList

def Part.text : Part → Segment
  | lit s => s.toList
  | any => ['*']

/-- The pattern as it is written, `/a/*/b/**`. -/
def Pattern.text (p : Pattern) : List Char :=
  pathText (p.parts.map Part.text ++ if p.tail then [['*', '*']] else [])

theorem Part.ne_nil_of_matches {p : Part} {seg : Segment} (h : p.matches seg = true) :
    seg ≠ [] := by
  rintro rfl
  cases p <;> simp [Part.matches] at h

theorem matchParts_of_cover {tail mtail : Bool} {ps ms : List Part} {segs : List Segment}
    (hcover : coverParts tail mtail ps ms = true) (hm : matchParts mtail ms segs = true) :
    matchParts tail ps segs = true := by
  induction ps generalizing ms segs with
  | nil =>
    cases ms with
    | nil =>
      by_cases htail : tail = true
      · simp [matchParts, htail]
      · simp only [coverParts, htail, Bool.false_or, List.isEmpty_nil, Bool.true_and,
          Bool.not_eq_true'] at hcover
        simpa [matchParts, hcover] using Or.inr hm
    | cons m ms =>
      have htail : tail = true := by simpa [coverParts] using hcover
      simp [matchParts, htail]
  | cons p ps ih =>
    cases ms with
    | nil => cases p <;> simp [coverParts] at hcover
    | cons m ms =>
      cases segs with
      | nil => simp [matchParts] at hm
      | cons seg segs =>
        simp only [matchParts, Bool.and_eq_true] at hm ⊢
        cases p with
        | any =>
          refine ⟨?_, ih hcover hm.2⟩
          simpa [Part.matches] using Part.ne_nil_of_matches hm.1
        | lit s =>
          simp only [coverParts, Bool.and_eq_true, decide_eq_true_eq] at hcover
          exact ⟨hcover.1 ▸ hm.1, ih hcover.2 hm.2⟩

/-- **What matches a pattern matches every pattern it lies under.** -/
theorem matches_of_covers {p m : Pattern} {segs : List Segment} (hcover : p.covers m = true)
    (hm : m.matches segs = true) : p.matches segs = true :=
  matchParts_of_cover hcover hm

/-- A literal at the start is what a matching path starts with. -/
theorem head_of_matches {p : Pattern} {s : String} {segs : List Segment} (hhead : p.head? = some s)
    (h : p.matches segs = true) : s.toList ≠ [] ∧ ∃ rest, segs = s.toList :: rest := by
  obtain ⟨parts, tail⟩ := p
  cases parts with
  | nil => simp [Pattern.head?] at hhead
  | cons part parts =>
    cases part with
    | any => simp [Pattern.head?] at hhead
    | lit s' =>
      obtain rfl : s' = s := by simpa [Pattern.head?] using hhead
      cases segs with
      | nil => simp [Pattern.matches, matchParts] at h
      | cons seg segs =>
        simp only [Pattern.matches, matchParts, Part.matches, Bool.and_eq_true,
          decide_eq_true_eq] at h
        obtain ⟨⟨hne, rfl⟩, -⟩ := h
        exact ⟨by simpa using hne, segs, rfl⟩

theorem head_of_covers {p m : Pattern} {s : String} (hhead : p.head? = some s)
    (hcover : p.covers m = true) : m.head? = some s := by
  obtain ⟨parts, tail⟩ := p
  obtain ⟨mparts, mtail⟩ := m
  cases parts with
  | nil => simp [Pattern.head?] at hhead
  | cons part parts =>
    cases part with
    | any => simp [Pattern.head?] at hhead
    | lit s' =>
      obtain rfl : s' = s := by simpa [Pattern.head?] using hhead
      cases mparts with
      | nil => simp [Pattern.covers, coverParts] at hcover
      | cons m mparts =>
        simp only [Pattern.covers, coverParts, Bool.and_eq_true, decide_eq_true_eq] at hcover
        simp [Pattern.head?, hcover.1]

/-- A text whose characters stand for themselves, in a pattern and in a request target. -/
def isLiteral (s : String) : Bool :=
  s ≠ "" && s.toList.all fun c => c ∉ ['/', '*', '?', '\x7b', '\x7d', '%', ';']

/-- A pattern that starts with a literal segment and does not end with a wildcard segment. -/
def Pattern.plain (p : Pattern) : Bool :=
  p.head?.isSome && p.parts.getLast? ≠ some .any && p.parts.all fun part =>
    match part with
    | .lit s => isLiteral s
    | .any => true

/-! ## The segments of a path -/

/-- The segments of a path that starts with a slash. -/
def segments? : List Char → Option (List Segment)
  | '/' :: rest => some (rest.splitOn '/')
  | _ => none

theorem pathText_splitOn (rest : List Char) : pathText (rest.splitOn '/') = '/' :: rest := by
  unfold List.splitOn
  induction rest with
  | nil => rfl
  | cons c rest ih =>
    rw [List.splitOnP_cons_eq_if_modifyHead]
    by_cases hc : c = '/'
    · rw [if_pos (by simp [hc]), UrlPath.pathText_cons, ih, hc, List.nil_append]
    · rw [if_neg (by simp [hc])]
      cases hsplit : rest.splitOnP (· == '/') with
      | nil => exact absurd hsplit (List.splitOnP_ne_nil _ _)
      | cons seg segs =>
        rw [hsplit, UrlPath.pathText_cons, List.cons.injEq] at ih
        rw [List.modifyHead_cons, UrlPath.pathText_cons, List.cons_append, ih.2]

theorem splitOn_append_pathText {seg : Segment} {segs : List Segment} (hseg : '/' ∉ seg)
    (hsegs : ∀ x ∈ segs, '/' ∉ x) : (seg ++ pathText segs).splitOn '/' = seg :: segs := by
  induction segs generalizing seg with
  | nil => simpa [pathText] using List.splitOn_eq_singleton hseg
  | cons next segs ih =>
    rw [UrlPath.pathText_cons, List.splitOn_append_cons_self_of_not_mem hseg,
      ih (hsegs next (by simp)) fun x hx => hsegs x (List.mem_cons_of_mem _ hx)]

theorem splitOn_pathText {segs : List Segment} (hsegs : ∀ x ∈ segs, '/' ∉ x) :
    (pathText segs).splitOn '/' = [] :: segs :=
  by
  simpa using splitOn_append_pathText (List.not_mem_nil (a := '/')) hsegs

theorem not_mem_splitOn {rest : List Char} {seg : Segment} (h : seg ∈ rest.splitOn '/') :
    '/' ∉ seg := by
  unfold List.splitOn at h
  induction rest generalizing seg with
  | nil =>
    rw [List.splitOnP_nil, List.mem_singleton] at h
    simp [h]
  | cons c rest ih =>
    rw [List.splitOnP_cons_eq_if_modifyHead] at h
    by_cases hc : c = '/'
    · rw [if_pos (by simp [hc])] at h
      rcases List.mem_cons.mp h with rfl | h
      · simp
      · exact ih h
    · rw [if_neg (by simp [hc])] at h
      cases hsplit : rest.splitOnP (· == '/') with
      | nil => exact absurd hsplit (List.splitOnP_ne_nil _ _)
      | cons first others =>
        rw [hsplit] at h ih
        rcases List.mem_cons.mp h with rfl | h
        · simpa [Ne.symm hc] using ih (List.mem_cons_self ..)
        · exact ih (List.mem_cons_of_mem _ h)

/-- A path with segments is their text, and no segment has a slash. -/
theorem segments?_eq_some {path : List Char} {segs : List Segment}
    (h : segments? path = some segs) :
    path = pathText segs ∧ (∀ seg ∈ segs, '/' ∉ seg) ∧ segs ≠ [] := by
  unfold segments? at h
  split at h
  · rename_i rest
    obtain rfl : rest.splitOn '/' = segs := by simpa using h
    exact ⟨(pathText_splitOn rest).symm, fun seg => not_mem_splitOn,
      List.splitOnP_ne_nil _ _⟩
  · simp at h

theorem segments?_pathText {segs : List Segment} (hne : segs ≠ [])
    (hslash : ∀ seg ∈ segs, '/' ∉ seg) :
    segments? (pathText segs) = some segs := by
  cases segs with
  | nil => exact absurd rfl hne
  | cons seg segs =>
    rw [UrlPath.pathText_cons, segments?, splitOn_append_pathText (hslash seg (by simp))
      fun x hx => hslash x (List.mem_cons_of_mem _ hx)]

/-- The segments that are not empty. -/
def nonempty (segs : List Segment) : List Segment := segs.filter (· ≠ [])

theorem nonempty_cons {seg : Segment} (h : seg ≠ []) (segs : List Segment) :
    nonempty (seg :: segs) = seg :: nonempty segs :=
  List.filter_cons_of_pos (by simpa using h)

/-- A text that begins a path, up to the first slash, begins its first segment. -/
theorem prefix_of_prefix_pathText {s more seg : List Char} {segs : List Segment} (hs : '/' ∉ s)
    (h : '/' :: (s ++ more) <+: pathText (seg :: segs)) : s <+: seg := by
  rw [UrlPath.pathText_cons, List.cons_prefix_cons] at h
  have hpre : s <+: seg ++ pathText segs := (List.prefix_append s more).trans h.2
  rcases List.prefix_or_prefix_of_prefix hpre (List.prefix_append seg _) with hseg | ⟨t, rfl⟩
  · exact hseg
  rw [List.prefix_append_right_inj] at hpre
  cases t with
  | nil => simp
  | cons c t =>
    -- what follows the first segment starts with a slash
    cases segs with
    | nil => simp [UrlPath.pathText] at hpre
    | cons next segs =>
      rw [UrlPath.pathText_cons, List.cons_prefix_cons] at hpre
      simp [hpre.1] at hs

/-! ## Decoded segments -/

def hexDigit (c : Char) : Option Nat :=
  if '0' ≤ c ∧ c ≤ '9' then some (c.toNat - '0'.toNat)
  else if 'a' ≤ c ∧ c ≤ 'f' then some (c.toNat - 'a'.toNat + 10)
  else if 'A' ≤ c ∧ c ≤ 'F' then some (c.toNat - 'A'.toNat + 10)
  else none

/-- One pass of percent-decoding, each byte written as a character; an unfinished or ill-formed
sequence is refused. -/
def percentDecode : List Char → Option (List Char)
  | [] => some []
  | '%' :: a :: b :: rest =>
    match hexDigit a, hexDigit b, percentDecode rest with
    | some x, some y, some decoded => some (Char.ofNat (16 * x + y) :: decoded)
    | _, _, _ => none
  | c :: rest => if c = '%' then none else (percentDecode rest).map (c :: ·)

/-- A segment without its parameters `;...`, decoded once. -/
def decodeSegment (seg : Segment) : Option Segment := percentDecode (seg.takeWhile (· ≠ ';'))

/-- A text that decoding leaves as it is. -/
def Literal (s : List Char) : Prop := ∀ c ∈ s, c ≠ '%' ∧ c ≠ ';'

theorem percentDecode_cons {c : Char} (hc : c ≠ '%') (rest : List Char) :
    percentDecode (c :: rest) = (percentDecode rest).map (c :: ·) := by
  rw [percentDecode, if_neg hc]
  rintro a b r rfl
  exact absurd rfl hc

theorem percentDecode_append {s : List Char} (hs : Literal s) (rest : List Char) :
    percentDecode (s ++ rest) = (percentDecode rest).map (s ++ ·) := by
  induction s with
  | nil => simp
  | cons c s ih =>
    rw [List.cons_append, percentDecode_cons (hs c (by simp)).1,
      ih fun x hx => hs x (List.mem_cons_of_mem _ hx), Option.map_map]
    rfl

/-- **A literal survives decoding**, at the start of a segment too. -/
theorem decodeSegment_append {s : List Char} (hs : Literal s) (rest : List Char) :
    decodeSegment (s ++ rest) = (decodeSegment rest).map (s ++ ·) := by
  unfold decodeSegment
  rw [List.takeWhile_append_of_pos fun c hc => by simpa using (hs c hc).2, percentDecode_append hs]

theorem decodeSegment_nil : decodeSegment [] = some [] := rfl

theorem decodeSegment_literal {s : List Char} (hs : Literal s) : decodeSegment s = some s := by
  simpa [decodeSegment_nil] using decodeSegment_append hs []

/-- What starts with a literal starts with it decoded. -/
theorem prefix_of_decodeSegment {s seg d : List Char} (hs : Literal s) (hseg : s <+: seg)
    (hd : decodeSegment seg = some d) : s <+: d := by
  obtain ⟨rest, rfl⟩ := hseg
  rw [decodeSegment_append hs] at hd
  obtain ⟨r, -, rfl⟩ := Option.map_eq_some_iff.mp hd
  exact List.prefix_append s r

/-! ## A path and its decoded segments -/

/-- Every segment decodes. -/
def Decodes : List Segment → List Segment → Prop :=
  List.Forall₂ fun seg d => decodeSegment seg = some d

theorem ne_nil_of_decodeSegment {seg d : Segment} (h : decodeSegment seg = some d) (hd : d ≠ []) :
    seg ≠ [] := by
  rintro rfl
  rw [decodeSegment_nil, Option.some.injEq] at h
  exact hd h.symm

/-- **Empty segments do not matter** to a pattern that the decoded segments match. -/
theorem matchParts_nonempty {tail : Bool} {ps : List Part} {raw dec : List Segment}
    (hdec : Decodes raw dec) (hm : matchParts tail ps dec = true) :
    matchParts tail ps (nonempty raw) = matchParts tail ps raw := by
  induction ps generalizing raw dec with
  | nil =>
    cases tail with
    | true => rfl
    | false =>
      obtain rfl : dec = [] := by simpa [matchParts] using hm
      cases hdec
      rfl
  | cons p ps ih =>
    cases hdec with
    | nil => rfl
    | cons hd hrest =>
      simp only [matchParts, Bool.and_eq_true] at hm
      have hseg := ne_nil_of_decodeSegment hd (Part.ne_nil_of_matches hm.1)
      rw [nonempty_cons hseg, matchParts, matchParts, ih hrest hm.2]

theorem matches_nonempty {p : Pattern} {raw dec : List Segment} (hdec : Decodes raw dec)
    (hm : p.matches dec = true) : p.matches (nonempty raw) = p.matches raw :=
  matchParts_nonempty hdec hm

/-- Without a tail no segment is empty. -/
theorem ne_nil_of_matchParts {ps : List Part} {segs : List Segment}
    (hm : matchParts false ps segs = true) : ∀ seg ∈ segs, seg ≠ [] := by
  induction ps generalizing segs with
  | nil =>
    obtain rfl : segs = [] := by simpa [matchParts] using hm
    simp
  | cons p ps ih =>
    cases segs with
    | nil => simp
    | cons seg segs =>
      simp only [matchParts, Bool.and_eq_true] at hm
      intro x hx
      rcases List.mem_cons.mp hx with rfl | hx
      · exact Part.ne_nil_of_matches hm.1
      · exact ih hm.2 x hx

theorem Decodes.ne_nil {raw dec : List Segment} (hdec : Decodes raw dec)
    (hne : ∀ d ∈ dec, d ≠ []) : ∀ seg ∈ raw, seg ≠ [] := by
  induction hdec with
  | nil => simp
  | cons hd hrest ih =>
    intro x hx
    rcases List.mem_cons.mp hx with rfl | hx
    · exact ne_nil_of_decodeSegment hd (hne _ (List.mem_cons_self ..))
    · exact ih (fun d hd => hne d (List.mem_cons_of_mem _ hd)) x hx

/-! ## Plain patterns -/

section Plain

variable {p : Pattern} (hp : p.plain = true)
include hp

/-- A plain pattern is written with its first segment first. -/
theorem Pattern.plain_head : ∃ s, p.head? = some s ∧ isLiteral s = true ∧ p.headText = s.toList ∧
    ∃ more, p.text = '/' :: (s.toList ++ more) := by
  obtain ⟨parts, tail⟩ := p
  simp only [Pattern.plain, Bool.and_eq_true] at hp
  obtain ⟨⟨hhead, -⟩, hall⟩ := hp
  cases parts with
  | nil => simp [Pattern.head?] at hhead
  | cons part parts =>
    cases part with
    | any => simp [Pattern.head?] at hhead
    | lit s =>
      rw [List.all_cons, Bool.and_eq_true] at hall
      refine ⟨s, rfl, hall.1, rfl, ?_⟩
      simp only [Pattern.text, List.map_cons, List.cons_append, UrlPath.pathText_cons]
      exact ⟨_, rfl⟩

theorem Pattern.literal_headText : Literal p.headText ∧ '/' ∉ p.headText := by
  obtain ⟨s, -, hs, htext, -⟩ := Pattern.plain_head hp
  rw [htext]
  simp only [isLiteral, Bool.and_eq_true, List.all_eq_true, decide_eq_true_eq] at hs
  constructor
  · intro c hc
    have := hs.2 c hc
    simp only [List.mem_cons, not_or] at this
    exact ⟨this.2.2.2.2.2.1, this.2.2.2.2.2.2.1⟩
  · intro hc
    simpa using hs.2 '/' hc

/-- A path that matches a plain pattern starts with its first segment. -/
theorem Pattern.eq_headText_of_matches {segs : List Segment} (h : p.matches segs = true) :
    ∃ rest, segs = p.headText :: rest := by
  obtain ⟨s, hs, -, htext, -⟩ := Pattern.plain_head hp
  rw [htext]
  exact (head_of_matches hs h).2

/-- A path that starts with the text of a plain pattern starts with its first segment. -/
theorem Pattern.headText_prefix {seg : Segment} {segs : List Segment}
    (h : p.text <+: pathText (seg :: segs)) : p.headText <+: seg := by
  obtain ⟨s, -, -, htext, more, hmore⟩ := Pattern.plain_head hp
  have hslash := (Pattern.literal_headText hp).2
  rw [htext] at hslash ⊢
  exact prefix_of_prefix_pathText hslash (hmore ▸ h)

/-- No literal of a plain pattern is written with a slash or a star. -/
theorem Pattern.text_of_plain {part : Part} (hpart : part ∈ p.parts) :
    '/' ∉ part.text ∧ (part = .any ∨ '*' ∉ part.text) := by
  simp only [Pattern.plain, Bool.and_eq_true, List.all_eq_true] at hp
  have hlit := hp.2 part hpart
  cases part with
  | any => exact ⟨by simp [Part.text], Or.inl rfl⟩
  | lit s =>
    simp only [isLiteral, Bool.and_eq_true, List.all_eq_true, decide_eq_true_eq] at hlit
    refine ⟨fun hc => ?_, Or.inr fun hc => ?_⟩
    · simpa using hlit.2 '/' hc
    · simpa using hlit.2 '*' hc

end Plain

/-! ## Reading a pattern back -/

def readPart (seg : Segment) : Part := if seg = ['*'] then .any else .lit (String.ofList seg)

/-- The pattern that is written with these segments. -/
def readPattern (dirs : List Segment) : Pattern :=
  if dirs.getLast? = some ['*', '*'] then ⟨dirs.dropLast.map readPart, true⟩
  else ⟨dirs.map readPart, false⟩

theorem readPattern_text {p : Pattern} (hp : p.plain = true) :
    (segments? p.text).map readPattern = some p := by
  -- a plain part contains no asterisk, so its text is not taken for a wildcard
  have hparts : ∀ part ∈ p.parts, readPart part.text = part := by
    intro part hpart
    cases part with
    | any => rfl
    | lit s =>
      have hstar := (Pattern.text_of_plain hp hpart).2
      have hne : s.toList ≠ ['*'] := by
        intro h
        simp [Part.text, h] at hstar
      simp [Part.text, readPart, hne]
  have hmap : (p.parts.map Part.text).map readPart = p.parts := by
    rw [List.map_map]
    exact (List.map_congr_left hparts).trans (List.map_id _)
  have hslash : ∀ seg ∈ p.parts.map Part.text, '/' ∉ seg := by
    intro seg hseg
    obtain ⟨part, hpart, rfl⟩ := List.mem_map.mp hseg
    exact (Pattern.text_of_plain hp hpart).1
  cases htail : p.tail with
  | true =>
    have htext : p.text = pathText (p.parts.map Part.text ++ [['*', '*']]) := by
      simp [Pattern.text, htail]
    rw [htext, segments?_pathText (by simp)]
    · rw [Option.map_some, readPattern, if_pos (by simp), List.dropLast_concat, hmap, ← htail]
    · intro seg hseg
      rcases List.mem_append.mp hseg with hseg | hseg
      · exact hslash seg hseg
      · obtain rfl : seg = ['*', '*'] := by simpa using hseg
        decide
  | false =>
    have htext : p.text = pathText (p.parts.map Part.text) := by simp [Pattern.text, htail]
    -- without a tail the last segment is not the one a tail is written as
    have hlast : (p.parts.map Part.text).getLast? ≠ some ['*', '*'] := by
      intro h
      rw [List.getLast?_map] at h
      obtain ⟨part, hpart, htext⟩ := Option.map_eq_some_iff.mp h
      rcases (Pattern.text_of_plain hp (List.mem_of_getLast? hpart)).2 with rfl | hstar
      · simp [Part.text] at htext
      · simp [htext] at hstar
    have hne : p.parts.map Part.text ≠ [] := by
      obtain ⟨s, hs, -⟩ := Pattern.plain_head hp
      intro h
      rw [List.map_eq_nil_iff] at h
      simp [Pattern.head?, h] at hs
    rw [htext, segments?_pathText hne hslash, Option.map_some, readPattern, if_neg hlast, hmap,
      ← htail]

end PlmCore.Lib.PathPattern
