/-
Forms that are sent as multipart bodies, and what `parse` reads from them.

A form is written as browsers write it: the parameters of a part in quotes, quotes and line ends in them
percent-encoded. Two things go wrong when it is read. The body is split wherever two hyphens and the boundary
stand, not only behind a line end. And parameters are found by the first occurrence of their names, so that
`name=` is found in `filename=` when this comes first, and `filename=` in a field name.
-/
import PlmCore.Dst.Multipart

set_option autoImplicit false

namespace PlmCore.Dst.Multipart

open Lib

/-! ## Forms -/

/-- The characters of boundaries. -/
def isBoundaryByte (b : UInt8) : Bool :=
  (0x61 ≤ b && b ≤ 0x7A) || (0x41 ≤ b && b ≤ 0x5A) || (0x30 ≤ b && b ≤ 0x39) || b ∈ asciiBytes "'()+_,-./:=? "

/-- A boundary as RFC 2046 allows it. -/
structure Boundary where
  text : Bytes
  nonempty : text ≠ []
  length_le : text.length ≤ 70
  chars : ∀ b ∈ text, isBoundaryByte b = true
  end_ne_space : text.getLast nonempty ≠ space

/-- A media type: text in one line that neither begins nor ends with a space. -/
structure MediaType where
  text : Bytes
  oneLine : cr ∉ text ∧ lf ∉ text
  begin_ne_space : ∀ b ∈ text.head?, b ≠ space
  end_ne_space : ∀ b ∈ text.getLast?, b ≠ space

/-- A part of a form, and whether its file name is written before its name. -/
structure FormPart where
  name : Bytes
  filename : Option Bytes
  contentType : Option MediaType
  data : Bytes
  filenameFirst : Bool

/-- A form, its boundary apart from all data. -/
structure Form where
  boundary : Boundary
  parts : List FormPart
  apart : ∀ p ∈ parts, ¬ crlf ++ delimiter boundary.text <:+: p.data

/-- What cannot stand in quotes is percent-encoded. -/
def escapeByte (b : UInt8) : Bytes :=
  if b = dquote then asciiBytes "%22" else if b = cr then asciiBytes "%0D" else if b = lf then asciiBytes "%0A"
  else [b]

def escapeText (s : Bytes) : Bytes := s.flatMap escapeByte

namespace FormPart

variable (p : FormPart)

def nameText : Bytes := asciiBytes "; name=\"" ++ escapeText p.name ++ [dquote]

def filenameText : Bytes :=
  p.filename.elim [] fun f => asciiBytes "; filename=\"" ++ escapeText f ++ [dquote]

def disposition : Bytes :=
  asciiBytes "Content-Disposition: form-data" ++
    if p.filenameFirst = true then p.filenameText ++ p.nameText else p.nameText ++ p.filenameText

def headers : Bytes :=
  p.disposition ++ p.contentType.elim [] fun t => crlf ++ asciiBytes "Content-Type: " ++ t.text

/-- What stands between two delimiters. -/
def text : Bytes := crlf ++ p.headers ++ crlf ++ crlf ++ p.data ++ crlf

/-- The part that is meant. -/
def asPart : Part := ⟨p.name, p.filename, p.contentType.map MediaType.text, p.data⟩

end FormPart

/-- The encoded body. -/
def Form.body (f : Form) : Bytes :=
  f.parts.flatMap (fun p => delimiter f.boundary.text ++ p.text) ++ delimiter f.boundary.text ++
    [hyphen, hyphen] ++ crlf

/-! ## When a part comes back -/

/-- Nothing that would be percent-encoded. -/
def Plain (s : Bytes) : Prop := dquote ∉ s ∧ cr ∉ s ∧ lf ∉ s

/-- The delimiter stands nowhere in the part. -/
def FormPart.Apart (boundary : Bytes) (p : FormPart) : Prop :=
  ¬ delimiter boundary <:+: p.name ∧ (∀ f ∈ p.filename, ¬ delimiter boundary <:+: f) ∧
    (∀ t ∈ p.contentType, ¬ delimiter boundary <:+: t.text) ∧ ¬ delimiter boundary <:+: p.data

def filenameKey : Bytes := asciiBytes "filename="

/-- The file name is read from where it stands: behind the name, which does not have `filename=` in it.
Otherwise what is read happens to be the file name. Written first, it is read as the name as well. Behind
`filename=` in a name the text up to a semicolon is read, without the spaces around it, the closing quote of
the name included; at the end of a name that quote opens one, and no file name is read, or the text before
the next quote. -/
def FormPart.FilenameIsRead (p : FormPart) : Prop :=
  match p.filename with
  | none => ∀ q, cutFirst filenameKey p.name = some q → q.2 = []
  | some f =>
    if p.filenameFirst = true then f = p.name
    else
      match cutFirst filenameKey p.name with
      | none => Plain f
      | some (_, []) => f = asciiBytes "; filename="
      | some (_, c :: rest) => bareText (c :: rest ++ [dquote]) = f

/-! ## Escaping -/

theorem escapeByte_cases (b : UInt8) :
    (∃ x y, escapeByte b = [0x25, x, y] ∧ x ≠ hyphen ∧ y ≠ hyphen ∧ (b = dquote ∨ b = cr ∨ b = lf)) ∨
      escapeByte b = [b] ∧ b ≠ dquote ∧ b ≠ cr ∧ b ≠ lf := by
  unfold escapeByte
  split
  · rename_i h
    exact .inl ⟨0x32, 0x32, rfl, by decide, by decide, .inl h⟩
  · rename_i hquote
    split
    · rename_i h
      exact .inl ⟨0x30, 0x44, rfl, by decide, by decide, .inr (.inl h)⟩
    · rename_i hcr
      split
      · rename_i h
        exact .inl ⟨0x30, 0x41, rfl, by decide, by decide, .inr (.inr h)⟩
      · rename_i hlf
        exact .inr ⟨rfl, hquote, hcr, hlf⟩

theorem plain_escapeByte (b : UInt8) : Plain (escapeByte b) := by
  unfold escapeByte Plain
  split
  · decide
  · split
    · decide
    · split
      · decide
      · simp_all [eq_comm]

theorem plain_escapeText (s : Bytes) : Plain (escapeText s) := by
  refine ⟨fun h => ?_, fun h => ?_, fun h => ?_⟩
  · obtain ⟨b, -, hb⟩ := List.mem_flatMap.mp h
    exact (plain_escapeByte b).1 hb
  · obtain ⟨b, -, hb⟩ := List.mem_flatMap.mp h
    exact (plain_escapeByte b).2.1 hb
  · obtain ⟨b, -, hb⟩ := List.mem_flatMap.mp h
    exact (plain_escapeByte b).2.2 hb

/-- Exactly plain text is written as it is. -/
theorem escapeText_eq_self_iff {s : Bytes} : escapeText s = s ↔ Plain s := by
  constructor
  · exact fun h => h ▸ plain_escapeText s
  · rintro ⟨hquote, hcr, hlf⟩
    induction s with
    | nil => rfl
    | cons b s ih =>
      simp only [List.mem_cons, not_or] at hquote hcr hlf
      have hb : escapeByte b = [b] := by
        rw [escapeByte, if_neg (Ne.symm hquote.1), if_neg (Ne.symm hcr.1), if_neg (Ne.symm hlf.1)]
      rw [escapeText, List.flatMap_cons, hb]
      exact congrArg (b :: ·) (ih hquote.2 hcr.2 hlf.2)

/-- Text without a percent sign at the beginning of escaped text was there before. -/
theorem prefix_of_escapeText {t s : Bytes} (ht : 0x25 ∉ t) (h : t <+: escapeText s) : t <+: s := by
  induction s generalizing t with
  | nil => exact h
  | cons b s ih =>
    cases t with
    | nil => exact List.nil_prefix
    | cons a t =>
      rw [List.mem_cons, not_or] at ht
      rw [escapeText, List.flatMap_cons] at h
      obtain ⟨x, y, hb, -⟩ | ⟨hb, -⟩ := escapeByte_cases b
      · rw [hb] at h
        exact absurd (List.cons_prefix_cons.mp h).1.symm ht.1
      · rw [hb] at h
        obtain ⟨rfl, hrest⟩ := List.cons_prefix_cons.mp h
        exact List.cons_prefix_cons.mpr ⟨rfl, ih ht.2 hrest⟩

/-- A delimiter in escaped text was there before: it has no percent sign, and begins with a hyphen. -/
theorem infix_of_escapeText {t s : Bytes} (ht : 0x25 ∉ hyphen :: t) (h : hyphen :: t <:+: escapeText s) :
    hyphen :: t <:+: s := by
  induction s with
  | nil => exact h
  | cons b s ih =>
    rw [escapeText, List.flatMap_cons] at h
    obtain ⟨x, y, hb, hx, hy, -⟩ | ⟨hb, -⟩ := escapeByte_cases b
    · rw [hb] at h
      have hskip : ∀ {c : UInt8} {r : Bytes}, c ≠ hyphen → hyphen :: t <:+: c :: r → hyphen :: t <:+: r := by
        intro c r hc hr
        obtain hpre | hr := List.infix_cons_iff.mp hr
        · exact absurd (List.cons_prefix_cons.mp hpre).1.symm hc
        · exact hr
      have hrest := hskip hy (hskip hx (hskip (by decide) h))
      exact List.infix_cons_iff.mpr (.inr (ih hrest))
    · rw [hb] at h
      obtain hpre | hr := List.infix_cons_iff.mp h
      · have hescaped : hyphen :: t <+: escapeText (b :: s) := by
          rw [escapeText, List.flatMap_cons, hb]
          exact hpre
        exact (prefix_of_escapeText ht hescaped).isInfix
      · exact List.infix_cons_iff.mpr (.inr (ih hr))

/-! ## Delimiters -/

namespace Boundary

variable (b : Boundary)

theorem notMem {c : UInt8} (hc : isBoundaryByte c = false) (hne : c ≠ hyphen) : c ∉ delimiter b.text := by
  intro h
  simp only [delimiter, List.mem_cons] at h
  obtain h | h | h := h
  · exact hne h
  · exact hne h
  · rw [b.chars c h] at hc
    cases hc

theorem percent_notMem : 0x25 ∉ delimiter b.text := b.notMem (by decide) (by decide)

theorem dquote_notMem : dquote ∉ delimiter b.text := b.notMem (by decide) (by decide)

theorem cr_notMem : cr ∉ delimiter b.text := b.notMem (by decide) (by decide)

theorem lf_notMem : lf ∉ delimiter b.text := b.notMem (by decide) (by decide)

theorem delimiter_ne_nil : delimiter b.text ≠ [] := List.cons_ne_nil _ _

/-- Fixed text without two hyphens in a row that does not end with a hyphen. -/
theorem infix_of_append {x y : Bytes} (hx : ¬ [hyphen, hyphen] <:+: x) (hlast : x.getLast? ≠ some hyphen)
    (h : delimiter b.text <:+: x ++ y) : delimiter b.text <:+: y := by
  induction x with
  | nil => exact h
  | cons a x ih =>
    obtain hpre | hrest := List.infix_cons_iff.mp h
    · obtain ⟨ha, hnext⟩ := List.cons_prefix_cons.mp hpre
      cases x with
      | nil => exact absurd (congrArg some ha.symm) hlast
      | cons c x =>
        have hc := (List.cons_prefix_cons.mp hnext).1
        exact absurd ⟨[], x, by rw [← ha, ← hc]; rfl⟩ hx
    · have hnext : x.getLast? ≠ some hyphen := by
        cases x with
        | nil => exact fun hc => by cases hc
        | cons d x => exact hlast
      exact ih (fun hin => hx (List.infix_cons_iff.mpr (.inr hin))) hnext hrest

end Boundary

/-- In quotes: the text of a parameter is free of the delimiter when the parameter is. -/
theorem apart_quoted (b : Boundary) {front s : Bytes} (hfront : ¬ [hyphen, hyphen] <:+: front)
    (hs : ¬ delimiter b.text <:+: s) (rest : Bytes) :
    delimiter b.text <:+: front ++ [dquote] ++ escapeText s ++ [dquote] ++ rest ↔
      delimiter b.text <:+: rest := by
  have hassoc : front ++ [dquote] ++ escapeText s ++ [dquote] ++ rest =
      front ++ dquote :: (escapeText s ++ dquote :: rest) := by simp
  have hfree : ¬ delimiter b.text <:+: front := fun h =>
    hfront (List.IsInfix.trans ⟨[], b.text, rfl⟩ h)
  rw [hassoc, infix_append_cons_iff b.dquote_notMem b.delimiter_ne_nil,
    infix_append_cons_iff b.dquote_notMem b.delimiter_ne_nil]
  constructor
  · rintro (h | h | h)
    · exact absurd h hfree
    · exact absurd (infix_of_escapeText b.percent_notMem h) hs
    · exact h
  · exact fun h => .inr (.inr h)

theorem apart_filenameText {b : Boundary} {p : FormPart} (h : p.Apart b.text) (rest : Bytes) :
    delimiter b.text <:+: p.filenameText ++ rest ↔ delimiter b.text <:+: rest := by
  unfold FormPart.filenameText
  cases hname : p.filename with
  | none => rfl
  | some f =>
    have hfront : ¬ [hyphen, hyphen] <:+: asciiBytes "; filename=" := by decide
    exact apart_quoted b hfront (h.2.1 f hname) rest

theorem apart_nameText {b : Boundary} {p : FormPart} (h : p.Apart b.text) (rest : Bytes) :
    delimiter b.text <:+: p.nameText ++ rest ↔ delimiter b.text <:+: rest := by
  have hfront : ¬ [hyphen, hyphen] <:+: asciiBytes "; name=" := by decide
  exact apart_quoted b hfront h.1 rest

theorem apart_disposition {b : Boundary} {p : FormPart} (h : p.Apart b.text) :
    ¬ delimiter b.text <:+: p.disposition := by
  have hend : ¬ delimiter b.text <:+: [] := fun hin => b.delimiter_ne_nil (List.infix_nil.mp hin)
  intro hin
  have hparams := b.infix_of_append (by decide) (by decide) hin
  split at hparams
  · rw [apart_filenameText h, ← List.append_nil p.nameText, apart_nameText h] at hparams
    exact hend hparams
  · rw [apart_nameText h, ← List.append_nil p.filenameText, apart_filenameText h] at hparams
    exact hend hparams

theorem apart_headers {b : Boundary} {p : FormPart} (h : p.Apart b.text) :
    ¬ delimiter b.text <:+: p.headers := by
  unfold FormPart.headers
  cases htype : p.contentType with
  | none =>
    rw [Option.elim_none, List.append_nil]
    exact apart_disposition h
  | some t =>
    have hassoc : p.disposition ++ (crlf ++ asciiBytes "Content-Type: " ++ t.text) =
        p.disposition ++ cr :: (asciiBytes "\nContent-Type: " ++ t.text) := rfl
    rw [Option.elim_some, hassoc, infix_append_cons_iff b.cr_notMem b.delimiter_ne_nil]
    rintro (hin | hin)
    · exact apart_disposition h hin
    · exact h.2.2.1 t htype (b.infix_of_append (by decide) (by decide) hin)

/-- **The text of a part is free of the delimiter** when the part is. -/
theorem apart_text {b : Boundary} {p : FormPart} (h : p.Apart b.text) : ¬ delimiter b.text <:+: p.text := by
  have hassoc : p.text = cr :: lf :: (p.headers ++ cr :: lf :: cr :: lf :: (p.data ++ cr :: [lf])) := by
    simp [FormPart.text, crlf]
  have hne := b.delimiter_ne_nil
  rw [hassoc, infix_cons_iff_of_notMem b.cr_notMem hne, infix_cons_iff_of_notMem b.lf_notMem hne,
    infix_append_cons_iff b.cr_notMem hne, infix_cons_iff_of_notMem b.lf_notMem hne,
    infix_cons_iff_of_notMem b.cr_notMem hne, infix_cons_iff_of_notMem b.lf_notMem hne,
    infix_append_cons_iff b.cr_notMem hne, infix_cons_iff_of_notMem b.lf_notMem hne]
  rintro (hin | hin | hin)
  · exact apart_headers h hin
  · exact h.2.2.2 hin
  · exact hne (List.infix_nil.mp hin)

/-! ## Splitting the body -/

/-- What stands behind the first delimiter. -/
def behindDelimiter (b : Boundary) (parts : List FormPart) : Bytes :=
  parts.flatMap (fun p => p.text ++ delimiter b.text) ++ [hyphen, hyphen] ++ crlf

theorem body_eq (f : Form) : f.body = delimiter f.boundary.text ++ behindDelimiter f.boundary f.parts := by
  have h : ∀ (d : Bytes) (ps : List FormPart), ps.flatMap (fun p => d ++ p.text) ++ d =
      d ++ ps.flatMap fun p => p.text ++ d := by
    intro d ps
    induction ps with
    | nil => simp
    | cons p ps ih => simp only [List.flatMap_cons, List.append_assoc, ih]
  rw [Form.body, h, behindDelimiter]
  simp

/-- The pieces of the body are those of its parts, and the closing one. -/
theorem split_behindDelimiter (b : Boundary) (parts : List FormPart) :
    splitSequence (delimiter b.text) (behindDelimiter b parts) =
      parts.flatMap (fun p => splitSequence (delimiter b.text) p.text) ++ [[hyphen, hyphen] ++ crlf] := by
  induction parts with
  | nil =>
    refine splitSequence_of_not_infix b.delimiter_ne_nil fun hin => ?_
    have hpos := List.length_pos_iff.mpr b.nonempty
    have hlength : (delimiter b.text).length = b.text.length + 2 := rfl
    have hshort : behindDelimiter b [] = [hyphen, hyphen] ++ cr :: [lf] := rfl
    rw [hshort, infix_append_cons_iff b.cr_notMem b.delimiter_ne_nil] at hin
    obtain hin | hin := hin
    · have hle := hin.length_le
      rw [List.length_cons, List.length_singleton] at hle
      omega
    · have hle := hin.length_le
      rw [List.length_singleton] at hle
      omega
  | cons p ps ih =>
    have hassoc : behindDelimiter b (p :: ps) = (crlf ++ p.headers ++ crlf ++ crlf ++ p.data ++ [cr]) ++
        lf :: (delimiter b.text ++ behindDelimiter b ps) := by
      simp [behindDelimiter, FormPart.text, crlf]
    have htext : crlf ++ p.headers ++ crlf ++ crlf ++ p.data ++ [cr] ++ [lf] = p.text := by
      simp [FormPart.text, crlf]
    rw [hassoc, splitSequence_append b.delimiter_ne_nil b.lf_notMem, htext, ih]
    simp

theorem takeWhile_append_cons {α : Type*} {keep : α → Bool} {a : α} (ha : keep a = false) (xs ys : List α) :
    (xs ++ a :: ys).takeWhile keep = xs.takeWhile keep := by
  induction xs with
  | nil => simp [ha]
  | cons x xs ih => simp only [List.cons_append, List.takeWhile_cons, ih]

/-- What `parse` reads from the pieces of the parts. -/
theorem parse_body (f : Form) : parse f.boundary.text f.body =
    ((f.parts.flatMap fun p => splitSequence (delimiter f.boundary.text) p.text).takeWhile fun seg =>
      !isClosing seg).filterMap parsePiece := by
  rw [parse, body_eq, splitSequence_eq f.boundary.delimiter_ne_nil,
    cutFirst_self f.boundary.delimiter_ne_nil]
  dsimp only
  rw [List.drop_one, List.tail_cons, split_behindDelimiter, takeWhile_append_cons rfl]

/-! ## What is read stands in the body -/

theorem trimSpaces_subtext (s : Bytes) : trimSpaces s <:+: s :=
  (List.rdropWhile_prefix _ _).isInfix.trans (List.dropWhile_suffix _).isInfix

theorem bareText_infix (s : Bytes) : bareText s <:+: s :=
  (trimSpaces_subtext _).trans (List.takeWhile_prefix _).isInfix

theorem quotedText_subtext {s v : Bytes} (h : quotedText s = some v) : v <:+: s := by
  unfold quotedText at h
  split at h
  · cases h
    exact (List.takeWhile_prefix _).isInfix
  · cases h

theorem extractParam_subtext {line key v : Bytes} (h : extractParam line key = some v) : v <:+: line := by
  obtain ⟨⟨before, rest⟩, hfirst, h⟩ := Option.bind_eq_some_iff.mp h
  have hrest : rest <:+: line := by
    rw [eq_of_cutFirst hfirst, ← List.append_assoc]
    exact (List.suffix_append _ rest).isInfix
  refine List.IsInfix.trans ?_ hrest
  dsimp only at h
  unfold paramValue at h
  split at h
  · cases h
    exact bareText_infix []
  · split at h
    · exact (quotedText_subtext h).trans (List.suffix_cons _ _).isInfix
    · cases h
      exact bareText_infix _

/-- All that was read stands in the text. -/
def Part.Within (seg : Bytes) (q : Part) : Prop :=
  q.name <:+: seg ∧ (∀ f ∈ q.filename, f <:+: seg) ∧ (∀ t ∈ q.contentType, t <:+: seg) ∧ q.data <:+: seg

theorem within_readLine {seg line : Bytes} {q : Part} (hline : line <:+: seg) (h : q.Within seg) :
    (q.readLine line).Within seg := by
  obtain ⟨hname, hfilename, htype, hdata⟩ := h
  unfold Part.readLine
  split
  · refine ⟨?_, fun f hf => (extractParam_subtext hf).trans hline, htype, hdata⟩
    cases hvalue : extractParam line (asciiBytes "name=") with
    | none => exact List.nil_infix
    | some v => exact (extractParam_subtext hvalue).trans hline
  · split
    · refine ⟨hname, hfilename, ?_, hdata⟩
      rintro t ⟨⟩
      exact ((trimSpaces_subtext _).trans (List.drop_suffix _ _).isInfix).trans hline
    · exact ⟨hname, hfilename, htype, hdata⟩

theorem within_foldl {seg : Bytes} {lines : List Bytes} (hlines : ∀ line ∈ lines, line <:+: seg) {q : Part}
    (h : q.Within seg) : (lines.foldl Part.readLine q).Within seg := by
  induction lines generalizing q with
  | nil => exact h
  | cons line lines ih =>
    exact ih (fun l hl => hlines l (List.mem_cons_of_mem line hl))
      (within_readLine (hlines line List.mem_cons_self) h)

theorem within_parsePiece {seg : Bytes} {q : Part} (h : parsePiece seg = some q) : q.Within seg := by
  obtain ⟨⟨headers, data⟩, hfirst, rfl⟩ := Option.map_eq_some_iff.mp h
  have hsplit := eq_of_cutFirst hfirst
  have hseg : dropLineEnd seg <:+: seg := by
    unfold dropLineEnd
    split
    · exact (List.drop_suffix _ _).isInfix
    · exact List.infix_rfl
  have hheaders : headers <:+: seg := by
    refine List.IsInfix.trans ?_ hseg
    rw [hsplit]
    exact (List.prefix_append _ _).isInfix
  have hdata : stripLineEnd data <:+: seg := by
    refine List.IsInfix.trans ?_ hseg
    rw [hsplit, ← List.append_assoc]
    refine List.IsInfix.trans ?_ (List.suffix_append _ data).isInfix
    unfold stripLineEnd
    split
    · exact (List.take_prefix _ _).isInfix
    · exact List.infix_rfl
  refine within_foldl (fun line hline => (infix_of_mem (List.cons_ne_nil _ _) hline).trans hheaders) ?_
  refine ⟨List.nil_infix, ?_, ?_, hdata⟩
  · rintro f ⟨⟩
  · rintro t ⟨⟩

/-- **No part that is read holds the delimiter.** -/
theorem apart_of_mem_parse {b : Boundary} {body : Bytes} {p : FormPart}
    (h : p.asPart ∈ parse b.text body) : p.Apart b.text := by
  obtain ⟨seg, hseg, hpiece⟩ := List.mem_filterMap.mp h
  have hfree := not_infix_of_mem b.delimiter_ne_nil (List.mem_of_mem_drop ((List.takeWhile_prefix _).subset hseg))
  obtain ⟨hname, hfilename, htype, hdata⟩ := within_parsePiece hpiece
  refine ⟨fun hin => hfree (hin.trans hname), fun f hf hin => hfree (hin.trans (hfilename f hf)), ?_,
    fun hin => hfree (hin.trans hdata)⟩
  exact fun t ht hin => hfree (hin.trans (htype t.text (Option.mem_map_of_mem _ ht)))

/-! ## Reading a part -/

theorem plain_append {s t : Bytes} (hs : Plain s) (ht : Plain t) : Plain (s ++ t) := by
  unfold Plain at *
  simp only [List.mem_append]
  tauto

/-- The headers of a part are one line or two. -/
theorem cr_notMem_disposition (p : FormPart) : cr ∉ p.disposition := by
  have hname : cr ∉ p.nameText := by
    have hescaped := (plain_escapeText p.name).2.1
    unfold FormPart.nameText
    simp only [List.mem_append, not_or]
    exact ⟨⟨by decide, hescaped⟩, by decide⟩
  have hfilename : cr ∉ p.filenameText := by
    unfold FormPart.filenameText
    cases p.filename with
    | none => exact List.not_mem_nil
    | some f =>
      have hescaped := (plain_escapeText f).2.1
      simp only [Option.elim_some, List.mem_append, not_or]
      exact ⟨⟨by decide, hescaped⟩, by decide⟩
  unfold FormPart.disposition
  split
  · simp only [List.mem_append, not_or]
    exact ⟨by decide, hfilename, hname⟩
  · simp only [List.mem_append, not_or]
    exact ⟨by decide, hname, hfilename⟩

/-- The line of the content type. -/
def typeLine (t : MediaType) : Bytes := asciiBytes "Content-Type: " ++ t.text

theorem cr_notMem_typeLine (t : MediaType) : cr ∉ typeLine t := by
  rw [typeLine, List.mem_append, not_or]
  exact ⟨by decide, t.oneLine.1⟩

/-- The lines of the headers. -/
def FormPart.lines (p : FormPart) : List Bytes := p.disposition :: (p.contentType.map typeLine).toList

theorem headers_eq (p : FormPart) : p.headers =
    match p.contentType with
    | none => p.disposition
    | some t => p.disposition ++ (crlf ++ typeLine t) := by
  unfold FormPart.headers
  cases p.contentType with
  | none => simp
  | some t => simp [typeLine]

/-- The headers end at the first empty line. -/
theorem cutFirst_headers (p : FormPart) (rest : Bytes) :
    cutFirst (crlf ++ crlf) (p.headers ++ (crlf ++ crlf ++ rest)) = some (p.headers, rest) := by
  have hself : cutFirst [cr, lf, cr, lf] ([cr, lf, cr, lf] ++ rest) = some ([], rest) :=
    cutFirst_self (List.cons_ne_nil _ _) rest
  change cutFirst [cr, lf, cr, lf] (p.headers ++ ([cr, lf, cr, lf] ++ rest)) = _
  rw [headers_eq]
  cases p.contentType with
  | none =>
    rw [cutFirst_append_of_notMem (cr_notMem_disposition p), hself, Option.map_some, List.append_nil]
  | some t =>
    have hassoc : p.disposition ++ (crlf ++ typeLine t) ++ ([cr, lf, cr, lf] ++ rest) =
        p.disposition ++ (cr :: (lf :: typeLine t ++ ([cr, lf, cr, lf] ++ rest))) := by simp [crlf]
    have hline : cr ∉ lf :: typeLine t := by
      rw [List.mem_cons, not_or]
      exact ⟨by decide, cr_notMem_typeLine t⟩
    have hnext : ¬ [cr, lf, cr, lf] <+: cr :: (lf :: typeLine t ++ ([cr, lf, cr, lf] ++ rest)) := by
      intro h
      have hthird := (List.cons_prefix_cons.mp (List.cons_prefix_cons.mp (List.cons_prefix_cons.mp h).2).2).1
      exact absurd hthird (by decide)
    rw [hassoc, cutFirst_append_of_notMem (cr_notMem_disposition p),
      cutFirst_cons_of_not_prefix hnext, cutFirst_append_of_notMem hline, hself]
    simp [crlf]

theorem splitSequence_headers (p : FormPart) : splitSequence crlf p.headers = p.lines := by
  have hne : crlf ≠ [] := List.cons_ne_nil _ _
  have hline : ∀ {line : Bytes}, cr ∉ line → splitSequence crlf line = [line] := fun hcr =>
    splitSequence_of_not_infix hne fun h => hcr (h.subset List.mem_cons_self)
  unfold FormPart.lines
  rw [headers_eq]
  cases p.contentType with
  | none => exact hline (cr_notMem_disposition p)
  | some t =>
    have hfirst : cutFirst crlf (p.disposition ++ (crlf ++ typeLine t)) =
        some (p.disposition, typeLine t) := by
      have hself := cutFirst_self hne (typeLine t)
      rw [crlf] at hself ⊢
      rw [cutFirst_append_of_notMem (cr_notMem_disposition p), hself, Option.map_some, List.append_nil]
    rw [splitSequence_eq hne, hfirst]
    exact congrArg (p.disposition :: ·) (hline (cr_notMem_typeLine t))

theorem trimSpaces_text (t : MediaType) : trimSpaces (space :: t.text) = t.text := by
  have hdrop : (space :: t.text).dropWhile (· = space) = t.text := by
    rw [List.dropWhile_cons_of_pos (by decide)]
    cases htext : t.text with
    | nil => rfl
    | cons b rest =>
      have hb : b ≠ space := t.begin_ne_space b (by rw [htext]; rfl)
      rw [List.dropWhile_cons_of_neg (by simp [hb])]
  rw [trimSpaces, hdrop, List.rdropWhile_eq_self_iff]
  intro hne
  have hlast := t.end_ne_space (t.text.getLast hne) (List.getLast?_eq_getLast_of_ne_nil hne)
  simpa using hlast

/-- The part that is read. -/
def FormPart.readPart (p : FormPart) : Part :=
  ⟨(extractParam p.disposition (asciiBytes "name=")).getD [],
    extractParam p.disposition (asciiBytes "filename="), p.contentType.map MediaType.text, p.data⟩

theorem parsePiece_text (p : FormPart) : parsePiece p.text = some p.readPart := by
  have hdrop : dropLineEnd p.text = p.headers ++ (crlf ++ crlf ++ (p.data ++ crlf)) := by
    have hassoc : p.text = crlf ++ (p.headers ++ (crlf ++ crlf ++ (p.data ++ crlf))) := by
      simp [FormPart.text]
    rw [hassoc, dropLineEnd, if_pos (List.prefix_append _ _)]
    rfl
  have hstrip : stripLineEnd (p.data ++ crlf) = p.data := by
    have hlength : (p.data ++ crlf).length - 2 = p.data.length := by simp [crlf]
    rw [stripLineEnd, if_pos (List.suffix_append _ _), hlength, List.take_left]
  have hdisposition : ∀ q : Part, q.readLine p.disposition =
      { q with
        name := (extractParam p.disposition (asciiBytes "name=")).getD []
        filename := extractParam p.disposition (asciiBytes "filename=") } := by
    intro q
    exact if_pos rfl
  have htype : ∀ (q : Part) (t : MediaType), q.readLine (typeLine t) = { q with contentType := some t.text } := by
    intro q t
    have hnot : ¬ startsWithIgnoreCase (typeLine t) (asciiBytes "content-disposition:") = true := by
      change ¬ false = true
      exact Bool.false_ne_true
    have hvalue : (typeLine t).drop (asciiBytes "content-type:").length = space :: t.text := rfl
    have hfound : startsWithIgnoreCase (typeLine t) (asciiBytes "content-type:") = true := rfl
    rw [Part.readLine, if_neg hnot, if_pos hfound, hvalue, trimSpaces_text]
  rw [parsePiece, hdrop, cutFirst_headers, Option.map_some]
  dsimp only
  rw [splitSequence_headers, hstrip, FormPart.lines, List.foldl_cons, hdisposition, FormPart.readPart]
  cases p.contentType with
  | none => rfl
  | some t =>
    change Option.some (Part.readLine _ (typeLine t)) = _
    rw [htype]
    rfl

/-! ## The parameters of a part -/

theorem quotedText_append {s : Bytes} (hs : dquote ∉ s) (rest : Bytes) :
    quotedText (s ++ dquote :: rest) = some s := by
  have hmem : dquote ∈ s ++ dquote :: rest := List.mem_append_right s List.mem_cons_self
  have htake : s.takeWhile (fun b => decide (b ≠ dquote)) = s := by
    rw [List.takeWhile_eq_self_iff]
    intro b hb
    exact decide_eq_true fun h => hs (h ▸ hb)
  have hstop := @takeWhile_append_cons _ (fun b => decide (b ≠ dquote)) dquote rfl s rest
  rw [quotedText, if_pos hmem, hstop, htake]

theorem paramValue_quoted {s : Bytes} (hs : dquote ∉ s) (rest : Bytes) :
    paramValue (dquote :: (s ++ dquote :: rest)) = some s := by
  rw [paramValue, if_pos rfl, quotedText_append hs]

/-- The line when the name comes first. -/
theorem disposition_name {p : FormPart} (h : p.filenameFirst = false ∨ p.filename = none) : p.disposition =
    asciiBytes "Content-Disposition: form-data; name=" ++
      dquote :: (escapeText p.name ++ dquote :: p.filenameText) := by
  have hparams : (if p.filenameFirst = true then p.filenameText ++ p.nameText else p.nameText ++ p.filenameText) =
      p.nameText ++ p.filenameText := by
    obtain h | h := h
    · rw [h]
      rfl
    · have hnil : p.filenameText = [] := by rw [FormPart.filenameText, h, Option.elim_none]
      rw [hnil, List.nil_append, List.append_nil, ite_self]
  have hfixed : asciiBytes "Content-Disposition: form-data" ++ asciiBytes "; name=\"" =
      asciiBytes "Content-Disposition: form-data; name=" ++ [dquote] := by decide
  rw [FormPart.disposition, hparams, FormPart.nameText, List.append_assoc, List.append_assoc,
    ← List.append_assoc, hfixed]
  simp only [List.append_assoc, List.singleton_append]

/-- The line when the file name comes first. -/
theorem disposition_filename {p : FormPart} {f : Bytes} (h : p.filenameFirst = true) (hf : p.filename = some f) :
    p.disposition = asciiBytes "Content-Disposition: form-data; filename=" ++
      dquote :: (escapeText f ++ dquote :: p.nameText) := by
  have hfixed : asciiBytes "Content-Disposition: form-data" ++ asciiBytes "; filename=\"" =
      asciiBytes "Content-Disposition: form-data; filename=" ++ [dquote] := by decide
  rw [FormPart.disposition, if_pos h, FormPart.filenameText, hf, Option.elim_some, List.append_assoc,
    List.append_assoc, ← List.append_assoc, hfixed]
  simp only [List.append_assoc, List.singleton_append]

theorem extract_name {p : FormPart} (h : p.filenameFirst = false ∨ p.filename = none) :
    extractParam p.disposition (asciiBytes "name=") = some (escapeText p.name) := by
  have hfirst : ∀ rest, cutFirst (asciiBytes "name=")
      (asciiBytes "Content-Disposition: form-data; name=" ++ rest) =
        some (asciiBytes "Content-Disposition: form-data; ", rest) := fun rest => rfl
  rw [disposition_name h, extractParam, hfirst, Option.bind_some, paramValue_quoted (plain_escapeText _).1]

/-- A file name that comes first is read for the name as well. -/
theorem extract_filename_first {p : FormPart} {f : Bytes} (h : p.filenameFirst = true)
    (hf : p.filename = some f) :
    extractParam p.disposition (asciiBytes "name=") = some (escapeText f) ∧
      extractParam p.disposition filenameKey = some (escapeText f) := by
  have hname : ∀ rest, cutFirst (asciiBytes "name=")
      (asciiBytes "Content-Disposition: form-data; filename=" ++ rest) =
        some (asciiBytes "Content-Disposition: form-data; file", rest) := fun rest => rfl
  have hfilename : ∀ rest, cutFirst filenameKey
      (asciiBytes "Content-Disposition: form-data; filename=" ++ rest) =
        some (asciiBytes "Content-Disposition: form-data; ", rest) := fun rest => rfl
  rw [disposition_filename h hf, extractParam, extractParam, hname, hfilename, Option.bind_some,
    Option.bind_some, paramValue_quoted (plain_escapeText _).1]
  exact ⟨rfl, rfl⟩

/-- A file name that comes second, or none: `filename=` is looked for in the name before. -/
theorem extract_filename {p : FormPart} (h : p.filenameFirst = false ∨ p.filename = none) :
    extractParam p.disposition filenameKey =
      match cutFirst filenameKey (escapeText p.name) with
      | some q => paramValue (q.2 ++ dquote :: p.filenameText)
      | none => p.filename.map escapeText := by
  have hquote : dquote ∉ filenameKey := by decide
  have hne : filenameKey ≠ [] := List.cons_ne_nil _ _
  have hfixed : cutFirst filenameKey (asciiBytes "Content-Disposition: form-data; name=") = none := by
    decide
  have hsecond : ∀ rest, cutFirst filenameKey (asciiBytes "; filename=" ++ rest) =
      some (asciiBytes "; ", rest) := fun rest => rfl
  rw [disposition_name h, extractParam, cutFirst_append_cons hquote hne, hfixed,
    cutFirst_append_cons hquote hne]
  cases cutFirst filenameKey (escapeText p.name) with
  | some q => rfl
  | none =>
    unfold FormPart.filenameText
    cases p.filename with
    | none => rfl
    | some f =>
      have htext : asciiBytes "; filename=\"" ++ escapeText f ++ [dquote] =
          asciiBytes "; filename=" ++ (dquote :: (escapeText f ++ dquote :: [])) := by
        rw [List.append_assoc]
        rfl
      simp only [Option.elim_some, htext, hsecond, Option.map_some, Option.bind_some,
        paramValue_quoted (plain_escapeText f).1]

theorem bareText_append (s rest : Bytes) : bareText (s ++ semicolon :: rest) = bareText s := by
  have hstop := @takeWhile_append_cons _ (fun b => decide (b ≠ semicolon)) semicolon rfl s rest
  rw [bareText, bareText, hstop]

/-- What is read behind `filename=` in a name. -/
theorem paramValue_inside (p : FormPart) {c : UInt8} (hc : c ≠ dquote) (rest : Bytes) :
    paramValue (c :: rest ++ dquote :: p.filenameText) = some (bareText (c :: rest ++ [dquote])) := by
  have hvalue : ∀ tail, paramValue (c :: rest ++ tail) = some (bareText (c :: rest ++ tail)) := fun tail => by
    rw [List.cons_append, paramValue, if_neg hc]
  rw [hvalue]
  unfold FormPart.filenameText
  cases p.filename with
  | none => rfl
  | some f =>
    have htext : c :: rest ++ dquote :: (asciiBytes "; filename=\"" ++ escapeText f ++ [dquote]) =
        (c :: rest ++ [dquote]) ++ semicolon :: (asciiBytes " filename=\"" ++ escapeText f ++ [dquote]) := by
      rw [List.append_assoc, List.append_assoc]
      rfl
    rw [Option.elim_some, htext, bareText_append]

/-- The file name that is read behind a plain name. -/
theorem extract_filename_iff {p : FormPart} (h : p.filenameFirst = false ∨ p.filename = none)
    (hname : Plain p.name) : extractParam p.disposition filenameKey = p.filename ↔ p.FilenameIsRead := by
  rw [extract_filename h, escapeText_eq_self_iff.mpr hname]
  have hrest : ∀ {a c rest}, cutFirst filenameKey p.name = some (a, c :: rest) → c ≠ dquote := by
    rintro a c rest hsplit rfl
    refine hname.1 ?_
    rw [eq_of_cutFirst hsplit]
    simp
  unfold FormPart.FilenameIsRead
  cases hsplit : cutFirst filenameKey p.name with
  | none =>
    cases hf : p.filename with
    | none => simp
    | some f =>
      have hfirst : ¬ p.filenameFirst = true := by simpa [hf] using h
      simp only [Option.map_some, Option.some_inj, escapeText_eq_self_iff, if_neg hfirst]
  | some q =>
    obtain ⟨a, rest⟩ := q
    cases rest with
    | nil =>
      cases hf : p.filename with
      | none =>
        have hvalue : paramValue ([] ++ dquote :: p.filenameText) = none := by
          rw [FormPart.filenameText, hf]
          rfl
        dsimp only
        rw [hvalue]
        simp
      | some f =>
        have hfirst : ¬ p.filenameFirst = true := by simpa [hf] using h
        have hvalue : paramValue ([] ++ dquote :: p.filenameText) = some (asciiBytes "; filename=") := by
          have htext : p.filenameText = asciiBytes "; filename=" ++ dquote :: (escapeText f ++ [dquote]) := by
            rw [FormPart.filenameText, hf, Option.elim_some, List.append_assoc]
            rfl
          rw [htext]
          exact paramValue_quoted (by decide) _
        dsimp only
        rw [hvalue, if_neg hfirst, Option.some_inj]
        exact eq_comm
    | cons c rest =>
      have hvalue := paramValue_inside p (hrest hsplit) rest
      dsimp only
      rw [hvalue]
      cases hf : p.filename with
      | none => simp
      | some f =>
        have hfirst : ¬ p.filenameFirst = true := by simpa [hf] using h
        simp only [if_neg hfirst, Option.some_inj]

/-- **A part comes back** exactly when its name is plain and its file name is read. -/
theorem FormPart.readPart_iff (p : FormPart) :
    p.readPart = p.asPart ↔ Plain p.name ∧ p.FilenameIsRead := by
  have hparts : p.readPart = p.asPart ↔
      (extractParam p.disposition (asciiBytes "name=")).getD [] = p.name ∧
        extractParam p.disposition filenameKey = p.filename := by
    rw [FormPart.readPart, FormPart.asPart, Part.mk.injEq, filenameKey]
    simp only [and_true]
  rw [hparts]
  by_cases hfirst : p.filenameFirst = true ∧ p.filename ≠ none
  · obtain ⟨hfirst, hne⟩ := hfirst
    obtain ⟨f, hf⟩ := Option.ne_none_iff_exists'.mp hne
    obtain ⟨hname, hfilename⟩ := extract_filename_first hfirst hf
    have hread : p.FilenameIsRead ↔ f = p.name := by
      simp only [FormPart.FilenameIsRead, hf, if_pos hfirst]
    rw [hname, hfilename, hf, Option.getD_some, Option.some_inj, escapeText_eq_self_iff, hread]
    constructor
    · rintro ⟨hvalue, hplain⟩
      rw [escapeText_eq_self_iff.mpr hplain] at hvalue
      exact ⟨hvalue ▸ hplain, hvalue⟩
    · rintro ⟨hplain, rfl⟩
      exact ⟨escapeText_eq_self_iff.mpr hplain, hplain⟩
  · have h : p.filenameFirst = false ∨ p.filename = none := by
      by_cases hf : p.filename = none
      · exact .inr hf
      · exact .inl (Bool.eq_false_iff.mpr fun htrue => hfirst ⟨htrue, hf⟩)
    rw [extract_name h, Option.getD_some, escapeText_eq_self_iff]
    exact and_congr_right fun hplain => extract_filename_iff h hplain

/-! ## The whole body -/

/-- **A form comes back** exactly when each of its parts is apart from the delimiter, has a plain name, and
a file name that is read. -/
theorem parse_body_iff (f : Form) : parse f.boundary.text f.body = f.parts.map FormPart.asPart ↔
    ∀ p ∈ f.parts, p.Apart f.boundary.text ∧ Plain p.name ∧ p.FilenameIsRead := by
  have hread : (∀ p ∈ f.parts, p.Apart f.boundary.text) →
      parse f.boundary.text f.body = f.parts.map FormPart.readPart := by
    intro hapart
    have hsplit : f.parts.flatMap (fun p => splitSequence (delimiter f.boundary.text) p.text) =
        f.parts.map FormPart.text := by
      rw [List.map_eq_flatMap]
      refine List.flatMap_congr fun p hp => ?_
      exact splitSequence_of_not_infix f.boundary.delimiter_ne_nil (apart_text (hapart p hp))
    have hopen : ∀ seg ∈ f.parts.map FormPart.text, (!isClosing seg) = true := by
      rintro seg hseg
      obtain ⟨p, -, rfl⟩ := List.mem_map.mp hseg
      rfl
    have hpieces : parsePiece ∘ FormPart.text = some ∘ FormPart.readPart := funext parsePiece_text
    rw [parse_body, hsplit, List.takeWhile_eq_self_iff.mpr hopen, List.filterMap_map, hpieces,
      List.filterMap_eq_map]
  constructor
  · intro h p hp
    have hapart : ∀ p ∈ f.parts, p.Apart f.boundary.text := fun p hp =>
      apart_of_mem_parse (h ▸ List.mem_map_of_mem hp)
    rw [hread hapart] at h
    exact ⟨hapart p hp, p.readPart_iff.mp (List.map_inj_left.mp h p hp)⟩
  · intro h
    rw [hread fun p hp => (h p hp).1]
    exact List.map_congr_left fun p hp => p.readPart_iff.mpr (h p hp).2

end PlmCore.Dst.Multipart
