/-
What `scanStep` makes of a file of the standard: one record for each record of the DATA section.

The text of a statement is its tokens with the white space between them, line ends turned into blanks
and the ends trimmed, so the id, the type and the first parenthesis of a record stay what they are. The
scanner knows comments and not strings. Where no string holds a semicolon or the beginning of a comment,
and the cuts between chunks spare the beginnings of comments, the records it delivers are those of the
file.
-/
import PlmCore.CadParser.StepFile

set_option autoImplicit false

namespace PlmCore.CadParser

open PlmCore.Lib

/-! ## Bytes that are characters -/

section Ascii

variable {p : Char → Bool} {bs : List UInt8}

theorem lt_of_isAscii (h : ∀ b ∈ bs, isAscii p b = true) : ∀ b ∈ bs, b.toNat < 0x80 := by
  intro b hb
  have hboth := h b hb
  rw [isAscii, Bool.and_eq_true, decide_eq_true_eq] at hboth
  exact hboth.1

theorem asciiText_all (h : ∀ b ∈ bs, isAscii p b = true) : ∀ c ∈ asciiText bs, p c = true := by
  intro c hc
  obtain ⟨b, hb, rfl⟩ := List.mem_map.mp hc
  have hboth := h b hb
  rw [isAscii, Bool.and_eq_true] at hboth
  exact hboth.2

theorem decode_isAscii_append (h : ∀ b ∈ bs, isAscii p b = true) (rest : List UInt8) :
    decodeUtf8 (bs ++ rest) = asciiText bs ++ decodeUtf8 rest :=
  decodeUtf8_ascii_append (lt_of_isAscii h) rest

/-- What is left of separators is white space. -/
theorem visible_isBlank (seps : List Separator) :
    ∀ b ∈ seps.flatMap Separator.visible, isAscii isJsSpace b = true := by
  intro b hb
  obtain ⟨sep, -, hmem⟩ := List.mem_flatMap.mp hb
  cases sep with
  | blank c hc =>
    rw [Separator.visible, List.mem_singleton] at hmem
    exact hmem ▸ hc
  | comment c => cases hmem

end Ascii

/-! ## Black characters -/

theorem black_of_keywordChar {c : Char} (h : isKeywordChar c = true) : isJsSpace c = false := by
  rw [isKeywordChar, isKeywordStart, Bool.or_eq_true, Bool.or_eq_true, decide_eq_true_eq] at h
  obtain (hupper | rfl) | hdigit := h
  · exact isJsSpace_of_upper hupper
  · decide
  · exact isJsSpace_of_digit hdigit

theorem Keyword.text_all (k : Keyword) : ∀ c ∈ asciiText k.bytes, isKeywordChar c = true :=
  asciiText_all k.all_isKeywordChar

theorem Digits.text_all (ds : Digits) : ∀ c ∈ asciiText ds.bytes, c.isDigit = true :=
  asciiText_all ds.areDigits

/-- White space ends a run of black characters. -/
theorem stops_run {p : Char → Bool} (hp : ∀ c, p c = true → isJsSpace c = false) {spaces : List Char}
    (hspaces : ∀ c ∈ spaces, isJsSpace c = true) {a : Char} (ha : p a = false) (rest : List Char) :
    ∀ c ∈ (spaces ++ a :: rest).head?, p c = false := by
  intro c hc
  cases spaces with
  | nil =>
    cases hc
    exact ha
  | cons d spaces =>
    cases hc
    cases hpc : p c with
    | false => rfl
    | true =>
      have hspace := hspaces c List.mem_cons_self
      rw [hp c hpc] at hspace
      cases hspace

/-! ## The text of a statement -/

/-- White space before a black character. -/
theorem replaceNewlines_before {spaces : List Char} {c : Char} (hspaces : ∀ d ∈ spaces, isJsSpace d = true)
    (hc : isJsSpace c = false) (rest : List Char) :
    ∃ spaces', (∀ d ∈ spaces', isJsSpace d = true) ∧
      replaceNewlines (spaces ++ c :: rest) = spaces' ++ c :: replaceNewlines rest := by
  obtain ⟨spaces', hspaces', heq⟩ := replaceNewlines_space hspaces (c :: rest) (by
    rintro d ⟨⟩
    exact hc)
  refine ⟨spaces', hspaces', ?_⟩
  rw [heq, replaceNewlines_cons (by rintro rfl; exact absurd hc (by decide))
    (by rintro rfl; exact absurd hc (by decide))]

theorem asciiText_append (bs bs' : List UInt8) : asciiText (bs ++ bs') = asciiText bs ++ asciiText bs' :=
  List.map_append

/-- White space alone has no text. -/
theorem segmentText_blank {bs : List UInt8} (h : ∀ b ∈ bs, isAscii isJsSpace b = true) :
    segmentText bs = [] := by
  obtain ⟨spaces, hspaces, heq⟩ := replaceNewlines_space (asciiText_all h) [] (by simp)
  rw [List.append_nil] at heq
  rw [segmentText, decodeUtf8_ascii (lt_of_isAscii h), heq, replaceNewlines, List.append_nil, jsTrim,
    List.dropWhile_eq_nil_iff.mpr hspaces]
  rfl

/-- **A word among white space** is the text of its statement. -/
theorem segmentText_mark (s : Mark) (init : List Char) (last : Char) {word : PlainToken}
    (hlt : word.bytes.all (fun b => b.toNat < 0x80) = true)
    (hword : asciiText word.bytes = init ++ [last])
    (hblack : (init ++ [last]).all (fun c => isJsSpace c = false) = true) :
    segmentText (s.statement word).visible = init ++ [last] := by
  have hlt := List.all_iff_forall_prop.mp hlt
  have hblack := List.all_iff_forall_prop.mp hblack
  have hbefore := asciiText_all (visible_isBlank s.before)
  have hafter := asciiText_all (visible_isBlank s.after)
  have hvisible : (s.statement word).visible =
      s.before.flatMap Separator.visible ++ (word.bytes ++ s.after.flatMap Separator.visible) := by
    simp [Statement.visible, Mark.statement, Item.visible, Token.bytes]
  obtain ⟨spaces, hspaces, hfront⟩ := replaceNewlines_space hbefore
    ((init ++ [last]) ++ asciiText (s.after.flatMap Separator.visible)) (by
      intro c hc
      refine hblack c ?_
      cases init with
      | nil =>
        cases hc
        exact List.mem_singleton_self _
      | cons d init =>
        cases hc
        exact List.mem_cons_self)
  obtain ⟨spaces', hspaces', hback⟩ := replaceNewlines_space hafter [] (by simp)
  rw [List.append_nil, replaceNewlines, List.append_nil] at hback
  obtain ⟨rest', htrim, hnil⟩ := jsTrim_prefix (c := last) init hspaces
    (fun d hd => hblack d (List.mem_append_left _ (List.mem_of_mem_head? hd)))
    (hblack last (by simp)) spaces'
  rw [segmentText, hvisible, decode_isAscii_append (visible_isBlank _), decodeUtf8_ascii_append hlt,
    decodeUtf8_ascii (lt_of_isAscii (visible_isBlank _)), hword, hfront, replaceNewlines_append hblack,
    hback, List.append_assoc, List.singleton_append, htrim, hnil hspaces']

/-! ## Reading the text of a record -/

theorem matchId_of_parts {digits spaces : List Char} (hne : digits ≠ [])
    (hdigits : ∀ c ∈ digits, c.isDigit = true) (hspaces : ∀ c ∈ spaces, isJsSpace c = true)
    (rest : List Char) : matchId ('#' :: (digits ++ (spaces ++ '=' :: rest))) = some (digits, rest) := by
  have hrun := span_run hdigits _ (stops_run (fun c => isJsSpace_of_digit) hspaces (a := '=') rfl rest)
  have hspan := span_run hspaces ('=' :: rest) (by
    rintro c ⟨⟩
    rfl)
  simp only [matchId, hrun.1, hrun.2, if_neg hne, hspan.2]

theorem matchType_of_parts {spaces spaces' others : List Char} {first : Char}
    (hspaces : ∀ c ∈ spaces, isJsSpace c = true) (hfirst : isKeywordStart first = true)
    (hothers : ∀ c ∈ others, isKeywordChar c = true) (hspaces' : ∀ c ∈ spaces', isJsSpace c = true)
    (rest : List Char) :
    matchType (spaces ++ first :: (others ++ (spaces' ++ '(' :: rest))) = some (first :: others) := by
  have hblack : isJsSpace first = false :=
    black_of_keywordChar (by rw [isKeywordChar, hfirst, Bool.true_or])
  have hfront := span_run hspaces (first :: (others ++ (spaces' ++ '(' :: rest))) (by
    rintro c ⟨⟩
    exact hblack)
  have hrun := span_run hothers _ (stops_run (fun c => black_of_keywordChar) hspaces' (a := '(')
    (by decide) rest)
  have hspan := span_run hspaces' ('(' :: rest) (by
    rintro c ⟨⟩
    rfl)
  simp only [matchType, hfront.2, hfirst, hrun.1, hrun.2, hspan.2, Bool.true_eq_false, if_false]

theorem matchType_of_paren {spaces : List Char} (hspaces : ∀ c ∈ spaces, isJsSpace c = true)
    (rest : List Char) : matchType (spaces ++ '(' :: rest) = none := by
  have hfront := span_run hspaces ('(' :: rest) (by
    rintro c ⟨⟩
    rfl)
  have hparen : isKeywordStart '(' = false := by decide
  simp only [matchType, hfront.2, hparen, if_true]

/-- What follows the white space before the head of a record is read as its type. -/
theorem matchType_head {h : RecordHead} (hstandard : ∀ k before, h ≠ .userDefined k before)
    (before : List Separator) (rest : List UInt8) :
    ∃ text rest', replaceNewlines (decodeUtf8 ((h.items before).flatMap Item.visible ++ rest)) =
        text ++ '(' :: rest' ∧
      ∀ rest'', (matchType (text ++ '(' :: rest'')).getD "_COMPOUND_".toList = h.type := by
  have hbefore := asciiText_all (visible_isBlank before)
  cases h with
  | userDefined k beforeParen => exact absurd rfl (hstandard k beforeParen)
  | simple k beforeParen =>
    have hafter := asciiText_all (visible_isBlank beforeParen)
    have hfirst : isKeywordStart (Char.ofNat k.first.toNat) = true :=
      (Bool.and_eq_true _ _ ▸ k.isFirst : _ ∧ _).2
    have hothers := asciiText_all k.areOthers
    have hbytes : ((RecordHead.simple k beforeParen).items before).flatMap Item.visible ++ rest =
        before.flatMap Separator.visible ++ (k.bytes ++ (beforeParen.flatMap Separator.visible ++
          ([0x28] ++ rest))) := by
      simp [RecordHead.items, Item.visible, Token.bytes, Keyword.token, leftParen]
    obtain ⟨spaces, hspaces, hfront⟩ := replaceNewlines_before hbefore
      (black_of_keywordChar (k.text_all (Char.ofNat k.first.toNat) List.mem_cons_self))
      (asciiText k.others ++ (asciiText (beforeParen.flatMap Separator.visible) ++ '(' :: decodeUtf8 rest))
    obtain ⟨spaces', hspaces', hback⟩ := replaceNewlines_before hafter (c := '(') (by decide)
      (decodeUtf8 rest)
    refine ⟨spaces ++ Char.ofNat k.first.toNat :: (asciiText k.others ++ spaces'),
      replaceNewlines (decodeUtf8 rest), ?_, fun rest'' => ?_⟩
    · rw [hbytes, decode_isAscii_append (visible_isBlank _), decode_isAscii_append k.all_isKeywordChar,
        decode_isAscii_append (visible_isBlank _),
        decodeUtf8_ascii_append (List.all_iff_forall_prop.mp (by decide))]
      change replaceNewlines (_ ++ Char.ofNat k.first.toNat :: (asciiText k.others ++
        (asciiText (beforeParen.flatMap Separator.visible) ++ '(' :: decodeUtf8 rest))) = _
      rw [hfront, replaceNewlines_append fun c hc => black_of_keywordChar (hothers c hc), hback]
      simp
    · have htype := matchType_of_parts hspaces hfirst hothers hspaces' rest''
      rw [List.append_assoc, List.cons_append, List.append_assoc, htype]
      rfl
  | complex =>
    have hbytes : (RecordHead.complex.items before).flatMap Item.visible ++ rest =
        before.flatMap Separator.visible ++ ([0x28] ++ rest) := by
      simp [RecordHead.items, Item.visible, Token.bytes, leftParen]
    obtain ⟨spaces, hspaces, hfront⟩ := replaceNewlines_before hbefore (c := '(') (by decide)
      (decodeUtf8 rest)
    refine ⟨spaces, replaceNewlines (decodeUtf8 rest), ?_, fun rest'' => ?_⟩
    · rw [hbytes, decode_isAscii_append (visible_isBlank _),
        decodeUtf8_ascii_append (List.all_iff_forall_prop.mp (by decide))]
      exact hfront
    · rw [matchType_of_paren hspaces]
      rfl

/-- **The text of a record** begins with its id, and its id and type are read off it. -/
theorem classify_record {r : DataRecord} (hstandard : ∀ k before, r.head ≠ .userDefined k before) :
    ∃ text, segmentText r.statement.visible = '#' :: text ∧
      classify ('#' :: text) = (some (asciiText r.id.bytes), some r.head.type) := by
  have hbeforeId := asciiText_all (visible_isBlank r.beforeId)
  have hbeforeEquals := asciiText_all (visible_isBlank r.beforeEquals)
  have hvisible : r.statement.visible =
      r.beforeId.flatMap Separator.visible ++ ([0x23] ++ (r.id.bytes ++
        (r.beforeEquals.flatMap Separator.visible ++ ([0x3D] ++
          ((r.head.items r.beforeHead).flatMap Item.visible ++
            (r.rest.flatMap Item.visible ++ r.beforeStop.flatMap Separator.visible)))))) := by
    simp [Statement.visible, DataRecord.statement, Item.visible, Token.bytes, Digits.name, equalsSign]
  obtain ⟨text, rest', hhead, htype⟩ := matchType_head hstandard r.beforeHead
    (r.rest.flatMap Item.visible ++ r.beforeStop.flatMap Separator.visible)
  generalize (r.head.items r.beforeHead).flatMap Item.visible ++
    (r.rest.flatMap Item.visible ++ r.beforeStop.flatMap Separator.visible) = body at hvisible hhead
  obtain ⟨spaces, hspaces, hfront⟩ := replaceNewlines_before hbeforeId (c := '#') (by decide)
    (asciiText r.id.bytes ++ (asciiText (r.beforeEquals.flatMap Separator.visible) ++
      '=' :: decodeUtf8 body))
  obtain ⟨spaces', hspaces', hback⟩ := replaceNewlines_before hbeforeEquals (c := '=') (by decide)
    (decodeUtf8 body)
  obtain ⟨rest'', htrim, -⟩ := jsTrim_prefix (c := '(')
    ('#' :: (asciiText r.id.bytes ++ (spaces' ++ '=' :: text))) hspaces (by
      rintro d ⟨⟩
      decide) (by decide) rest'
  refine ⟨asciiText r.id.bytes ++ (spaces' ++ '=' :: (text ++ '(' :: rest'')), ?_, ?_⟩
  · rw [segmentText, hvisible, decode_isAscii_append (visible_isBlank _),
      decodeUtf8_ascii_append (List.all_iff_forall_prop.mp (by decide)),
      decode_isAscii_append r.id.areDigits,
      decode_isAscii_append (visible_isBlank _),
      decodeUtf8_ascii_append (List.all_iff_forall_prop.mp (by decide))]
    change jsTrim (replaceNewlines (_ ++ '#' :: (_ ++ (_ ++ '=' :: decodeUtf8 body)))) = _
    rw [hfront, replaceNewlines_append fun c hc => isJsSpace_of_digit (r.id.text_all c hc), hback, hhead]
    simpa using htrim
  · have hne : asciiText r.id.bytes ≠ [] := by
      rw [asciiText, Ne, List.map_eq_nil_iff]
      exact r.id.ne_nil
    rw [classify, matchId_of_parts hne r.id.text_all hspaces']
    dsimp only
    rw [htype]

/-- The text of a header entity has a parenthesis. -/
theorem paren_mem_headerEntity (e : HeaderEntity) : '(' ∈ segmentText e.statement.visible := by
  have hvisible : e.statement.visible =
      ((RecordHead.simple e.keyword e.beforeParen).items e.beforeHead).flatMap Item.visible ++
        (e.rest.flatMap Item.visible ++ e.beforeStop.flatMap Separator.visible) := by
    simp [Statement.visible, HeaderEntity.statement, RecordHead.items]
  obtain ⟨text, rest, hhead, -⟩ := matchType_head (h := .simple e.keyword e.beforeParen)
    (fun k before => by simp) e.beforeHead
    (e.rest.flatMap Item.visible ++ e.beforeStop.flatMap Separator.visible)
  rw [segmentText, hvisible, hhead]
  exact mem_jsTrim (by decide) (by simp)

/-! ## What the sections deliver -/

theorem handleSegments_cons (d : Delivery) (place : Nat) (s : Statement) (ss : List Statement) :
    d.handleSegments (segmentsOf place (s :: ss)) =
      (d.handleSegment (segmentText s.visible) place s.bytes.length).handleSegments
        (segmentsOf (place + s.bytes.length) ss) := rfl

/-- The entities of the header become header lines. -/
theorem handleSegments_header {d : Delivery} (hin : d.inHeader = true) (es : List HeaderEntity)
    (place : Nat) :
    ∃ headerLines, d.handleSegments (segmentsOf place (es.map HeaderEntity.statement)) =
      { d with headerLines := headerLines } := by
  induction es generalizing d place with
  | nil => exact ⟨d.headerLines, rfl⟩
  | cons e es ih =>
    have hparen := paren_mem_headerEntity e
    have hother (word : List Char) (hword : '(' ∉ word) : segmentText e.statement.visible ≠ word :=
      fun heq => hword (heq ▸ hparen)
    rw [List.map_cons, handleSegments_cons, Delivery.handleSegment, if_neg (hother _ (by simp)),
      if_neg (hother _ (by decide)), if_neg (hother _ (by decide)), if_neg (hother _ (by decide)),
      if_pos hin]
    exact ih (d := { d with headerLines := d.headerLines ++ [segmentText e.statement.visible ++ [';']] })
      hin _

/-- What a record was delivered as, but for its text. -/
def ScannedEntity.place (e : ScannedEntity) :
    Option (List Char) × Option (List Char) × Nat × Nat := (e.id, e.type, e.offset, e.length)

/-- **The records of the DATA section** are delivered one by one. -/
theorem handleSegments_records {d : Delivery} (hheader : d.inHeader = false) (hdata : d.inData = true)
    {rs : List DataRecord} (hstandard : ∀ r ∈ rs, ∀ k before, r.head ≠ .userDefined k before)
    (start : Nat) :
    ∃ entities, d.handleSegments (segmentsOf start (rs.map DataRecord.statement)) =
        { d with entities := d.entities ++ entities } ∧
      entities.map ScannedEntity.place = layout start rs := by
  induction rs generalizing d start with
  | nil => exact ⟨[], by simp [segmentsOf, Delivery.handleSegments], rfl⟩
  | cons r rs ih =>
    obtain ⟨text, htext, hclass⟩ := classify_record (hstandard r List.mem_cons_self)
    have hother (word : List Char) (hword : word.head? ≠ some '#') : '#' :: text ≠ word :=
      fun heq => hword (heq ▸ rfl)
    obtain ⟨entities, hrest, hplaces⟩ := ih
      (d := { d with
        entities := d.entities ++ [⟨some (asciiText r.id.bytes), some r.head.type, '#' :: text, start,
          r.statement.bytes.length⟩] })
      hheader hdata (fun r' hr' => hstandard r' (List.mem_cons_of_mem _ hr'))
      (start + r.statement.bytes.length)
    refine ⟨⟨some (asciiText r.id.bytes), some r.head.type, '#' :: text, start,
      r.statement.bytes.length⟩ :: entities, ?_, ?_⟩
    · rw [List.map_cons, handleSegments_cons, htext, Delivery.handleSegment, if_neg (hother _ (by simp)),
        if_neg (hother _ (by decide)), if_neg (hother _ (by decide)), if_neg (hother _ (by decide)),
        if_neg (by rw [hheader]; exact Bool.false_ne_true),
        if_neg (by rw [hdata]; exact Bool.true_eq_false.mp), hclass, hrest]
      simp
    · rw [List.map_cons, hplaces]
      rfl

/-! ## Whole files -/

theorem StepFile.isQuiet {f : StepFile} (h : f.HasQuietStrings) : ∀ s ∈ f.statements, s.IsQuiet := by
  intro s hs i hi
  cases hi' : i.token with
  | plain t => exact t.isQuiet
  | string value => exact hi' ▸ h s hs i hi value hi'

/-- What the reader finds in a file: its statements, and perhaps a segment of white space. -/
theorem read_file {f : StepFile} (h : f.HasQuietStrings) :
    ∃ blank, (∀ g ∈ blank, segmentText g.piece = []) ∧
      ((Reading.begin UInt8).read marks f.bytes).finish = segmentsOf 0 f.statements ++ blank := by
  have hread := read_statements (f.isQuiet h) (r := Reading.begin UInt8) rfl rfl rfl
  have htrail : marks.Shows (f.trail.flatMap Separator.bytes) (f.trail.flatMap Separator.visible) :=
    .flatMap fun sep _ => shows_separator sep
  rw [StepFile.bytes, Reading.read_append, hread, htrail _ rfl]
  unfold Reading.finish
  split
  · exact ⟨[], List.forall_mem_nil _, by simp [Reading.begin]⟩
  · refine ⟨[⟨_, _, f.trail.flatMap Separator.visible⟩], ?_, rfl⟩
    rw [List.forall_mem_singleton]
    exact segmentText_blank (visible_isBlank _)

/-- Segments without text deliver nothing. -/
theorem handleSegments_blank {segments : List (Stretch UInt8)}
    (h : ∀ g ∈ segments, segmentText g.piece = []) (d : Delivery) : d.handleSegments segments = d := by
  induction segments with
  | nil => rfl
  | cons g segments ih =>
    have hg := h g List.mem_cons_self
    have hfirst : d.handleSegment (segmentText g.piece) g.start g.length = d := by
      rw [Delivery.handleSegment, if_pos hg]
    change (d.handleSegment _ _ _).handleSegments segments = d
    rw [hfirst]
    exact ih fun g' hg' => h g' (List.mem_cons_of_mem _ hg')

/-- Up to its records a file delivers the header. -/
theorem deliver_beforeRecords (f : StepFile) :
    ∃ headerLines headers, Delivery.start.handleSegments (segmentsOf 0 f.beforeRecords) =
      ⟨headerLines, false, true, headers, []⟩ := by
  have hiso : segmentText (f.iso.statement isoWord).visible = "ISO-10303-21".toList :=
    segmentText_mark f.iso "ISO-10303-2".toList '1' (by decide) rfl (by decide)
  have hheader : segmentText (f.header.statement headerWord).visible = "HEADER".toList :=
    segmentText_mark f.header "HEADE".toList 'R' (by decide) rfl (by decide)
  have hendHeader : segmentText (f.endHeader.statement endsecWord).visible = "ENDSEC".toList :=
    segmentText_mark f.endHeader "ENDSE".toList 'C' (by decide) rfl (by decide)
  have hdata : segmentText (f.data.statement dataWord).visible = "DATA".toList :=
    segmentText_mark f.data "DAT".toList 'A' (by decide) rfl (by decide)
  have hopen : Delivery.start.handleSegments
      (segmentsOf 0 [f.iso.statement isoWord, f.header.statement headerWord]) =
      ⟨[], true, false, [], []⟩ := by
    rw [handleSegments_cons, handleSegments_cons, hiso, hheader]
    rfl
  have hclose (headerLines : List (List Char)) (place : Nat) :
      Delivery.handleSegments ⟨headerLines, true, false, [], []⟩
        (segmentsOf place [f.endHeader.statement endsecWord, f.data.statement dataWord]) =
      ⟨headerLines, false, true, [headerBlock headerLines], []⟩ := by
    rw [handleSegments_cons, handleSegments_cons, hendHeader, hdata]
    rfl
  obtain ⟨headerLines, hentities⟩ := handleSegments_header (d := ⟨[], true, false, [], []⟩) rfl
    f.headerEntities
    (0 + ([f.iso.statement isoWord, f.header.statement headerWord].flatMap Statement.bytes).length)
  refine ⟨headerLines, [headerBlock headerLines], ?_⟩
  rw [StepFile.beforeRecords, segmentsOf_append, segmentsOf_append, Delivery.handleSegments_append,
    Delivery.handleSegments_append, hopen, hentities]
  exact hclose headerLines _

/-- After its records a file delivers nothing. -/
theorem deliver_afterRecords (f : StepFile) (d : Delivery) (place : Nat) :
    (d.handleSegments (segmentsOf place f.afterRecords)).entities = d.entities := by
  have hendData : segmentText (f.endData.statement endsecWord).visible = "ENDSEC".toList :=
    segmentText_mark f.endData "ENDSE".toList 'C' (by decide) rfl (by decide)
  have hendIso : segmentText (f.endIso.statement endIsoWord).visible = "END-ISO-10303-21".toList :=
    segmentText_mark f.endIso "END-ISO-10303-2".toList '1' (by decide) rfl (by decide)
  rw [StepFile.afterRecords, handleSegments_cons, handleSegments_cons, hendData, hendIso]
  rfl

/-- **A file delivers its records.** -/
theorem deliver_file {f : StepFile} (hquiet : f.HasQuietStrings) (hstandard : f.HasStandardTypes) :
    (deliver f.bytes).entities.map ScannedEntity.place = f.layout := by
  obtain ⟨blank, hblank, hsegments⟩ := read_file hquiet
  obtain ⟨headerLines, headers, hbefore⟩ := deliver_beforeRecords f
  obtain ⟨entities, hrecords, hplaces⟩ := handleSegments_records (d := ⟨headerLines, false, true, headers, []⟩)
    rfl rfl hstandard (0 + (f.beforeRecords.flatMap Statement.bytes).length)
  rw [deliver, hsegments, Delivery.handleSegments_append, handleSegments_blank hblank,
    StepFile.statements, segmentsOf_append, segmentsOf_append, Delivery.handleSegments_append,
    Delivery.handleSegments_append, hbefore, hrecords, deliver_afterRecords, List.nil_append,
    hplaces, Nat.zero_add]
  rfl

/-- Cuts before bytes other than a star spare the beginnings of comments. -/
theorem keepsOpeners_of_head {chunks : List (List UInt8)} (h : ∀ c ∈ chunks, c.head? ≠ some star) :
    KeepsOpeners chunks := by
  rintro past chunk later rfl -
  exact h chunk (by simp)

/-- **Main result.** The scanner delivers the same for all ways to cut a file into chunks that spare the
beginnings of comments, and for a file of the standard one record for each record of the DATA section, with
its id, its type and its place, when no string holds a semicolon or the beginning of a comment and no
record is of a user-defined type. -/
theorem segmentation_exact {chunks chunks' : List (List UInt8)} (hcuts : KeepsOpeners chunks)
    (hcuts' : KeepsOpeners chunks') (hsame : chunks.flatten = chunks'.flatten) :
    scanStep chunks = scanStep chunks' ∧
      ∀ f : StepFile, f.bytes = chunks.flatten → f.HasQuietStrings → f.HasStandardTypes →
        (scanStep chunks).entities.map ScannedEntity.place = f.layout := by
  rw [scanStep_eq_deliver hcuts, scanStep_eq_deliver hcuts', hsame]
  refine ⟨rfl, fun f hf hquiet hstandard => ?_⟩
  rw [← hf]
  exact deliver_file hquiet hstandard

/-! ## A product -/

def rightParen : PlainToken := ⟨[0x29], List.all_iff_forall_prop.mp (by decide)⟩

/-- `#1=PRODUCT('…'…;`, with the separators before the semicolon. -/
def product (name : String) (beforeStop : List Separator) : DataRecord where
  beforeId := [.blank 0x0A (by decide)]
  id := ⟨asciiBytes "1", by decide, List.all_iff_forall_prop.mp (by decide)⟩
  beforeEquals := []
  beforeHead := []
  head := .simple ⟨0x50, asciiBytes "RODUCT", by decide, List.all_iff_forall_prop.mp (by decide)⟩ []
  rest := [⟨[], .string (asciiBytes name)⟩, ⟨[], .plain rightParen⟩]
  beforeStop := beforeStop

/-- A file with one record. -/
def fileOf (r : DataRecord) : StepFile where
  iso := ⟨[], []⟩
  header := ⟨[], []⟩
  headerEntities := [⟨[],
    ⟨0x46, asciiBytes "ILE_SCHEMA", by decide, List.all_iff_forall_prop.mp (by decide)⟩, [],
    [⟨[], .plain leftParen⟩, ⟨[], .string (asciiBytes "AUTOMOTIVE_DESIGN")⟩, ⟨[], .plain rightParen⟩,
      ⟨[], .plain rightParen⟩], []⟩]
  endHeader := ⟨[], []⟩
  data := ⟨[], []⟩
  records := [r]
  endData := ⟨[], []⟩
  endIso := ⟨[], []⟩
  trail := []

/-- The comment `/*;*/`. -/
def semicolonComment : Separator := .comment ⟨[semi], by decide⟩

/-- A product with an apostrophe in its name and a comment behind it. -/
def commentedFile : StepFile := fileOf (product "it's" [semicolonComment])

/-- The file in one chunk, and cut in its comment. -/
theorem segmentation_exact_commented :
    scanStep [commentedFile.bytes] =
        scanStep [commentedFile.bytes.take 89, commentedFile.bytes.drop 89] ∧
      (scanStep [commentedFile.bytes]).entities.map ScannedEntity.place =
        [(some "1".toList, some "PRODUCT".toList, 67, 26)] := by
  have hcuts : KeepsOpeners [commentedFile.bytes] := keepsOpeners_of_head (by decide +kernel)
  have hcuts' : KeepsOpeners [commentedFile.bytes.take 89, commentedFile.bytes.drop 89] :=
    keepsOpeners_of_head (by decide +kernel)
  have hquiet : ∀ s ∈ commentedFile.statements, ∀ i ∈ s.items, i.token.IsQuiet := by decide +kernel
  obtain ⟨hsame, hrecords⟩ := segmentation_exact hcuts hcuts' (by simp)
  refine ⟨hsame, ?_⟩
  rw [hrecords commentedFile (by simp) (fun s hs i hi _ _ => hquiet s hs i hi) ?_]
  · decide +kernel
  · intro r hr k before hhead
    cases List.mem_singleton.mp hr
    cases hhead

/-- A cut in the beginning of the comment changes what is delivered, and a semicolon in a string makes
two records of one. -/
theorem segments_follow_cuts_and_strings :
    scanStep [commentedFile.bytes.take 88, commentedFile.bytes.drop 88] ≠ scanStep [commentedFile.bytes] ∧
      (scanStep [(fileOf (product "a;b" [])).bytes]).entities.map ScannedEntity.place ≠
        (fileOf (product "a;b" [])).layout := by
  decide +kernel

end PlmCore.CadParser
