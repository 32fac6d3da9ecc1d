/-
STEP files as ISO-10303-21 writes them, as far as a scanner has to know: tokens with separators between
them, statements that end with a semicolon, and the sections these make up.

A separator is white space or a comment. A string may contain anything, with its apostrophes doubled;
no other token contains an apostrophe, a semicolon or a solidus. What is written inside the parentheses
of a record is any sequence of tokens, so the files described here include all files of the standard with
one DATA section.
-/
import Mathlib.Data.Bool.AllAny
import PlmCore.CadParser.ScanReading

set_option autoImplicit false

namespace PlmCore.CadParser

open PlmCore.Lib

/-! ## Bytes -/

/-- A byte below 128 whose character has the property. -/
def isAscii (p : Char → Bool) (b : UInt8) : Bool := b.toNat < 0x80 && p (Char.ofNat b.toNat)

/-- `'\''`. -/
def quote : UInt8 := 0x27

/-! ## Tokens and separators -/

/-- A comment: what is between its two marks does not end it. -/
structure Comment where
  content : List UInt8
  closed : ¬ [star, slash] <:+: content

/-- What may stand between tokens. -/
inductive Separator
  | blank (b : UInt8) (h : isAscii isJsSpace b = true)
  | comment (c : Comment)

def Separator.bytes : Separator → List UInt8
  | blank b _ => [b]
  | comment c => [slash, star] ++ c.content ++ [star, slash]

/-- The separator without comments. -/
def Separator.visible : Separator → List UInt8
  | blank b _ => [b]
  | comment _ => []

/-- A token other than a string. -/
structure PlainToken where
  bytes : List UInt8
  plain : ∀ b ∈ bytes, b ≠ quote ∧ b ≠ semi ∧ b ≠ slash

/-- A string or another token. -/
inductive Token
  | plain (t : PlainToken)
  | string (value : List UInt8)

/-- A string between apostrophes, with its own apostrophes doubled. -/
def writtenString (value : List UInt8) : List UInt8 :=
  [quote] ++ (value.flatMap fun b => if b = quote then [quote, quote] else [b]) ++ [quote]

def Token.bytes : Token → List UInt8
  | plain t => t.bytes
  | string value => writtenString value

/-- A token that a reader who does not know about strings reads as it is meant. -/
def Token.IsQuiet (t : Token) : Prop := semi ∉ t.bytes ∧ ¬ [slash, star] <:+: t.bytes

instance (t : Token) : Decidable t.IsQuiet :=
  inferInstanceAs (Decidable (semi ∉ t.bytes ∧ ¬ [slash, star] <:+: t.bytes))

/-- A token with the separators before it. -/
structure Item where
  before : List Separator
  token : Token

def Item.bytes (i : Item) : List UInt8 := i.before.flatMap Separator.bytes ++ i.token.bytes

def Item.visible (i : Item) : List UInt8 := i.before.flatMap Separator.visible ++ i.token.bytes

/-- Tokens up to a semicolon. -/
structure Statement where
  items : List Item
  beforeStop : List Separator

namespace Statement

variable (s : Statement)

/-- The statement without its semicolon. -/
def body : List UInt8 := s.items.flatMap Item.bytes ++ s.beforeStop.flatMap Separator.bytes

def bytes : List UInt8 := s.body ++ [semi]

/-- The statement without its comments and its semicolon. -/
def visible : List UInt8 := s.items.flatMap Item.visible ++ s.beforeStop.flatMap Separator.visible

def IsQuiet : Prop := ∀ i ∈ s.items, i.token.IsQuiet

end Statement

/-! ## Words -/

theorem isAscii_ne {p : Char → Bool} {b c : UInt8} (hb : isAscii p b = true)
    (hc : p (Char.ofNat c.toNat) = false) : b ≠ c := by
  rintro rfl
  rw [isAscii, hc, Bool.and_false] at hb
  cases hb

/-- A keyword: letters, digits and underscores that do not begin with a digit. -/
structure Keyword where
  first : UInt8
  others : List UInt8
  isFirst : isAscii isKeywordStart first = true
  areOthers : ∀ b ∈ others, isAscii isKeywordChar b = true

def Keyword.bytes (k : Keyword) : List UInt8 := k.first :: k.others

/-- Digits. -/
structure Digits where
  bytes : List UInt8
  ne_nil : bytes ≠ []
  areDigits : ∀ b ∈ bytes, isAscii Char.isDigit b = true

theorem isKeywordChar_of_start {b : UInt8} (h : isAscii isKeywordStart b = true) :
    isAscii isKeywordChar b = true := by
  rw [isAscii, Bool.and_eq_true] at h ⊢
  exact ⟨h.1, by rw [isKeywordChar, h.2, Bool.true_or]⟩

theorem Keyword.all_isKeywordChar (k : Keyword) : ∀ b ∈ k.bytes, isAscii isKeywordChar b = true :=
  List.forall_mem_cons.mpr ⟨isKeywordChar_of_start k.isFirst, k.areOthers⟩

/-- The token of a keyword. -/
def Keyword.token (k : Keyword) : PlainToken where
  bytes := k.bytes
  plain b hb :=
    have hword := k.all_isKeywordChar b hb
    ⟨isAscii_ne hword (by decide), isAscii_ne hword (by decide), isAscii_ne hword (by decide)⟩

/-- The token of an instance name: `#` and digits. -/
def Digits.name (ds : Digits) : PlainToken where
  bytes := 0x23 :: ds.bytes
  plain := List.forall_mem_cons.mpr ⟨by decide, fun b hb =>
    have hdigit := ds.areDigits b hb
    ⟨isAscii_ne hdigit (by decide), isAscii_ne hdigit (by decide), isAscii_ne hdigit (by decide)⟩⟩

def equalsSign : PlainToken := ⟨[0x3D], List.all_iff_forall_prop.mp (by decide)⟩

def leftParen : PlainToken := ⟨[0x28], List.all_iff_forall_prop.mp (by decide)⟩

def exclamation : PlainToken := ⟨[0x21], List.all_iff_forall_prop.mp (by decide)⟩

/-! ## Records -/

/-- What stands before the first parenthesis of a record: the type of a simple record, which a user may
have defined, or nothing in a complex record. -/
inductive RecordHead
  | simple (keyword : Keyword) (beforeParen : List Separator)
  | userDefined (keyword : Keyword) (beforeParen : List Separator)
  | complex

/-- `#id = TYPE ( …` and `#id = ( …`, up to the semicolon. -/
structure DataRecord where
  beforeId : List Separator
  id : Digits
  beforeEquals : List Separator
  beforeHead : List Separator
  head : RecordHead
  rest : List Item
  beforeStop : List Separator

/-- The tokens of a head, with the first parenthesis. -/
def RecordHead.items (before : List Separator) : RecordHead → List Item
  | simple k beforeParen => [⟨before, .plain k.token⟩, ⟨beforeParen, .plain leftParen⟩]
  | userDefined k beforeParen =>
    [⟨before, .plain exclamation⟩, ⟨[], .plain k.token⟩, ⟨beforeParen, .plain leftParen⟩]
  | complex => [⟨before, .plain leftParen⟩]

/-- The type of a record. -/
def RecordHead.type : RecordHead → List Char
  | simple k _ => asciiText k.bytes
  | userDefined k _ => '!' :: asciiText k.bytes
  | complex => "_COMPOUND_".toList

def DataRecord.statement (r : DataRecord) : Statement where
  items := [⟨r.beforeId, .plain r.id.name⟩, ⟨r.beforeEquals, .plain equalsSign⟩]
    ++ r.head.items r.beforeHead ++ r.rest
  beforeStop := r.beforeStop

/-- An entity of the header: `KEYWORD ( …`, up to the semicolon. -/
structure HeaderEntity where
  beforeHead : List Separator
  keyword : Keyword
  beforeParen : List Separator
  rest : List Item
  beforeStop : List Separator

def HeaderEntity.statement (e : HeaderEntity) : Statement where
  items := [⟨e.beforeHead, .plain e.keyword.token⟩, ⟨e.beforeParen, .plain leftParen⟩] ++ e.rest
  beforeStop := e.beforeStop

/-! ## Files -/

/-- A word that is a statement of its own. -/
structure Mark where
  before : List Separator
  after : List Separator

def Mark.statement (s : Mark) (word : PlainToken) : Statement := ⟨[⟨s.before, .plain word⟩], s.after⟩

def isoWord : PlainToken := ⟨asciiBytes "ISO-10303-21", List.all_iff_forall_prop.mp (by decide)⟩
def headerWord : PlainToken := ⟨asciiBytes "HEADER", List.all_iff_forall_prop.mp (by decide)⟩
def endsecWord : PlainToken := ⟨asciiBytes "ENDSEC", List.all_iff_forall_prop.mp (by decide)⟩
def dataWord : PlainToken := ⟨asciiBytes "DATA", List.all_iff_forall_prop.mp (by decide)⟩
def endIsoWord : PlainToken := ⟨asciiBytes "END-ISO-10303-21", List.all_iff_forall_prop.mp (by decide)⟩

/-- A file with a header section and a DATA section. -/
structure StepFile where
  iso : Mark
  header : Mark
  headerEntities : List HeaderEntity
  endHeader : Mark
  data : Mark
  records : List DataRecord
  endData : Mark
  endIso : Mark
  trail : List Separator

namespace StepFile

variable (f : StepFile)

/-- The statements before the first record. -/
def beforeRecords : List Statement :=
  [f.iso.statement isoWord, f.header.statement headerWord]
    ++ f.headerEntities.map HeaderEntity.statement
    ++ [f.endHeader.statement endsecWord, f.data.statement dataWord]

/-- The statements after the last record. -/
def afterRecords : List Statement :=
  [f.endData.statement endsecWord, f.endIso.statement endIsoWord]

def statements : List Statement :=
  f.beforeRecords ++ f.records.map DataRecord.statement ++ f.afterRecords

def bytes : List UInt8 := f.statements.flatMap Statement.bytes ++ f.trail.flatMap Separator.bytes

/-- No string contains a semicolon or the beginning of a comment. -/
def HasQuietStrings : Prop :=
  ∀ s ∈ f.statements, ∀ i ∈ s.items, ∀ value, i.token = .string value → i.token.IsQuiet

/-- No record has a type that a user defined. -/
def HasStandardTypes : Prop := ∀ r ∈ f.records, ∀ k before, r.head ≠ .userDefined k before

end StepFile

/-- What the records at a place in the file should be delivered as: the id, the type, and the place and
the length of the record with the separators before it. -/
def layout : Nat → List DataRecord → List (Option (List Char) × Option (List Char) × Nat × Nat)
  | _, [] => []
  | place, r :: rs =>
    (some (asciiText r.id.bytes), some r.head.type, place, r.statement.bytes.length)
      :: layout (place + r.statement.bytes.length) rs

/-- The records of a file, each at its place. -/
def StepFile.layout (f : StepFile) : List (Option (List Char) × Option (List Char) × Nat × Nat) :=
  CadParser.layout (f.beforeRecords.flatMap Statement.bytes).length f.records

/-! ## What the reader sees of a statement -/

theorem shows_separator (s : Separator) : marks.Shows s.bytes s.visible := by
  cases s with
  | blank b hb =>
    refine CommentMarks.shows_self ?_ ?_ ?_
    · rw [Separator.bytes, List.mem_singleton]
      exact (isAscii_ne hb (by decide)).symm
    · intro hoccurs
      have hlen := hoccurs.length_le
      simp [Separator.bytes] at hlen
    · rw [Separator.bytes, List.getLast?_singleton, Ne, Option.some.injEq]
      exact isAscii_ne hb (by decide)
  | comment c => exact CommentMarks.shows_comment c.closed

/-- A token other than a string is quiet. -/
theorem PlainToken.isQuiet (t : PlainToken) : (Token.plain t).IsQuiet := by
  refine ⟨fun hmem => (t.plain _ hmem).2.1 rfl, ?_⟩
  rintro ⟨u, v, huv⟩
  have hmem : slash ∈ t.bytes := by
    change _ = t.bytes at huv
    rw [← huv]
    simp
  exact (t.plain _ hmem).2.2 rfl

/-- No token ends with a solidus. -/
theorem Token.getLast_ne (t : Token) : t.bytes.getLast? ≠ some slash := by
  cases t with
  | plain t =>
    intro hlast
    obtain ⟨w, hw⟩ := List.getLast?_eq_some_iff.mp hlast
    change t.bytes = _ at hw
    exact (t.plain slash (by rw [hw]; simp)).2.2 rfl
  | string value =>
    rw [Token.bytes, writtenString, List.getLast?_append, List.getLast?_singleton, Option.some_or]
    decide

theorem shows_token {t : Token} (h : t.IsQuiet) : marks.Shows t.bytes t.bytes :=
  CommentMarks.shows_self h.1 h.2 t.getLast_ne

/-- **A statement without its semicolon** shows all but its comments. -/
theorem shows_body {s : Statement} (h : s.IsQuiet) : marks.Shows s.body s.visible := by
  refine .append (.flatMap fun i hi => ?_) (.flatMap fun sep _ => shows_separator sep)
  exact .append (.flatMap fun sep _ => shows_separator sep) (shows_token (h i hi))

/-- The segments of statements that begin at a position. -/
def segmentsOf : Nat → List Statement → List (Stretch UInt8)
  | _, [] => []
  | place, s :: ss => ⟨place, s.bytes.length, s.visible⟩ :: segmentsOf (place + s.bytes.length) ss

theorem segmentsOf_append (place : Nat) (ss ss' : List Statement) :
    segmentsOf place (ss ++ ss') =
      segmentsOf place ss ++ segmentsOf (place + (ss.flatMap Statement.bytes).length) ss' := by
  induction ss generalizing place with
  | nil => rfl
  | cons s ss ih =>
    rw [List.cons_append, segmentsOf, segmentsOf, ih, List.cons_append, List.flatMap_cons,
      List.length_append, Nat.add_assoc]

/-- **Statements are segments**, when their strings are quiet. -/
theorem read_statements {ss : List Statement} (hquiet : ∀ s ∈ ss, s.IsQuiet) {r : Reading UInt8}
    (hmode : r.mode = .text) (hpiece : r.piece = []) (hstart : r.start = r.position) :
    r.read marks (ss.flatMap Statement.bytes) =
      { r with
        position := r.position + (ss.flatMap Statement.bytes).length
        start := r.position + (ss.flatMap Statement.bytes).length
        segments := r.segments ++ segmentsOf r.position ss } := by
  induction ss generalizing r with
  | nil => ext1 <;> simp [segmentsOf, hstart]
  | cons s ss ih =>
    have hshow := shows_body (hquiet s List.mem_cons_self) r hmode
    have hstop : ({ r with position := r.position + s.body.length, piece := r.piece ++ s.visible } :
        Reading UInt8).read marks [semi] =
        ⟨.text, r.position + s.bytes.length, r.position + s.bytes.length, [],
          r.segments ++ [⟨r.position, s.bytes.length, s.visible⟩]⟩ := by
      rw [Reading.read_singleton, Reading.step]
      simp [hmode, Reading.text, marks, hpiece, hstart, Statement.bytes]
      omega
    rw [List.flatMap_cons, Reading.read_append, Statement.bytes, Reading.read_append, hshow, hstop,
      ih (fun s' hs' => hquiet s' (List.mem_cons_of_mem _ hs')) rfl rfl rfl]
    ext1 <;> simp [segmentsOf, hmode, hpiece, Statement.bytes] <;> omega

end PlmCore.CadParser
