/-
`scanStep`: the scanner of cad-parser that cuts a STEP file into segments while it is read.

The file arrives in chunks of bytes. The scanner keeps the bytes it has not consumed, a cursor into
them, whether it is in a comment, and the pieces of the current segment; it looks for the next
terminator and for the next comment, whichever comes first, and remembers where it found the comment.
A finished segment is decoded and handed over as a header line or as a record of the DATA section.

The callbacks are taken as given; what they are called with is kept in the order of the calls.
-/
import PlmCore.Lib.JsText
import PlmCore.Lib.Occurrence
import PlmCore.Lib.Utf8

set_option autoImplicit false

namespace PlmCore.CadParser

open PlmCore.Lib

/-! ## Reading a record's text -/

/-- `[A-Z_]`. -/
def isKeywordStart (c : Char) : Bool := c.isUpper || c = '_'

/-- `[A-Z0-9_]`. -/
def isKeywordChar (c : Char) : Bool := isKeywordStart c || c.isDigit

/-- `/^#(\d+)\s*=/`: the digits, and what follows the match. -/
def matchId : List Char → Option (List Char × List Char)
  | '#' :: cs =>
    if cs.takeWhile Char.isDigit = [] then none
    else match (cs.dropWhile Char.isDigit).dropWhile isJsSpace with
      | '=' :: rest => some (cs.takeWhile Char.isDigit, rest)
      | _ => none
  | _ => none

/-- `/\s*([A-Z_][A-Z0-9_]*)\s*\(/`, where the match of the id ended. -/
def matchType (cs : List Char) : Option (List Char) :=
  match cs.dropWhile isJsSpace with
  | [] => none
  | c :: cs =>
    if isKeywordStart c = false then none
    else match (cs.dropWhile isKeywordChar).dropWhile isJsSpace with
      | '(' :: _ => some (c :: cs.takeWhile isKeywordChar)
      | _ => none

/-- What `onEntity` is called with. -/
structure ScannedEntity where
  id : Option (List Char)
  type : Option (List Char)
  text : List Char
  offset : Nat
  length : Nat
  deriving DecidableEq

/-! ## Handing over segments -/

/-- The part of the scanner that `handleSegment` works on, and the calls it made. -/
structure Delivery where
  headerLines : List (List Char)
  inHeader : Bool
  inData : Bool
  headers : List (List Char)
  entities : List ScannedEntity
  deriving DecidableEq

def Delivery.start : Delivery := ⟨[], false, false, [], []⟩

/-- The reconstructed header block. -/
def headerBlock (headerLines : List (List Char)) : List Char :=
  if headerLines = [] then "HEADER;\nENDSEC;".toList
  else "HEADER;\n".toList ++ ['\n'].intercalate headerLines ++ "\nENDSEC;".toList

/-- The id and the type of a record, from its text. -/
def classify (text : List Char) : Option (List Char) × Option (List Char) :=
  match matchId text with
  | none => (none, none)
  | some (id, rest) => (some id, some ((matchType rest).getD "_COMPOUND_".toList))

/-- `handleSegment`. -/
def Delivery.handleSegment (d : Delivery) (text : List Char) (offset length : Nat) : Delivery :=
  if text = [] then d
  else if text = "HEADER".toList then { d with inHeader := true }
  else if text = "DATA".toList then
    { d with headers := d.headers ++ [headerBlock d.headerLines], inHeader := false, inData := true }
  else if text = "ENDSEC".toList then { d with inHeader := false, inData := false }
  else if d.inHeader = true then { d with headerLines := d.headerLines ++ [text ++ [';']] }
  else if d.inData = false then d
  else
    { d with
      entities := d.entities ++ [⟨(classify text).1, (classify text).2, text, offset, length⟩] }

/-- `raw.toString('utf8').replace(/\r?\n/g, ' ').trim()`. -/
def segmentText (raw : List UInt8) : List Char := jsTrim (replaceNewlines (decodeUtf8 raw))

/-! ## The scanner -/

/-- `'/'`, `'*'` and `';'`. -/
def slash : UInt8 := 0x2F
def star : UInt8 := 0x2A
def semi : UInt8 := 0x3B

/-- The variables of `scanStep`. The cached position of the next comment is stale, or it is what the
search for it returned. -/
structure Scanner where
  work : List UInt8
  workBase : Nat
  cursor : Nat
  commentPos : Option (Option Nat)
  inComment : Bool
  segStart : Nat
  segChunks : List (List UInt8)
  delivery : Delivery
  deriving DecidableEq

def Scanner.start : Scanner := ⟨[], 0, 0, none, false, 0, [], .start⟩

namespace Scanner

/-- `pushPiece`. -/
def pushPiece (s : Scanner) (piece : List UInt8) : Scanner :=
  if piece.length > 0 then { s with segChunks := s.segChunks ++ [piece] } else s

/-- `emitSegment`. -/
def emitSegment (s : Scanner) (semicolonAbs : Nat) : Scanner :=
  { s with
    delivery := s.delivery.handleSegment (segmentText s.segChunks.flatten) s.segStart
      (semicolonAbs - s.segStart + 1) }

/-- `work.subarray(cursor, i)`. -/
def before (s : Scanner) (i : Nat) : List UInt8 := (s.work.drop s.cursor).take (i - s.cursor)

/-- A comment begins at `cp`. -/
def enterComment (s : Scanner) (cp : Nat) : Scanner :=
  { s.pushPiece (s.before cp) with cursor := cp + 2, inComment := true }

/-- A segment ends at `sp`. -/
def endSegment (s : Scanner) (sp : Nat) : Scanner :=
  { (s.pushPiece (s.before sp)).emitSegment (s.workBase + sp) with
    cursor := sp + 1
    segStart := s.workBase + (sp + 1)
    segChunks := [] }

/-- Nothing ahead: the rest is text. -/
def keepRest (s : Scanner) : Scanner :=
  { s.pushPiece (s.work.drop s.cursor) with cursor := s.work.length }

/-- One pass of the loop in `scan`, and whether the loop goes on. -/
def iterate (s : Scanner) : Scanner × Bool :=
  if s.inComment = true then
    match indexOf [star, slash] s.work s.cursor with
    | none => (s, false)
    | some stop => ({ s with cursor := stop + 2, inComment := false, commentPos := none }, true)
  else
    let cp := s.commentPos.getD (indexOf [slash, star] s.work s.cursor)
    let sp := indexOf [semi] s.work s.cursor
    let s := { s with commentPos := some cp }
    match cp, sp with
    | some cp, some sp => if cp < sp then (s.enterComment cp, true) else (s.endSegment sp, true)
    | some cp, none => (s.enterComment cp, true)
    | none, some sp => (s.endSegment sp, true)
    | none, none => (s.keepRest, false)

/-- The loop in `scan`, for a number of passes. -/
def scanLoop : Nat → Scanner → Scanner
  | 0, s => s
  | passes + 1, s => if s.iterate.2 = true then scanLoop passes s.iterate.1 else s.iterate.1

/-- `scan`. Each pass but the last moves the cursor, so there are not more of them than bytes. -/
def scan (s : Scanner) : Scanner := scanLoop (s.work.length - s.cursor + 1) s

/-- The chunk joins what was not consumed. -/
def load (s : Scanner) (chunk : List UInt8) : Scanner :=
  let s :=
    if s.work.length = 0 then { s with work := chunk }
    else if s.cursor ≥ s.work.length then
      { s with workBase := s.workBase + s.work.length, work := chunk, cursor := 0 }
    else if s.cursor > 0 then
      { s with workBase := s.workBase + s.cursor, work := s.work.drop s.cursor ++ chunk, cursor := 0 }
    else { s with work := s.work ++ chunk }
  { s with commentPos := none }

/-- `rs.on('data', …)`. -/
def onData (s : Scanner) (chunk : List UInt8) : Scanner := (s.load chunk).scan

/-- `rs.on('end', …)`: a segment without terminator is handed over as it is. -/
def onEnd (s : Scanner) : Delivery :=
  if s.segChunks = [] then s.delivery
  else
    let text := segmentText s.segChunks.flatten
    if text = [] then s.delivery
    else s.delivery.handleSegment text s.segStart (s.workBase + s.work.length - s.segStart)

end Scanner

/-- `scanStep` on a file that arrives in the given chunks: the header and the records it delivers. -/
def scanStep (chunks : List (List UInt8)) : Delivery := (chunks.foldl Scanner.onData .start).onEnd

end PlmCore.CadParser
