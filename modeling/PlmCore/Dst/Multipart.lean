/-
Multipart bodies, `multipart.zig` of dst-zig.

A body is split at every occurrence of two hyphens and the boundary, wherever it stands. Up to a piece that
begins with two hyphens, each piece is a part: its headers end at the first empty line, its data at the
line end before the next delimiter. Parameters of headers are searched for by their names.

Strings are bytes. Memory always suffices.
-/
import PlmCore.Lib.Delimited
import PlmCore.Lib.Utf8
import Mathlib.Data.List.DropRight

set_option autoImplicit false

namespace PlmCore.Dst.Multipart

open Lib

abbrev Bytes := List UInt8

/-- One parsed multipart/form-data part. -/
structure Part where
  name : Bytes
  filename : Option Bytes
  contentType : Option Bytes
  data : Bytes
  deriving DecidableEq

/-! ## Bytes -/

def hyphen : UInt8 := 0x2D
def dquote : UInt8 := 0x22
def semicolon : UInt8 := 0x3B
def space : UInt8 := 0x20
def cr : UInt8 := 0x0D
def lf : UInt8 := 0x0A

def crlf : Bytes := [cr, lf]

/-- `std.mem.trim(u8, s, " ")`. -/
def trimSpaces (s : Bytes) : Bytes := (s.dropWhile (· = space)).rdropWhile (· = space)

/-- An ASCII letter in lower case. -/
def lowerByte (b : UInt8) : UInt8 := if 0x41 ≤ b ∧ b ≤ 0x5A then b + 0x20 else b

/-- `std.ascii.startsWithIgnoreCase`. -/
def startsWithIgnoreCase (s front : Bytes) : Bool := (front.map lowerByte).isPrefixOf (s.map lowerByte)

/-! ## Parameters -/

/-- What stands behind an opening quote up to the next one. -/
def quotedText (s : Bytes) : Option Bytes :=
  if dquote ∈ s then some (s.takeWhile (· ≠ dquote)) else none

/-- What stands before a semicolon, without the spaces around it. -/
def bareText (s : Bytes) : Bytes := trimSpaces (s.takeWhile (· ≠ semicolon))

/-- The value behind a parameter's name. -/
def paramValue : Bytes → Option Bytes
  | [] => some (bareText [])
  | c :: rest => if c = dquote then quotedText rest else some (bareText (c :: rest))

/-- `extractParam`. -/
def extractParam (line key : Bytes) : Option Bytes := (cutFirst key line).bind fun q => paramValue q.2

/-- What stands behind `boundary=`. A quote counts as one when something follows it. -/
def boundaryValue : Bytes → Option Bytes
  | [] => some (bareText [])
  | [c] => some (bareText [c])
  | c :: d :: rest => if c = dquote then quotedText (d :: rest) else some (bareText (c :: d :: rest))

/-- `boundaryOf`. -/
def boundaryOf (contentType : Bytes) : Option Bytes :=
  (cutFirst (asciiBytes "boundary=") contentType).bind fun q => boundaryValue q.2

/-! ## Parts -/

/-- One line of the headers. -/
def Part.readLine (part : Part) (line : Bytes) : Part :=
  if startsWithIgnoreCase line (asciiBytes "content-disposition:") = true then
    { part with
      name := (extractParam line (asciiBytes "name=")).getD []
      filename := extractParam line (asciiBytes "filename=") }
  else if startsWithIgnoreCase line (asciiBytes "content-type:") = true then
    { part with contentType := some (trimSpaces (line.drop (asciiBytes "content-type:").length)) }
  else part

/-- `std.mem.startsWith(u8, s, "\r\n")`, and then `s[2..]`. -/
def dropLineEnd (s : Bytes) : Bytes := if crlf <+: s then s.drop 2 else s

/-- `std.mem.endsWith(u8, data, "\r\n")`, and then without it. -/
def stripLineEnd (data : Bytes) : Bytes := if crlf <:+ data then data.take (data.length - 2) else data

/-- The part of a piece between delimiters; a piece without an empty line is none. -/
def parsePiece (seg : Bytes) : Option Part :=
  (cutFirst (crlf ++ crlf) (dropLineEnd seg)).map fun (headers, data) =>
    (splitSequence crlf headers).foldl Part.readLine ⟨[], none, none, stripLineEnd data⟩

/-- The piece behind the closing delimiter. -/
def isClosing (seg : Bytes) : Bool := [hyphen, hyphen].isPrefixOf seg

/-- `--{boundary}`. -/
def delimiter (boundary : Bytes) : Bytes := hyphen :: hyphen :: boundary

/-- `parse`. -/
def parse (boundary body : Bytes) : List Part :=
  (((splitSequence (delimiter boundary) body).drop 1).takeWhile fun seg => !isClosing seg).filterMap parsePiece

/-- `find`. -/
def find (parts : List Part) (name : Bytes) : Option Part := parts.find? (·.name = name)

end PlmCore.Dst.Multipart
