/-
The reader thread of the NATS client, `nats.zig` of platform-lib-zig.

`readLoop` appends what a read returns to a buffer, and `drain` takes frames from the front of it: a line
that begins with `MSG ` with the payload behind it, or another line by itself. When a read fails or returns
nothing, the connection is made again; the buffer stays. An error in `drain` ends the thread.

Bytes are kept apart from texts. Memory always suffices, and the client is not stopped.
-/
import PlmCore.Lib.Framing
import PlmCore.Lib.Utf8
import Mathlib.Algebra.Group.Nat.Defs
import Mathlib.Data.List.DropRight

set_option autoImplicit false

namespace PlmCore.Platform.Nats

open Lib

abbrev Bytes := List UInt8

def lf : UInt8 := 0x0A
def cr : UInt8 := 0x0D
def space : UInt8 := 0x20

/-- `usize` has 64 bits. -/
def usizeLimit : Nat := 2 ^ 64

/-! ## Headers -/

/-- `MsgHeader`. -/
structure MsgHeader where
  subject : Bytes
  sid : Bytes
  reply : Option Bytes
  nbytes : Nat
  deriving DecidableEq

/-- `std.mem.tokenizeScalar(u8, line, ' ')`. -/
def tokenize (line : Bytes) : List Bytes := (line.splitOn space).filter (· ≠ [])

/-- The value of a decimal digit. -/
def digitValue (b : UInt8) : Option Nat := if 0x30 ≤ b ∧ b ≤ 0x39 then some (b.toNat - 0x30) else none

/-- The digits of a number, underscores left out. -/
def parseDigits : Nat → Bytes → Option Nat
  | acc, [] => some acc
  | acc, b :: s =>
    if b = 0x5F then parseDigits acc s
    else
      match digitValue b with
      | none => none
      | some d => if 10 * acc + d < usizeLimit then parseDigits (10 * acc + d) s else none

/-- The text of a number behind its sign: it neither begins nor ends with an underscore. -/
def parseMagnitude (s : Bytes) : Option Nat :=
  if s = [] ∨ s.head? = some 0x5F ∨ s.getLast? = some 0x5F then none else parseDigits 0 s

/-- `std.fmt.parseInt(usize, s, 10)`. A negative number can only be zero. -/
def parseUsize : Bytes → Option Nat
  | [] => none
  | b :: s =>
    if b = 0x2B then parseMagnitude s
    else if b = 0x2D then (parseMagnitude s).filter (· = 0)
    else parseMagnitude (b :: s)

/-- `parseMsgHeader`. -/
def parseMsgHeader (line : Bytes) : Option MsgHeader :=
  match tokenize line with
  | subject :: sid :: a :: nb :: _ => (parseUsize nb).map fun n => ⟨subject, sid, some a, n⟩
  | [subject, sid, a] => (parseUsize a).map fun n => ⟨subject, sid, none, n⟩
  | _ => none

/-! ## Draining the buffer -/

/-- What a frame makes the client do. -/
inductive Action
  | dispatch (h : MsgHeader) (payload : Bytes)
  | pong
  | skip
  deriving DecidableEq

/-- How the thread ends. -/
inductive Failure
  | badFrame
  | overflow
  deriving DecidableEq

/-- `std.mem.trimRight(u8, line, "\r")`. -/
def trimCr (line : Bytes) : Bytes := line.rdropWhile (· = cr)

/-- One pass of the loop in `drain`. -/
def takeFrame (data : Bytes) : Taking UInt8 Action Failure :=
  if lf ∈ data then
    let raw := data.takeWhile (· ≠ lf)
    let rest := data.drop (raw.length + 1)
    let line := trimCr raw
    if asciiBytes "MSG " <+: line then
      match parseMsgHeader (line.drop 4) with
      | none => .fail .badFrame
      | some h =>
        if raw.length + 1 + h.nbytes + 2 ≥ usizeLimit then .fail .overflow
        else if data.length < raw.length + 1 + h.nbytes + 2 then .wait
        else .take (.dispatch h (rest.take h.nbytes)) (rest.drop (h.nbytes + 2))
    else if line = asciiBytes "PING" then .take .pong rest
    else .take .skip rest
  else .wait

/-- `drain`. Each pass takes at least a byte. -/
def drain (data : Bytes) : List Action × Bytes × Option Failure :=
  drainBuffer takeFrame (data.length + 1) data

/-! ## The thread -/

/-- `Subscription`: the handler is called by its number. -/
structure Subscription where
  subject : Bytes
  sid : Bytes
  handler : Nat
  deriving DecidableEq

/-- `dispatch`: the calls of handlers, sixteen at most. -/
def dispatch (subs : List Subscription) (h : MsgHeader) (payload : Bytes) : List (Subscription × Bytes) :=
  ((subs.filter (·.sid = h.sid)).take 16).map fun sub => (sub, payload)

/-- The reader: its buffer, the calls of handlers, the number of `PONG`s it wrote, and how it ended. -/
structure Reader where
  rbuf : Bytes
  calls : List (Subscription × Bytes)
  pongs : Nat
  failure : Option Failure
  deriving DecidableEq

def Reader.start : Reader := ⟨[], [], 0, none⟩

/-- What a frame does to the reader. -/
def Reader.act (subs : List Subscription) (r : Reader) : Action → Reader
  | .dispatch h payload => { r with calls := r.calls ++ dispatch subs h payload }
  | .pong => { r with pongs := r.pongs + 1 }
  | .skip => r

/-- What the thread sees: bytes that a read returns, or that the connection broke and was made again. -/
inductive Event
  | read (bytes : Bytes)
  | reconnected

/-- One turn of `readLoop`. -/
def Reader.step (subs : List Subscription) (r : Reader) : Event → Reader
  | .reconnected => r
  | .read bytes =>
    if r.failure = none then
      let drained := drain (r.rbuf ++ bytes)
      { drained.1.foldl (Reader.act subs) r with rbuf := drained.2.1, failure := drained.2.2 }
    else r

end PlmCore.Platform.Nats
