/-
What the NATS reader makes of the frames a server sends.

A frame is a line, and for a message the payload behind it. However the stream is cut into reads, the reader
has after each of them taken the frames that have completely arrived. Two things end this: a connection that
breaks inside a frame, because its first bytes stay in the buffer and the next connection goes on behind them;
and a `MSG` line whose size is no number or too large, because the error ends the thread.
-/
import Mathlib.Data.List.Forall2
import PlmCore.Lib.Run
import PlmCore.Lib.Separated
import PlmCore.Platform.NatsReader

set_option autoImplicit false

namespace PlmCore.Platform.Nats

open Lib

/-! ## Frames -/

/-- A field of a `MSG` line. -/
structure Field where
  text : Bytes
  nonempty : text ≠ []
  oneField : space ∉ text ∧ cr ∉ text ∧ lf ∉ text

/-- A size in decimal digits. -/
structure Size where
  digits : Bytes
  nonempty : digits ≠ []
  decimal : ∀ b ∈ digits, 0x30 ≤ b ∧ b ≤ 0x39

def Size.value (s : Size) : Nat := s.digits.foldl (fun acc b => 10 * acc + (b.toNat - 0x30)) 0

/-- The rest of an `INFO` or `-ERR` line. -/
structure LineText where
  text : Bytes
  oneLine : cr ∉ text ∧ lf ∉ text

/-- A frame of a server. -/
inductive Frame
  | msg (subject sid : Field) (reply : Option Field) (size : Size) (payload : Bytes)
      (hsize : size.value = payload.length)
  | ping
  | pong
  | info (text : LineText)
  | ok
  | err (text : LineText)

def crlf : Bytes := [cr, lf]

/-- The fields of a `MSG` line. -/
def fieldsText (subject sid : Field) (reply : Option Field) (size : Size) : Bytes :=
  subject.text ++ space :: (sid.text ++ space ::
    reply.elim size.digits fun r => r.text ++ space :: size.digits)

namespace Frame

/-- The line without its end. -/
def line : Frame → Bytes
  | msg subject sid reply size _ _ => asciiBytes "MSG " ++ fieldsText subject sid reply size
  | ping => asciiBytes "PING"
  | pong => asciiBytes "PONG"
  | info text => asciiBytes "INFO " ++ text.text
  | ok => asciiBytes "+OK"
  | err text => asciiBytes "-ERR " ++ text.text

/-- What follows the line. -/
def body : Frame → Bytes
  | msg _ _ _ _ payload _ => payload ++ crlf
  | _ => []

def encode (f : Frame) : Bytes := f.line ++ crlf ++ f.body

/-- What the client does. -/
def action : Frame → Action
  | msg subject sid reply _ payload _ =>
    .dispatch ⟨subject.text, sid.text, reply.map Field.text, payload.length⟩ payload
  | ping => .pong
  | _ => .skip

/-- The calls of handlers that are due for a frame. -/
def calls (subs : List Subscription) : Frame → List (Subscription × Bytes)
  | msg subject sid reply _ payload _ =>
    dispatch subs ⟨subject.text, sid.text, reply.map Field.text, payload.length⟩ payload
  | _ => []

/-- A frame that a buffer can hold. -/
def Fits (f : Frame) : Prop := f.encode.length < usizeLimit

end Frame

/-! ## One line -/

/-- `takeFrame` on a buffer that has a line. -/
theorem takeFrame_line {raw : Bytes} (hraw : lf ∉ raw) (rest : Bytes) :
    takeFrame (raw ++ lf :: rest) =
      if asciiBytes "MSG " <+: trimCr raw then
        match parseMsgHeader ((trimCr raw).drop 4) with
        | none => .fail .badFrame
        | some h =>
          if raw.length + 1 + h.nbytes + 2 ≥ usizeLimit then .fail .overflow
          else if rest.length < h.nbytes + 2 then .wait
          else .take (.dispatch h (rest.take h.nbytes)) (rest.drop (h.nbytes + 2))
      else if trimCr raw = asciiBytes "PING" then .take .pong rest
      else .take .skip rest := by
  have hmem : lf ∈ raw ++ lf :: rest := List.mem_append_right raw List.mem_cons_self
  have htake : (raw ++ lf :: rest).takeWhile (fun b => decide (b ≠ lf)) = raw := by
    have hall : ∀ b ∈ raw, decide (b ≠ lf) = true := by
      rintro b hb
      exact decide_eq_true (ne_of_mem_of_not_mem hb hraw)
    rw [List.takeWhile_append_of_pos hall, List.takeWhile_cons_of_neg (by simp), List.append_nil]
  have hdrop : (raw ++ lf :: rest).drop (raw.length + 1) = rest := by
    rw [List.drop_append, List.drop_of_length_le (by omega)]
    simp
  have hlength : ∀ n, (raw ++ lf :: rest).length < raw.length + 1 + n + 2 ↔ rest.length < n + 2 := by
    intro n
    rw [List.length_append, List.length_cons]
    omega
  rw [takeFrame, if_pos hmem]
  dsimp only
  rw [htake, hdrop]
  cases parseMsgHeader ((trimCr raw).drop 4) with
  | none => rfl
  | some h => simp only [hlength]

theorem takeFrame_wait {b : Bytes} (h : lf ∉ b) : takeFrame b = .wait := if_neg h

theorem trimCr_append {line : Bytes} (h : cr ∉ line) : trimCr (line ++ [cr]) = line := by
  rw [trimCr, List.rdropWhile_concat_pos _ _ _ (by decide), List.rdropWhile_eq_self_iff]
  intro hne hlast
  exact h (of_decide_eq_true hlast ▸ List.getLast_mem hne)

/-! ## The header of a message -/

theorem tokenize_append (x y : Bytes) : tokenize (x ++ space :: y) = tokenize x ++ tokenize y := by
  rw [tokenize, List.splitOn_append_cons_self, List.filter_append]
  rfl

theorem tokenize_one {x : Bytes} (hne : x ≠ []) (hx : space ∉ x) : tokenize x = [x] := by
  rw [tokenize, List.splitOn_eq_singleton hx]
  simp [hne]

theorem Size.space_notMem (s : Size) : space ∉ s.digits := fun h => absurd (s.decimal _ h).1 (by decide)

theorem le_foldl_digits (acc : Nat) (s : Bytes) :
    acc ≤ s.foldl (fun acc b => 10 * acc + (b.toNat - 0x30)) acc := by
  induction s generalizing acc with
  | nil => exact Nat.le_refl acc
  | cons b s ih =>
    have hrest := ih (10 * acc + (b.toNat - 0x30))
    rw [List.foldl_cons]
    omega

theorem parseDigits_eq {s : Bytes} (hs : ∀ b ∈ s, 0x30 ≤ b ∧ b ≤ 0x39) {acc : Nat}
    (hfit : s.foldl (fun acc b => 10 * acc + (b.toNat - 0x30)) acc < usizeLimit) :
    parseDigits acc s = some (s.foldl (fun acc b => 10 * acc + (b.toNat - 0x30)) acc) := by
  induction s generalizing acc with
  | nil => rfl
  | cons b s ih =>
    have hb := hs b List.mem_cons_self
    have hne : b ≠ 0x5F := by
      rintro rfl
      exact absurd hb.2 (by decide)
    have hvalue : digitValue b = some (b.toNat - 0x30) := if_pos hb
    have hle := le_foldl_digits (10 * acc + (b.toNat - 0x30)) s
    rw [List.foldl_cons] at hfit ⊢
    rw [parseDigits, if_neg hne, hvalue]
    dsimp only
    rw [if_pos (by omega), ih (fun c hc => hs c (List.mem_cons_of_mem b hc)) hfit]

theorem Size.parse (s : Size) (hfit : s.value < usizeLimit) : parseUsize s.digits = some s.value := by
  obtain ⟨b, rest, hdigits⟩ := List.exists_cons_of_ne_nil s.nonempty
  have hb := s.decimal b (hdigits ▸ List.mem_cons_self)
  have hplus : b ≠ 0x2B := by
    rintro rfl
    exact absurd hb.1 (by decide)
  have hminus : b ≠ 0x2D := by
    rintro rfl
    exact absurd hb.1 (by decide)
  have hunder : ∀ c ∈ s.digits, c ≠ 0x5F := by
    rintro c hc rfl
    exact absurd (s.decimal _ hc).2 (by decide)
  have hnot : ¬ (s.digits = [] ∨ s.digits.head? = some 0x5F ∨ s.digits.getLast? = some 0x5F) := by
    rintro (h | h | h)
    · exact s.nonempty h
    · exact hunder _ (List.mem_of_mem_head? h) rfl
    · exact hunder _ (List.mem_of_mem_getLast? h) rfl
  rw [hdigits, parseUsize, if_neg hplus, if_neg hminus, ← hdigits, parseMagnitude, if_neg hnot]
  exact parseDigits_eq s.decimal hfit

/-- **The header** of a message is read as it was written. -/
theorem parse_fields (subject sid : Field) (reply : Option Field) (size : Size)
    (hfit : size.value < usizeLimit) :
    parseMsgHeader (fieldsText subject sid reply size) =
      some ⟨subject.text, sid.text, reply.map Field.text, size.value⟩ := by
  have hfield : ∀ f : Field, tokenize f.text = [f.text] := fun f => tokenize_one f.nonempty f.oneField.1
  have hsize : tokenize size.digits = [size.digits] := tokenize_one size.nonempty size.space_notMem
  rw [parseMsgHeader, fieldsText, tokenize_append, tokenize_append, hfield, hfield]
  cases reply with
  | none =>
    rw [Option.elim_none, hsize]
    simp [size.parse hfit]
  | some r =>
    rw [Option.elim_some, tokenize_append, hfield, hsize]
    simp [size.parse hfit]

/-! ## One frame -/

theorem Size.notMem {s : Size} {b : UInt8} (hb : ¬ (0x30 ≤ b ∧ b ≤ 0x39)) : b ∉ s.digits := fun h =>
  hb (s.decimal b h)

theorem notMem_fieldsText {b : UInt8} (hspace : b ≠ space) (hdigit : ¬ (0x30 ≤ b ∧ b ≤ 0x39))
    (hfield : ∀ f : Field, b ∉ f.text) (subject sid : Field) (reply : Option Field) (size : Size) :
    b ∉ fieldsText subject sid reply size := by
  have hsize : b ∉ size.digits := Size.notMem hdigit
  unfold fieldsText
  cases reply with
  | none => simp [hspace, hfield, hsize]
  | some r => simp [hspace, hfield, hsize]

/-- A line has no line end in it. -/
theorem Frame.notMem_line (f : Frame) : cr ∉ f.line ∧ lf ∉ f.line := by
  have hcr := @notMem_fieldsText cr (by decide) (by decide) fun f => f.oneField.2.1
  have hlf := @notMem_fieldsText lf (by decide) (by decide) fun f => f.oneField.2.2
  cases f with
  | msg subject sid reply size payload hsize =>
    unfold Frame.line
    rw [List.mem_append, List.mem_append, not_or, not_or]
    exact ⟨⟨by decide, hcr subject sid reply size⟩, by decide, hlf subject sid reply size⟩
  | info text =>
    unfold Frame.line
    rw [List.mem_append, List.mem_append, not_or, not_or]
    exact ⟨⟨by decide, text.oneLine.1⟩, by decide, text.oneLine.2⟩
  | err text =>
    unfold Frame.line
    rw [List.mem_append, List.mem_append, not_or, not_or]
    exact ⟨⟨by decide, text.oneLine.1⟩, by decide, text.oneLine.2⟩
  | ping => exact ⟨by decide, by decide⟩
  | pong => exact ⟨by decide, by decide⟩
  | ok => exact ⟨by decide, by decide⟩

theorem Frame.encode_eq (f : Frame) (rest : Bytes) :
    f.encode ++ rest = (f.line ++ [cr]) ++ lf :: (f.body ++ rest) := by
  simp [Frame.encode, crlf]

theorem Frame.lf_notMem (f : Frame) : lf ∉ f.line ++ [cr] := by
  rw [List.mem_append, not_or]
  exact ⟨f.notMem_line.2, by decide⟩

/-- A message is taken when its payload and the line end behind it are there, and waited for otherwise. -/
theorem take_msg {subject sid : Field} {reply : Option Field} {size : Size} {payload : Bytes}
    {hsize : size.value = payload.length} (hfits : (Frame.msg subject sid reply size payload hsize).Fits)
    (rest : Bytes) :
    takeFrame ((Frame.msg subject sid reply size payload hsize).line ++ [cr] ++ lf :: rest) =
      if rest.length < payload.length + 2 then .wait
      else .take (.dispatch ⟨subject.text, sid.text, reply.map Field.text, payload.length⟩
        (rest.take payload.length)) (rest.drop (payload.length + 2)) := by
  have hpre : asciiBytes "MSG " <+: (Frame.msg subject sid reply size payload hsize).line :=
    List.prefix_append _ _
  have hdrop : (Frame.msg subject sid reply size payload hsize).line.drop 4 =
      fieldsText subject sid reply size := rfl
  have hlength : (Frame.msg subject sid reply size payload hsize).encode.length =
      ((Frame.msg subject sid reply size payload hsize).line ++ [cr]).length + 1 + payload.length + 2 := by
    simp [Frame.encode, Frame.body, crlf]
    omega
  unfold Frame.Fits at hfits
  rw [hlength] at hfits
  rw [takeFrame_line (Frame.lf_notMem _), trimCr_append (Frame.notMem_line _).1, if_pos hpre, hdrop,
    parse_fields subject sid reply size (by omega), hsize]
  dsimp only
  rw [if_neg (by omega)]

/-- Another line is taken by itself. -/
theorem take_other {line : Bytes} (hline : cr ∉ line ∧ lf ∉ line) (hmsg : ¬ asciiBytes "MSG " <+: line)
    (rest : Bytes) :
    takeFrame (line ++ [cr] ++ lf :: rest) =
      .take (if line = asciiBytes "PING" then .pong else .skip) rest := by
  have hraw : lf ∉ line ++ [cr] := by
    rw [List.mem_append, not_or]
    exact ⟨hline.2, by decide⟩
  rw [takeFrame_line hraw, trimCr_append hline.1, if_neg hmsg]
  split <;> rfl

theorem Frame.take_encode (f : Frame) (hfits : f.Fits) (rest : Bytes) :
    takeFrame (f.encode ++ rest) = .take f.action rest := by
  rw [f.encode_eq]
  cases f with
  | msg subject sid reply size payload hsize =>
    have hlong : ¬ ((Frame.msg subject sid reply size payload hsize).body ++ rest).length <
        payload.length + 2 := by simp [Frame.body, crlf]
    rw [take_msg hfits, if_neg hlong]
    simp [Frame.body, Frame.action, crlf]
  | info text =>
    have hmsg : ¬ asciiBytes "MSG " <+: (Frame.info text).line := fun h =>
      absurd (List.cons_prefix_cons.mp h).1 (by decide)
    have hping : (Frame.info text).line ≠ asciiBytes "PING" := fun h =>
      absurd (List.cons.inj h).1 (by decide)
    rw [take_other (Frame.notMem_line _) hmsg, if_neg hping]
    rfl
  | err text =>
    have hmsg : ¬ asciiBytes "MSG " <+: (Frame.err text).line := fun h =>
      absurd (List.cons_prefix_cons.mp h).1 (by decide)
    have hping : (Frame.err text).line ≠ asciiBytes "PING" := fun h =>
      absurd (List.cons.inj h).1 (by decide)
    rw [take_other (Frame.notMem_line _) hmsg, if_neg hping]
    rfl
  | ping => exact take_other (Frame.notMem_line _) (by decide) rest
  | pong => exact take_other (Frame.notMem_line _) (by decide) rest
  | ok => exact take_other (Frame.notMem_line _) (by decide) rest

/-- A line whose payload is not there is waited for. -/
theorem Frame.wait_body (f : Frame) (hfits : f.Fits) {rest : Bytes} (h : rest.length < f.body.length) :
    takeFrame (f.line ++ [cr] ++ lf :: rest) = .wait := by
  cases f with
  | msg subject sid reply size payload hsize =>
    have hlength : (Frame.msg subject sid reply size payload hsize).body.length = payload.length + 2 := by
      simp [Frame.body, crlf]
    rw [take_msg hfits, if_pos (hlength ▸ h)]
  | ping => cases h
  | pong => cases h
  | info text => cases h
  | ok => cases h
  | err text => cases h

/-- **Frames are taken for what they are**, and not before they have arrived. -/
theorem readsFrames : ReadsFrames Frame.encode takeFrame Frame.action Frame.Fits where
  ne_nil f := by simp [Frame.encode, crlf]
  takes f rest hfits := f.take_encode hfits rest
  waits f b hfits hb hshort := by
    have hencode : f.encode = f.line ++ [cr] ++ lf :: f.body := by simp [Frame.encode, crlf]
    rw [hencode] at hb hshort
    by_cases hline : b.length ≤ (f.line ++ [cr]).length
    · have hpre : b <+: f.line ++ [cr] := List.prefix_of_prefix_length_le hb (List.prefix_append _ _) hline
      exact takeFrame_wait fun hmem => f.lf_notMem (hpre.subset hmem)
    · obtain ⟨more, rfl⟩ : f.line ++ [cr] <+: b :=
        List.prefix_of_prefix_length_le (List.prefix_append _ _) hb (by omega)
      rw [List.prefix_append_right_inj] at hb
      cases more with
      | nil => simp at hline
      | cons c rest =>
        obtain ⟨rfl, -⟩ := List.cons_prefix_cons.mp hb
        refine f.wait_body hfits ?_
        simp only [List.length_append, List.length_cons] at hshort
        omega

/-! ## Streams whose sizes can be read -/

/-- Where a line begins with `MSG `, its size is a number, and the payload ends within the address space. -/
inductive SizesRead : Bytes → Prop
  | unfinished {b : Bytes} (h : lf ∉ b) : SizesRead b
  | other {raw rest : Bytes} (hraw : lf ∉ raw) (hline : ¬ asciiBytes "MSG " <+: trimCr raw)
      (hrest : SizesRead rest) : SizesRead (raw ++ lf :: rest)
  | message {raw rest : Bytes} {h : MsgHeader} (hraw : lf ∉ raw) (hline : asciiBytes "MSG " <+: trimCr raw)
      (hparse : parseMsgHeader ((trimCr raw).drop 4) = some h)
      (hfit : raw.length + 1 + h.nbytes + 2 < usizeLimit)
      (hrest : h.nbytes + 2 ≤ rest.length → SizesRead (rest.drop (h.nbytes + 2))) :
      SizesRead (raw ++ lf :: rest)

/-- The first line end cuts a buffer in one way. -/
theorem lines_split {raw raw' rest rest' : Bytes} (hraw : lf ∉ raw) (hraw' : lf ∉ raw')
    (h : raw ++ lf :: rest = raw' ++ lf :: rest') : raw = raw' ∧ rest = rest' := by
  have hfree : ∀ s : Bytes, lf ∉ s → ∀ a ∈ s, a ∉ ({lf} : Set UInt8) := by
    rintro s hs a ha rfl
    exact hs ha
  obtain ⟨hfirst, -, hrest⟩ := fields_split (hfree raw hraw) (hfree raw' hraw') rfl rfl h
  exact ⟨hfirst, hrest⟩

theorem sizesRead_line_iff {raw : Bytes} (hraw : lf ∉ raw) (rest : Bytes) :
    SizesRead (raw ++ lf :: rest) ↔
      (¬ asciiBytes "MSG " <+: trimCr raw ∧ SizesRead rest) ∨
        (asciiBytes "MSG " <+: trimCr raw ∧ ∃ h, parseMsgHeader ((trimCr raw).drop 4) = some h ∧
          raw.length + 1 + h.nbytes + 2 < usizeLimit ∧
          (h.nbytes + 2 ≤ rest.length → SizesRead (rest.drop (h.nbytes + 2)))) := by
  constructor
  · intro h
    generalize hb : raw ++ lf :: rest = b at h
    cases h with
    | unfinished hnone => exact absurd (hb ▸ List.mem_append_right raw List.mem_cons_self) hnone
    | other hraw' hline hrest =>
      obtain ⟨rfl, rfl⟩ := lines_split hraw hraw' hb
      exact .inl ⟨hline, hrest⟩
    | message hraw' hline hparse hfit hrest =>
      obtain ⟨rfl, rfl⟩ := lines_split hraw hraw' hb
      exact .inr ⟨hline, _, hparse, hfit, hrest⟩
  · rintro (⟨hline, hrest⟩ | ⟨hline, h, hparse, hfit, hrest⟩)
    · exact .other hraw hline hrest
    · exact .message hraw hline hparse hfit hrest

/-- **Draining fails** exactly when a size cannot be read. -/
theorem drainBuffer_ok_iff {n : Nat} {b : Bytes} (hn : b.length < n) :
    (drainBuffer takeFrame n b).2.2 = none ↔ SizesRead b := by
  induction n generalizing b with
  | zero => omega
  | succ n ih =>
    rw [drainBuffer]
    by_cases hmem : lf ∈ b
    · obtain ⟨raw, rest, rfl, hraw⟩ := List.eq_append_cons_of_mem hmem
      rw [List.length_append, List.length_cons] at hn
      have hrest := ih (b := rest) (by omega)
      have hbehind : ∀ k, (drainBuffer takeFrame n (rest.drop k)).2.2 = none ↔ SizesRead (rest.drop k) := by
        intro k
        refine ih ?_
        rw [List.length_drop]
        omega
      rw [takeFrame_line hraw, sizesRead_line_iff hraw]
      by_cases hline : asciiBytes "MSG " <+: trimCr raw
      · simp only [hline, if_true, not_true, false_and, false_or, true_and]
        cases hparse : parseMsgHeader ((trimCr raw).drop 4) with
        | none => simp
        | some h =>
          dsimp only
          by_cases hfit : raw.length + 1 + h.nbytes + 2 ≥ usizeLimit
          · rw [if_pos hfit]
            refine iff_of_false (fun hnone => by cases hnone) ?_
            rintro ⟨h', heq, hlt, -⟩
            cases heq
            omega
          · rw [if_neg hfit]
            by_cases hshort : rest.length < h.nbytes + 2
            · rw [if_pos hshort]
              exact iff_of_true rfl ⟨h, rfl, by omega, fun hlong => by omega⟩
            · rw [if_neg hshort]
              refine (hbehind _).trans ⟨fun hrest => ⟨h, rfl, by omega, fun _ => hrest⟩, ?_⟩
              rintro ⟨h', heq, -, hrest⟩
              cases heq
              exact hrest (by omega)
      · simp only [hline, if_false, not_false_iff, true_and, false_and, or_false]
        by_cases hping : trimCr raw = asciiBytes "PING"
        · rw [if_pos hping]
          exact hrest
        · rw [if_neg hping]
          exact hrest
    · rw [takeFrame_wait hmem]
      exact iff_of_true rfl (.unfinished hmem)

/-! ## Runs -/

/-- What has been read from the connections that broke, and from the one that is open. -/
structure Streams where
  broken : List Bytes
  current : Bytes

def Streams.add (s : Streams) : Event → Streams
  | .read bytes => { s with current := s.current ++ bytes }
  | .reconnected => ⟨s.broken ++ [s.current], []⟩

/-- The streams of a run. -/
def streams (events : List Event) : Streams := events.foldl Streams.add ⟨[], []⟩

/-- The servers sent these frames: what was read from each connection is the beginning of its frames. -/
structure Sent (s : Streams) (done : List (List Frame)) (now : List Frame) : Prop where
  broken : List.Forall₂ (fun b fs => b <+: fs.flatMap Frame.encode) s.broken done
  current : s.current <+: now.flatMap Frame.encode
  fits : ∀ fs ∈ now :: done, ∀ f ∈ fs, Frame.Fits f

/-- The frames that have completely arrived, in order. -/
def arrivedFrames (s : Streams) (done : List (List Frame)) (now : List Frame) : List Frame :=
  (List.zipWith (arrived Frame.encode) done s.broken).flatten ++ arrived Frame.encode now s.current

/-- Nothing of a frame is in the buffer when the connection breaks, and in what is read the sizes of messages
are numbers, none so large that a payload ends outside the address space. -/
def Handled (r : Reader) : Event → Prop
  | .read bytes => SizesRead (r.rbuf ++ bytes)
  | .reconnected => r.rbuf = []

/-- The reader goes on, and has called the handlers for the messages that have arrived. -/
structure Delivered (subs : List Subscription) (s : Streams) (r : Reader) : Prop where
  reads : r.failure = none
  calls : ∀ done now, Sent s done now → r.calls = (arrivedFrames s done now).flatMap (Frame.calls subs)

/-- What the reader knows between events: it also has the rest of the current stream in the buffer. -/
structure Settled (subs : List Subscription) (s : Streams) (r : Reader) : Prop where
  delivered : Delivered subs s r
  rbuf : ∀ done now, Sent s done now → r.rbuf = leftover Frame.encode now s.current

variable {subs : List Subscription}

/-- The effects of frames that are taken. -/
theorem calls_foldl (r : Reader) (fs : List Frame) :
    ((fs.map Frame.action).foldl (Reader.act subs) r).calls = r.calls ++ fs.flatMap (Frame.calls subs) := by
  induction fs generalizing r with
  | nil => simp
  | cons f fs ih =>
    have hact : (r.act subs f.action).calls = r.calls ++ f.calls subs := by
      cases f <;> simp [Frame.action, Frame.calls, Reader.act]
    rw [List.map_cons, List.foldl_cons, ih, hact, List.flatMap_cons, List.append_assoc]

/-- A read is settled like the reads before it. -/
theorem Settled.read {s : Streams} {r : Reader} (h : Settled subs s r) {bytes : Bytes}
    (hsizes : SizesRead (r.rbuf ++ bytes)) :
    Settled subs (s.add (.read bytes)) (r.step subs (.read bytes)) := by
  have hnext : ∀ done now, Sent (s.add (.read bytes)) done now → ∃ new,
      arrived Frame.encode now (s.current ++ bytes) = arrived Frame.encode now s.current ++ new ∧
        drain (r.rbuf ++ bytes) =
          (new.map Frame.action, leftover Frame.encode now (s.current ++ bytes), none) ∧
        r.calls = (arrivedFrames s done now).flatMap (Frame.calls subs) := by
    intro done now hsent
    have hbefore : Sent s done now :=
      ⟨hsent.broken, (List.prefix_append _ bytes).trans hsent.current, hsent.fits⟩
    have hrbuf := h.rbuf done now hbefore
    obtain ⟨new, hnew, hdrain⟩ := drain_piece readsFrames (hsent.fits now List.mem_cons_self)
      hsent.current (takeFrame_wait List.not_mem_nil) (Nat.lt_succ_self _)
    rw [hrbuf]
    exact ⟨new, hnew, hdrain, h.delivered.calls done now hbefore⟩
  have hstep : r.step subs (.read bytes) =
      { (drain (r.rbuf ++ bytes)).1.foldl (Reader.act subs) r with
        rbuf := (drain (r.rbuf ++ bytes)).2.1
        failure := (drain (r.rbuf ++ bytes)).2.2 } := if_pos h.delivered.reads
  rw [hstep]
  refine ⟨⟨?_, fun done now hsent => ?_⟩, fun done now hsent => ?_⟩
  · exact (drainBuffer_ok_iff (Nat.lt_succ_self _)).mpr hsizes
  · obtain ⟨new, hnew, hdrain, hcalls⟩ := hnext done now hsent
    have hframes : arrivedFrames (s.add (.read bytes)) done now = arrivedFrames s done now ++ new := by
      rw [arrivedFrames, Streams.add, hnew, ← List.append_assoc]
      rfl
    rw [hframes, List.flatMap_append, ← hcalls, hdrain]
    exact calls_foldl r new
  · obtain ⟨new, -, hdrain, -⟩ := hnext done now hsent
    rw [hdrain]
    rfl

theorem forall₂_concat {α β : Type*} {R : α → β → Prop} {xs : List α} {x : α} {ys : List β}
    (h : List.Forall₂ R (xs ++ [x]) ys) : ∃ zs y, ys = zs ++ [y] ∧ List.Forall₂ R xs zs ∧ R x y := by
  induction xs generalizing ys with
  | nil =>
    cases h with
    | cons hxy hrest =>
      cases hrest
      exact ⟨[], _, rfl, .nil, hxy⟩
  | cons a xs ih =>
    cases h with
    | cons hab hrest =>
      obtain ⟨zs, y, rfl, hzs, hxy⟩ := ih hrest
      exact ⟨_ :: zs, y, rfl, .cons hab hzs, hxy⟩

/-- A connection that breaks between frames is settled. -/
theorem Settled.reconnected {s : Streams} {r : Reader} (h : Settled subs s r) (hempty : r.rbuf = []) :
    Settled subs (s.add .reconnected) (r.step subs .reconnected) := by
  refine ⟨⟨h.delivered.reads, fun done now hsent => ?_⟩, fun done now hsent => ?_⟩
  · obtain ⟨done, fs, rfl, hbroken, hcurrent⟩ := forall₂_concat hsent.broken
    have hbefore : Sent s done fs := by
      refine ⟨hbroken, hcurrent, fun gs hgs => hsent.fits gs ?_⟩
      obtain rfl | hgs := List.mem_cons.mp hgs
      · exact List.mem_cons_of_mem _ (List.mem_append_right done (List.mem_singleton_self gs))
      · exact List.mem_cons_of_mem _ (List.mem_append_left _ hgs)
    have hframes : arrivedFrames (s.add .reconnected) (done ++ [fs]) now = arrivedFrames s done fs := by
      have hnil := (arrived_nil readsFrames.ne_nil now).1
      rw [arrivedFrames, Streams.add, List.zipWith_append hbroken.length_eq.symm, List.flatten_append, hnil,
        List.append_nil]
      simp [arrivedFrames]
    rw [hframes]
    exact h.delivered.calls done fs hbefore
  · have hnil := arrived_nil readsFrames.ne_nil now
    exact hempty.trans hnil.2.symm

theorem Settled.step {s : Streams} {r : Reader} (h : Settled subs s r) {e : Event} (he : Handled r e) :
    Settled subs (s.add e) (r.step subs e) := by
  cases e with
  | read bytes => exact h.read he
  | reconnected => exact h.reconnected he

theorem settled_start (subs : List Subscription) : Settled subs ⟨[], []⟩ .start := by
  refine ⟨⟨rfl, fun done now hsent => ?_⟩, fun done now hsent => ?_⟩
  · have hnil := (arrived_nil readsFrames.ne_nil now).1
    rw [arrivedFrames, hnil]
    simp [Reader.start]
  · exact (arrived_nil readsFrames.ne_nil now).2.symm

/-- **Main result.** In every state of a run in which connections break between frames only, and the sizes of
messages can be read, the reader goes on, and the handlers have been called for the messages that have
completely arrived, in order and for nothing else. -/
theorem reader_delivers_messages (subs : List Subscription) {events : List Event}
    (h : Along (Reader.step subs) Handled .start events) :
    ∀ past, past <+: events → Delivered subs (streams past) (run (Reader.step subs) .start past) := by
  have hgo : ∀ {events : List Event} {s : Streams} {r : Reader}, Settled subs s r →
      Along (Reader.step subs) Handled r events →
        ∀ past, past <+: events → Delivered subs (past.foldl Streams.add s) (run (Reader.step subs) r past) := by
    intro events
    induction events with
    | nil =>
      intro s r hs _ past hpast
      obtain rfl := List.prefix_nil.mp hpast
      exact hs.delivered
    | cons e events ih =>
      intro s r hs hrun past hpast
      cases past with
      | nil => exact hs.delivered
      | cons e' past =>
        obtain ⟨rfl, hrest⟩ := List.cons_prefix_cons.mp hpast
        exact ih (hs.step hrun.1) hrun.2 past hrest
  exact hgo (settled_start subs) h

/-- A message that comes in two reads, a break between the frames, and one more line. -/
theorem reader_delivers_messages_twoReads :
    Along (Reader.step [⟨asciiBytes "a", asciiBytes "1", 0⟩]) Handled .start
        [.read (asciiBytes "MSG a 1 5\r\nhel"), .read (asciiBytes "lo\r\n"), .reconnected,
          .read (asciiBytes "PING\r\n")] ∧
      (run (Reader.step [⟨asciiBytes "a", asciiBytes "1", 0⟩]) .start
        [.read (asciiBytes "MSG a 1 5\r\nhel"), .read (asciiBytes "lo\r\n"), .reconnected,
          .read (asciiBytes "PING\r\n")]).failure = none := by
  have hrun : Along (Reader.step [⟨asciiBytes "a", asciiBytes "1", 0⟩]) Handled .start
      [.read (asciiBytes "MSG a 1 5\r\nhel"), .read (asciiBytes "lo\r\n"), .reconnected,
        .read (asciiBytes "PING\r\n")] := by
    refine ⟨?_, ?_, ?_, ?_, trivial⟩
    · exact (drainBuffer_ok_iff (Nat.lt_succ_self _)).mp (by decide +kernel)
    · exact (drainBuffer_ok_iff (Nat.lt_succ_self _)).mp (by decide +kernel)
    · unfold Handled
      decide +kernel
    · exact (drainBuffer_ok_iff (Nat.lt_succ_self _)).mp (by decide +kernel)
  exact ⟨hrun, (reader_delivers_messages _ hrun _ (List.prefix_refl _)).reads⟩

/-! ## A message that is cut off -/

/-- `MSG a 1 5` with the payload `hello`. -/
def helloMessage : Frame :=
  .msg ⟨asciiBytes "a", by decide, by decide⟩ ⟨asciiBytes "1", by decide, by decide⟩ none
    ⟨[0x35], by decide, List.forall_mem_singleton.mpr (by decide)⟩ (asciiBytes "hello") (by decide)

/-- `INFO {}` -/
def infoFrame : Frame := .info ⟨asciiBytes "\x7b\x7d", by decide⟩

/-- The connection breaks after the first three bytes of the payload, and the next one begins with `INFO`. -/
def brokenRun : List Event :=
  [.read (asciiBytes "MSG a 1 5\r\nhel"), .reconnected, .read (asciiBytes "INFO \x7b\x7d\r\n")]

/-- The handler is called with a payload that nobody sent. -/
theorem payload_goes_on_with_next_connection :
    (run (Reader.step [⟨asciiBytes "a", asciiBytes "1", 0⟩]) .start brokenRun).calls =
        [(⟨asciiBytes "a", asciiBytes "1", 0⟩, asciiBytes "helIN")] ∧
      ¬ ∀ subs events, Delivered subs (streams events) (run (Reader.step subs) .start events) := by
  have hcalls : (run (Reader.step [⟨asciiBytes "a", asciiBytes "1", 0⟩]) .start brokenRun).calls =
      [(⟨asciiBytes "a", asciiBytes "1", 0⟩, asciiBytes "helIN")] := by decide +kernel
  refine ⟨hcalls, fun h => ?_⟩
  have hsent : Sent (streams brokenRun) [[helloMessage]] [infoFrame] := by
    refine ⟨.cons (by decide +kernel) .nil, by decide +kernel, fun fs hfs f hf => ?_⟩
    obtain rfl | rfl : fs = [infoFrame] ∨ fs = [helloMessage] := by
      simpa using hfs
    · obtain rfl := List.mem_singleton.mp hf
      unfold Frame.Fits
      decide +kernel
    · obtain rfl := List.mem_singleton.mp hf
      unfold Frame.Fits
      decide +kernel
  have hdelivered := (h [⟨asciiBytes "a", asciiBytes "1", 0⟩] brokenRun).calls _ _ hsent
  rw [hcalls] at hdelivered
  have hnone : arrivedFrames (streams brokenRun) [[helloMessage]] [infoFrame] = [infoFrame] := by
    rfl
  rw [hnone] at hdelivered
  exact absurd hdelivered (by decide)

end PlmCore.Platform.Nats
