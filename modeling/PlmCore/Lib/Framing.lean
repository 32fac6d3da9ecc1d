/-
A reader that takes complete frames from the front of a buffer.

What arrives is cut anywhere. The reader keeps what it has not consumed, and after each piece takes frames
from the buffer until it has to wait for more. If it takes every complete frame for what it is and waits
on every incomplete one, it has after any pieces taken exactly the frames that have completely arrived, and
what is left of the buffer is the beginning of the next one.
-/
import Mathlib.Data.List.Infix
import Mathlib.Tactic.Common

set_option autoImplicit false

namespace PlmCore.Lib

variable {β O E F : Type*}

/-- What a reader does with a buffer: it waits for more, fails, or takes something from the front. -/
inductive Taking (β O E : Type*)
  | wait
  | fail (error : E)
  | take (out : O) (rest : List β)

/-- The frames taken from a buffer, what is left, and the error, for a number of frames. -/
def drainBuffer (next : List β → Taking β O E) : Nat → List β → List O × List β × Option E
  | 0, b => ([], b, none)
  | n + 1, b =>
    match next b with
    | .wait => ([], b, none)
    | .fail error => ([], b, some error)
    | .take out rest =>
      let r := drainBuffer next n rest
      (out :: r.1, r.2)

variable (encode : F → List β)

/-- The frames of a stream that have arrived when its first bytes have. -/
def arrived : List F → List β → List F
  | [], _ => []
  | f :: fs, b => if (encode f).length ≤ b.length then f :: arrived fs (b.drop (encode f).length) else []

/-- What has arrived of the next frame. -/
def leftover : List F → List β → List β
  | [], b => b
  | f :: fs, b => if (encode f).length ≤ b.length then leftover fs (b.drop (encode f).length) else b

theorem arrived_append (f : F) (fs : List F) (rest : List β) :
    arrived encode (f :: fs) (encode f ++ rest) = f :: arrived encode fs rest := by
  rw [arrived, if_pos (by simp), List.drop_left]

theorem leftover_append (f : F) (fs : List F) (rest : List β) :
    leftover encode (f :: fs) (encode f ++ rest) = leftover encode fs rest := by
  rw [leftover, if_pos (by simp), List.drop_left]

/-- A reader that takes frames for what they are. -/
structure ReadsFrames (next : List β → Taking β O E) (out : F → O) (fits : F → Prop) : Prop where
  ne_nil : ∀ f, encode f ≠ []
  takes : ∀ f rest, fits f → next (encode f ++ rest) = .take (out f) rest
  waits : ∀ f b, fits f → b <+: encode f → b.length < (encode f).length → next b = .wait

variable {encode} {next : List β → Taking β O E} {out : F → O} {fits : F → Prop}

/-- Nothing has arrived of an empty stream. -/
theorem arrived_nil (hne : ∀ f, encode f ≠ []) (fs : List F) :
    arrived encode fs [] = [] ∧ leftover encode fs [] = [] := by
  cases fs with
  | nil => exact ⟨rfl, rfl⟩
  | cons f fs =>
    have hpos := List.length_pos_iff.mpr (hne f)
    have hlong : ¬ (encode f).length ≤ ([] : List β).length := by
      rw [List.length_nil]
      omega
    exact ⟨if_neg hlong, if_neg hlong⟩

/-- The beginning of a stream is read frame by frame. -/
theorem drain_stream (h : ReadsFrames encode next out fits) {fs : List F} (hfits : ∀ f ∈ fs, fits f)
    {b : List β} (hb : b <+: fs.flatMap encode) {n : Nat} (hn : b.length < n) (hnil : next [] = .wait) :
    drainBuffer next n b = ((arrived encode fs b).map out, leftover encode fs b, none) := by
  induction fs generalizing b n with
  | nil =>
    obtain rfl := List.prefix_nil.mp hb
    cases n with
    | zero => cases hn
    | succ n =>
      rw [drainBuffer, hnil]
      rfl
  | cons f fs ih =>
    cases n with
    | zero => omega
    | succ n =>
      have hf := hfits f List.mem_cons_self
      rw [List.flatMap_cons] at hb
      unfold arrived leftover
      split
      · rename_i hlong
        obtain ⟨rest, rfl⟩ : encode f <+: b :=
          List.prefix_of_prefix_length_le (List.prefix_append _ _) hb hlong
        have hpos := List.length_pos_iff.mpr (h.ne_nil f)
        rw [List.length_append] at hn
        have hrest := ih (fun g hg => hfits g (List.mem_cons_of_mem f hg))
          ((List.prefix_append_right_inj _).mp hb) (n := n) (by omega)
        rw [drainBuffer, h.takes f rest hf, List.drop_left]
        dsimp only
        rw [hrest]
        rfl
      · rename_i hshort
        have hprefix : b <+: encode f :=
          List.prefix_of_prefix_length_le hb (List.prefix_append _ _) (by omega)
        rw [drainBuffer, h.waits f b hf hprefix (by omega)]
        rfl

/-- **A piece that arrives** is read with what was left. -/
theorem drain_piece (h : ReadsFrames encode next out fits) {fs : List F} (hfits : ∀ f ∈ fs, fits f)
    {b piece : List β} (hb : b ++ piece <+: fs.flatMap encode) (hnil : next [] = .wait) {n : Nat}
    (hn : (leftover encode fs b ++ piece).length < n) :
    ∃ new, arrived encode fs (b ++ piece) = arrived encode fs b ++ new ∧
      drainBuffer next n (leftover encode fs b ++ piece) =
        (new.map out, leftover encode fs (b ++ piece), none) := by
  induction fs generalizing b with
  | nil => exact ⟨[], rfl, drain_stream h hfits hb hn hnil⟩
  | cons f fs ih =>
    by_cases hlong : (encode f).length ≤ b.length
    · rw [List.flatMap_cons] at hb
      obtain ⟨rest, rfl⟩ : encode f <+: b :=
        List.prefix_of_prefix_length_le (List.prefix_append _ _) ((List.prefix_append _ _).trans hb) hlong
      rw [List.append_assoc, List.prefix_append_right_inj] at hb
      rw [leftover_append] at hn
      obtain ⟨new, hnew, hdrain⟩ := ih (fun g hg => hfits g (List.mem_cons_of_mem f hg)) hb hn
      rw [List.append_assoc, arrived_append, arrived_append, leftover_append, leftover_append, hnew]
      exact ⟨new, rfl, hdrain⟩
    · have hleft : leftover encode (f :: fs) b = b := if_neg hlong
      have hnone : arrived encode (f :: fs) b = [] := if_neg hlong
      rw [hleft] at hn ⊢
      rw [hnone]
      exact ⟨_, rfl, drain_stream h hfits hb hn hnil⟩

end PlmCore.Lib
