/-
Texts with terminators and comments, read symbol by symbol.

A comment begins with two symbols, a slash and a star, and ends with the same two the other way
round; a terminator outside comments ends a segment. A reader that takes one symbol at a time must
remember a slash that may turn out to begin a comment, and a star that may end one. It is a fold over
the text, so it does not matter in what portions the text arrives.
-/
import Mathlib.Data.List.Infix
import Mathlib.Tactic.Common

set_option autoImplicit false

namespace PlmCore.Lib

/-! ## The reader -/

/-- The symbols that structure a commented text. -/
structure CommentMarks (α : Type) where
  slash : α
  star : α
  stop : α
  slash_ne_star : slash ≠ star
  stop_ne_slash : stop ≠ slash
  stop_ne_star : stop ≠ star

/-- Where a reader is: in the text, in the text just after a slash, in a comment, in a comment just
after a star. -/
inductive CommentMode
  | text
  | slash
  | comment
  | star
  deriving DecidableEq

/-- A stretch: where it starts, its length with the terminator, and its symbols outside comments. -/
structure Stretch (α : Type) where
  start : Nat
  length : Nat
  piece : List α

/-- What was read so far: the stretches, and the beginning of the next one. -/
@[ext]
structure Reading (α : Type) where
  mode : CommentMode
  position : Nat
  start : Nat
  piece : List α
  segments : List (Stretch α)

/-- Before anything was read. -/
def Reading.begin (α : Type) : Reading α := ⟨.text, 0, 0, [], []⟩

variable {α : Type} [DecidableEq α] (m : CommentMarks α)

/-- A symbol of the text. -/
def Reading.text (r : Reading α) (a : α) : Reading α :=
  if a = m.stop then
    { r with
      mode := .text
      position := r.position + 1
      start := r.position + 1
      piece := []
      segments := r.segments ++ [⟨r.start, r.position + 1 - r.start, r.piece⟩] }
  else
    { r with
      mode := if a = m.slash then .slash else .text
      position := r.position + 1
      piece := r.piece ++ [a] }

/-- One symbol. The slash that begins a comment is taken back from the text. -/
def Reading.step (r : Reading α) (a : α) : Reading α :=
  match r.mode with
  | .text => r.text m a
  | .slash =>
    if a = m.star then
      { r with mode := .comment, position := r.position + 1, piece := r.piece.dropLast }
    else r.text m a
  | .comment =>
    { r with mode := if a = m.star then .star else .comment, position := r.position + 1 }
  | .star =>
    { r with
      mode := if a = m.slash then .text else if a = m.star then .star else .comment
      position := r.position + 1 }

/-- Reading on. -/
def Reading.read (r : Reading α) (w : List α) : Reading α := w.foldl (Reading.step m) r

/-- The end of the text: what was begun is a segment without its terminator. -/
def Reading.finish (r : Reading α) : List (Stretch α) :=
  if r.piece = [] then r.segments
  else r.segments ++ [⟨r.start, r.position - r.start, r.piece⟩]

variable {m} {r : Reading α} {w : List α}

@[simp] theorem Reading.read_nil : r.read m [] = r := rfl

theorem Reading.read_append (w w' : List α) : r.read m (w ++ w') = (r.read m w).read m w' :=
  List.foldl_append

theorem Reading.read_cons (a : α) (w : List α) : r.read m (a :: w) = (r.step m a).read m w := rfl

theorem Reading.read_singleton (a : α) : r.read m [a] = r.step m a := rfl

/-! ## Stretches -/

/-- The mode after a stretch of text. -/
def CommentMarks.textMode (m : CommentMarks α) (mode : CommentMode) (w : List α) : CommentMode :=
  match w.getLast? with
  | none => mode
  | some a => if a = m.slash then .slash else .text

/-- The reader is outside comments, and `w` does not make one of the slash it remembers. -/
def Reading.ReadsText (m : CommentMarks α) (r : Reading α) (w : List α) : Prop :=
  r.mode = .text ∨ r.mode = .slash ∧ w.head? ≠ some m.star

theorem CommentMarks.textMode_cases {mode : CommentMode} (h : mode = .text ∨ mode = .slash) :
    m.textMode mode w = .text ∨ m.textMode mode w = .slash := by
  unfold CommentMarks.textMode
  split
  · exact h
  · split
    · exact .inr rfl
    · exact .inl rfl

theorem CommentMarks.textMode_eq_text {mode : CommentMode} (hne : w ≠ [])
    (hlast : w.getLast? ≠ some m.slash) : m.textMode mode w = .text := by
  unfold CommentMarks.textMode
  split
  · rename_i hnone
    exact absurd (List.getLast?_eq_none_iff.mp hnone) hne
  · rename_i a hsome
    rw [if_neg]
    intro ha
    exact hlast (ha ▸ hsome)

omit [DecidableEq α] in
/-- The stretch after which a symbol is read, split before the symbol. -/
theorem Reading.ReadsText.init {a : α} (h : r.ReadsText m (w ++ [a])) : r.ReadsText m w := by
  obtain htext | ⟨hslash, hhead⟩ := h
  · exact .inl htext
  · refine .inr ⟨hslash, fun hstar => hhead ?_⟩
    rw [List.head?_append, hstar]
    rfl

/-- **A stretch of text** without terminator and without the beginning of a comment joins the
segment. -/
theorem Reading.read_text (h : r.ReadsText m w) (hstop : m.stop ∉ w)
    (hopen : ¬ [m.slash, m.star] <:+: w) :
    r.read m w = { r with
      mode := m.textMode r.mode w
      position := r.position + w.length
      piece := r.piece ++ w } := by
  induction w using List.reverseRecOn with
  | nil => simp [CommentMarks.textMode]
  | append_singleton w a ih =>
    have hw : m.stop ∉ w := fun hmem => hstop (List.mem_append_left _ hmem)
    have ha : a ≠ m.stop := fun heq => hstop (List.mem_append_right _ (List.mem_singleton.mpr heq.symm))
    have hbefore := ih h.init hw fun hoccurs => hopen (hoccurs.trans (List.prefix_append w [a]).isInfix)
    have hstar : m.textMode r.mode w = .slash → a ≠ m.star := by
      rintro hmode rfl
      unfold CommentMarks.textMode at hmode
      split at hmode
      · rename_i hnone
        rw [List.getLast?_eq_none_iff] at hnone
        obtain htext | ⟨-, hhead⟩ := h
        · rw [htext] at hmode
          cases hmode
        · rw [hnone] at hhead
          exact hhead rfl
      · rename_i b hlast
        split at hmode
        · rename_i hb
          obtain ⟨w', rfl⟩ := List.getLast?_eq_some_iff.mp hlast
          refine hopen ⟨w', [], ?_⟩
          rw [hb]
          simp
        · cases hmode
    have hmode : (r.mode = .text ∨ r.mode = .slash) := h.imp_right And.left
    have hlast : m.textMode r.mode (w ++ [a]) = if a = m.slash then .slash else .text := by
      simp [CommentMarks.textMode]
    rw [Reading.read_append, hbefore, Reading.read_singleton, hlast]
    unfold Reading.step
    obtain htext | hslash := CommentMarks.textMode_cases (m := m) (w := w) hmode
    · simp [htext, Reading.text, ha, Nat.add_assoc]
    · simp [hslash, hstar hslash, Reading.text, ha, Nat.add_assoc]

/-- **A stretch of a comment** without its end is left out. -/
theorem Reading.read_comment (h : r.mode = .comment) (hclose : ¬ [m.star, m.slash] <:+: w) :
    r.read m w = { r with
      mode := if w.getLast? = some m.star then .star else .comment
      position := r.position + w.length } := by
  induction w using List.reverseRecOn with
  | nil =>
    rw [Reading.read_nil]
    ext1 <;> simp [h]
  | append_singleton w a ih =>
    have hbefore := ih fun hoccurs => hclose (hoccurs.trans (List.prefix_append w [a]).isInfix)
    have hslash : w.getLast? = some m.star → a ≠ m.slash := by
      rintro hlast rfl
      obtain ⟨w', rfl⟩ := List.getLast?_eq_some_iff.mp hlast
      exact hclose ⟨w', [], by simp⟩
    rw [Reading.read_append, hbefore, Reading.read_singleton]
    unfold Reading.step
    by_cases hlast : w.getLast? = some m.star
    · simp [hlast, hslash hlast, Nat.add_assoc]
    · simp [hlast, Nat.add_assoc]

/-! ## Beginnings and ends -/

/-- **A comment begins.** -/
theorem Reading.read_open (h : r.ReadsText m (w ++ [m.slash])) (hstop : m.stop ∉ w)
    (hopen : ¬ [m.slash, m.star] <:+: w ++ [m.slash]) :
    r.read m (w ++ [m.slash, m.star]) = { r with
      mode := .comment
      position := r.position + w.length + 2
      piece := r.piece ++ w } := by
  have hstop' : m.stop ∉ w ++ [m.slash] := by
    simp [hstop, m.stop_ne_slash]
  have hlast : m.textMode r.mode (w ++ [m.slash]) = .slash := by
    simp [CommentMarks.textMode]
  rw [show w ++ [m.slash, m.star] = (w ++ [m.slash]) ++ [m.star] by simp, Reading.read_append,
    Reading.read_text h hstop' hopen, hlast, Reading.read_singleton]
  unfold Reading.step
  simp [← List.append_assoc, Nat.add_assoc]

/-- **A comment ends.** -/
theorem Reading.read_close (h : r.mode = .comment) (hclose : ¬ [m.star, m.slash] <:+: w ++ [m.star]) :
    r.read m (w ++ [m.star, m.slash]) = { r with
      mode := .text
      position := r.position + w.length + 2 } := by
  rw [show w ++ [m.star, m.slash] = (w ++ [m.star]) ++ [m.slash] by simp, Reading.read_append,
    Reading.read_comment h hclose, Reading.read_singleton]
  unfold Reading.step
  simp [Nat.add_assoc]

/-- **A segment ends.** -/
theorem Reading.read_stop (h : r.ReadsText m w) (hstop : m.stop ∉ w) (hopen : ¬ [m.slash, m.star] <:+: w) :
    r.read m (w ++ [m.stop]) = { r with
      mode := .text
      position := r.position + w.length + 1
      start := r.position + w.length + 1
      piece := []
      segments := r.segments ++ [⟨r.start, r.position + w.length + 1 - r.start, r.piece ++ w⟩] } := by
  rw [Reading.read_append, Reading.read_text h hstop hopen, Reading.read_singleton]
  have hmode : (r.mode = .text ∨ r.mode = .slash) := h.imp_right And.left
  unfold Reading.step
  obtain htext | hslash := CommentMarks.textMode_cases (m := m) (w := w) hmode
  · simp [htext, Reading.text]
  · simp [hslash, Reading.text, m.stop_ne_star]

/-! ## Stretches that leave the reader in the text -/

/-- Read from the text, the stretch `w` ends in the text and shows `v` of it. -/
def CommentMarks.Shows (m : CommentMarks α) (w v : List α) : Prop :=
  ∀ r : Reading α, r.mode = .text →
    r.read m w = { r with position := r.position + w.length, piece := r.piece ++ v }

theorem CommentMarks.Shows.nil : m.Shows [] [] := by
  intro r _
  simp

theorem CommentMarks.Shows.append {w' v v' : List α} (h : m.Shows w v) (h' : m.Shows w' v') :
    m.Shows (w ++ w') (v ++ v') := by
  intro r hr
  have hnext := h' { r with position := r.position + w.length, piece := r.piece ++ v } hr
  rw [Reading.read_append, h r hr, hnext]
  simp [Nat.add_assoc]

/-- Stretches in turn. -/
theorem CommentMarks.Shows.flatMap {β : Type} {f g : β → List α} {xs : List β}
    (h : ∀ x ∈ xs, m.Shows (f x) (g x)) : m.Shows (xs.flatMap f) (xs.flatMap g) := by
  induction xs with
  | nil => exact .nil
  | cons x xs ih =>
    rw [List.flatMap_cons, List.flatMap_cons]
    exact (h x List.mem_cons_self).append (ih fun y hy => h y (List.mem_cons_of_mem _ hy))

/-- **A quiet word shows itself**: it has no terminator, begins no comment and does not end with a
slash. -/
theorem CommentMarks.shows_self (hstop : m.stop ∉ w) (hopen : ¬ [m.slash, m.star] <:+: w)
    (hlast : w.getLast? ≠ some m.slash) : m.Shows w w := by
  intro r hr
  rw [Reading.read_text (.inl hr) hstop hopen]
  by_cases hne : w = []
  · simp [hne, CommentMarks.textMode]
  · rw [CommentMarks.textMode_eq_text hne hlast, ← hr]

/-- **A comment shows nothing.** -/
theorem CommentMarks.shows_comment {c : List α} (hc : ¬ [m.star, m.slash] <:+: c) :
    m.Shows ([m.slash, m.star] ++ c ++ [m.star, m.slash]) [] := by
  intro r hr
  have hopen : ¬ [m.slash, m.star] <:+: [m.slash] := fun h => by
    have hlen := h.length_le
    simp at hlen
  have hclose : ¬ [m.star, m.slash] <:+: c ++ [m.star] := by
    rintro ⟨u, v, huv⟩
    cases v using List.reverseRecOn with
    | nil =>
      rw [List.append_nil] at huv
      have hlast := congrArg List.getLast? huv
      simp [m.slash_ne_star] at hlast
    | append_singleton v a =>
      rw [← List.append_assoc] at huv
      exact hc ⟨u, v, (List.append_inj' huv rfl).1⟩
  have hbegin := Reading.read_open (m := m) (r := r) (w := []) (.inl hr) List.not_mem_nil hopen
  rw [List.nil_append] at hbegin
  rw [List.append_assoc, Reading.read_append, hbegin, Reading.read_close rfl hclose, ← hr]
  simp
  omega

end PlmCore.Lib
