/-
The scanner of cad-parser against a reader that takes one byte at a time.

One pass of the scanner's loop reads a stretch of bytes the way the reader does, and when the loop stops
the reader is where the scanner is, or in the comment whose end the scanner waits for. Between two chunks
the scanner forgets one thing the reader remembers: that the text ended with a slash. When no comment
begins with the last byte of a chunk and the first of the next, it delivers what the reader finds, and so
the same for all ways to cut the file into chunks.
-/
import PlmCore.CadParser.StepScan
import PlmCore.Lib.Commented

set_option autoImplicit false

namespace PlmCore.CadParser

open PlmCore.Lib

/-- The marks of a STEP file. -/
def marks : CommentMarks UInt8 where
  slash := slash
  star := star
  stop := semi
  slash_ne_star := by decide
  stop_ne_slash := by decide
  stop_ne_star := by decide

/-- `handleSegment` on segments in turn. -/
def Delivery.handleSegments (d : Delivery) (segments : List (Stretch UInt8)) : Delivery :=
  segments.foldl (fun d g => d.handleSegment (segmentText g.piece) g.start g.length) d

theorem Delivery.handleSegments_append (d : Delivery) (gs gs' : List (Stretch UInt8)) :
    d.handleSegments (gs ++ gs') = (d.handleSegments gs).handleSegments gs' := List.foldl_append

theorem Delivery.handleSegments_singleton (d : Delivery) (g : Stretch UInt8) :
    d.handleSegments [g] = d.handleSegment (segmentText g.piece) g.start g.length := rfl

/-- What the segments of a file deliver. -/
def deliver (bytes : List UInt8) : Delivery :=
  Delivery.start.handleSegments ((Reading.begin UInt8).read marks bytes).finish

/-! ## Where the scanner is -/

/-- The reader is at the cursor. -/
structure Aligned (s : Scanner) (r : Reading UInt8) : Prop where
  position : r.position = s.workBase + s.cursor
  start : r.start = s.segStart
  ordered : r.start ≤ r.position
  piece : r.piece = s.segChunks.flatten
  chunks : [] ∉ s.segChunks
  delivered : s.delivery = Delivery.start.handleSegments r.segments
  inComment : s.inComment = true → r.mode = .comment
  inText : s.inComment = false → r.mode = .text ∨ r.mode = .slash
  bound : s.cursor ≤ s.work.length

/-- The scanner is in its loop: what it cached is right, and no comment began before the cursor. -/
structure Scanning (s : Scanner) (r : Reading UInt8) : Prop extends Aligned s r where
  fresh : r.mode = .slash → (s.work.drop s.cursor).head? ≠ some star
  cached : s.inComment = false → ∀ p, s.commentPos = some p →
    p = indexOf [slash, star] s.work s.cursor

/-- The scanner waits for the next chunk: all is read but what a comment leaves open. -/
structure Resting (s : Scanner) (r : Reading UInt8) : Prop where
  read : ∃ r₀, Aligned s r₀ ∧ r = r₀.read marks (s.work.drop s.cursor)
  allRead : s.inComment = false → s.cursor = s.work.length
  notClosed : s.inComment = true → ¬ [star, slash] <:+: s.work.drop s.cursor

/-- The scanner moved over a stretch of bytes that the reader read. -/
def MovesOver (s s' : Scanner) (r : Reading UInt8) : Prop :=
  ∃ w rest, w ≠ [] ∧ s.work.drop s.cursor = w ++ rest ∧ s'.work = s.work ∧ s'.work.drop s'.cursor = rest
    ∧ Scanning s' (r.read marks w)

/-! ## Pieces -/

section Pieces

variable {s : Scanner} {r : Reading UInt8} {w rest : List UInt8}

theorem pushPiece_eq (s : Scanner) (w : List UInt8) :
    s.pushPiece w = { s with segChunks := (s.pushPiece w).segChunks } := by
  unfold Scanner.pushPiece
  split
  · rfl
  · rfl

theorem flatten_pushPiece (s : Scanner) (w : List UInt8) :
    (s.pushPiece w).segChunks.flatten = s.segChunks.flatten ++ w := by
  unfold Scanner.pushPiece
  split
  · simp
  · rename_i hempty
    have hw : w = [] := List.length_eq_zero_iff.mp (by omega)
    simp [hw]

theorem not_mem_pushPiece (h : [] ∉ s.segChunks) : [] ∉ (s.pushPiece w).segChunks := by
  unfold Scanner.pushPiece
  split
  · rename_i hpos
    rw [List.mem_append, List.mem_singleton]
    rintro (hmem | rfl)
    · exact h hmem
    · exact absurd hpos (by simp)
  · exact h

theorem before_eq (h : s.work.drop s.cursor = w ++ rest) : s.before (s.cursor + w.length) = w := by
  rw [Scanner.before, h, Nat.add_sub_cancel_left, List.take_left]

theorem drop_after (h : s.work.drop s.cursor = w ++ rest) : s.work.drop (s.cursor + w.length) = rest := by
  rw [← List.drop_drop, h, List.drop_left]

theorem length_after (h : s.work.drop s.cursor = w ++ rest) (hw : w ≠ []) :
    s.cursor + w.length ≤ s.work.length := by
  have hlen := congrArg List.length h
  have hpos := List.length_pos_iff.mpr hw
  rw [List.length_drop, List.length_append] at hlen
  omega

theorem Scanning.readsText (h : Scanning s r) (hin : s.inComment = false) (hw : w <+: s.work.drop s.cursor) :
    r.ReadsText marks w := by
  obtain htext | hslash := h.inText hin
  · exact .inl htext
  · refine .inr ⟨hslash, fun hhead => h.fresh hslash ?_⟩
    obtain ⟨rest, hrest⟩ := hw
    rw [← hrest, List.head?_append, hhead]
    rfl

theorem not_mem_of_no_occurrence {a : UInt8} (h : ¬ [a] <:+: w) : a ∉ w := by
  intro hmem
  obtain ⟨u, v, rfl⟩ := List.append_of_mem hmem
  exact h ⟨u, v, by simp⟩

end Pieces

/-! ## One pass -/

section Passes

variable {s : Scanner} {r : Reading UInt8}

/-- **A comment ends.** -/
theorem movesOver_close {stop : Nat} (h : Scanning s r) (hin : s.inComment = true)
    (hstop : indexOf [star, slash] s.work s.cursor = some stop) :
    MovesOver s { s with cursor := stop + 2, inComment := false, commentPos := none } r := by
  obtain ⟨w, rest, hsplit, rfl, hnone⟩ := indexOf_split (by simp) hstop
  rw [← List.append_assoc] at hsplit
  have hread := Reading.read_close (m := marks) (h.inComment hin) hnone
  have hlen : (w ++ [star, slash]).length = w.length + 2 := by simp
  refine ⟨w ++ [star, slash], rest, by simp, hsplit, rfl, ?_, ?_⟩
  · have hdrop := drop_after hsplit
    rw [hlen] at hdrop
    exact hdrop
  · have hbound := length_after hsplit (by simp)
    rw [hlen] at hbound
    change Scanning _ (r.read marks (w ++ [marks.star, marks.slash]))
    rw [hread]
    exact {
      position := by simp only [h.position]; omega
      start := h.start
      ordered := by have := h.ordered; simp only; omega
      piece := h.piece
      chunks := h.chunks
      delivered := h.delivered
      inComment := fun hin => by cases hin
      inText := fun _ => .inl rfl
      bound := hbound
      fresh := fun hmode => by cases hmode
      cached := fun _ _ hp => by cases hp }

/-- **A comment begins.** -/
theorem movesOver_open {cp : Nat} (h : Scanning s r) (hin : s.inComment = false)
    (hcp : indexOf [slash, star] s.work s.cursor = some cp)
    (hsp : ∀ sp, indexOf [semi] s.work s.cursor = some sp → cp < sp) (p : Option (Option Nat)) :
    MovesOver s (Scanner.enterComment { s with commentPos := p } cp) r := by
  obtain ⟨w, rest, hsplit, rfl, hnone⟩ := indexOf_split (by simp) hcp
  have hsemi : semi ∉ w := by
    refine not_mem_of_no_occurrence (not_infix_of_first
      (fun j hj (hlt : j < s.cursor + w.length) hbegins => ?_) hsplit (by simp))
    cases hfind : indexOf [semi] s.work s.cursor with
    | none => exact (indexOf_eq_none (by simp)).mp hfind j hj hbegins
    | some sp =>
      have hlater := hsp sp hfind
      exact ((indexOf_eq_some (by simp)).mp hfind).2.2 j hj (by omega) hbegins
  have hbegins : w ++ [slash] <+: s.work.drop s.cursor := ⟨star :: rest, by rw [hsplit]; simp⟩
  have hread := Reading.read_open (m := marks) (h.readsText hin hbegins) hsemi hnone
  have hpiece := before_eq hsplit
  rw [← List.append_assoc] at hsplit
  have hlen : (w ++ [slash, star]).length = w.length + 2 := by simp
  refine ⟨w ++ [slash, star], rest, by simp, hsplit, ?_, ?_, ?_⟩
  · rw [Scanner.enterComment, pushPiece_eq]
  · have hdrop := drop_after hsplit
    rw [hlen] at hdrop
    rw [Scanner.enterComment, pushPiece_eq]
    exact hdrop
  · have hbound := length_after hsplit (by simp)
    rw [hlen] at hbound
    change Scanning _ (r.read marks (w ++ [marks.slash, marks.star]))
    rw [hread, Scanner.enterComment, pushPiece_eq]
    change s.before (s.cursor + w.length) = w at hpiece
    exact {
      position := by simp only [h.position]; omega
      start := h.start
      ordered := by have := h.ordered; simp only; omega
      piece := by
        simp only [flatten_pushPiece, h.piece]
        congr 1
        exact hpiece.symm
      chunks := not_mem_pushPiece h.chunks
      delivered := h.delivered
      inComment := fun _ => rfl
      inText := fun hin => by cases hin
      bound := hbound
      fresh := fun hmode => by cases hmode
      cached := fun hin => by cases hin }

/-- **A segment ends.** The comment found ahead is still the next one. -/
theorem movesOver_stop {sp : Nat} (h : Scanning s r) (hin : s.inComment = false)
    (hsp : indexOf [semi] s.work s.cursor = some sp)
    (hcp : ∀ cp, indexOf [slash, star] s.work s.cursor = some cp → sp ≤ cp) :
    MovesOver s (Scanner.endSegment
      { s with commentPos := some (indexOf [slash, star] s.work s.cursor) } sp) r := by
  have hahead : indexOf [slash, star] s.work (sp + 1) = indexOf [slash, star] s.work s.cursor := by
    refine indexOf_of_le (by simp) ?_ fun cp hfind => ?_
    · have hle := ((indexOf_eq_some (by simp)).mp hsp).1
      omega
    · -- a byte does not end a segment and begin a comment
      have hle := hcp cp hfind
      have hne : sp ≠ cp := by
        rintro rfl
        obtain ⟨-, ⟨rest, hrest⟩, -⟩ := (indexOf_eq_some (by simp)).mp hsp
        obtain ⟨-, ⟨rest', hrest'⟩, -⟩ := (indexOf_eq_some (by simp)).mp hfind
        rw [← hrest] at hrest'
        injection hrest' with hbyte
        exact absurd hbyte (by decide)
      omega
  obtain ⟨w, rest, hsplit, rfl, hnone⟩ := indexOf_split (by simp) hsp
  rw [show ([semi] : List UInt8).dropLast = [] from rfl, List.append_nil] at hnone
  have hsemi : semi ∉ w := not_mem_of_no_occurrence hnone
  have hopen : ¬ [slash, star] <:+: w := by
    refine not_infix_of_first (fun j hj (hlt : j < s.cursor + w.length) hbegins => ?_) hsplit (by simp)
    cases hfind : indexOf [slash, star] s.work s.cursor with
    | none => exact (indexOf_eq_none (by simp)).mp hfind j hj hbegins
    | some cp =>
      have hlater := hcp cp hfind
      exact ((indexOf_eq_some (by simp)).mp hfind).2.2 j hj (by omega) hbegins
  have hread := Reading.read_stop (m := marks) (h.readsText hin ⟨_, hsplit.symm⟩) hsemi hopen
  have hpiece := before_eq hsplit
  have hposition := h.position
  have hordered := h.ordered
  rw [← List.append_assoc] at hsplit
  have hlen : (w ++ [semi]).length = w.length + 1 := by simp
  refine ⟨w ++ [semi], rest, by simp, hsplit, ?_, ?_, ?_⟩
  · rw [Scanner.endSegment, pushPiece_eq]
    rfl
  · have hdrop := drop_after hsplit
    rw [hlen] at hdrop
    rw [Scanner.endSegment, pushPiece_eq]
    exact hdrop
  · have hbound := length_after hsplit (by simp)
    rw [hlen] at hbound
    change Scanning _ (r.read marks (w ++ [marks.stop]))
    rw [hread, Scanner.endSegment, Scanner.emitSegment, flatten_pushPiece, pushPiece_eq]
    change s.before (s.cursor + w.length) = w at hpiece
    exact {
      position := by simp only; omega
      start := by simp only; omega
      ordered := le_rfl
      piece := rfl
      chunks := List.not_mem_nil
      delivered := by
        simp only [Delivery.handleSegments_append, Delivery.handleSegments_singleton]
        rw [← h.delivered, ← h.start, h.piece]
        congr 1
        · change segmentText (_ ++ s.before _) = _
          rw [hpiece]
        · omega
      inComment := fun hcomment => by
        rw [show s.inComment = true from hcomment] at hin
        cases hin
      inText := fun _ => .inl rfl
      bound := hbound
      fresh := fun hmode => by cases hmode
      cached := fun _ p hp => by
        rw [Option.some.inj hp.symm]
        exact hahead.symm }

/-- **Nothing ahead**: the rest is text. -/
theorem resting_rest (h : Scanning s r) (hin : s.inComment = false)
    (hcp : indexOf [slash, star] s.work s.cursor = none) (hsp : indexOf [semi] s.work s.cursor = none)
    (p : Option (Option Nat)) :
    Resting (Scanner.keepRest { s with commentPos := p }) (r.read marks (s.work.drop s.cursor)) := by
  have hread := Reading.read_text (m := marks) (h.readsText hin (List.prefix_refl _))
    (not_mem_of_no_occurrence (not_infix_of_indexOf (by simp) hsp)) (not_infix_of_indexOf (by simp) hcp)
  have hmode := CommentMarks.textMode_cases (m := marks) (w := s.work.drop s.cursor) (h.inText hin)
  have hbound := h.bound
  have hposition := h.position
  have hordered := h.ordered
  have hlen : (s.work.drop s.cursor).length = s.work.length - s.cursor := List.length_drop
  rw [Scanner.keepRest, pushPiece_eq]
  refine ⟨⟨r.read marks (s.work.drop s.cursor), ?_, ?_⟩, fun _ => rfl, fun hcomment => ?_⟩
  · rw [hread]
    exact {
      position := by simp only [hlen]; omega
      start := h.start
      ordered := by simp only; omega
      piece := by
        simp only [flatten_pushPiece, h.piece]
      chunks := not_mem_pushPiece h.chunks
      delivered := h.delivered
      inComment := fun hcomment => by
        rw [show s.inComment = true from hcomment] at hin
        cases hin
      inText := fun _ => hmode
      bound := le_rfl }
  · rw [List.drop_eq_nil_of_le le_rfl, Reading.read_nil]
  · rw [show s.inComment = true from hcomment] at hin
    cases hin

/-- **One pass** moves over some bytes, or leaves the scanner waiting. -/
theorem iterate_cases (h : Scanning s r) :
    s.iterate.2 = true ∧ MovesOver s s.iterate.1 r ∨
    s.iterate.2 = false ∧ Resting s.iterate.1 (r.read marks (s.work.drop s.cursor)) := by
  unfold Scanner.iterate
  by_cases hin : s.inComment = true
  · rw [if_pos hin]
    cases hstop : indexOf [star, slash] s.work s.cursor with
    | none =>
      exact .inr ⟨rfl, ⟨_, h.toAligned, rfl⟩, fun hnot => (Bool.eq_false_iff.mp hnot hin).elim,
        fun _ => not_infix_of_indexOf (by simp) hstop⟩
    | some stop => exact .inl ⟨rfl, movesOver_close h hin hstop⟩
  · rw [if_neg hin]
    rw [Bool.not_eq_true] at hin
    have hcached : s.commentPos.getD (indexOf [slash, star] s.work s.cursor) =
        indexOf [slash, star] s.work s.cursor := by
      cases hp : s.commentPos with
      | none => rfl
      | some p => exact h.cached hin p hp
    rw [hcached]
    cases hcp : indexOf [slash, star] s.work s.cursor with
    | none =>
      cases hsp : indexOf [semi] s.work s.cursor with
      | none => exact .inr ⟨rfl, resting_rest h hin hcp hsp _⟩
      | some sp =>
        have hmoves := movesOver_stop h hin hsp fun cp hfind => by simp [hcp] at hfind
        rw [hcp] at hmoves
        exact .inl ⟨rfl, hmoves⟩
    | some cp =>
      cases hsp : indexOf [semi] s.work s.cursor with
      | none => exact .inl ⟨rfl, movesOver_open h hin hcp (fun sp hfind => by simp [hsp] at hfind) _⟩
      | some sp =>
        by_cases hlt : cp < sp
        · dsimp only
          rw [if_pos hlt]
          refine .inl ⟨rfl, movesOver_open h hin hcp (fun sp' hfind => ?_) _⟩
          rw [hsp] at hfind
          exact Option.some.inj hfind ▸ hlt
        · dsimp only
          rw [if_neg hlt]
          have hmoves := movesOver_stop h hin hsp fun cp' hfind => by
            rw [hcp] at hfind
            have hsame := Option.some.inj hfind
            omega
          rw [hcp] at hmoves
          exact .inl ⟨rfl, hmoves⟩

end Passes

/-! ## The loop -/

/-- A pass that goes on leaves fewer bytes. -/
theorem MovesOver.remaining {s s' : Scanner} {r : Reading UInt8} (h : MovesOver s s' r) :
    ∃ r', Scanning s' r' ∧ r'.read marks (s'.work.drop s'.cursor) = r.read marks (s.work.drop s.cursor) ∧
      s'.work.length - s'.cursor < s.work.length - s.cursor := by
  obtain ⟨w, rest, hw, hsplit, -, hdrop, hnext⟩ := h
  refine ⟨_, hnext, ?_, ?_⟩
  · rw [hdrop, hsplit, Reading.read_append]
  · have hlen := congrArg List.length hsplit
    have hlen' := congrArg List.length hdrop
    have hpos := List.length_pos_iff.mpr hw
    rw [List.length_append, List.length_drop] at hlen
    rw [List.length_drop] at hlen'
    omega

/-- **The loop** reads all bytes up to the end of the chunk, in at most one pass for each. -/
theorem resting_scanLoop {passes : Nat} {s : Scanner} {r : Reading UInt8} (h : Scanning s r)
    (hpasses : s.work.length - s.cursor < passes) :
    Resting (Scanner.scanLoop passes s) (r.read marks (s.work.drop s.cursor)) := by
  induction passes generalizing s r with
  | zero => omega
  | succ passes ih =>
    rw [Scanner.scanLoop]
    obtain ⟨hon, hmoves⟩ | ⟨hoff, hrests⟩ := iterate_cases h
    · obtain ⟨r', hnext, hread, hless⟩ := hmoves.remaining
      rw [if_pos hon, ← hread]
      exact ih hnext (by omega)
    · rw [if_neg (by rw [hoff]; exact Bool.false_ne_true)]
      exact hrests

/-- The loop ends by itself: more passes change nothing. -/
theorem scanLoop_ends {passes more : Nat} {s : Scanner} {r : Reading UInt8} (h : Scanning s r)
    (hpasses : s.work.length - s.cursor < passes) (hmore : passes ≤ more) :
    Scanner.scanLoop more s = Scanner.scanLoop passes s := by
  induction passes generalizing s r more with
  | zero => omega
  | succ passes ih =>
    obtain ⟨more, rfl⟩ : ∃ k, more = k + 1 := ⟨more - 1, by omega⟩
    rw [Scanner.scanLoop, Scanner.scanLoop]
    obtain ⟨hon, hmoves⟩ | ⟨hoff, -⟩ := iterate_cases h
    · obtain ⟨r', hnext, -, hless⟩ := hmoves.remaining
      rw [if_pos hon, if_pos hon, ih hnext (by omega) (by omega)]
    · rw [if_neg (by rw [hoff]; exact Bool.false_ne_true),
        if_neg (by rw [hoff]; exact Bool.false_ne_true)]

theorem resting_scan {s : Scanner} {r : Reading UInt8} (h : Scanning s r) :
    Resting s.scan (r.read marks (s.work.drop s.cursor)) := resting_scanLoop h (by omega)

/-- Loading a chunk puts it behind what was not consumed. -/
theorem aligned_load {s : Scanner} {r : Reading UInt8} (h : Aligned s r) (chunk : List UInt8) :
    Aligned (s.load chunk) r ∧ (s.load chunk).commentPos = none ∧
      (s.load chunk).inComment = s.inComment ∧
      (s.load chunk).work.drop (s.load chunk).cursor = s.work.drop s.cursor ++ chunk := by
  have hbound := h.bound
  have hposition := h.position
  unfold Scanner.load
  by_cases hempty : s.work.length = 0
  · have hcursor : s.cursor = 0 := by omega
    have hwork : s.work = [] := List.length_eq_zero_iff.mp hempty
    rw [if_pos hempty]
    refine ⟨{ h with bound := by simp only [hcursor]; omega }, rfl, rfl, ?_⟩
    rw [hcursor, hwork]
    rfl
  · by_cases hend : s.cursor ≥ s.work.length
    · rw [if_neg hempty, if_pos hend]
      refine ⟨{ h with position := by simp only; omega, bound := Nat.zero_le _ }, rfl, rfl, ?_⟩
      rw [List.drop_eq_nil_of_le hend]
      rfl
    · by_cases hmoved : s.cursor > 0
      · rw [if_neg hempty, if_neg hend, if_pos hmoved]
        exact ⟨{ h with position := by simp only; omega, bound := Nat.zero_le _ }, rfl, rfl, rfl⟩
      · have hcursor : s.cursor = 0 := by omega
        rw [if_neg hempty, if_neg hend, if_neg hmoved]
        refine ⟨{ h with bound := by simp only [hcursor]; omega }, rfl, rfl, ?_⟩
        rw [hcursor]
        rfl

/-- **One chunk**, when no comment begins across the cut before it. -/
theorem resting_onData {s : Scanner} {r : Reading UInt8} {chunk : List UInt8} (h : Resting s r)
    (hcut : r.mode = .slash → chunk.head? ≠ some star) :
    Resting (s.onData chunk) (r.read marks chunk) := by
  obtain ⟨⟨r₀, hr₀, rfl⟩, hall, -⟩ := h
  obtain ⟨haligned, hstale, hsame, hdrop⟩ := aligned_load hr₀ chunk
  have hscanning : Scanning (s.load chunk) r₀ := by
    refine { haligned with fresh := fun hmode => ?_, cached := fun _ p hp => ?_ }
    · -- outside comments nothing was left over
      have hin : s.inComment = false := by
        cases hin : s.inComment with
        | false => rfl
        | true =>
          rw [hr₀.inComment hin] at hmode
          cases hmode
      have hrest : s.work.drop s.cursor = [] := List.drop_eq_nil_of_le (hall hin).ge
      rw [hdrop, hrest, List.nil_append]
      rw [hrest, Reading.read_nil] at hcut
      exact hcut hmode
    · rw [hstale] at hp
      cases hp
  rw [← Reading.read_append, ← hdrop]
  exact resting_scan hscanning

/-! ## All chunks -/

/-- No comment begins with the last byte of a chunk and the first of the next. -/
def KeepsOpeners (chunks : List (List UInt8)) : Prop :=
  ∀ past chunk later, chunks = past ++ chunk :: later →
    ((Reading.begin UInt8).read marks past.flatten).mode = .slash → chunk.head? ≠ some star

theorem resting_start : Resting Scanner.start (Reading.begin UInt8) where
  read := ⟨Reading.begin UInt8, {
    position := rfl
    start := rfl
    ordered := le_rfl
    piece := rfl
    chunks := List.not_mem_nil
    delivered := rfl
    inComment := fun hin => by cases hin
    inText := fun _ => .inl rfl
    bound := le_rfl }, rfl⟩
  allRead _ := rfl
  notClosed hin := by cases hin

/-- **All chunks**, by induction from the end of the file. -/
theorem resting_chunks {chunks : List (List UInt8)} (h : KeepsOpeners chunks) :
    Resting (chunks.foldl Scanner.onData .start) ((Reading.begin UInt8).read marks chunks.flatten) := by
  induction chunks using List.reverseRecOn with
  | nil => exact resting_start
  | append_singleton chunks chunk ih =>
    rw [List.foldl_append, List.flatten_append, Reading.read_append]
    simp only [List.foldl_cons, List.foldl_nil, List.flatten_cons, List.flatten_nil, List.append_nil]
    refine resting_onData (ih fun past c later hsplit hmode => ?_) (h chunks chunk [] rfl)
    exact h past c (later ++ [chunk]) (by rw [hsplit]; simp) hmode

/-- What a comment leaves open does not belong to the segment. -/
theorem Resting.aligned {s : Scanner} {r : Reading UInt8} (h : Resting s r) :
    r.start = s.segStart ∧ r.piece = s.segChunks.flatten ∧ [] ∉ s.segChunks ∧
      s.delivery = Delivery.start.handleSegments r.segments ∧
      r.position = s.workBase + s.work.length := by
  obtain ⟨⟨r₀, hr₀, rfl⟩, hall, hopen⟩ := h
  have hbound := hr₀.bound
  have hposition := hr₀.position
  cases hin : s.inComment with
  | false =>
    have hcursor := hall hin
    rw [List.drop_eq_nil_of_le hcursor.ge, Reading.read_nil]
    exact ⟨hr₀.start, hr₀.piece, hr₀.chunks, hr₀.delivered, by omega⟩
  | true =>
    rw [Reading.read_comment (m := marks) (hr₀.inComment hin) (hopen hin)]
    refine ⟨hr₀.start, hr₀.piece, hr₀.chunks, hr₀.delivered, ?_⟩
    simp only [List.length_drop]
    omega

/-- The end of the file hands over what the reader has begun. -/
theorem onEnd_eq {s : Scanner} {r : Reading UInt8} (h : Resting s r) :
    s.onEnd = Delivery.start.handleSegments r.finish := by
  obtain ⟨hstart, hpiece, hchunks, hdelivered, hposition⟩ := h.aligned
  unfold Scanner.onEnd Reading.finish
  rw [hpiece, hposition, hstart]
  by_cases hnone : s.segChunks = []
  · rw [if_pos hnone, if_pos (by rw [hnone]; rfl)]
    exact hdelivered
  · have hsome : s.segChunks.flatten ≠ [] := by
      rw [Ne, List.flatten_eq_nil_iff]
      intro hall
      obtain ⟨c, hc⟩ := List.exists_mem_of_ne_nil _ hnone
      exact hchunks (hall c hc ▸ hc)
    rw [if_neg hnone, if_neg hsome, Delivery.handleSegments_append, ← hdelivered,
      Delivery.handleSegments_singleton]
    dsimp only
    split
    · rename_i hblank
      rw [Delivery.handleSegment, if_pos hblank]
    · rfl

/-- **The scanner delivers the segments of the file.** -/
theorem scanStep_eq_deliver {chunks : List (List UInt8)} (h : KeepsOpeners chunks) :
    scanStep chunks = deliver chunks.flatten := onEnd_eq (resting_chunks h)

end PlmCore.CadParser
