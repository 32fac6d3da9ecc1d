/-
What JavaScript does with text: white space, `trim`, and the replacement of line ends.

A string is the list of its characters. White space is what `\s` and `trim` agree on: the white space
and the line terminators of the language.
-/
import Mathlib.Data.List.DropRight
import Mathlib.Tactic.Common

set_option autoImplicit false

namespace PlmCore.Lib

/-- `\s`, and what `trim` removes. -/
def isJsSpace (c : Char) : Bool :=
  (0x9 ≤ c.toNat && c.toNat ≤ 0xD) || c.toNat = 0x20 || c.toNat = 0xA0 || c.toNat = 0x1680
    || (0x2000 ≤ c.toNat && c.toNat ≤ 0x200A) || c.toNat = 0x2028 || c.toNat = 0x2029
    || c.toNat = 0x202F || c.toNat = 0x205F || c.toNat = 0x3000 || c.toNat = 0xFEFF

/-- `s.trim()`. -/
def jsTrim (cs : List Char) : List Char := (cs.dropWhile isJsSpace).rdropWhile isJsSpace

/-- `s.replace(/\r?\n/g, ' ')`. -/
def replaceNewlines : List Char → List Char
  | [] => []
  | '\r' :: '\n' :: cs => ' ' :: replaceNewlines cs
  | '\n' :: cs => ' ' :: replaceNewlines cs
  | c :: cs => c :: replaceNewlines cs

theorem isJsSpace_of_range {c : Char} (h : 0x21 ≤ c.toNat ∧ c.toNat < 0x80) : isJsSpace c = false := by
  unfold isJsSpace
  simp only [Bool.or_eq_false_iff, Bool.and_eq_false_iff, decide_eq_false_iff_not]
  omega

theorem isJsSpace_of_digit {c : Char} (h : c.isDigit = true) : isJsSpace c = false := by
  simp only [Char.isDigit, Bool.and_eq_true, decide_eq_true_eq, ge_iff_le, UInt32.le_iff_toNat_le] at h
  exact isJsSpace_of_range ⟨le_trans (by decide) h.1, lt_of_le_of_lt h.2 (by decide)⟩

theorem isJsSpace_of_upper {c : Char} (h : c.isUpper = true) : isJsSpace c = false := by
  have hrange : 0x41 ≤ c.val ∧ c.val ≤ 0x5A := of_decide_eq_true h
  simp only [UInt32.le_iff_toNat_le] at hrange
  exact isJsSpace_of_range ⟨le_trans (by decide) hrange.1, lt_of_le_of_lt hrange.2 (by decide)⟩

/-- A run of characters of a class, up to one that is not of the class. -/
theorem span_run {p : Char → Bool} {run : List Char} (hrun : ∀ c ∈ run, p c = true) (rest : List Char)
    (hrest : ∀ c ∈ rest.head?, p c = false) :
    (run ++ rest).takeWhile p = run ∧ (run ++ rest).dropWhile p = rest := by
  rw [List.takeWhile_append_of_pos hrun, List.dropWhile_append_of_pos hrun]
  cases rest with
  | nil => simp
  | cons c rest =>
    have hc : p c = false := hrest c rfl
    simp [hc]

/-! ## Replacing line ends -/

theorem replaceNewlines_cons {c : Char} (hr : c ≠ '\r') (hn : c ≠ '\n') (cs : List Char) :
    replaceNewlines (c :: cs) = c :: replaceNewlines cs := by
  rw [replaceNewlines]
  · rintro _ rfl
    exact absurd rfl hr
  · exact hn

/-- Characters that are not white space stay. -/
theorem replaceNewlines_append {cs : List Char} (hcs : ∀ c ∈ cs, isJsSpace c = false) (rest : List Char) :
    replaceNewlines (cs ++ rest) = cs ++ replaceNewlines rest := by
  induction cs with
  | nil => rfl
  | cons c cs ih =>
    have hc := hcs c List.mem_cons_self
    rw [List.cons_append, replaceNewlines_cons (by rintro rfl; exact absurd hc (by decide))
      (by rintro rfl; exact absurd hc (by decide)), ih fun d hd => hcs d (List.mem_cons_of_mem _ hd),
      List.cons_append]

/-- **White space stays white space**, and what follows it is replaced on its own. -/
theorem replaceNewlines_space {cs : List Char} (hcs : ∀ c ∈ cs, isJsSpace c = true) (rest : List Char)
    (hrest : ∀ c ∈ rest.head?, isJsSpace c = false) :
    ∃ spaces, (∀ c ∈ spaces, isJsSpace c = true) ∧
      replaceNewlines (cs ++ rest) = spaces ++ replaceNewlines rest := by
  induction cs using replaceNewlines.induct with
  | case1 => exact ⟨[], List.forall_mem_nil _, rfl⟩
  | case2 cs ih =>
    obtain ⟨spaces, hspaces, heq⟩ := ih fun c hc => hcs c (by simp [hc])
    refine ⟨' ' :: spaces, ?_, ?_⟩
    · exact List.forall_mem_cons.mpr ⟨by decide, hspaces⟩
    · rw [List.cons_append, List.cons_append, replaceNewlines, heq, List.cons_append]
  | case3 cs ih =>
    obtain ⟨spaces, hspaces, heq⟩ := ih fun c hc => hcs c (by simp [hc])
    refine ⟨' ' :: spaces, ?_, ?_⟩
    · exact List.forall_mem_cons.mpr ⟨by decide, hspaces⟩
    · rw [List.cons_append, replaceNewlines, heq, List.cons_append]
  | case4 c cs hr hn ih =>
    obtain ⟨spaces, hspaces, heq⟩ := ih fun d hd => hcs d (by simp [hd])
    refine ⟨c :: spaces, ?_, ?_⟩
    · exact List.forall_mem_cons.mpr ⟨hcs c List.mem_cons_self, hspaces⟩
    · rw [List.cons_append, replaceNewlines, heq, List.cons_append]
      · rintro tail rfl htail
        -- a line feed that follows is white space of `cs`, or begins `rest`
        cases cs with
        | nil =>
          rw [List.nil_append] at htail
          rw [htail] at hrest
          exact absurd (hrest '\n' rfl) (by decide)
        | cons d cs =>
          rw [List.cons_append, List.cons.injEq] at htail
          exact hr cs rfl (by rw [htail.1])
      · exact hn

/-! ## Trimming -/

/-- Black characters are not trimmed. -/
theorem mem_dropWhile {p : Char → Bool} {cs : List Char} {c : Char} (hc : p c = false) (h : c ∈ cs) :
    c ∈ cs.dropWhile p := by
  rw [← List.takeWhile_append_dropWhile (p := p) (l := cs), List.mem_append] at h
  obtain htake | hdrop := h
  · rw [List.mem_takeWhile_imp htake] at hc
    cases hc
  · exact hdrop

theorem mem_jsTrim {cs : List Char} {c : Char} (hc : isJsSpace c = false) (h : c ∈ cs) :
    c ∈ jsTrim cs := by
  rw [jsTrim, List.rdropWhile, List.mem_reverse]
  exact mem_dropWhile hc (List.mem_reverse.mpr (mem_dropWhile hc h))

/-- A black character stops the trimming at the end. -/
theorem rdropWhile_isJsSpace (text rest : List Char) {c : Char} (hc : isJsSpace c = false) :
    ∃ rest', (text ++ c :: rest).rdropWhile isJsSpace = text ++ c :: rest' ∧
      ((∀ d ∈ rest, isJsSpace d = true) → rest' = []) := by
  induction rest using List.reverseRecOn with
  | nil => exact ⟨[], List.rdropWhile_concat_neg _ _ _ (by simp [hc]), fun _ => rfl⟩
  | append_singleton rest a ih =>
    rw [← List.cons_append, ← List.append_assoc]
    by_cases ha : isJsSpace a = true
    · obtain ⟨rest', hrest', hspaces⟩ := ih
      rw [List.rdropWhile_concat_pos _ _ _ ha]
      exact ⟨rest', hrest', fun h => hspaces fun d hd => h d (List.mem_append_left _ hd)⟩
    · rw [List.rdropWhile_concat_neg _ _ _ ha]
      refine ⟨rest ++ [a], by simp, fun h => ?_⟩
      exact absurd (h a (by simp)) ha

/-- A text that begins after white space keeps all that comes before its last black character. -/
theorem jsTrim_prefix {before : List Char} {c : Char} (text : List Char)
    (hbefore : ∀ c ∈ before, isJsSpace c = true) (hhead : ∀ d ∈ text.head?, isJsSpace d = false) (hc : isJsSpace c = false)
    (rest : List Char) : ∃ rest', jsTrim (before ++ (text ++ c :: rest)) = text ++ c :: rest' ∧
      ((∀ d ∈ rest, isJsSpace d = true) → rest' = []) := by
  rw [jsTrim, (span_run hbefore _ ?_).2]
  · exact rdropWhile_isJsSpace text rest hc
  · cases text with
    | nil =>
      rintro d ⟨⟩
      exact hc
    | cons d text => exact hhead

end PlmCore.Lib
