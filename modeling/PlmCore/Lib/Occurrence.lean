/-
The first place where a list occurs in another one, from a given position on, and what the text before
that place does not contain.
-/
import Mathlib.Data.List.Infix
import Mathlib.Tactic.Common

set_option autoImplicit false

namespace PlmCore.Lib

variable {α : Type} [DecidableEq α]

/-- The first index from `start` on at which `pattern` occurs in `text`. -/
def indexOf (pattern text : List α) (start : Nat) : Option Nat :=
  (List.range' start (text.length + 1 - start)).find? fun i => pattern <+: text.drop i

variable {pattern text : List α} {start i : Nat}

theorem indexOf_eq_none (hpattern : pattern ≠ []) : indexOf pattern text start = none ↔
    ∀ j, start ≤ j → ¬ pattern <+: text.drop j := by
  rw [indexOf, List.find?_eq_none]
  simp only [List.mem_range'_1, decide_eq_true_eq]
  constructor
  · intro h j hj hbegins
    by_cases hlen : j ≤ text.length
    · exact h j ⟨hj, by omega⟩ hbegins
    · rw [List.drop_eq_nil_of_le (by omega)] at hbegins
      exact hpattern (List.prefix_nil.mp hbegins)
  · exact fun h j hj => h j hj.1

theorem indexOf_eq_some (hpattern : pattern ≠ []) : indexOf pattern text start = some i ↔
    start ≤ i ∧ pattern <+: text.drop i ∧ ∀ j, start ≤ j → j < i → ¬ pattern <+: text.drop j := by
  rw [indexOf, List.find?_range'_eq_some, List.mem_range'_1, decide_eq_true_eq]
  simp only [Bool.not_eq_true', decide_eq_false_iff_not]
  constructor
  · rintro ⟨hbegins, ⟨hle, -⟩, hfirst⟩
    exact ⟨hle, hbegins, hfirst⟩
  · rintro ⟨hle, hbegins, hfirst⟩
    refine ⟨hbegins, ⟨hle, ?_⟩, hfirst⟩
    have hlen := hbegins.length_le
    have hpos := List.length_pos_iff.mpr hpattern
    rw [List.length_drop] at hlen
    omega

omit [DecidableEq α] in
/-- A stretch that ends before the pattern could have occurred does not contain it. -/
theorem not_infix_of_first {stop : Nat} {w rest : List α}
    (h : ∀ j, start ≤ j → j < stop → ¬ pattern <+: text.drop j) (hsplit : text.drop start = w ++ rest)
    (hlen : start + w.length < stop + pattern.length) : ¬ pattern <:+: w := by
  rintro ⟨u, v, rfl⟩
  simp only [List.length_append] at hlen
  refine h (start + u.length) (by omega) (by omega) ⟨v ++ rest, ?_⟩
  rw [← List.drop_drop, hsplit, List.append_assoc u, List.append_assoc u, List.drop_left,
    List.append_assoc]

/-- **The first occurrence** splits the text. -/
theorem indexOf_split (hpattern : pattern ≠ []) (h : indexOf pattern text start = some i) :
    ∃ w rest, text.drop start = w ++ (pattern ++ rest) ∧ i = start + w.length ∧
      ¬ pattern <:+: w ++ pattern.dropLast := by
  obtain ⟨hle, ⟨rest, hrest⟩, hfirst⟩ := (indexOf_eq_some hpattern).mp h
  have hlen : pattern.length + rest.length = text.length - i := by
    rw [← List.length_append, hrest, List.length_drop]
  have hpos := List.length_pos_iff.mpr hpattern
  have hwlen : ((text.drop start).take (i - start)).length = i - start := by
    rw [List.length_take, List.length_drop]
    omega
  have hsplit : text.drop start = (text.drop start).take (i - start) ++ (pattern ++ rest) := by
    have hdrop : (text.drop start).drop (i - start) = pattern ++ rest := by
      rw [List.drop_drop, hrest]
      congr 1
      omega
    rw [← hdrop, List.take_append_drop]
  refine ⟨(text.drop start).take (i - start), rest, hsplit, by omega, ?_⟩
  have hbefore : text.drop start = ((text.drop start).take (i - start) ++ pattern.dropLast) ++
      ([pattern.getLast hpattern] ++ rest) := by
    rw [List.append_assoc, ← List.append_assoc pattern.dropLast, List.dropLast_append_getLast]
    exact hsplit
  refine not_infix_of_first hfirst hbefore ?_
  rw [List.length_append, hwlen, List.length_dropLast]
  omega

/-- Without an occurrence the rest of the text does not contain the pattern. -/
theorem not_infix_of_indexOf (hpattern : pattern ≠ []) (h : indexOf pattern text start = none) :
    ¬ pattern <:+: text.drop start := by
  have hnone : ∀ j, start ≤ j → j < start + text.length + 1 → ¬ pattern <+: text.drop j :=
    fun j hj _ => (indexOf_eq_none hpattern).mp h j hj
  refine not_infix_of_first hnone (List.append_nil _).symm ?_
  have hpos := List.length_pos_iff.mpr hpattern
  rw [List.length_drop]
  omega

/-- What was found ahead is still found from any position before it. -/
theorem indexOf_of_le {start' : Nat} (hpattern : pattern ≠ []) (hle : start ≤ start')
    (hahead : ∀ i, indexOf pattern text start = some i → start' ≤ i) :
    indexOf pattern text start' = indexOf pattern text start := by
  cases h : indexOf pattern text start with
  | none =>
    rw [indexOf_eq_none hpattern] at h ⊢
    exact fun j hj => h j (by omega)
  | some i =>
    have hstart' := hahead i h
    rw [indexOf_eq_some hpattern] at h ⊢
    exact ⟨hstart', h.2.1, fun j hj hlt => h.2.2 j (by omega) hlt⟩

end PlmCore.Lib
