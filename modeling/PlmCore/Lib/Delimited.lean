/-
Splitting a text at every occurrence of a delimiter.

`cutFirst` finds the first occurrence, `splitSequence` splits at it and goes on behind it. No part holds
the delimiter. A symbol the delimiter does not have separates occurrences: what stands before it can be
split by itself.
-/
import Mathlib.Data.List.Infix
import Mathlib.Tactic.Common

set_option autoImplicit false

namespace PlmCore.Lib

variable {α : Type*} [DecidableEq α]

/-- What stands before and behind the first occurrence. -/
def cutFirst (pat : List α) : List α → Option (List α × List α)
  | [] => if pat = [] then some ([], []) else none
  | c :: s =>
    if pat <+: c :: s then some ([], (c :: s).drop pat.length)
    else (cutFirst pat s).map fun q => (c :: q.1, q.2)

/-- The parts, for a number of delimiters. -/
def splitTimes (pat : List α) : Nat → List α → List (List α)
  | 0, s => [s]
  | n + 1, s =>
    match cutFirst pat s with
    | none => [s]
    | some (before, rest) => before :: splitTimes pat n rest

/-- The parts of a text. There are not more delimiters than symbols. -/
def splitSequence (pat s : List α) : List (List α) := splitTimes pat s.length s

variable {pat : List α}

/-! ## The first occurrence -/

theorem eq_of_cutFirst {s before rest : List α} (h : cutFirst pat s = some (before, rest)) :
    s = before ++ (pat ++ rest) := by
  induction s generalizing before with
  | nil =>
    unfold cutFirst at h
    split at h
    · rename_i hpat
      cases h
      rw [hpat]
      rfl
    · cases h
  | cons c s ih =>
    unfold cutFirst at h
    split at h
    · rename_i hpre
      cases h
      exact (List.prefix_iff_eq_append.mp hpre).symm
    · obtain ⟨⟨before, rest⟩, hq, heq⟩ := Option.map_eq_some_iff.mp h
      cases heq
      rw [ih hq]
      rfl

theorem cutFirst_eq_none_iff (hpat : pat ≠ []) {s : List α} : cutFirst pat s = none ↔ ¬ pat <:+: s := by
  induction s with
  | nil => simp [cutFirst, hpat]
  | cons c s ih =>
    rw [List.infix_cons_iff, cutFirst]
    split
    · rename_i hpre
      simp [hpre]
    · rename_i hpre
      rw [Option.map_eq_none_iff, ih]
      simp [hpre]

/-- Before the first occurrence there is none. -/
theorem not_infix_of_cutFirst (hpat : pat ≠ []) {s before rest : List α}
    (h : cutFirst pat s = some (before, rest)) : ¬ pat <:+: before := by
  induction s generalizing before with
  | nil =>
    rw [cutFirst, if_neg hpat] at h
    cases h
  | cons c s ih =>
    unfold cutFirst at h
    split at h
    · cases h
      rwa [List.infix_nil]
    · rename_i hpre
      obtain ⟨⟨before, rest'⟩, hq, heq⟩ := Option.map_eq_some_iff.mp h
      cases heq
      rw [List.infix_cons_iff]
      rintro (hfirst | hlater)
      · have hsplit := eq_of_cutFirst hq
        refine hpre (hfirst.trans ?_)
        rw [hsplit]
        exact List.prefix_append (c :: before) _
      · exact ih hq hlater

omit [DecidableEq α] in
theorem prefix_of_append_cons {c : α} (hc : c ∉ pat) {x y : List α} (h : pat <+: x ++ c :: y) : pat <+: x := by
  obtain hle | hle := List.prefix_or_prefix_of_prefix h (List.prefix_append x (c :: y))
  · exact hle
  · obtain ⟨t, rfl⟩ := hle
    rw [List.prefix_append_right_inj] at h
    cases t with
    | nil => rw [List.append_nil]
    | cons d t =>
      obtain ⟨rfl, -⟩ := List.cons_prefix_cons.mp h
      exact absurd (List.mem_append_right x List.mem_cons_self) hc

theorem cutFirst_self (hpat : pat ≠ []) (rest : List α) : cutFirst pat (pat ++ rest) = some ([], rest) := by
  cases pat with
  | nil => exact absurd rfl hpat
  | cons c pat => rw [List.cons_append, cutFirst, if_pos ⟨rest, rfl⟩, ← List.cons_append, List.drop_left]

theorem cutFirst_cons_of_not_prefix {c : α} {s : List α} (h : ¬ pat <+: c :: s) :
    cutFirst pat (c :: s) = (cutFirst pat s).map fun q => (c :: q.1, q.2) := by
  rw [cutFirst, if_neg h]

/-- Text without the first symbol of the delimiter is passed over. -/
theorem cutFirst_append_of_notMem {c : α} {x : List α} (hx : c ∉ x) (s : List α) :
    cutFirst (c :: pat) (x ++ s) = (cutFirst (c :: pat) s).map fun q => (x ++ q.1, q.2) := by
  induction x with
  | nil => simp
  | cons d x ih =>
    rw [List.mem_cons, not_or] at hx
    have hpre : ¬ c :: pat <+: d :: (x ++ s) := fun h => hx.1 (List.cons_prefix_cons.mp h).1
    rw [List.cons_append, cutFirst_cons_of_not_prefix hpre, ih hx.2, Option.map_map]
    rfl

/-- A symbol that is not in the delimiter separates what can be searched by itself. -/
theorem cutFirst_append_cons {c : α} (hc : c ∉ pat) (hpat : pat ≠ []) (x y : List α) :
    cutFirst pat (x ++ c :: y) =
      match cutFirst pat x with
      | some (before, rest) => some (before, rest ++ c :: y)
      | none => (cutFirst pat y).map fun q => (x ++ c :: q.1, q.2) := by
  induction x with
  | nil =>
    have hpre : ¬ pat <+: c :: y := by
      intro h
      have hnil := prefix_of_append_cons (x := []) hc h
      exact hpat (List.prefix_nil.mp hnil)
    rw [List.nil_append, cutFirst_cons_of_not_prefix hpre, cutFirst, if_neg hpat]
    rfl
  | cons d x ih =>
    rw [List.cons_append, cutFirst, cutFirst]
    by_cases hpre : pat <+: d :: x
    · have hlong : pat <+: d :: (x ++ c :: y) := hpre.trans (List.prefix_append (d :: x) _)
      rw [if_pos hlong, if_pos hpre]
      dsimp only
      rw [← List.cons_append, List.drop_append_of_le_length hpre.length_le]
    · have hlong : ¬ pat <+: d :: (x ++ c :: y) := fun h => hpre (prefix_of_append_cons hc h)
      rw [if_neg hlong, if_neg hpre, ih]
      cases cutFirst pat x with
      | some q => rfl
      | none => simp [Function.comp_def]

omit [DecidableEq α] in
/-- The same for occurrences. -/
theorem infix_append_cons_iff {c : α} (hc : c ∉ pat) (hpat : pat ≠ []) {x y : List α} :
    pat <:+: x ++ c :: y ↔ pat <:+: x ∨ pat <:+: y := by
  constructor
  · intro h
    induction x with
    | nil =>
      obtain hpre | hrest := List.infix_cons_iff.mp h
      · have hnil := prefix_of_append_cons (x := []) hc hpre
        exact absurd (List.prefix_nil.mp hnil) hpat
      · exact .inr hrest
    | cons d x ih =>
      obtain hpre | hrest := List.infix_cons_iff.mp h
      · exact .inl (prefix_of_append_cons (x := d :: x) hc hpre).isInfix
      · exact (ih hrest).imp_left fun h => List.infix_cons_iff.mpr (.inr h)
  · rintro (h | h)
    · exact h.trans (List.prefix_append x _).isInfix
    · exact h.trans ⟨x ++ [c], [], by simp⟩

omit [DecidableEq α] in
theorem infix_cons_iff_of_notMem {c : α} (hc : c ∉ pat) (hpat : pat ≠ []) {y : List α} :
    pat <:+: c :: y ↔ pat <:+: y := by
  have h := infix_append_cons_iff (x := []) (y := y) hc hpat
  rw [List.nil_append, List.infix_nil] at h
  rw [h]
  exact or_iff_right hpat

/-! ## All parts -/

theorem length_lt_of_cutFirst (hpat : pat ≠ []) {s before rest : List α}
    (h : cutFirst pat s = some (before, rest)) : rest.length < s.length := by
  have hpos := List.length_pos_iff.mpr hpat
  rw [eq_of_cutFirst h, List.length_append, List.length_append]
  omega

theorem splitTimes_nil (hpat : pat ≠ []) (n : Nat) : splitTimes pat n [] = [[]] := by
  cases n with
  | zero => rfl
  | succ n => simp [splitTimes, cutFirst, hpat]

/-- It does not matter how many delimiters are allowed for when there are enough. -/
theorem splitTimes_congr (hpat : pat ≠ []) {n m : Nat} {s : List α} (hn : s.length ≤ n) (hm : s.length ≤ m) :
    splitTimes pat n s = splitTimes pat m s := by
  induction n generalizing m s with
  | zero =>
    obtain rfl := List.length_eq_zero_iff.mp (Nat.le_zero.mp hn)
    rw [splitTimes_nil hpat, splitTimes_nil hpat]
  | succ n ih =>
    cases m with
    | zero =>
      obtain rfl := List.length_eq_zero_iff.mp (Nat.le_zero.mp hm)
      rw [splitTimes_nil hpat, splitTimes_nil hpat]
    | succ m =>
      rw [splitTimes, splitTimes]
      split
      · rfl
      · rename_i before rest hfirst
        have hlt := length_lt_of_cutFirst hpat hfirst
        exact congrArg (before :: ·) (ih (by omega) (by omega))

/-- One delimiter after the other. -/
theorem splitSequence_eq (hpat : pat ≠ []) (s : List α) :
    splitSequence pat s =
      match cutFirst pat s with
      | none => [s]
      | some (before, rest) => before :: splitSequence pat rest := by
  rw [splitSequence, splitTimes_congr hpat (Nat.le_refl _) (Nat.le_succ s.length), splitTimes]
  split
  · rfl
  · rename_i before rest hfirst
    have hlt := length_lt_of_cutFirst hpat hfirst
    exact congrArg (before :: ·) (splitTimes_congr hpat (by omega) (Nat.le_refl _))

theorem splitSequence_of_not_infix (hpat : pat ≠ []) {s : List α} (h : ¬ pat <:+: s) :
    splitSequence pat s = [s] := by
  rw [splitSequence_eq hpat, (cutFirst_eq_none_iff hpat).mpr h]

/-- No part holds the delimiter. -/
theorem not_infix_of_mem (hpat : pat ≠ []) {s p : List α} (h : p ∈ splitSequence pat s) : ¬ pat <:+: p := by
  induction hn : s.length using Nat.strong_induction_on generalizing s with
  | _ n ih =>
    subst hn
    rw [splitSequence_eq hpat] at h
    split at h
    · rename_i hnone
      rw [List.mem_singleton.mp h]
      exact (cutFirst_eq_none_iff hpat).mp hnone
    · rename_i before rest hfirst
      obtain rfl | h := List.mem_cons.mp h
      · exact not_infix_of_cutFirst hpat hfirst
      · exact ih _ (length_lt_of_cutFirst hpat hfirst) h rfl

/-- The parts are in the text. -/
theorem infix_of_mem (hpat : pat ≠ []) {s p : List α} (h : p ∈ splitSequence pat s) : p <:+: s := by
  induction hn : s.length using Nat.strong_induction_on generalizing s with
  | _ n ih =>
    subst hn
    rw [splitSequence_eq hpat] at h
    split at h
    · rw [List.mem_singleton.mp h]
    · rename_i before rest hfirst
      have hsplit := eq_of_cutFirst hfirst
      obtain rfl | h := List.mem_cons.mp h
      · rw [hsplit]
        exact (List.prefix_append p _).isInfix
      · refine (ih _ (length_lt_of_cutFirst hpat hfirst) h rfl).trans ?_
        rw [hsplit, ← List.append_assoc]
        exact (List.suffix_append _ rest).isInfix

/-- **A text that ends with a symbol the delimiter does not have** is split by itself. -/
theorem splitSequence_append (hpat : pat ≠ []) {c : α} (hc : c ∉ pat) (x rest : List α) :
    splitSequence pat (x ++ c :: (pat ++ rest)) =
      splitSequence pat (x ++ [c]) ++ splitSequence pat rest := by
  have hnil : cutFirst pat [] = none := if_neg hpat
  induction hn : x.length using Nat.strong_induction_on generalizing x with
  | _ n ih =>
    subst hn
    rw [splitSequence_eq hpat (x ++ c :: (pat ++ rest)), splitSequence_eq hpat (x ++ [c]),
      cutFirst_append_cons hc hpat, cutFirst_append_cons hc hpat, cutFirst_self hpat, hnil]
    cases hfirst : cutFirst pat x with
    | none => simp
    | some q =>
      have hrest := ih _ (length_lt_of_cutFirst hpat hfirst) q.2 rfl
      simpa using hrest

end PlmCore.Lib
