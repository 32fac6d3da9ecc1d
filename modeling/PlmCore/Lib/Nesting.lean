/-
Cutting a text at the separators outside all brackets.

Each symbol has a weight, one for an opening and minus one for a closing bracket, and the weight of a
text is its nesting. A reader that knows nothing but weights cuts at the separators at which the weight
since the last cut is zero. It finds the parts a text was joined from exactly when no part has a
separator at weight zero and every part but the last has weight zero.
-/
import Mathlib.Algebra.BigOperators.Group.List.Basic
import Mathlib.Algebra.GroupWithZero.Nat
import Mathlib.Algebra.Ring.Int.Defs
import Mathlib.Tactic.Common

set_option autoImplicit false

namespace PlmCore.Lib

variable {α : Type*}

/-- The weight of a text. -/
def weight (w : α → Int) (xs : List α) : Int := (xs.map w).sum

section Weight

variable (w : α → Int)

@[simp] theorem weight_nil : weight w [] = 0 := rfl

@[simp] theorem weight_cons (a : α) (xs : List α) : weight w (a :: xs) = w a + weight w xs := rfl

@[simp] theorem weight_append (xs ys : List α) : weight w (xs ++ ys) = weight w xs + weight w ys := by
  simp [weight]

/-- A text without brackets. -/
theorem weight_eq_zero {xs : List α} (h : ∀ a ∈ xs, w a = 0) : weight w xs = 0 := by
  induction xs with
  | nil => rfl
  | cons a xs ih =>
    rw [weight_cons, h a List.mem_cons_self, ih fun b hb => h b (List.mem_cons_of_mem _ hb), Int.add_zero]

end Weight

variable [DecidableEq α] (w : α → Int) (sep : α)

/-- The part that is being read at a weight, and the parts behind it. -/
def cut : Int → List α → List α × List (List α)
  | _, [] => ([], [])
  | d, a :: as =>
    if a = sep ∧ d = 0 then ([], (cut 0 as).1 :: (cut 0 as).2)
    else (a :: (cut (d + w a) as).1, (cut (d + w a) as).2)

/-- The parts of a text. -/
def topLevel (xs : List α) : List (List α) := (cut w sep 0 xs).1 :: (cut w sep 0 xs).2

/-- No separator of the text stands at weight zero, counted from `d`. -/
def Uncut (d : Int) (xs : List α) : Prop := ∀ u v, xs = u ++ sep :: v → d + weight w u ≠ 0

variable {w sep}

omit [DecidableEq α] in
theorem uncut_nil (d : Int) : Uncut w sep d [] := fun u v h => by simp at h

omit [DecidableEq α] in
theorem uncut_cons {d : Int} {a : α} {xs : List α} :
    Uncut w sep d (a :: xs) ↔ ¬ (a = sep ∧ d = 0) ∧ Uncut w sep (d + w a) xs := by
  constructor
  · intro h
    refine ⟨?_, fun u v heq => ?_⟩
    · rintro ⟨rfl, rfl⟩
      exact h [] xs rfl (by simp)
    · have hcons := h (a :: u) v (congrArg (a :: ·) heq)
      rwa [weight_cons, ← Int.add_assoc] at hcons
  · rintro ⟨hhere, hrest⟩ u v heq
    cases u with
    | nil =>
      obtain ⟨rfl, -⟩ := List.cons.inj heq
      exact fun hzero => hhere ⟨rfl, by simpa using hzero⟩
    | cons b u =>
      obtain ⟨rfl, htail⟩ := List.cons.inj heq
      rw [weight_cons, ← Int.add_assoc]
      exact hrest u v htail

omit [DecidableEq α] in
theorem uncut_append {d : Int} {xs ys : List α} : Uncut w sep d (xs ++ ys) ↔
    Uncut w sep d xs ∧ Uncut w sep (d + weight w xs) ys := by
  induction xs generalizing d with
  | nil => simp [uncut_nil]
  | cons a xs ih =>
    rw [List.cons_append, uncut_cons, ih, uncut_cons, weight_cons, ← Int.add_assoc, and_assoc]

omit [DecidableEq α] in
theorem uncut_of_notMem {xs : List α} (h : sep ∉ xs) (d : Int) : Uncut w sep d xs := by
  rintro u v rfl
  exact absurd (List.mem_append_right u List.mem_cons_self) h

/-! ## What the parts are -/

omit [DecidableEq α] in
/-- All parts but the last one, when there is one more in front. -/
theorem weight_dropLast_cons {p : List α} {ps : List (List α)} (hp : ps ≠ [] → weight w p = 0)
    (hps : ∀ q ∈ ps.dropLast, weight w q = 0) : ∀ q ∈ (p :: ps).dropLast, weight w q = 0 := by
  intro q hq
  cases ps with
  | nil => cases hq
  | cons r rs =>
    rw [List.dropLast_cons_cons] at hq
    obtain rfl | hq := List.mem_cons.mp hq
    · exact hp (List.cons_ne_nil r rs)
    · exact hps q hq

theorem cut_spec (xs : List α) (d : Int) :
    [sep].intercalate ((cut w sep d xs).1 :: (cut w sep d xs).2) = xs ∧
      Uncut w sep d (cut w sep d xs).1 ∧ (∀ p ∈ (cut w sep d xs).2, Uncut w sep 0 p) ∧
      ((cut w sep d xs).2 ≠ [] → d + weight w (cut w sep d xs).1 = 0) ∧
      ∀ p ∈ (cut w sep d xs).2.dropLast, weight w p = 0 := by
  induction xs generalizing d with
  | nil => exact ⟨rfl, uncut_nil d, fun p hp => (nomatch hp), fun h => absurd rfl h, fun p hp => nomatch hp⟩
  | cons a xs ih =>
    unfold cut
    split
    · rename_i hcut
      obtain ⟨rfl, rfl⟩ := hcut
      obtain ⟨htext, hfirst, hothers, hweight, hweights⟩ := ih 0
      have hweight' : (cut w a 0 xs).2 ≠ [] → weight w (cut w a 0 xs).1 = 0 := by simpa using hweight
      refine ⟨?_, uncut_nil 0, ?_, fun _ => by simp, weight_dropLast_cons hweight' hweights⟩
      · rw [List.intercalate_cons_cons, htext]
        rfl
      · intro p hp
        obtain rfl | hp := List.mem_cons.mp hp
        · exact hfirst
        · exact hothers p hp
    · rename_i hcut
      obtain ⟨htext, hfirst, hothers, hweight, hweights⟩ := ih (d + w a)
      refine ⟨?_, uncut_cons.mpr ⟨hcut, hfirst⟩, hothers, fun hne => ?_, hweights⟩
      · rw [List.intercalate_cons_cons_left, htext]
      · rw [weight_cons, ← Int.add_assoc]
        exact hweight hne

theorem topLevel_ne_nil (xs : List α) : topLevel w sep xs ≠ [] := List.cons_ne_nil _ _

/-- The parts of a text, joined again, are the text. -/
theorem intercalate_topLevel (xs : List α) : [sep].intercalate (topLevel w sep xs) = xs :=
  (cut_spec xs 0).1

/-- The parts, joined with separators, that a reader of weights takes for parts. -/
def Cuttable (w : α → Int) (sep : α) (ps : List (List α)) : Prop :=
  (∀ p ∈ ps, Uncut w sep 0 p) ∧ ∀ p ∈ ps.dropLast, weight w p = 0

theorem cuttable_topLevel (xs : List α) : Cuttable w sep (topLevel w sep xs) := by
  obtain ⟨-, hfirst, hothers, hweight, hweights⟩ := cut_spec (w := w) xs 0
  refine ⟨fun p hp => ?_, weight_dropLast_cons (by simpa using hweight) hweights⟩
  obtain rfl | hp := List.mem_cons.mp hp
  · exact hfirst
  · exact hothers p hp

/-! ## Finding parts again -/

/-- A part is read through to its end. -/
theorem cut_append {p : List α} {d : Int} (h : Uncut w sep d p) (rest : List α) :
    cut w sep d (p ++ rest) =
      (p ++ (cut w sep (d + weight w p) rest).1, (cut w sep (d + weight w p) rest).2) := by
  induction p generalizing d with
  | nil => simp
  | cons a p ih =>
    obtain ⟨hhere, hrest⟩ := uncut_cons.mp h
    rw [List.cons_append, cut, if_neg hhere, ih hrest, weight_cons, ← Int.add_assoc]
    rfl

/-- **Cutting finds the parts** a text was joined from exactly when they can be told by weights. -/
theorem topLevel_intercalate_iff {ps : List (List α)} (hne : ps ≠ []) :
    topLevel w sep ([sep].intercalate ps) = ps ↔ Cuttable w sep ps := by
  refine ⟨fun h => h ▸ cuttable_topLevel _, fun h => ?_⟩
  induction ps with
  | nil => exact absurd rfl hne
  | cons p ps ih =>
    have hp := h.1 p List.mem_cons_self
    cases ps with
    | nil =>
      have hcut := cut_append hp []
      rw [List.append_nil] at hcut
      rw [List.intercalate_singleton, topLevel, hcut]
      simp [cut]
    | cons q qs =>
      have hweight : weight w p = 0 := h.2 p (by simp)
      have hrest : Cuttable w sep (q :: qs) :=
        ⟨fun r hr => h.1 r (List.mem_cons_of_mem _ hr), fun r hr => h.2 r (by simp [hr])⟩
      rw [List.intercalate_cons_cons, List.append_assoc, topLevel, cut_append hp, hweight, Int.add_zero,
        List.singleton_append, cut, if_pos ⟨rfl, rfl⟩]
      have hih := ih (List.cons_ne_nil q qs) hrest
      unfold topLevel at hih
      simp only [List.append_nil, hih]

/-! ## Counting separators -/

theorem eq_of_count {p q t t' : List α} (htext : p ++ sep :: t = q ++ sep :: t')
    (hcount : p.count sep = q.count sep) : p = q ∧ t = t' := by
  obtain ⟨x, rfl, hx⟩ | ⟨x, rfl, hx⟩ := List.append_eq_append_iff.mp htext
  · cases x with
    | nil => exact ⟨(List.append_nil p).symm, (List.cons.inj hx).2⟩
    | cons a x =>
      obtain ⟨rfl, -⟩ := List.cons.inj hx
      rw [List.count_append, List.count_cons_self] at hcount
      omega
  · cases x with
    | nil => exact ⟨List.append_nil q, (List.cons.inj hx).2.symm⟩
    | cons a x =>
      obtain ⟨rfl, -⟩ := List.cons.inj hx
      rw [List.count_append, List.count_cons_self] at hcount
      omega

/-- Two ways to cut a text at separators agree when they leave the same number of them in each part. -/
theorem eq_of_counts {ps qs : List (List α)} (htext : [sep].intercalate ps = [sep].intercalate qs)
    (hcounts : ps.map (List.count sep) = qs.map (List.count sep)) : ps = qs := by
  induction ps generalizing qs with
  | nil => exact (List.map_eq_nil_iff.mp hcounts.symm).symm
  | cons p ps ih =>
    cases qs with
    | nil => cases hcounts
    | cons q qs =>
      obtain ⟨hcount, hothers⟩ := List.cons.inj hcounts
      cases ps with
      | nil =>
        obtain rfl : qs = [] := List.map_eq_nil_iff.mp hothers.symm
        simpa using htext
      | cons p' ps =>
        cases qs with
        | nil => cases hothers
        | cons q' qs =>
          rw [List.intercalate_cons_cons, List.intercalate_cons_cons, List.append_assoc,
            List.append_assoc] at htext
          obtain ⟨rfl, hrest⟩ := eq_of_count htext hcount
          rw [ih hrest hothers]

theorem count_intercalate {ps : List (List α)} (hne : ps ≠ []) :
    ([sep].intercalate ps).count sep + 1 = (ps.map (List.count sep)).sum + ps.length := by
  induction ps with
  | nil => exact absurd rfl hne
  | cons p ps ih =>
    cases ps with
    | nil => simp
    | cons q qs =>
      have hrest := ih (List.cons_ne_nil q qs)
      rw [List.intercalate_cons_cons, List.count_append, List.count_append, List.count_singleton_self,
        List.map_cons, List.sum_cons, List.length_cons]
      omega

end PlmCore.Lib
