/-
Definitions in levels, of which the nearest counts.

Each element has a key, and the elements come level by level. Of the elements with one key the first
is kept. What is kept depends on a level only up to the order of its elements, and levels that bring no
new key change nothing.
-/
import Mathlib.Data.List.Perm.Basic
import Mathlib.Tactic.Common

set_option autoImplicit false

namespace PlmCore.Lib

section Overlay

variable {α β : Type*} [DecidableEq β] (key : α → β)

/-- The elements whose key has not been seen, the first of each key. -/
def keepFirst : List β → List α → List α
  | _, [] => []
  | seen, x :: xs =>
    if key x ∈ seen then keepFirst seen xs else x :: keepFirst (key x :: seen) xs

variable {key} {seen seen' : List β} {l l' : List α}

/-- Only which keys have been seen matters. -/
theorem keepFirst_congr (h : ∀ k, k ∈ seen ↔ k ∈ seen') : keepFirst key seen l = keepFirst key seen' l := by
  induction l generalizing seen seen' with
  | nil => rfl
  | cons x xs ih =>
    have hcons : ∀ k, k ∈ key x :: seen ↔ k ∈ key x :: seen' := fun k => by simp [h]
    rw [keepFirst, keepFirst, ih h, ih hcons]
    simp only [h]

/-- Level after level. -/
theorem keepFirst_append (l l' : List α) :
    keepFirst key seen (l ++ l') = keepFirst key seen l ++ keepFirst key (l.map key ++ seen) l' := by
  induction l generalizing seen with
  | nil => rfl
  | cons x xs ih =>
    rw [List.cons_append, keepFirst, keepFirst]
    by_cases hx : key x ∈ seen
    · rw [if_pos hx, if_pos hx, ih]
      congr 1
      apply keepFirst_congr
      intro k
      simp only [List.map_cons, List.cons_append, List.mem_cons, List.mem_append]
      constructor
      · exact Or.inr
      · rintro (rfl | hk)
        · exact .inr hx
        · exact hk
    · rw [if_neg hx, if_neg hx, ih, List.cons_append]
      congr 2
      apply keepFirst_congr
      intro k
      simp only [List.map_cons, List.cons_append, List.mem_cons, List.mem_append]
      exact or_left_comm

/-- A level without a key twice keeps all that is new. -/
theorem keepFirst_of_nodup (h : (l.map key).Nodup) :
    keepFirst key seen l = l.filter fun x => key x ∉ seen := by
  induction l generalizing seen with
  | nil => rfl
  | cons x xs ih =>
    obtain ⟨hx, hxs⟩ := List.nodup_cons.mp h
    rw [keepFirst]
    by_cases hseen : key x ∈ seen
    · rw [if_pos hseen, ih hxs, List.filter_cons_of_neg (by simpa using hseen)]
    · rw [if_neg hseen, ih hxs, List.filter_cons_of_pos (by simpa using hseen)]
      congr 1
      apply List.filter_congr
      intro y hy
      have hne : key y ≠ key x := fun heq => hx (heq ▸ List.mem_map_of_mem hy)
      simp [hne]

theorem keepFirst_sublist : (keepFirst key seen l).Sublist l := by
  induction l generalizing seen with
  | nil => exact List.Sublist.slnil
  | cons x xs ih =>
    rw [keepFirst]
    by_cases hx : key x ∈ seen
    · rw [if_pos hx]
      exact ih.cons x
    · rw [if_neg hx]
      exact ih.cons_cons x

theorem keepFirst_map {γ : Type*} (f : γ → α) (l : List γ) :
    (keepFirst (fun x => key (f x)) seen l).map f = keepFirst key seen (l.map f) := by
  induction l generalizing seen with
  | nil => rfl
  | cons x xs ih =>
    rw [List.map_cons, keepFirst, keepFirst]
    by_cases hx : key (f x) ∈ seen
    · rw [if_pos hx, if_pos hx, ih]
    · rw [if_neg hx, if_neg hx, List.map_cons, ih]

/-- **Nothing is kept** exactly when every key has been seen. -/
theorem keepFirst_eq_nil_iff : keepFirst key seen l = [] ↔ ∀ x ∈ l, key x ∈ seen := by
  induction l generalizing seen with
  | nil => simp [keepFirst]
  | cons x xs ih =>
    rw [keepFirst]
    by_cases hx : key x ∈ seen
    · rw [if_pos hx, ih]
      simp [hx]
    · rw [if_neg hx]
      simp [hx]

/-- **The order within a level does not matter**, where no level has a key twice. -/
theorem keepFirst_flatten_perm {ls ls' : List (List α)} (h : List.Forall₂ List.Perm ls ls')
    (hnodup : ∀ l ∈ ls, (l.map key).Nodup) :
    (keepFirst key seen ls.flatten).Perm (keepFirst key seen ls'.flatten) := by
  induction h generalizing seen with
  | nil => exact List.Perm.refl _
  | @cons l l' ls ls' hl _ ih =>
    have hkeys := hnodup l List.mem_cons_self
    rw [List.flatten_cons, List.flatten_cons, keepFirst_append, keepFirst_append,
      keepFirst_of_nodup hkeys, keepFirst_of_nodup ((hl.map key).nodup_iff.mp hkeys)]
    refine (hl.filter _).append ?_
    have hseen : ∀ k, k ∈ l'.map key ++ seen ↔ k ∈ l.map key ++ seen := fun k => by
      rw [List.mem_append, List.mem_append, (hl.map key).mem_iff]
    rw [keepFirst_congr hseen]
    exact ih fun l hl => hnodup l (List.mem_cons_of_mem _ hl)

end Overlay

end PlmCore.Lib
