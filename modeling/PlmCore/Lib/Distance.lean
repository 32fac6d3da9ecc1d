/-
How many steps of a relation it takes to come from one element to another.

What lies at distance `n + 1` is what is one step from something at distance `n` and is not nearer, so
the elements at one distance after the other are found level by level. A level without elements ends
them.
-/
import Mathlib.Data.Fintype.Card
import Mathlib.Tactic.Common

set_option autoImplicit false

namespace PlmCore.Lib

variable {α : Type*} (r : α → α → Prop)

/-- It takes `n` steps from `a` to `b`. -/
def Steps : Nat → α → α → Prop
  | 0, a, b => a = b
  | n + 1, a, b => ∃ c, Steps n a c ∧ r c b

/-- The least number of steps from `a` to `b` is `n`. -/
def AtDistance (a : α) (n : Nat) (b : α) : Prop := Steps r n a b ∧ ∀ m < n, ¬ Steps r m a b

variable {r} {a b : α} {n m : Nat}

@[simp] theorem atDistance_zero : AtDistance r a 0 b ↔ a = b :=
  ⟨And.left, fun h => ⟨h, fun _ hm => absurd hm (Nat.not_lt_zero _)⟩⟩

theorem AtDistance.unique (hn : AtDistance r a n b) (hm : AtDistance r a m b) : n = m := by
  by_contra hne
  obtain hlt | hlt := Nat.lt_or_gt_of_ne hne
  · exact hm.2 n hlt hn.1
  · exact hn.2 m hlt hm.1

/-- What can be reached in `n` steps has a distance. -/
theorem Steps.exists_atDistance (h : Steps r n a b) : ∃ m ≤ n, AtDistance r a m b := by
  induction n using Nat.strongRecOn with
  | ind n ih =>
    by_cases hnear : ∃ m < n, Steps r m a b
    · obtain ⟨m, hm, hsteps⟩ := hnear
      obtain ⟨k, hk, hdistance⟩ := ih m hm hsteps
      exact ⟨k, hk.trans hm.le, hdistance⟩
    · exact ⟨n, Nat.le_refl n, h, fun m hm hsteps => hnear ⟨m, hm, hsteps⟩⟩

/-- **The next level.** -/
theorem atDistance_succ_iff : AtDistance r a (n + 1) b ↔
    (∃ c, AtDistance r a n c ∧ r c b) ∧ ∀ m ≤ n, ¬ AtDistance r a m b := by
  constructor
  · rintro ⟨⟨c, hc, hcb⟩, hnear⟩
    refine ⟨⟨c, ⟨hc, fun m hm hmc => ?_⟩, hcb⟩, fun m hm h => hnear m (Nat.lt_succ_of_le hm) h.1⟩
    exact hnear (m + 1) (Nat.succ_lt_succ hm) ⟨c, hmc, hcb⟩
  · rintro ⟨⟨c, hc, hcb⟩, hnear⟩
    refine ⟨⟨c, hc.1, hcb⟩, fun m hm hsteps => ?_⟩
    obtain ⟨k, hk, hdistance⟩ := hsteps.exists_atDistance
    exact hnear k (hk.trans (Nat.lt_succ_iff.mp hm)) hdistance

/-- No level before one with elements is empty. -/
theorem AtDistance.nearer (h : AtDistance r a n b) (hm : m ≤ n) : ∃ c, AtDistance r a m c := by
  induction n generalizing b with
  | zero => exact ⟨b, Nat.le_zero.mp hm ▸ h⟩
  | succ n ih =>
    obtain rfl | hlt := hm.eq_or_lt
    · exact ⟨b, h⟩
    · obtain ⟨⟨c, hc, -⟩, -⟩ := atDistance_succ_iff.mp h
      exact ih hc (Nat.lt_succ_iff.mp hlt)

/-- There are not more levels than elements. -/
theorem distances_le_card (U : Finset α) (h : ∀ i < n, ∃ b ∈ U, AtDistance r a i b) : n ≤ U.card := by
  choose f hU hdistance using h
  have hcard : (Finset.univ : Finset (Fin n)).card ≤ U.card := by
    refine Finset.card_le_card_of_injOn (fun i => f i i.isLt) (fun i _ => hU i i.isLt) ?_
    intro i _ j _ heq
    have hi := hdistance i i.isLt
    have hj := hdistance j j.isLt
    rw [show f i i.isLt = f j j.isLt from heq] at hi
    exact Fin.ext (hi.unique hj)
  rwa [Finset.card_univ, Fintype.card_fin] at hcard

end PlmCore.Lib
