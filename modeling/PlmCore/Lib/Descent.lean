/-
A recursion down a finite graph whose cycles are broken by marks.

The recursion goes from a vertex to its successors. Some vertices are marked when they are
entered, and a marked vertex is not entered again; the others are said to waver and may be
entered any number of times. When no cycle consists of wavering vertices only, `rank` falls
with each call, so the depth of the recursion has a bound.
-/
import Mathlib.Algebra.Group.Nat.Defs
import Mathlib.Data.Finset.Card
import Mathlib.Logic.Relation

set_option autoImplicit false

namespace PlmCore.Lib

open Relation

section Descent

variable {V : Type} [DecidableEq V] (R : V → V → Prop) (wavers : V → Prop)

/-- An edge between two wavering vertices. -/
def Swaying (p q : V) : Prop := R p q ∧ wavers p ∧ wavers q

open Classical in
/-- What a wavering vertex reaches by wavering vertices, itself included. -/
noncomputable def ahead (vertices : Finset V) (p : V) : Finset V :=
  vertices.filter fun q => wavers p ∧ ReflTransGen (Swaying R wavers) p q

/-- First the vertices without a mark count, then the wavering ones ahead. -/
noncomputable def rank (vertices seen : Finset V) (p : V) : Nat :=
  (vertices \ seen).card * (vertices.card + 1) + (ahead R wavers vertices p).card

variable {R wavers} {vertices seen : Finset V} {p q : V}

omit [DecidableEq V] in
theorem mem_ahead : q ∈ ahead R wavers vertices p ↔
    q ∈ vertices ∧ wavers p ∧ ReflTransGen (Swaying R wavers) p q := by
  classical exact Finset.mem_filter

omit [DecidableEq V] in
theorem card_ahead_le : (ahead R wavers vertices p).card ≤ vertices.card :=
  Finset.card_le_card fun _ hq => (mem_ahead.mp hq).1

theorem rank_lt_bound : rank R wavers vertices seen p < (vertices.card + 1) ^ 2 := by
  have hunseen : (vertices \ seen).card ≤ vertices.card := Finset.card_le_card Finset.sdiff_subset
  have hahead : (ahead R wavers vertices p).card ≤ vertices.card := card_ahead_le
  have hmul := Nat.mul_le_mul_right (vertices.card + 1) hunseen
  rw [rank, Nat.pow_two, Nat.succ_mul]
  omega

/-- Marking a vertex lets the rank fall, wherever the recursion goes from it. -/
theorem rank_insert_lt (hp : p ∈ vertices) (hseen : p ∉ seen) :
    rank R wavers vertices (insert p seen) q < rank R wavers vertices seen p := by
  have hless : (vertices \ insert p seen).card < (vertices \ seen).card := by
    apply Finset.card_lt_card
    rw [Finset.ssubset_iff_of_subset (Finset.sdiff_subset_sdiff (Finset.Subset.refl _)
      (Finset.subset_insert p seen))]
    refine ⟨p, Finset.mem_sdiff.mpr ⟨hp, hseen⟩, ?_⟩
    simp
  have hahead : (ahead R wavers vertices q).card ≤ vertices.card := card_ahead_le
  have hmul := Nat.mul_le_mul_right (vertices.card + 1) hless
  rw [Nat.succ_mul] at hmul
  unfold rank
  omega

/-- From a wavering vertex that lies on no wavering cycle the rank falls with no new mark. -/
theorem rank_step_lt (hp : p ∈ vertices) (hwavers : wavers p) (hR : R p q)
    (hcycle : ¬ TransGen (Swaying R wavers) p p) :
    rank R wavers vertices seen q < rank R wavers vertices seen p := by
  have hself : p ∈ ahead R wavers vertices p :=
    mem_ahead.mpr ⟨hp, hwavers, ReflTransGen.refl⟩
  have hless : (ahead R wavers vertices q).card < (ahead R wavers vertices p).card := by
    apply Finset.card_lt_card
    rw [Finset.ssubset_iff_of_subset]
    · refine ⟨p, hself, ?_⟩
      intro hback
      obtain ⟨-, hq, hpath⟩ := mem_ahead.mp hback
      exact hcycle (TransGen.head' ⟨hR, hwavers, hq⟩ hpath)
    · intro r hr
      obtain ⟨hrv, hq, hpath⟩ := mem_ahead.mp hr
      exact mem_ahead.mpr ⟨hrv, hwavers, hpath.head ⟨hR, hwavers, hq⟩⟩
  unfold rank
  omega

end Descent

end PlmCore.Lib
