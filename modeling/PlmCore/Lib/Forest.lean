/-
Forests given by a parent function.

Each node has one parent at most, so the way up is a walk. Giving a node another parent makes a
cycle exactly when the new parent lies below the node. Where no node lies above itself and only
finitely many have a parent, every walk up comes to a root.
-/
import Mathlib.Data.Finset.Dedup
import PlmCore.Lib.Descent
import PlmCore.Lib.Walk

set_option autoImplicit false

namespace PlmCore.Lib

open Relation

section Forest

variable {α : Type}

/-- `b` lies above `a`. -/
def Above (parent : α → Option α) (a b : α) : Prop := TransGen (fun x y => parent x = some y) a b

/-- No node lies above itself. -/
def Acyclic (parent : α → Option α) : Prop := ∀ a, ¬ Above parent a a

variable {parent : α → Option α} {a b c p x y : α} {q : Option α}

theorem above_iff : Above parent a b ↔ ∃ p, parent a = some p ∧ ComesTo parent p b :=
  TransGen.head'_iff

/-- A parent of higher rank than each of its children leaves no cycle. -/
theorem acyclic_of_rank (rank : α → Nat) (h : ∀ x y, parent x = some y → rank x < rank y) :
    Acyclic parent := by
  intro a ha
  have hlt : ∀ y, Above parent a y → rank a < rank y := by
    intro y hy
    induction hy with
    | single hstep => exact h _ _ hstep
    | tail _ hstep ih => exact ih.trans (h _ _ hstep)
  exact lt_irrefl _ (hlt a ha)

theorem Above.comesTo (h : Above parent a b) : ComesTo parent a b := TransGen.to_reflTransGen h

theorem comesTo_iff : ComesTo parent a b ↔ a = b ∨ Above parent a b := by
  rw [ComesTo, reflTransGen_iff_eq_or_transGen]
  exact or_congr_left eq_comm

theorem ComesTo.trans (h : ComesTo parent a b) (h' : ComesTo parent b c) : ComesTo parent a c :=
  ReflTransGen.trans h h'

/-! ## The way up as a list -/

/-- The way up that stops at a node met before, with the steps it has left. -/
def climb [DecidableEq α] (parent : α → Option α) : Nat → List α → Option α → List α
  | 0, _, _ => []
  | _ + 1, _, none => []
  | n + 1, visited, some a =>
    if a ∈ visited then [] else a :: climb parent n (a :: visited) (parent a)

/-- In a forest no node is met twice. -/
theorem climb_eq_places [DecidableEq α] (h : Acyclic parent) {n : Nat} {visited : List α}
    (hvisited : ∀ v ∈ visited, Above parent v a) :
    climb parent n visited (some a) = places parent n a := by
  induction n generalizing visited a with
  | zero => rfl
  | succ n ih =>
    have hnew : a ∉ visited := fun ha => h a (hvisited a ha)
    rw [climb, if_neg hnew, places]
    cases hp : parent a with
    | none => cases n <;> rfl
    | some p =>
      rw [Option.elim_some, ih]
      intro v hv
      obtain rfl | hv := List.mem_cons.mp hv
      · exact Relation.TransGen.single hp
      · exact (hvisited v hv).tail hp

theorem nodup_places (h : Acyclic parent) (n : Nat) : (places parent n a).Nodup := by
  induction n generalizing a with
  | zero => exact List.nodup_nil
  | succ n ih =>
    rw [places]
    cases hp : parent a with
    | none => simp
    | some p =>
      refine List.nodup_cons.mpr ⟨fun hmem => ?_, ih⟩
      obtain ⟨m, -, hm⟩ := mem_places.mp hmem
      exact h a (above_iff.mpr ⟨p, hp, comesTo_iff_placeAfter.mpr ⟨m, hm⟩⟩)

/-- The way up is no longer than there are nodes. -/
theorem lt_of_placeAfter [DecidableEq α] (h : Acyclic parent) {nodes : List α} {n : Nat}
    (hnodes : ∀ x, ComesTo parent a x → x ∈ nodes) (hn : placeAfter parent n a = some b) :
    n < nodes.length := by
  have hlen : (places parent (n + 1) a).length = n + 1 := length_places (Option.isSome_of_mem hn)
  have hsub : places parent (n + 1) a ⊆ nodes := by
    intro x hx
    obtain ⟨m, -, hm⟩ := mem_places.mp hx
    exact hnodes x (comesTo_iff_placeAfter.mpr ⟨m, hm⟩)
  have hle := (List.subperm_of_subset (nodup_places h (n + 1)) hsub).length_le
  omega

/-! ## Another parent for a node -/

variable [DecidableEq α]

/-- The way up from a node that does not lie at or below `a` does not depend on the parent of
`a`. -/
theorem agreeFrom_update (h : ¬ ComesTo parent x a) :
    AgreeFrom parent (Function.update parent a q) x := by
  intro y hy
  have hne : y ≠ a := by
    rintro rfl
    exact h hy
  exact Function.update_of_ne hne q parent

/-- The way up to `a` does not depend on its parent. -/
theorem ComesTo.update (h : ComesTo parent x a) : ComesTo (Function.update parent a q) x a := by
  induction h using ReflTransGen.head_induction_on with
  | refl => exact ComesTo.refl
  | head hstep htail ih =>
    rename_i x z
    by_cases hx : x = a
    · rw [hx]
      exact ComesTo.refl
    · exact ComesTo.head ((Function.update_of_ne hx q parent).trans hstep) ih

/-- What lies above a node afterwards lay above it before, or the way goes through `a` and on from
its new parent. -/
theorem Above.of_update (h : Above (Function.update parent a q) x y) :
    (x ≠ a ∧ Above parent x y) ∨
      (ComesTo parent x a ∧ ∃ p, q = some p ∧ ComesTo (Function.update parent a q) p y) := by
  induction h using TransGen.head_induction_on with
  | single hstep =>
    rename_i x
    by_cases hx : x = a
    · rw [hx, Function.update_self] at hstep
      exact .inr ⟨by rw [hx]; exact ComesTo.refl, y, hstep, ComesTo.refl⟩
    · rw [Function.update_of_ne hx] at hstep
      exact .inl ⟨hx, TransGen.single hstep⟩
  | head hstep htail ih =>
    rename_i x z
    by_cases hx : x = a
    · rw [hx, Function.update_self] at hstep
      exact .inr ⟨by rw [hx]; exact ComesTo.refl, z, hstep, TransGen.to_reflTransGen htail⟩
    · rw [Function.update_of_ne hx] at hstep
      obtain ⟨-, hold⟩ | ⟨hreach, hnew⟩ := ih
      · exact .inl ⟨hx, TransGen.head hstep hold⟩
      · exact .inr ⟨ComesTo.head hstep hreach, hnew⟩

/-- **Another parent** makes a cycle exactly when it lies at or below the node. -/
theorem acyclic_update_iff (h : Acyclic parent) :
    Acyclic (Function.update parent a q) ↔ ∀ p, q = some p → ¬ ComesTo parent p a := by
  constructor
  · rintro hnew p rfl hreach
    refine hnew a (above_iff.mpr ⟨p, Function.update_self .., ?_⟩)
    exact hreach.update
  · intro hfit x hx
    obtain ⟨-, hold⟩ | ⟨hreach, p, rfl, hback⟩ := hx.of_update
    · exact h x hold
    · -- the way up from the new parent is the one it had
      have hfrom : ComesTo parent p x := (agreeFrom_update (hfit p rfl)).symm.comesTo hback
      exact hfit p rfl (hfrom.trans hreach)

/-! ## Labels that meet on no way up -/

/-- No node has a label of its own in common with one above it. -/
def Clear {β : Type} (parent : α → Option α) (labels : α → List β) : Prop :=
  ∀ x y, Above parent x y → (labels x).Disjoint (labels y)

/-- **Another parent and other labels** of a node keep the labels clear exactly when those at or
below the node meet neither its own nor those of the new nodes above. -/
theorem clear_update_iff {β : Type} {labels : α → List β} {own : List β} (hclear : Clear parent labels)
    (hfit : ∀ p, q = some p → ¬ ComesTo parent p a) (ha : Acyclic parent) :
    Clear (Function.update parent a q) (Function.update labels a own) ↔
      (∀ x, Above parent x a → (labels x).Disjoint own) ∧
      ∀ p y, q = some p → ComesTo parent p y → own.Disjoint (labels y) ∧
        ∀ x, Above parent x a → (labels x).Disjoint (labels y) := by
  -- nothing on a way from below or above `a` is `a` itself, so labels are old there
  have hlabels : ∀ x, x ≠ a → Function.update labels a own x = labels x :=
    fun x hx => Function.update_of_ne hx own labels
  have hbelow : ∀ x, Above parent x a → x ≠ a := by
    rintro x hx rfl
    exact ha x hx
  have hahead : ∀ p y, q = some p → ComesTo parent p y → y ≠ a := by
    rintro p y hp hy rfl
    exact hfit p hp hy
  -- what was below is below still, and what is above the new parent is above now
  have hup : ∀ x, Above parent x a → Above (Function.update parent a q) x a := by
    intro x hx
    have hreach := (hx.comesTo.update (q := q))
    exact (comesTo_iff.mp hreach).resolve_left (hbelow x hx)
  have hover : ∀ p y, q = some p → ComesTo parent p y → Above (Function.update parent a q) a y := by
    intro p y hp hy
    refine above_iff.mpr ⟨p, (Function.update_self ..).trans hp, ?_⟩
    exact (agreeFrom_update (hfit p hp)).comesTo hy
  constructor
  · intro hnew
    refine ⟨fun x hx => ?_, fun p y hp hy => ⟨?_, fun x hx => ?_⟩⟩
    · have hmeet := hnew x a (hup x hx)
      rwa [hlabels x (hbelow x hx), Function.update_self] at hmeet
    · have hmeet := hnew a y (hover p y hp hy)
      rwa [hlabels y (hahead p y hp hy), Function.update_self] at hmeet
    · have hmeet := hnew x y ((hup x hx).trans (hover p y hp hy))
      rwa [hlabels x (hbelow x hx), hlabels y (hahead p y hp hy)] at hmeet
  · rintro ⟨hown, hnew⟩ x y hxy
    -- a new pair lies across the new edge: below `a` and above its parent
    obtain ⟨hx, hold⟩ | ⟨hreach, p, hp, hy⟩ := hxy.of_update
    · rw [hlabels x hx]
      by_cases hy : y = a
      · rw [hy] at hold ⊢
        rw [Function.update_self]
        exact hown x hold
      · rw [hlabels y hy]
        exact hclear x y hold
    · have hfrom := (agreeFrom_update (hfit p hp)).symm.comesTo hy
      rw [hlabels y (hahead p y hp hfrom)]
      obtain hxa | hx := comesTo_iff.mp hreach
      · rw [hxa, Function.update_self]
        exact (hnew p y hp hfrom).1
      · rw [hlabels x (hbelow x hx)]
        exact (hnew p y hp hfrom).2 x hx

/-! ## The end of the way up -/

/-- Where finitely many nodes have a parent the way up from a node without cycles ends. -/
theorem exists_endsAt (h : Acyclic parent) (nodes : Finset α)
    (hnodes : ∀ x p, parent x = some p → x ∈ nodes) (x : α) : ∃ y, EndsAt parent x y := by
  -- the rank of a node falls on the way up
  let R := fun x y => parent x = some y
  induction hrank : rank R (fun _ => True) nodes ∅ x using Nat.strong_induction_on generalizing x with
  | h n ih =>
    cases hp : parent x with
    | none => exact ⟨x, ComesTo.refl, hp⟩
    | some p =>
      have hcycle : ¬ TransGen (Swaying R fun _ => True) x x := by
        intro hcycle
        have hsway : Swaying R (fun _ => True) ≤ R := fun _ _ hstep => hstep.1
        exact h x (TransGen.mono hsway x x hcycle)
      have hless : rank R (fun _ => True) nodes ∅ p < rank R (fun _ => True) nodes ∅ x :=
        rank_step_lt (hnodes x p hp) trivial hp hcycle
      rw [hrank] at hless
      obtain ⟨y, hy⟩ := ih _ hless p rfl
      exact ⟨y, hy.1.head hp, hy.2⟩

end Forest

end PlmCore.Lib
