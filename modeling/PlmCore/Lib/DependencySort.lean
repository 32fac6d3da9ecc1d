/-
Sorting by dependency, in passes.

Every item has a key and may need that of another one. A pass goes through the items that remain
and takes those whose need is resolved, and what it takes resolves their keys at once. Passes follow
as long as they take something.

The sort succeeds exactly when every needed key is resolved or among the items and no items wait
for each other in a circle, so its success does not depend on the order of the items.
-/
import Mathlib.Data.List.Nodup
import Mathlib.Order.WellFoundedSet

set_option autoImplicit false

namespace PlmCore.Lib

open Relation

section DependencySort

variable {α κ : Type} [DecidableEq κ] (key : α → κ) (need : α → Option κ)

/-- One pass: what is resolved after it, the items taken and those left. -/
def sortPass : (κ → Bool) → List α → (κ → Bool) × List α × List α
  | resolved, [] => (resolved, [], [])
  | resolved, x :: rest =>
    if (need x).all resolved then
      let (resolved', taken, left) := sortPass (fun k => decide (k = key x) || resolved k) rest
      (resolved', x :: taken, left)
    else
      let (resolved', taken, left) := sortPass resolved rest
      (resolved', taken, x :: left)

/-- The passes. One that takes nothing is the last, so as many as there are items are enough. -/
def dependencySort : Nat → (κ → Bool) → List α → Except (List α) (List α)
  | _, _, [] => .ok []
  | 0, _, remaining => .error remaining
  | passes + 1, resolved, remaining =>
    match sortPass key need resolved remaining with
    | (_, [], left) => .error left
    | (resolved', taken, left) => (dependencySort passes resolved' left).map (taken ++ ·)

/-- Every item comes after the one it needs, unless that was resolved before. -/
def InOrder (resolved : κ → Bool) (xs : List α) : Prop :=
  ∀ before x after, xs = before ++ x :: after →
    ∀ p, need x = some p → resolved p = true ∨ p ∈ before.map key

/-- The key of one item has to wait for that of another, and neither was resolved before. -/
def Awaits (resolved : κ → Bool) (xs : List α) (k p : κ) : Prop :=
  resolved k = false ∧ resolved p = false ∧ (∃ x ∈ xs, key x = k ∧ need x = some p) ∧
    p ∈ xs.map key

variable {key need} {resolved : κ → Bool} {xs ys : List α}

/-! ## One pass -/

theorem sortPass_perm : ((sortPass key need resolved xs).2.1 ++
    (sortPass key need resolved xs).2.2).Perm xs := by
  induction xs generalizing resolved with
  | nil => exact List.Perm.refl _
  | cons x rest ih =>
    unfold sortPass
    by_cases hx : (need x).all resolved = true
    · rw [if_pos hx]
      exact ih.cons x
    · rw [if_neg hx]
      exact List.perm_middle.trans (ih.cons x)

theorem sortPass_resolved {k : κ} : (sortPass key need resolved xs).1 k = true ↔
    resolved k = true ∨ k ∈ (sortPass key need resolved xs).2.1.map key := by
  induction xs generalizing resolved with
  | nil => simp [sortPass]
  | cons x rest ih =>
    unfold sortPass
    by_cases hx : (need x).all resolved = true
    · rw [if_pos hx]
      dsimp only
      rw [ih, List.map_cons, List.mem_cons, Bool.or_eq_true, decide_eq_true_eq]
      tauto
    · rw [if_neg hx]
      exact ih

/-- What comes first resolves its key for what follows. -/
theorem inOrder_cons {x : α} {rest : List α} (hx : (need x).all resolved = true)
    (hrest : InOrder key need (fun k => decide (k = key x) || resolved k) rest) :
    InOrder key need resolved (x :: rest) := by
  intro before y after heq p hp
  cases before with
  | nil =>
    obtain ⟨rfl, -⟩ := List.cons.inj heq
    rw [hp] at hx
    exact .inl hx
  | cons first before =>
    obtain ⟨rfl, htail⟩ := List.cons.inj heq
    obtain hres | hmem := hrest before y after htail p hp
    · rw [Bool.or_eq_true, decide_eq_true_eq] at hres
      obtain rfl | hres := hres
      · exact .inr List.mem_cons_self
      · exact .inl hres
    · exact .inr (List.mem_cons_of_mem _ hmem)

omit [DecidableEq κ] in
theorem inOrder_nil : InOrder key need resolved ([] : List α) := by
  intro before x after heq
  exact absurd heq.symm (List.append_ne_nil_of_right_ne_nil before (List.cons_ne_nil x after))

theorem sortPass_inOrder : InOrder key need resolved (sortPass key need resolved xs).2.1 := by
  induction xs generalizing resolved with
  | nil => exact inOrder_nil
  | cons x rest ih =>
    unfold sortPass
    by_cases hx : (need x).all resolved = true
    · rw [if_pos hx]
      exact inOrder_cons hx ih
    · rw [if_neg hx]
      exact ih

/-- A pass that takes nothing leaves everything, and resolves none of the needs. -/
theorem sortPass_stuck (h : (sortPass key need resolved xs).2.1 = []) :
    (sortPass key need resolved xs).2.2 = xs ∧ ∀ x ∈ xs, ¬ (need x).all resolved = true := by
  induction xs generalizing resolved with
  | nil => exact ⟨rfl, fun x hx => absurd hx List.not_mem_nil⟩
  | cons x rest ih =>
    unfold sortPass at h ⊢
    by_cases hx : (need x).all resolved = true
    · rw [if_pos hx] at h
      cases h
    · rw [if_neg hx] at h ⊢
      obtain ⟨hleft, hrest⟩ := ih h
      refine ⟨congrArg (x :: ·) hleft, fun y hy => ?_⟩
      obtain rfl | hy := List.mem_cons.mp hy
      · exact hx
      · exact hrest y hy

/-! ## The passes -/

omit [DecidableEq κ] in
/-- One list in order after another, when the first resolves its keys. -/
theorem InOrder.append {resolved' : κ → Bool} (hx : InOrder key need resolved xs)
    (hresolved : ∀ k, resolved' k = true → resolved k = true ∨ k ∈ xs.map key)
    (hy : InOrder key need resolved' ys) : InOrder key need resolved (xs ++ ys) := by
  intro before z after heq p hp
  obtain ⟨mid, rfl, hrest⟩ | ⟨mid, rfl, hrest⟩ := List.append_eq_append_iff.mp heq
  · obtain hres | hmem := hy mid z after hrest p hp
    · obtain hres | hmem := hresolved p hres
      · exact .inl hres
      · exact .inr (by rw [List.map_append]; exact List.mem_append_left _ hmem)
    · exact .inr (by rw [List.map_append]; exact List.mem_append_right _ hmem)
  · cases mid with
    | nil =>
      rw [List.nil_append] at hrest
      rw [List.append_nil] at hx hresolved heq
      obtain hres | hmem := hy [] z after hrest.symm p hp
      · exact hresolved p hres
      · cases hmem
    | cons first mid =>
      obtain ⟨rfl, rfl⟩ := List.cons.inj hrest
      exact hx before z mid rfl p hp

/-- The sort of some items by the result of their first pass. -/
theorem dependencySort_succ {passes : Nat} (hne : xs ≠ []) :
    dependencySort key need (passes + 1) resolved xs =
      if (sortPass key need resolved xs).2.1 = [] then .error (sortPass key need resolved xs).2.2
      else (dependencySort key need passes (sortPass key need resolved xs).1
        (sortPass key need resolved xs).2.2).map ((sortPass key need resolved xs).2.1 ++ ·) := by
  cases xs with
  | nil => exact absurd rfl hne
  | cons x rest =>
    simp only [dependencySort]
    generalize sortPass key need resolved (x :: rest) = result
    obtain ⟨resolved', taken, left⟩ := result
    cases taken with
    | nil => rfl
    | cons first taken => rw [if_neg (List.cons_ne_nil first taken)]

theorem dependencySort_nil {passes : Nat} :
    dependencySort key need passes resolved ([] : List α) = .ok [] := by
  cases passes <;> rfl

/-- **What the sort gives** is a permutation of the items in order. -/
theorem dependencySort_ok {passes : Nat} {sorted : List α}
    (h : dependencySort key need passes resolved xs = .ok sorted) :
    sorted.Perm xs ∧ InOrder key need resolved sorted := by
  induction passes generalizing resolved xs sorted with
  | zero =>
    cases xs with
    | nil =>
      cases h
      exact ⟨List.Perm.refl _, inOrder_nil⟩
    | cons x rest => cases h
  | succ passes ih =>
    by_cases hne : xs = []
    · rw [hne, dependencySort_nil] at h
      cases h
      exact ⟨hne ▸ List.Perm.refl _, inOrder_nil⟩
    rw [dependencySort_succ hne] at h
    by_cases htaken : (sortPass key need resolved xs).2.1 = []
    · rw [if_pos htaken] at h
      cases h
    rw [if_neg htaken] at h
    cases hlater : dependencySort key need passes (sortPass key need resolved xs).1
        (sortPass key need resolved xs).2.2 with
    | error left =>
      rw [hlater] at h
      cases h
    | ok later =>
      rw [hlater] at h
      cases h
      obtain ⟨hperm, horder⟩ := ih hlater
      refine ⟨(hperm.append_left _).trans sortPass_perm, ?_⟩
      exact sortPass_inOrder.append (fun k hk => sortPass_resolved.mp hk) horder

/-- **What the sort cannot take** is stuck: each of the items left needs a key that was not resolved
before and that only items left have. -/
theorem dependencySort_error {passes : Nat} {left : List α} (hpasses : xs.length ≤ passes)
    (h : dependencySort key need passes resolved xs = .error left) :
    left ≠ [] ∧ left ⊆ xs ∧ ∀ x ∈ left, ∃ p, need x = some p ∧ resolved p = false ∧
      ∀ y ∈ xs, key y = p → y ∈ left := by
  induction passes generalizing resolved xs left with
  | zero =>
    rw [List.eq_nil_of_length_eq_zero (Nat.le_zero.mp hpasses)] at h
    cases h
  | succ passes ih =>
    by_cases hne : xs = []
    · rw [hne, dependencySort_nil] at h
      cases h
    rw [dependencySort_succ hne] at h
    by_cases htaken : (sortPass key need resolved xs).2.1 = []
    · rw [if_pos htaken] at h
      obtain ⟨hleft, hstuck⟩ := sortPass_stuck htaken
      cases h
      rw [hleft]
      refine ⟨hne, List.Subset.refl _, fun x hx => ?_⟩
      have hx' := hstuck x hx
      cases hp : need x with
      | none =>
        rw [hp] at hx'
        exact absurd rfl hx'
      | some p =>
        rw [hp] at hx'
        exact ⟨p, rfl, Bool.eq_false_iff.mpr hx', fun y hy _ => hy⟩
    · rw [if_neg htaken] at h
      have hperm := @sortPass_perm α κ _ key need resolved xs
      have hlength := hperm.length_eq
      have hpos := List.length_pos_of_ne_nil htaken
      rw [List.length_append] at hlength
      cases hlater : dependencySort key need passes (sortPass key need resolved xs).1
          (sortPass key need resolved xs).2.2 with
      | ok later =>
        rw [hlater] at h
        cases h
      | error later =>
        rw [hlater] at h
        cases h
        obtain ⟨hnil, hsub, hwait⟩ := ih (by omega) hlater
        have hmem : ∀ y ∈ xs, y ∈ (sortPass key need resolved xs).2.1 ∨
            y ∈ (sortPass key need resolved xs).2.2 :=
          fun y hy => List.mem_append.mp (hperm.mem_iff.mpr hy)
        refine ⟨hnil, fun x hx => hperm.mem_iff.mp (List.mem_append_right _ (hsub hx)), ?_⟩
        intro x hx
        obtain ⟨p, hp, hres, hall⟩ := hwait x hx
        -- what is not resolved after the pass was not before, and no item taken has that key
        have hnot := fun hk => Bool.eq_false_iff.mp hres (sortPass_resolved.mpr hk)
        refine ⟨p, hp, Bool.eq_false_iff.mpr fun hk => hnot (.inl hk), fun y hy hyp => ?_⟩
        obtain hy | hy := hmem y hy
        · exact absurd (.inr (hyp ▸ List.mem_map_of_mem hy)) hnot
        · exact hall y hy hyp

/-- More passes than items change nothing. -/
theorem dependencySort_stable {passes : Nat} (hpasses : xs.length ≤ passes) :
    dependencySort key need passes resolved xs = dependencySort key need xs.length resolved xs := by
  induction hlen : xs.length using Nat.strongRecOn generalizing passes resolved xs with
  | ind n ih =>
    by_cases hne : xs = []
    · rw [hne, dependencySort_nil, dependencySort_nil]
    obtain ⟨m, rfl⟩ := Nat.exists_eq_add_one_of_ne_zero
      (hlen ▸ Nat.ne_of_gt (List.length_pos_of_ne_nil hne))
    obtain ⟨passes, rfl⟩ := Nat.exists_eq_add_one_of_ne_zero (n := passes) (by omega)
    rw [dependencySort_succ hne, dependencySort_succ hne]
    by_cases htaken : (sortPass key need resolved xs).2.1 = []
    · rw [if_pos htaken, if_pos htaken]
    · have hlength := (@sortPass_perm α κ _ key need resolved xs).length_eq
      have hpos := List.length_pos_of_ne_nil htaken
      rw [List.length_append] at hlength
      have hless : (sortPass key need resolved xs).2.2.length ≤ m := by omega
      have hpasses' : (sortPass key need resolved xs).2.2.length ≤ passes := by omega
      rw [if_neg htaken, if_neg htaken, ih _ (by omega) hpasses' rfl, ih _ (by omega) hless rfl]

/-- A pass whose needs are all resolved takes everything. -/
theorem sortPass_all (h : ∀ x ∈ xs, (need x).all resolved = true) :
    (sortPass key need resolved xs).2 = (xs, []) := by
  induction xs generalizing resolved with
  | nil => rfl
  | cons x rest ih =>
    unfold sortPass
    rw [if_pos (h x List.mem_cons_self)]
    have hrest : ∀ y ∈ rest, (need y).all (fun k => decide (k = key x) || resolved k) = true := by
      intro y hy
      have hres := h y (List.mem_cons_of_mem _ hy)
      cases hp : need y with
      | none => rfl
      | some p =>
        rw [hp, Option.all_some] at hres
        rw [Option.all_some, hres, Bool.or_true]
    have hpass := ih hrest
    dsimp only
    rw [congrArg Prod.fst hpass, congrArg Prod.snd hpass]

/-- Items whose needs are all resolved are left as they stand. -/
theorem dependencySort_all (h : ∀ x ∈ xs, (need x).all resolved = true) :
    dependencySort key need xs.length resolved xs = .ok xs := by
  by_cases hne : xs = []
  · rw [hne, dependencySort_nil]
  obtain ⟨n, hn⟩ := Nat.exists_eq_add_one_of_ne_zero (Nat.ne_of_gt (List.length_pos_of_ne_nil hne))
  rw [hn, dependencySort_succ hne, sortPass_all h, if_neg hne, dependencySort_nil]
  exact congrArg Except.ok (List.append_nil xs)

/-! ## When the sort succeeds -/

/-- A key that has to wait comes later in the order. -/
theorem InOrder.idxOf_lt (h : InOrder key need resolved xs) (hdistinct : (xs.map key).Nodup) {k p : κ}
    (hkp : Awaits key need resolved xs k p) : (xs.map key).idxOf p < (xs.map key).idxOf k := by
  obtain ⟨-, hp, ⟨x, hx, rfl, hneed⟩, -⟩ := hkp
  obtain ⟨before, after, rfl⟩ := List.append_of_mem hx
  have hmem := (h before x after rfl p hneed).resolve_left (Bool.eq_false_iff.mp hp)
  rw [List.map_append, List.map_cons] at hdistinct ⊢
  have hnot : key x ∉ before.map key := by
    intro hx
    exact (List.nodup_append'.mp hdistinct).2.2 hx List.mem_cons_self
  rw [List.idxOf_append_of_mem hmem, List.idxOf_append_of_notMem hnot, List.idxOf_cons_self]
  exact Nat.lt_of_lt_of_le (List.idxOf_lt_length_of_mem hmem) (Nat.le_add_right _ _)

/-- **The sort of items with distinct keys succeeds exactly when** every key that is needed is
resolved or that of an item, and no items wait for each other in a circle. -/
theorem dependencySort_succeeds_iff (hdistinct : (xs.map key).Nodup) :
    (∃ sorted, dependencySort key need xs.length resolved xs = .ok sorted) ↔
      (∀ x ∈ xs, ∀ p, need x = some p → resolved p = true ∨ p ∈ xs.map key) ∧
        ∀ k, ¬ TransGen (Awaits key need resolved xs) k k := by
  constructor
  · rintro ⟨sorted, h⟩
    obtain ⟨hperm, horder⟩ := dependencySort_ok h
    have hkeys := hperm.map key
    constructor
    · intro x hx p hp
      obtain ⟨before, after, heq⟩ := List.append_of_mem (hperm.mem_iff.mpr hx)
      obtain hres | hmem := horder before x after heq p hp
      · exact .inl hres
      · refine .inr (hkeys.mem_iff.mp ?_)
        rw [heq, List.map_append]
        exact List.mem_append_left _ hmem
    · -- along the order the index falls
      have hless : ∀ k p, TransGen (Awaits key need resolved xs) k p →
          (sorted.map key).idxOf p < (sorted.map key).idxOf k := by
        intro k p hkp
        have hstep : ∀ {k p}, Awaits key need resolved xs k p →
            (sorted.map key).idxOf p < (sorted.map key).idxOf k := by
          rintro k p ⟨hk, hp, ⟨x, hx, hneed⟩, hmem⟩
          exact horder.idxOf_lt (hkeys.nodup_iff.mpr hdistinct)
            ⟨hk, hp, ⟨x, hperm.mem_iff.mpr hx, hneed⟩, hkeys.mem_iff.mpr hmem⟩
        induction hkp with
        | single hkp => exact hstep hkp
        | tail _ hkp ih => exact Nat.lt_trans (hstep hkp) ih
      exact fun k hk => Nat.lt_irrefl _ (hless k k hk)
  · rintro ⟨havailable, hacyclic⟩
    cases h : dependencySort key need xs.length resolved xs with
    | ok sorted => exact ⟨sorted, rfl⟩
    | error left =>
      exfalso
      obtain ⟨hne, hsub, hwait⟩ := dependencySort_error (Nat.le_refl _) h
      -- from an item left one comes to another that waits, and so on for ever
      have hnext : ∀ x ∈ left, ∃ y ∈ left, need x = some (key y) ∧ resolved (key y) = false := by
        intro x hx
        obtain ⟨p, hp, hres, hall⟩ := hwait x hx
        obtain hbad | hmem := havailable x (hsub hx) p hp
        · rw [hres] at hbad
          cases hbad
        · obtain ⟨y, hy, rfl⟩ := List.mem_map.mp hmem
          exact ⟨y, hall y hy rfl, hp, hres⟩
      have hstrict : IsStrictOrder κ fun k p => TransGen (Awaits key need resolved xs) p k :=
        { irrefl := hacyclic, trans := fun _ _ _ h h' => h'.trans h }
      have hwf := (List.finite_toSet (xs.map key)).wellFoundedOn
        (r := fun k p => TransGen (Awaits key need resolved xs) p k)
      have hend : ∀ k ∈ {k | k ∈ xs.map key}, ¬ ∃ y ∈ left, key y = k ∧ resolved k = false := by
        intro k hk
        refine hwf.induction hk (P := fun k => ¬ ∃ y ∈ left, key y = k ∧ resolved k = false) ?_
        rintro k - ih ⟨y, hy, rfl, hres⟩
        obtain ⟨z, hz, hneed, hres'⟩ := hnext y hy
        have hmem := List.mem_map_of_mem (f := key) (hsub hz)
        exact ih (key z) hmem (.single ⟨hres, hres', ⟨y, hsub hy, rfl, hneed⟩, hmem⟩)
          ⟨z, hz, rfl, hres'⟩
      obtain ⟨x, hx⟩ := List.exists_mem_of_ne_nil left hne
      obtain ⟨y, hy, -, hres⟩ := hnext x hx
      exact hend (key y) (List.mem_map_of_mem (hsub hy)) ⟨y, hy, rfl, hres⟩

/-- **The order of the items** does not matter for the success. -/
theorem dependencySort_succeeds_perm (hdistinct : (xs.map key).Nodup) (h : xs.Perm ys) :
    (∃ sorted, dependencySort key need xs.length resolved xs = .ok sorted) ↔
      ∃ sorted, dependencySort key need ys.length resolved ys = .ok sorted := by
  have hkeys := h.map key
  have hmem : ∀ p, p ∈ xs.map key ↔ p ∈ ys.map key := fun _ => hkeys.mem_iff
  have hawaits : Awaits key need resolved xs = Awaits key need resolved ys := by
    funext k p
    simp only [Awaits, hmem, h.mem_iff]
  rw [dependencySort_succeeds_iff hdistinct, dependencySort_succeeds_iff (hkeys.nodup_iff.mp hdistinct),
    hawaits]
  simp only [hmem, h.mem_iff]

end DependencySort

end PlmCore.Lib
