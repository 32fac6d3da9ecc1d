/-
Numbers written with the digits 1, …, k and no zero.

Without a zero no digits lead a number that do not count, so every number is written in one way: a shorter
numeral is the smaller one, and numerals of one length are ordered like words. To count on is to increment
the last digit that is not `k` and to begin the digits behind it again with 1.
-/
import Mathlib.Algebra.Order.BigOperators.Group.Finset
import Mathlib.Algebra.Ring.GeomSum
import Mathlib.Data.List.Shortlex
import Mathlib.Data.Nat.Digits.Defs

set_option autoImplicit false

namespace PlmCore.Lib

variable {k : ℕ} {ds es : List ℕ}

/-- Digits of base `k`. -/
def AreDigits (k : ℕ) (ds : List ℕ) : Prop := ∀ d ∈ ds, 1 ≤ d ∧ d ≤ k

/-- The number that is written, the last digit counting least. -/
def numeral (k : ℕ) (ds : List ℕ) : ℕ := Nat.ofDigits k ds.reverse

theorem numeral_cons (d : ℕ) (ds : List ℕ) : numeral k (d :: ds) = numeral k ds + k ^ ds.length * d :=
  Nat.ofDigits_reverse_cons ds d

/-! ## Order -/

/-- The numbers with `n` digits begin with `1…1` and end with `k…k`. -/
theorem numeral_bounds (h : AreDigits k ds) :
    ∑ i ∈ Finset.range ds.length, k ^ i ≤ numeral k ds ∧
      numeral k ds ≤ k * ∑ i ∈ Finset.range ds.length, k ^ i := by
  induction ds with
  | nil => simp [numeral]
  | cons d ds ih =>
    obtain ⟨hlow, hhigh⟩ := ih fun e he => h e (List.mem_cons_of_mem d he)
    obtain ⟨hone, hk⟩ := h d List.mem_cons_self
    have hleast : k ^ ds.length * 1 ≤ k ^ ds.length * d := Nat.mul_le_mul_left _ hone
    have hmost : k ^ ds.length * d ≤ k ^ ds.length * k := Nat.mul_le_mul_left _ hk
    rw [numeral_cons, List.length_cons, Finset.sum_range_succ, Nat.mul_add, Nat.mul_comm k (k ^ ds.length)]
    omega

/-- A shorter numeral is smaller. -/
theorem numeral_lt_of_length_lt (hds : AreDigits k ds) (hes : AreDigits k es)
    (h : ds.length < es.length) : numeral k ds < numeral k es :=
  calc numeral k ds < k * ∑ i ∈ Finset.range ds.length, k ^ i + 1 :=
        Nat.lt_succ_of_le (numeral_bounds hds).2
    _ = ∑ i ∈ Finset.range (ds.length + 1), k ^ i := geom_sum_succ.symm
    _ ≤ ∑ i ∈ Finset.range es.length, k ^ i :=
        Finset.sum_le_sum_of_subset (Finset.range_subset_range.mpr h)
    _ ≤ numeral k es := (numeral_bounds hes).1

/-- Numerals of one length are ordered by the first digit in which they differ. -/
theorem numeral_lt_of_lex (hds : AreDigits k ds) (hes : AreDigits k es) (hlength : ds.length = es.length)
    (h : List.Lex (· < ·) ds es) : numeral k ds < numeral k es := by
  induction h with
  | nil => cases hlength
  | @cons d ds es _ ih =>
    have hlt := ih (fun e he => hds e (List.mem_cons_of_mem d he))
      (fun e he => hes e (List.mem_cons_of_mem d he)) (Nat.succ.inj hlength)
    rw [numeral_cons, numeral_cons, Nat.succ.inj hlength]
    omega
  | @rel d ds e es hlt =>
    have htail : ds.length = es.length := Nat.succ.inj hlength
    have hhigh := (numeral_bounds fun c hc => hds c (List.mem_cons_of_mem d hc)).2
    have hlow := (numeral_bounds fun c hc => hes c (List.mem_cons_of_mem e hc)).1
    have hstep : k ^ es.length * (d + 1) ≤ k ^ es.length * e := Nat.mul_le_mul_left _ hlt
    have hgeom : ∑ i ∈ Finset.range es.length, k ^ i + k ^ es.length =
        k * ∑ i ∈ Finset.range es.length, k ^ i + 1 :=
      (Finset.sum_range_succ _ _).symm.trans geom_sum_succ
    rw [numeral_cons, numeral_cons, htail]
    rw [htail] at hhigh
    rw [Nat.mul_add, Nat.mul_one] at hstep
    omega

theorem numeral_lt_of_shortlex (hds : AreDigits k ds) (hes : AreDigits k es)
    (h : List.Shortlex (· < ·) ds es) : numeral k ds < numeral k es := by
  obtain hlength | ⟨hlength, hlex⟩ := List.shortlex_def.mp h
  · exact numeral_lt_of_length_lt hds hes hlength
  · exact numeral_lt_of_lex hds hes hlength hlex

/-- **Numerals are ordered** by their length, and then like words. -/
theorem numeral_lt_iff (hds : AreDigits k ds) (hes : AreDigits k es) :
    numeral k ds < numeral k es ↔ List.Shortlex (· < ·) ds es := by
  refine ⟨fun h => ?_, numeral_lt_of_shortlex hds hes⟩
  obtain hlt | heq | hgt := trichotomous_of (List.Shortlex (· < ·)) ds es
  · exact hlt
  · exact absurd (heq ▸ h) (lt_irrefl _)
  · exact absurd (numeral_lt_of_shortlex hes hds hgt) h.not_gt

/-- **Numerals are unique.** -/
theorem numeral_inj (hds : AreDigits k ds) (hes : AreDigits k es) :
    numeral k ds = numeral k es ↔ ds = es := by
  refine ⟨fun h => ?_, fun h => h ▸ rfl⟩
  obtain hlt | heq | hgt := trichotomous_of (List.Shortlex (· < ·)) ds es
  · exact absurd h (numeral_lt_of_shortlex hds hes hlt).ne
  · exact heq
  · exact absurd h.symm (numeral_lt_of_shortlex hes hds hgt).ne

/-- Words whose letters are digits in the order of the letters are ordered like the numerals. -/
theorem shortlex_map_iff {α : Type*} {r : α → α → Prop} {digit : α → ℕ} {u v : List α}
    (hlt : ∀ a ∈ u, ∀ b ∈ v, digit a < digit b ↔ r a b)
    (hinj : ∀ a ∈ u, ∀ b ∈ v, digit a = digit b ↔ a = b) :
    List.Shortlex (· < ·) (u.map digit) (v.map digit) ↔ List.Shortlex r u v := by
  have hlex : List.Lex (· < ·) (u.map digit) (v.map digit) ↔ List.Lex r u v := by
    induction u generalizing v with
    | nil => cases v <;> simp
    | cons a u ih =>
      cases v with
      | nil => simp
      | cons b v =>
        have htail := ih (fun c hc d hd => hlt c (List.mem_cons_of_mem a hc) d (List.mem_cons_of_mem b hd))
          (fun c hc d hd => hinj c (List.mem_cons_of_mem a hc) d (List.mem_cons_of_mem b hd))
        rw [List.map_cons, List.map_cons, List.cons_lex_cons_iff, List.cons_lex_cons_iff,
          hlt a List.mem_cons_self b List.mem_cons_self, hinj a List.mem_cons_self b List.mem_cons_self, htail]
  rw [List.shortlex_def, List.shortlex_def, List.length_map, List.length_map, hlex]

/-! ## Counting on -/

/-- The next numeral, last digit first. -/
def increment (k : ℕ) : List ℕ → List ℕ
  | [] => [1]
  | d :: ds => if d < k then (d + 1) :: ds else 1 :: increment k ds

/-- **Counting on** adds one. -/
theorem ofDigits_increment (h : AreDigits k ds) :
    Nat.ofDigits k (increment k ds) = Nat.ofDigits k ds + 1 := by
  induction ds with
  | nil => simp [increment]
  | cons d ds ih =>
    obtain ⟨hd, hds⟩ := List.forall_mem_cons.mp h
    rw [increment]
    split
    case isTrue =>
      rw [Nat.ofDigits_cons, Nat.ofDigits_cons]
      omega
    case isFalse hge =>
      -- the digit is `k`, and a carry of one counts as much
      obtain rfl : d = k := by omega
      rw [Nat.ofDigits_cons, Nat.ofDigits_cons, ih hds, Nat.mul_add]
      omega

end PlmCore.Lib
