/-
Percent-encoding of bytes: a byte that is not kept is written as `%` and two hexadecimal digits.

A text that decoding leaves alone has no `%`, since every escape is two bytes longer than what it stands for.
-/
import Mathlib.Data.List.Basic
import Mathlib.Tactic.Common

set_option autoImplicit false

namespace PlmCore.Lib

/-! ## Hexadecimal digits -/

/-- The value of a hexadecimal digit. -/
def unhex (b : UInt8) : Option Nat :=
  if 0x30 ≤ b ∧ b ≤ 0x39 then some (b.toNat - 0x30)
  else if 0x61 ≤ b ∧ b ≤ 0x66 then some (b.toNat - 0x61 + 10)
  else if 0x41 ≤ b ∧ b ≤ 0x46 then some (b.toNat - 0x41 + 10)
  else none

/-- The digits of `0123456789ABCDEF`. -/
def upperHex (n : Nat) : UInt8 := UInt8.ofNat (if n < 10 then 0x30 + n else 0x41 + (n - 10))

theorem unhex_upperHex {n : Nat} (h : n < 16) : unhex (upperHex n) = some n := by
  revert n
  decide

/-! ## Encoding and decoding -/

/-- `%`. -/
def percent : UInt8 := 0x25

/-- All bytes but those kept are escaped. -/
def percentEncode (keep : UInt8 → Bool) (s : List UInt8) : List UInt8 :=
  s.flatMap fun b =>
    if keep b = true then [b] else [percent, upperHex (b.toNat / 16), upperHex (b.toNat % 16)]

/-- Every `%` must begin an escape. -/
def percentDecode : List UInt8 → Option (List UInt8)
  | [] => some []
  | c :: rest =>
    if c = percent then
      match rest with
      | a :: b :: rest =>
        match unhex a, unhex b with
        | some x, some y => (percentDecode rest).map (UInt8.ofNat (16 * x + y) :: ·)
        | _, _ => none
      | _ => none
    else (percentDecode rest).map (c :: ·)

theorem percentDecode_cons {c : UInt8} (hc : c ≠ percent) (rest : List UInt8) :
    percentDecode (c :: rest) = (percentDecode rest).map (c :: ·) := by
  rcases rest with _ | ⟨a, _ | ⟨b, rest⟩⟩
  · simp [percentDecode, hc]
  · simp [percentDecode, hc]
  · rw [percentDecode, if_neg hc]

theorem percentDecode_escape (b : UInt8) (rest : List UInt8) :
    percentDecode (percent :: upperHex (b.toNat / 16) :: upperHex (b.toNat % 16) :: rest) =
      (percentDecode rest).map (b :: ·) := by
  have hlt : b.toNat < 256 := b.toNat_lt
  have hvalue : UInt8.ofNat (16 * (b.toNat / 16) + b.toNat % 16) = b := by
    rw [Nat.div_add_mod, UInt8.ofNat_toNat]
  rw [percentDecode, if_pos rfl]
  rw [unhex_upperHex (by omega), unhex_upperHex (by omega)]
  simp only [hvalue]

/-- **Decoding undoes encoding**, whatever else is kept. -/
theorem percentDecode_encode_append {keep : UInt8 → Bool} (hkeep : keep percent = false) (s rest : List UInt8) :
    percentDecode (percentEncode keep s ++ rest) = (percentDecode rest).map (s ++ ·) := by
  induction s with
  | nil => simp [percentEncode]
  | cons b s ih =>
    unfold percentEncode at ih ⊢
    rw [List.flatMap_cons]
    split
    · rename_i hb
      have hne : b ≠ percent := by
        rintro rfl
        rw [hkeep] at hb
        cases hb
      rw [List.append_assoc, List.singleton_append, percentDecode_cons hne, ih, Option.map_map]
      rfl
    · rw [List.append_assoc, List.cons_append, List.cons_append, List.cons_append, List.nil_append,
        percentDecode_escape, ih, Option.map_map]
      rfl

theorem ne_percent_of_unhex {b : UInt8} {x : Nat} (h : unhex b = some x) : b ≠ percent := by
  rintro rfl
  have hnone : unhex percent = none := by decide
  rw [hnone] at h
  cases h

/-- An escape is two bytes longer than what it stands for. -/
theorem length_percentDecode {s t : List UInt8} (h : percentDecode s = some t) :
    t.length + 2 * s.count percent = s.length := by
  fun_induction percentDecode s generalizing t with
  | case1 => cases h; rfl
  | case2 a b rest x y hx hy ih =>
    obtain ⟨t, ht, rfl⟩ := Option.map_eq_some_iff.mp h
    have hrest := ih ht
    have ha : a ≠ percent := ne_percent_of_unhex ‹unhex a = some _›
    have hb : b ≠ percent := ne_percent_of_unhex ‹unhex b = some _›
    rw [List.count_cons_self, List.count_cons_of_ne ha, List.count_cons_of_ne hb]
    simp only [List.length_cons]
    omega
  | case3 => cases h
  | case4 => cases h
  | case5 c rest hc ih =>
    obtain ⟨t, ht, rfl⟩ := Option.map_eq_some_iff.mp h
    have hrest := ih ht
    rw [List.count_cons_of_ne hc]
    simp only [List.length_cons]
    omega

/-- Decoding leaves exactly the texts without `%` alone. -/
theorem percentDecode_eq_self_iff {s : List UInt8} : percentDecode s = some s ↔ percent ∉ s := by
  constructor
  · intro h hmem
    have hlength := length_percentDecode h
    have hpos := List.count_pos_iff.mpr hmem
    omega
  · intro h
    induction s with
    | nil => rfl
    | cons c s ih =>
      have hc : c ≠ percent := fun heq => h (heq ▸ List.mem_cons_self)
      rw [percentDecode_cons hc, ih fun hmem => h (List.mem_cons_of_mem c hmem), Option.map_some]

end PlmCore.Lib
