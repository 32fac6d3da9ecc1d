/-
The string operations of Java and SQL that the modelled services call, on Lean strings.

They are written over the list of characters, so that they compute in the kernel and a
proof about one is an induction on a list. `isBlank`, `trim` and `parseInt` follow the
JDK documentation (`Character.isWhitespace`, characters up to U+0020, and
`Integer.parseInt` at radix 10); `sqlLike` is the SQL pattern match with the default
escape character.
-/
import Mathlib.Data.List.DropRight
import Mathlib.Data.List.Infix
import Mathlib.Data.List.TakeWhile
import Mathlib.Tactic.Common

set_option autoImplicit false

namespace PlmCore.Lib

/-! ## Blank and trimmed strings -/

/-- `Character.isWhitespace`: the separators of Unicode except the non-breaking ones, and
the control characters used as white space. -/
def isWhitespace (c : Char) : Bool :=
  let n := c.toNat
  (9 ≤ n && n ≤ 13) || (28 ≤ n && n ≤ 32) || n == 0x1680 || (0x2000 ≤ n && n ≤ 0x2006)
    || (0x2008 ≤ n && n ≤ 0x200A) || n == 0x2028 || n == 0x2029 || n == 0x205F || n == 0x3000

/-- `String.isBlank`. -/
def isBlank (s : String) : Bool := s.toList.all isWhitespace

/-- `s == null || s.isBlank()`. -/
def nullOrBlank (s : Option String) : Bool := s.all isBlank

/-- `String.trim`: no leading or trailing character up to U+0020. -/
def trim (s : String) : String :=
  let strip := List.dropWhile fun c : Char => c.toNat ≤ 32
  String.ofList (strip (strip s.toList).reverse).reverse

/-- A prefix of a list that drops nothing drops nothing. -/
theorem dropWhile_of_prefix {α : Type} {p : α → Bool} {l r : List α} (h : r <+: l)
    (hl : l.dropWhile p = l) : r.dropWhile p = r := by
  rw [List.dropWhile_eq_self_iff] at hl ⊢
  intro hlen
  have hlen' : 0 < l.length := Nat.lt_of_lt_of_le hlen h.length_le
  rw [h.getElem hlen]
  exact hl hlen'

/-- **Trimming twice is trimming once.** -/
theorem trim_trim (s : String) : trim (trim s) = trim s := by
  unfold trim
  simp only [String.toList_ofList]
  congr 1
  generalize hb : (s.toList.dropWhile fun c => decide (c.toNat ≤ 32)).reverse.dropWhile
    (fun c => decide (c.toNat ≤ 32)) = b
  have hprefix : b.reverse <+: s.toList.dropWhile fun c => decide (c.toNat ≤ 32) := by
    rw [← List.reverse_suffix, List.reverse_reverse, ← hb]
    exact List.dropWhile_suffix _
  have hfront : b.reverse.dropWhile (fun c => decide (c.toNat ≤ 32)) = b.reverse :=
    dropWhile_of_prefix hprefix (List.dropWhile_idempotent _ _)
  have hback : b.dropWhile (fun c => decide (c.toNat ≤ 32)) = b := by
    rw [← hb]
    exact List.dropWhile_idempotent _ _
  rw [hfront, List.reverse_reverse, hback]

/-- `s != null ? s : ""`. -/
def nvl (s : Option String) : String := s.getD ""

/-! ## Integers -/

/-- The zero of each block of ten decimal digits `Character.digit` knows in the BMP. -/
def decimalZeros : List Nat :=
  [0x30, 0x660, 0x6F0, 0x7C0, 0x966, 0x9E6, 0xA66, 0xAE6, 0xB66, 0xBE6, 0xC66, 0xCE6, 0xD66,
    0xDE6, 0xE50, 0xED0, 0xF20, 0x1040, 0x1090, 0x17E0, 0x1810, 0x1946, 0x19D0, 0x1A80, 0x1A90,
    0x1B50, 0x1BB0, 0x1C40, 0x1C50, 0xA620, 0xA8D0, 0xA900, 0xA9D0, 0xA9F0, 0xAA50, 0xABF0,
    0xFF10]

/-- The value of a decimal digit whose block starts at one of `zeros`. -/
def digitIn (zeros : List Nat) (c : Char) : Option Nat :=
  (zeros.find? fun z => z ≤ c.toNat && c.toNat < z + 10).map (c.toNat - ·)

/-- The number a digit sequence denotes, most significant digit first. -/
def digitsIn (zeros : List Nat) (acc : Nat) : List Char → Option Nat
  | [] => some acc
  | c :: cs => (digitIn zeros c).bind fun d => digitsIn zeros (10 * acc + d) cs

/-- A signed decimal within the 32-bit range. -/
def signed32 (zeros : List Nat) (cs : List Char) : Option Int :=
  match cs with
  | [] | ['-'] | ['+'] => none
  | '-' :: ds =>
    (digitsIn zeros 0 ds).bind fun n => if n ≤ 2147483648 then some (-(n : Int)) else none
  | '+' :: ds => (digitsIn zeros 0 ds).bind fun n => if n < 2147483648 then some (n : Int) else none
  | ds => (digitsIn zeros 0 ds).bind fun n => if n < 2147483648 then some (n : Int) else none

/-- `Integer.parseInt`; a `NumberFormatException` is `none`. -/
def parseInt (s : String) : Option Int := signed32 decimalZeros s.toList

/-- `CAST(s AS INT)`: the same grammar over ASCII digits, surrounding blanks ignored; a
conversion error is `none`. -/
def castInt (s : String) : Option Int := signed32 [0x30] (trim s).toList

/-! ### Numbers read back -/

theorem digitIn_digitChar {d : Nat} (hd : d < 10) : digitIn decimalZeros (Nat.digitChar d) = some d := by
  have hall : ∀ k : Fin 10, digitIn decimalZeros (Nat.digitChar k) = some k.val := by decide
  exact hall ⟨d, hd⟩

theorem digitsIn_append (zeros : List Nat) (acc : Nat) (xs ys : List Char) :
    digitsIn zeros acc (xs ++ ys) = (digitsIn zeros acc xs).bind fun n => digitsIn zeros n ys := by
  induction xs generalizing acc with
  | nil => rfl
  | cons c cs ih =>
    simp only [List.cons_append, digitsIn, Option.bind_assoc]
    congr 1
    funext d
    exact ih _

/-- The digits of a number denote it. -/
theorem digitsIn_toDigits (n : Nat) : digitsIn decimalZeros 0 (Nat.toDigits 10 n) = some n := by
  induction n using Nat.strongRecOn with
  | ind n ih =>
    by_cases hn : n < 10
    · rw [Nat.toDigits_of_lt_base hn, digitsIn, digitIn_digitChar hn]
      simp [digitsIn]
    · -- the last digit is the remainder, and the others are those of the quotient
      have hlast : n % 10 < 10 := Nat.mod_lt _ (by decide)
      have hsplit := Nat.toDigits_append_toDigits (b := 10) (n := n / 10) (d := n % 10)
        (by decide) (by omega) hlast
      rw [Nat.div_add_mod, Nat.toDigits_of_lt_base hlast] at hsplit
      rw [← hsplit, digitsIn_append, ih (n / 10) (by omega), Option.bind_some, digitsIn,
        digitIn_digitChar hlast, Option.bind_some, digitsIn, Nat.div_add_mod]

/-- A sequence of digits is read without a sign. -/
theorem signed32_of_digits {cs : List Char} {n : Nat} (hne : cs ≠ [])
    (h : digitsIn decimalZeros 0 cs = some n) (hn : n < 2147483648) :
    signed32 decimalZeros cs = some (n : Int) := by
  have hsign : ∀ ds : List Char, cs ≠ '-' :: ds ∧ cs ≠ '+' :: ds := by
    intro ds
    constructor
    · rintro rfl
      simp [digitsIn, show digitIn decimalZeros '-' = none by decide] at h
    · rintro rfl
      simp [digitsIn, show digitIn decimalZeros '+' = none by decide] at h
  unfold signed32
  split
  · exact absurd rfl hne
  · exact absurd rfl (hsign []).1
  · exact absurd rfl (hsign []).2
  · exact absurd rfl (hsign _).1
  · exact absurd rfl (hsign _).2
  · rw [h, Option.bind_some, if_pos hn]

/-- **A number of the column's range is read back from its text.** -/
theorem parseInt_toString {n : Nat} (hn : n < 2147483648) : parseInt (toString n) = some (n : Int) := by
  have htext : (toString n).toList = Nat.toDigits 10 n := Nat.toList_repr
  rw [parseInt, htext]
  exact signed32_of_digits (Nat.toDigits_ne_nil) (digitsIn_toDigits n) hn

/-! ## Keys with a version suffix -/

/-- `POSITION('@' IN key) > 0`, and `key.indexOf('@') >= 0`. -/
def hasAt (key : String) : Bool := key.toList.contains '@'

/-- `SUBSTR(key, 1, POSITION('@' IN key) - 1)`, the whole key where there is no `'@'`. -/
def beforeAt (key : String) : String := String.ofList (key.toList.takeWhile (· != '@'))

/-- What follows the first `'@'`. -/
def afterAt (key : String) : String :=
  String.ofList ((key.toList.dropWhile (· != '@')).drop 1)

/-- `SPLIT_PART(key, '@', 2)`: what stands between the first and the second `'@'`. -/
def splitPart2 (key : String) : String := beforeAt (afterAt key)

theorem ofList_toList (s : String) : String.ofList s.toList = s := by simp

theorem ne_at_of_not_hasAt {key : String} (h : hasAt key = false) :
    ∀ c ∈ key.toList, (c != '@') = true := by
  have hmem : '@' ∉ key.toList := by simpa [hasAt] using h
  intro c hc
  simp only [bne_iff_ne, ne_eq]
  rintro rfl
  exact hmem hc

/-- A key without a version suffix is its own logical part. -/
theorem beforeAt_of_not_hasAt {key : String} (h : hasAt key = false) : beforeAt key = key := by
  unfold beforeAt
  rw [List.takeWhile_eq_self_iff.mpr (ne_at_of_not_hasAt h), ofList_toList]

/-- The logical part of a key contains no `'@'`. -/
theorem not_hasAt_beforeAt (key : String) : hasAt (beforeAt key) = false := by
  simp only [hasAt, beforeAt, String.toList_ofList, List.contains_eq_mem, decide_eq_false_iff_not]
  intro h
  simpa using List.mem_takeWhile_imp h

/-! ### A suffix that is appended -/

theorem toList_withSuffix (key suffix : String) :
    (key ++ "@" ++ suffix).toList = key.toList ++ '@' :: suffix.toList := by
  simp

theorem hasAt_withSuffix (key suffix : String) : hasAt (key ++ "@" ++ suffix) = true := by
  simp [hasAt]

/-- What is appended behind an `'@'` takes no part in the logical part. -/
theorem beforeAt_withSuffix (key suffix : String) : beforeAt (key ++ "@" ++ suffix) = beforeAt key := by
  have htake : ∀ cs ds : List Char,
      (cs ++ '@' :: ds).takeWhile (· != '@') = cs.takeWhile (· != '@') := by
    intro cs ds
    induction cs with
    | nil => rfl
    | cons c cs ih => simp only [List.cons_append, List.takeWhile_cons, ih]
  rw [beforeAt, toList_withSuffix, htake]
  rfl

/-- The first `'@'` is the one before the suffix, when the key has none. -/
theorem afterAt_withSuffix {key : String} (h : hasAt key = false) (suffix : String) :
    afterAt (key ++ "@" ++ suffix) = suffix := by
  rw [afterAt, toList_withSuffix, List.dropWhile_append_of_pos (ne_at_of_not_hasAt h),
    List.dropWhile_cons_of_neg (by decide)]
  exact ofList_toList suffix

/-! ## Pattern matching -/

/-- `text LIKE pattern`: `%` stands for any sequence, `_` for any character, and `\` takes
the next character literally. -/
def likeChars : List Char → List Char → Bool
  | [] => fun text => text.isEmpty
  | '%' :: ps => fun text => text.tails.any (likeChars ps)
  | '_' :: ps => fun text => match text with
    | [] => false
    | _ :: cs => likeChars ps cs
  | '\\' :: p :: ps => fun text => match text with
    | [] => false
    | c :: cs => p == c && likeChars ps cs
  | p :: ps => fun text => match text with
    | [] => false
    | c :: cs => p == c && likeChars ps cs

/-- `text LIKE pattern`. -/
def sqlLike (text pattern : String) : Bool := likeChars pattern.toList text.toList

end PlmCore.Lib
