/-
Subjects of a publish and subscribe bus.

A subject is a text of tokens between dots. In a subscription the token `*` stands for one token
and `>`, at the end, for one or more. A pattern matches no subject with fewer tokens than it has,
so a text spliced into one widens it only as far as its own tokens go.
-/
import Mathlib.Tactic.Common

set_option autoImplicit false

namespace PlmCore.Lib.Subject

/-- The tokens of a subject. -/
def tokens (subject : String) : List (List Char) := subject.toList.splitOn '.'

/-- The subject with these tokens matches the pattern. -/
def matchTokens : List (List Char) → List (List Char) → Bool
  | [['>']], _ :: _ => true
  | p :: ps, t :: ts => (p = ['*'] || p = t) && matchTokens ps ts
  | [], [] => true
  | _, _ => false

/-- The subscription takes the subject. -/
def accepts (pattern subject : String) : Bool := matchTokens (tokens pattern) (tokens subject)

/-- A subscription that is not refused: no token is empty or has a blank, and `>` stands at the
end. -/
def valid (pattern : String) : Bool :=
  (tokens pattern).all (fun t => t ≠ [] && t.all fun c => c ∉ [' ', '\t', '\r', '\n']) &&
    (tokens pattern).dropLast.all (· ≠ ['>'])

/-- A text that is one token and no wildcard. -/
def IsName (text : String) : Prop := ∀ c ∈ text.toList, c ∉ ['.', '*', '>', ' ']

theorem isName_of_all {text : String}
    (h : (text.toList.all fun c => !(['.', '*', '>', ' '].contains c)) = true) : IsName text := by
  intro c hc
  simpa using List.all_eq_true.mp h c hc

variable {p t : List Char} {ps ts : List (List Char)}

/-- A token that is not the last one stands for itself, unless it is `*`. -/
theorem matchTokens_cons (hps : ps ≠ []) :
    matchTokens (p :: ps) (t :: ts) = ((p = ['*'] || p = t) && matchTokens ps ts) := by
  cases ps with
  | nil => exact absurd rfl hps
  | cons q qs => rw [matchTokens]; simp

theorem matchTokens_cons_nil : matchTokens (p :: ps) [] = false := by
  unfold matchTokens
  split <;> simp_all

theorem length_le_of_matchTokens (h : matchTokens ps ts = true) : ps.length ≤ ts.length := by
  induction ps generalizing ts with
  | nil => exact Nat.zero_le _
  | cons p ps ih =>
    cases ts with
    | nil => rw [matchTokens_cons_nil] at h; cases h
    | cons t ts =>
      by_cases hps : ps = []
      · simp [hps]
      · rw [matchTokens_cons hps, Bool.and_eq_true] at h
        exact Nat.succ_le_succ (ih h.2)

/-! ## Spliced texts -/

theorem tokens_append (s s' : String) : tokens (s ++ "." ++ s') = tokens s ++ tokens s' := by
  simp only [tokens, String.toList_append]
  rw [List.append_assoc]
  exact List.splitOn_append_cons_self _ _

theorem tokens_name {s : String} (h : IsName s) : tokens s = [s.toList] :=
  List.splitOn_eq_singleton fun hdot => h '.' hdot (by simp)

theorem tokens_ne_nil (s : String) : tokens s ≠ [] := List.splitOn_ne_nil _ _

end PlmCore.Lib.Subject
