/-
What the object and the attributes of a rule tell of the key values.

Two key maps that are written alike under the same definitions agree on every key of the
scope, unless a value of theirs holds the bar that stands between the attributes: then a bar
inside a value reads as the end of it.
-/
import PlmCore.Lib.Separated
import PlmCore.Platform.Authz
import Mathlib.Data.List.Count
import Mathlib.Tactic.Common

set_option autoImplicit false

namespace PlmCore.Platform

/-- The value of a key as `encode` writes it: nothing for a missing one and for null. -/
def Keys.value (keys : Keys) (name : String) : String := (keys.getOrDefault name "").getD ""

/-- The keys that the definitions give a scope. -/
def ScopeDefinitionCache.keysOf (scopes : ScopeDefinitionCache) (code : String) : List String :=
  ((scopes.get code).map (·.keys)).getD []

/-- No value behind the first holds a bar, where there are bars between the values at all. -/
def Unambiguous (names : List String) (keys : Keys) : Prop :=
  names.length ≤ 2 ∨ ∀ name ∈ names.drop 1, '|' ∉ (keys.value name).toList

/-! ## Attributes -/

/-- `encodeAttrs` as characters. -/
def attrsChars (keys : Keys) : List String → List Char
  | [] => []
  | [n] => n.toList ++ '=' :: (keys.value n).toList
  | n :: m :: rest =>
    n.toList ++ '=' :: ((keys.value n).toList ++ '|' :: attrsChars keys (m :: rest))

theorem toList_encodeAttrs (keys : Keys) (names : List String) :
    (encodeAttrs keys names).toList = attrsChars keys names := by
  have hbar : "|".toList = ['|'] := rfl
  have heq : "=".toList = ['='] := rfl
  have hgo : ∀ names : List String, ("|".intercalate (names.map fun n => n ++ "=" ++ keys.value n)).toList
      = attrsChars keys names := by
    intro names
    induction names with
    | nil => simp [attrsChars]
    | cons n names ih =>
      cases names with
      | nil => simp [attrsChars, heq]
      | cons m rest =>
        rw [List.map_cons] at ih
        rw [List.map_cons, List.map_cons, String.intercalate_cons_cons]
        simp only [String.toList_append, ih]
        simp [attrsChars, hbar, heq]
  exact hgo names

/-- Values without bars take fewer bars than any others under the same names. -/
theorem count_bars_le (keys keys' : Keys) (names : List String)
    (hfree : ∀ n ∈ names, '|' ∉ (keys.value n).toList) :
    (attrsChars keys names).count '|' ≤ (attrsChars keys' names).count '|' := by
  induction names with
  | nil => exact Nat.le_refl _
  | cons n names ih =>
    have hn : (keys.value n).toList.count '|' = 0 :=
      List.count_eq_zero.mpr (hfree n List.mem_cons_self)
    cases names with
    | nil => simp only [attrsChars, List.count_append, List.count_cons, hn]; omega
    | cons m rest =>
      have hrest := ih fun k hk => hfree k (List.mem_cons_of_mem _ hk)
      simp only [attrsChars, List.count_append, List.count_cons, hn]
      omega

/-- A text without bars is the beginning of a text up to its first bar, and what follows it
begins no earlier in the other text. -/
theorem value_of_append_bar {v v' r r' : List Char} (hv : '|' ∉ v)
    (h : v ++ '|' :: r = v' ++ '|' :: r') (hcount : r.count '|' ≤ r'.count '|') :
    v = v' ∧ r = r' := by
  -- the bars of both sides are as many, so there is none in `v'` either
  have hbars := congrArg (List.count '|') h
  have hv0 : v.count '|' = 0 := List.count_eq_zero.mpr hv
  simp only [List.count_append, List.count_cons_self, hv0] at hbars
  have hv' : '|' ∉ v' := List.count_eq_zero.mp (by omega)
  have hfree : ∀ a ∈ v, a ∉ ({'|'} : Set Char) := fun a ha hbar => hv (hbar ▸ ha)
  have hsplit := Lib.fields_split hfree (fun a ha hbar => hv' (hbar ▸ ha)) rfl rfl h
  exact ⟨hsplit.1, hsplit.2.2⟩

/-- Attributes written alike have the same values. -/
theorem values_of_attrsChars {keys keys' : Keys} {names : List String}
    (hfree : names.length ≤ 1 ∨ ∀ n ∈ names, '|' ∉ (keys.value n).toList)
    (h : attrsChars keys names = attrsChars keys' names) :
    ∀ n ∈ names, keys.value n = keys'.value n := by
  induction names with
  | nil => intro n hn; cases hn
  | cons n names ih =>
    cases names with
    | nil =>
      intro k hk
      obtain rfl := List.mem_singleton.mp hk
      simp only [attrsChars, List.append_cancel_left_eq, List.cons.injEq, true_and] at h
      exact String.toList_inj.mp h
    | cons m rest =>
      have hbars : ∀ k ∈ n :: m :: rest, '|' ∉ (keys.value k).toList := by
        rcases hfree with hlen | hbars
        · simp at hlen
        · exact hbars
      simp only [attrsChars, List.append_cancel_left_eq, List.cons.injEq, true_and] at h
      have hcount := count_bars_le keys keys' (m :: rest) fun k hk => hbars k (List.mem_cons_of_mem _ hk)
      obtain ⟨hvalue, hrest⟩ := value_of_append_bar (hbars n List.mem_cons_self) h hcount
      intro k hk
      rcases List.mem_cons.mp hk with rfl | hk
      · exact String.toList_inj.mp hvalue
      · exact ih (Or.inr fun k hk => hbars k (List.mem_cons_of_mem _ hk)) hrest k hk

/-! ## Object and attributes -/

/-- **What is written alike is alike.** A null object counts as an empty one on the side of the
rules. -/
theorem values_of_encode {scopes : ScopeDefinitionCache} {code : String} {keys keys' : Keys}
    (hfree : Unambiguous (scopes.keysOf code) keys)
    (hobject : ((encode scopes code keys).1.getD "") = ((encode scopes code keys').1.getD ""))
    (hattrs : (encode scopes code keys).2 = (encode scopes code keys').2) :
    ∀ n ∈ scopes.keysOf code, keys.value n = keys'.value n := by
  intro n hn
  unfold ScopeDefinitionCache.keysOf at hn hfree
  unfold encode at hobject hattrs
  cases hget : scopes.get code with
  | none =>
    rw [hget] at hn
    cases hn
  | some d =>
    rw [hget] at hn hfree hobject hattrs
    cases hkeys : d.keys with
    | nil => simp [hkeys] at hn
    | cons first others =>
      simp only [hkeys, Option.map_some, Option.getD_some] at hn hfree hobject hattrs
      rcases List.mem_cons.mp hn with rfl | hn
      · exact hobject
      · have hchars := congrArg String.toList hattrs
        rw [toList_encodeAttrs, toList_encodeAttrs] at hchars
        refine values_of_attrsChars ?_ hchars n hn
        rcases hfree with hlen | hbars
        · exact Or.inl (by simpa using hlen)
        · exact Or.inr hbars

end PlmCore.Platform
