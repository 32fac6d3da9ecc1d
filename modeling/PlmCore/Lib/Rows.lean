/-
Tables as lists of rows: what deleting, selecting and writing rows does to keys and to joins.
-/
import Mathlib.Data.List.Nodup
import Mathlib.Data.List.Perm.Basic
import Mathlib.Tactic.Common

set_option autoImplicit false

namespace PlmCore.Lib

variable {α β : Type}

/-- Keys stay keys when rows go. -/
theorem nodup_map_filter {f : α → β} {rows : List α} {q : α → Bool} (h : (rows.map f).Nodup) :
    ((rows.filter q).map f).Nodup :=
  h.sublist (List.filter_sublist.map f)

/-- **Two joins over one table.** They agree when every row the first selects is selected by
the second and joins the same, and the rows only the second selects join nothing. -/
theorem flatMap_filter_congr {rows : List α} {p q : α → Bool} {f g : α → List β}
    (hboth : ∀ x ∈ rows, p x = true → q x = true ∧ f x = g x)
    (honly : ∀ x ∈ rows, q x = true → p x = false → g x = []) :
    (rows.filter p).flatMap f = (rows.filter q).flatMap g := by
  induction rows with
  | nil => rfl
  | cons x rows ih =>
    have ih := ih (fun y hy => hboth y (by simp [hy])) fun y hy => honly y (by simp [hy])
    rw [List.filter_cons, List.filter_cons]
    cases hp : p x with
    | true =>
      obtain ⟨hq, hfg⟩ := hboth x (by simp) hp
      simp [hq, hfg, ih]
    | false =>
      cases hq : q x with
      | true => simp [honly x (by simp) hq hp, ih]
      | false => simpa using ih

/-- Selecting from a table that grew by rows the selection leaves out. -/
theorem filter_append_of_not {rows new : List α} {p q : α → Bool} (hold : ∀ x ∈ rows, p x = q x)
    (hnew : ∀ x ∈ new, p x = false) : (rows ++ new).filter p = rows.filter q := by
  have hnil : new.filter p = [] := List.filter_eq_nil_iff.mpr fun x hx => by simp [hnew x hx]
  rw [List.filter_append, List.filter_congr hold, hnil, List.append_nil]

/-- Selecting from a table in which only rows the selection leaves out were rewritten. -/
theorem filter_map_of_not {rows : List α} {f : α → α} {p q : α → Bool}
    (hpq : ∀ x ∈ rows, p (f x) = q x) (hf : ∀ x ∈ rows, q x = true → f x = x) :
    (rows.map f).filter p = rows.filter q := by
  induction rows with
  | nil => rfl
  | cons x rows ih =>
    have ih := ih (fun y hy => hpq y (by simp [hy])) fun y hy => hf y (by simp [hy])
    rw [List.map_cons, List.filter_cons, List.filter_cons, hpq x (by simp), ih]
    split
    · rw [hf x (by simp) (by assumption)]
    · rfl

/-- A selection that only one row satisfies. -/
theorem filter_eq_singleton {rows : List α} {q : α → Bool} {x : α} (hnodup : rows.Nodup)
    (hx : x ∈ rows) (hqx : q x = true) (honly : ∀ y ∈ rows, q y = true → y = x) :
    rows.filter q = [x] := by
  refine List.Perm.eq_singleton ((List.perm_ext_iff_of_nodup (hnodup.filter q)
    (List.nodup_singleton x)).mpr fun y => ?_)
  rw [List.mem_filter, List.mem_singleton]
  constructor
  · exact fun hy => honly y hy.1 hy.2
  · rintro rfl
    exact ⟨hx, hqx⟩

/-- A row is found under its key. -/
theorem find?_key {κ : Type} [DecidableEq κ] {key : α → κ} {rows : List α} {x : α}
    (h : (rows.map key).Nodup) (hx : x ∈ rows) : rows.find? (fun y => key y = key x) = some x := by
  induction rows with
  | nil => cases hx
  | cons y rows ih =>
    obtain ⟨hy, hrows⟩ := List.nodup_cons.mp h
    obtain rfl | hx := List.mem_cons.mp hx
    · simp
    · have hne : key y ≠ key x := fun heq => hy (heq ▸ List.mem_map_of_mem hx)
      rw [List.find?_cons_of_neg (by simpa using hne), ih hrows hx]

/-- Narrowing a selection makes the wider one superfluous. -/
theorem filter_filter_of_imp {rows : List α} {p q : α → Bool} (hqp : ∀ x, q x = true → p x = true) :
    (rows.filter p).filter q = rows.filter q := by
  rw [List.filter_filter]
  refine List.filter_congr fun x _ => ?_
  cases hq : q x with
  | true => simp [hqp x hq]
  | false => rfl

/-- Two tables that agree on a selection agree on every narrower one. -/
theorem filter_eq_of_filter_eq {rows rows' : List α} {p q : α → Bool}
    (h : rows'.filter p = rows.filter p) (hqp : ∀ x, q x = true → p x = true) :
    rows'.filter q = rows.filter q := by
  rw [← filter_filter_of_imp hqp, h, filter_filter_of_imp hqp]

/-! ## Keys -/

section Keys

variable {κ : Type} [DecidableEq κ] {key : α → κ} {rows : List α} {x : α} {k : κ}

/-- Rows with one key are one row. -/
def UniqueBy (key : α → κ) (rows : List α) : Prop := ∀ a ∈ rows, ∀ b ∈ rows, key a = key b → a = b

instance [DecidableEq α] : Decidable (UniqueBy key rows) :=
  inferInstanceAs (Decidable (∀ a ∈ rows, ∀ b ∈ rows, key a = key b → a = b))

theorem find?_eq_some_iff_of_unique (h : UniqueBy key rows) :
    rows.find? (fun y => key y = k) = some x ↔ x ∈ rows ∧ key x = k := by
  constructor
  · intro hfind
    have hkey := List.find?_some hfind
    exact ⟨List.mem_of_find?_eq_some hfind, of_decide_eq_true hkey⟩
  · rintro ⟨hx, rfl⟩
    obtain ⟨y, hy⟩ : ∃ y, rows.find? (fun y => key y = key x) = some y :=
      Option.isSome_iff_exists.mp (List.find?_isSome.mpr ⟨x, hx, decide_eq_true rfl⟩)
    have hkey := List.find?_some hy
    rw [hy, h y (List.mem_of_find?_eq_some hy) x hx (of_decide_eq_true hkey)]

end Keys

/-! ## Rows written under their keys -/

section Upsert

variable {κ : Type} [DecidableEq κ] (key : α → κ)

/-- A row written under its key: it replaces the row with that key, or comes last. -/
def upsert (x : α) (rows : List α) : List α :=
  if key x ∈ rows.map key then rows.map fun y => if key y = key x then x else y else rows ++ [x]

/-- Rows written one after another. -/
def upsertAll (rows new : List α) : List α := new.foldl (fun rows x => upsert key x rows) rows

variable {key} {x y : α} {rows new : List α}

theorem mem_upsert : y ∈ upsert key x rows ↔ y = x ∨ (y ∈ rows ∧ key y ≠ key x) := by
  unfold upsert
  split
  · rename_i hx
    obtain ⟨z, hz, hzx⟩ := List.mem_map.mp hx
    rw [List.mem_map]
    constructor
    · rintro ⟨w, hw, rfl⟩
      by_cases hwx : key w = key x
      · exact .inl (if_pos hwx)
      · rw [if_neg hwx]
        exact .inr ⟨hw, hwx⟩
    · rintro (rfl | ⟨hy, hyx⟩)
      · exact ⟨z, hz, if_pos hzx⟩
      · exact ⟨y, hy, if_neg hyx⟩
  · rename_i hx
    rw [List.mem_append, List.mem_singleton]
    constructor
    · rintro (hy | rfl)
      · exact .inr ⟨hy, fun hyx => hx (hyx ▸ List.mem_map_of_mem hy)⟩
      · exact .inl rfl
    · rintro (rfl | ⟨hy, -⟩)
      · exact .inr rfl
      · exact .inl hy

theorem UniqueBy.upsert (h : UniqueBy key rows) : UniqueBy key (upsert key x rows) := by
  intro a ha b hb hab
  obtain rfl | ⟨ha, hane⟩ := mem_upsert.mp ha
  · obtain rfl | ⟨hb, hbne⟩ := mem_upsert.mp hb
    · rfl
    · exact absurd hab.symm hbne
  · obtain rfl | ⟨hb, hbne⟩ := mem_upsert.mp hb
    · exact absurd hab hane
    · exact h a ha b hb hab

/-- The row of a key after a row was written. -/
theorem find?_upsert (h : UniqueBy key rows) (x : α) (k : κ) :
    (upsert key x rows).find? (fun y => key y = k) =
      if key x = k then some x else rows.find? fun y => key y = k := by
  refine Option.ext fun y => ?_
  rw [find?_eq_some_iff_of_unique h.upsert, mem_upsert]
  split
  case isTrue hk =>
    rw [Option.some.injEq]
    constructor
    · rintro ⟨rfl | ⟨-, hne⟩, hy⟩
      · rfl
      · exact absurd (hy.trans hk.symm) hne
    · rintro rfl
      exact ⟨.inl rfl, hk⟩
  case isFalse hk =>
    rw [find?_eq_some_iff_of_unique h]
    constructor
    · rintro ⟨rfl | ⟨hy, -⟩, hyk⟩
      · exact absurd hyk hk
      · exact ⟨hy, hyk⟩
    · rintro ⟨hy, hyk⟩
      exact ⟨.inr ⟨hy, fun heq => hk (heq.symm.trans hyk)⟩, hyk⟩

/-- Keys stay keys. -/
theorem nodup_map_upsert (h : (rows.map key).Nodup) : ((upsert key x rows).map key).Nodup := by
  unfold upsert
  split
  · have hsame : (rows.map fun y => if key y = key x then x else y).map key = rows.map key := by
      rw [List.map_map]
      refine List.map_congr_left fun y _ => ?_
      rw [Function.comp_apply]
      split
      · exact Eq.symm ‹_›
      · rfl
    rwa [hsame]
  · rename_i hx
    rw [List.map_append, List.map_singleton]
    exact h.append (List.nodup_singleton _) (List.disjoint_singleton.mpr hx)

/-- The keys are the old ones and the new ones. -/
theorem mem_map_upsert {k : κ} : k ∈ (upsert key x rows).map key ↔ k = key x ∨ k ∈ rows.map key := by
  simp only [List.mem_map, mem_upsert]
  constructor
  · rintro ⟨y, rfl | ⟨hy, -⟩, rfl⟩
    · exact .inl rfl
    · exact .inr ⟨y, hy, rfl⟩
  · rintro (rfl | ⟨y, hy, rfl⟩)
    · exact ⟨x, .inl rfl, rfl⟩
    · by_cases hyx : key y = key x
      · exact ⟨x, .inl rfl, hyx.symm⟩
      · exact ⟨y, .inr ⟨hy, hyx⟩, rfl⟩

theorem mem_map_upsertAll {k : κ} :
    k ∈ (upsertAll key rows new).map key ↔ k ∈ new.map key ∨ k ∈ rows.map key := by
  induction new generalizing rows with
  | nil => simp [upsertAll]
  | cons x new ih =>
    change k ∈ (upsertAll key (upsert key x rows) new).map key ↔ _
    rw [ih, mem_map_upsert, List.map_cons, List.mem_cons]
    exact or_left_comm.trans or_assoc.symm

theorem nodup_map_upsertAll (h : (rows.map key).Nodup) : ((upsertAll key rows new).map key).Nodup := by
  induction new generalizing rows with
  | nil => exact h
  | cons x new ih => exact ih (nodup_map_upsert h)

/-- **What is there after rows under different keys were written**: they, and the old rows under other
keys. -/
theorem mem_upsertAll (h : (new.map key).Nodup) :
    y ∈ upsertAll key rows new ↔ y ∈ new ∨ (y ∈ rows ∧ key y ∉ new.map key) := by
  induction new generalizing rows with
  | nil => simp [upsertAll]
  | cons x new ih =>
    obtain ⟨hx, hnew⟩ := List.nodup_cons.mp h
    change y ∈ upsertAll key (upsert key x rows) new ↔ _
    rw [ih hnew, mem_upsert, List.mem_cons, List.map_cons, List.mem_cons, not_or]
    constructor
    · rintro (hy | ⟨rfl | ⟨hy, hne⟩, hkey⟩)
      · exact .inl (.inr hy)
      · exact .inl (.inl rfl)
      · exact .inr ⟨hy, hne, hkey⟩
    · rintro ((rfl | hy) | ⟨hy, hne, hkey⟩)
      · exact .inr ⟨.inl rfl, hx⟩
      · exact .inl hy
      · exact .inr ⟨.inr ⟨hy, hne⟩, hkey⟩

/-- A selection does not see a row that is written under a key it leaves out. -/
theorem filter_upsert_of_not {p : α → Bool} (hp : ∀ y, key y = key x → p y = false) :
    (upsert key x rows).filter p = rows.filter p := by
  unfold upsert
  split
  · refine filter_map_of_not (fun y _ => ?_) fun y _ hy => if_neg fun hyx => ?_
    · by_cases hyx : key y = key x
      · rw [if_pos hyx, hp x rfl, hp y hyx]
      · rw [if_neg hyx]
    · rw [hp y hyx] at hy
      cases hy
  · rw [List.filter_append, List.filter_cons_of_neg (by simp [hp x rfl]), List.filter_nil,
      List.append_nil]

theorem filter_upsertAll_of_not {p : α → Bool} (hp : ∀ x ∈ new, ∀ y, key y = key x → p y = false) :
    (upsertAll key rows new).filter p = rows.filter p := by
  induction new generalizing rows with
  | nil => rfl
  | cons x new ih =>
    refine (ih fun z hz => hp z (List.mem_cons_of_mem x hz)).trans ?_
    exact filter_upsert_of_not (hp x List.mem_cons_self)

end Upsert

end PlmCore.Lib
