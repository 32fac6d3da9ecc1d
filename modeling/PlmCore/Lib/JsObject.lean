/-
An object of JavaScript that is used as a table.

Its keys are enumerated with those first that are integer indices, in ascending order, and the others in the
order in which they were put in. A key that is put in again keeps its place. What a key stands for does not
depend on the order, so a table that is built from the entries of another one is read key by key.
-/
import Mathlib.Data.List.Nodup
import Mathlib.Data.List.Sort
import Mathlib.Tactic.Common

set_option autoImplicit false

namespace PlmCore.Lib

/-- The number of an integer index: digits without a zero in front, below two to the thirty-second less one. -/
def indexKey (key : List Char) : Option Nat :=
  let value := key.foldl (fun n c => 10 * n + (c.toNat - 48)) 0
  if key ≠ [] ∧ key.all Char.isDigit ∧ (key.head? ≠ some '0' ∨ key = ['0']) ∧ value < 4294967295 then some value
  else none

/-- Properties in the order in which they were put in. -/
structure JsObject (V : Type) where
  fields : List (List Char × V)
  nodup : (fields.map Prod.fst).Nodup

namespace JsObject

variable {V W : Type} (o : JsObject V)

/-- `{}`. -/
def empty : JsObject V := ⟨[], List.nodup_nil⟩

/-- `o[key]`. -/
def get (key : List Char) : Option V := (o.fields.find? fun e => e.1 = key).map Prod.snd

/-- The properties with a new value for the key. -/
def putField (key : List Char) (v : V) : List (List Char × V) → List (List Char × V)
  | [] => [(key, v)]
  | e :: es => if e.1 = key then (key, v) :: es else e :: putField key v es

theorem keys_putField (key : List Char) (v : V) (es : List (List Char × V)) :
    (putField key v es).map Prod.fst =
      if key ∈ es.map Prod.fst then es.map Prod.fst else es.map Prod.fst ++ [key] := by
  induction es with
  | nil => rfl
  | cons e es ih =>
    rw [putField]
    by_cases he : e.1 = key
    · rw [if_pos he, List.map_cons, List.map_cons, if_pos (by rw [he]; exact List.mem_cons_self), he]
    · have hiff : key ∈ e.1 :: es.map Prod.fst ↔ key ∈ es.map Prod.fst := by
        rw [List.mem_cons]
        exact ⟨fun h => h.resolve_left fun h => he h.symm, .inr⟩
      rw [if_neg he, List.map_cons, ih, List.map_cons]
      simp only [hiff]
      split
      · rfl
      · rfl

/-- `o[key] = v`. -/
def put (key : List Char) (v : V) : JsObject V where
  fields := putField key v o.fields
  nodup := by
    rw [keys_putField]
    split
    case isTrue => exact o.nodup
    case isFalse hkey => exact List.nodup_append.mpr ⟨o.nodup, List.nodup_singleton _, by
      rintro a ha b hb rfl
      rw [List.mem_singleton] at hb
      exact hkey (hb ▸ ha)⟩

/-- `Object.entries(o)`. -/
def entries : List (List Char × V) :=
  (o.fields.filter fun e => (indexKey e.1).isSome).insertionSort
      (fun e e' => (indexKey e.1).getD 0 ≤ (indexKey e'.1).getD 0) ++
    o.fields.filter fun e => ¬ (indexKey e.1).isSome

/-- `Object.keys(o)`. -/
def keys : List (List Char) := o.entries.map Prod.fst

/-- `Object.values(o)`. -/
def values : List V := o.entries.map Prod.snd

/-! ## Properties -/

variable {o} {key : List Char} {v : V}

@[simp]
theorem get_empty (key : List Char) : (empty : JsObject V).get key = none := rfl

theorem get_eq_some_iff : o.get key = some v ↔ (key, v) ∈ o.fields := by
  obtain ⟨fields, hnodup⟩ := o
  change (fields.find? _).map _ = _ ↔ (key, v) ∈ fields
  induction fields with
  | nil => simp
  | cons e es ih =>
    rw [List.map_cons, List.nodup_cons] at hnodup
    rw [List.find?_cons, List.mem_cons]
    by_cases he : e.1 = key
    · rw [decide_eq_true he]
      constructor
      · intro h
        cases h
        exact .inl (Prod.ext he.symm rfl)
      · rintro (h | h)
        · rw [← h]
          rfl
        · exact absurd (List.mem_map_of_mem (f := Prod.fst) h) (he ▸ hnodup.1)
    · rw [decide_eq_false he]
      refine (ih hnodup.2).trans ⟨.inr, fun h => h.resolve_left fun heq => he ?_⟩
      rw [← heq]

theorem get_eq_none_iff : o.get key = none ↔ key ∉ o.fields.map Prod.fst := by
  rw [Option.eq_none_iff_forall_ne_some]
  constructor
  · intro h hmem
    obtain ⟨e, he, rfl⟩ := List.mem_map.mp hmem
    exact h e.2 (get_eq_some_iff.mpr he)
  · intro h v hv
    exact h (List.mem_map_of_mem (f := Prod.fst) (get_eq_some_iff.mp hv))

theorem find?_putField (key' key : List Char) (v : V) (es : List (List Char × V)) :
    ((putField key v es).find? fun e => e.1 = key').map Prod.snd =
      if key' = key then some v else (es.find? fun e => e.1 = key').map Prod.snd := by
  induction es with
  | nil =>
    by_cases h : key' = key
    · simp [putField, h]
    · simp [putField, h, Ne.symm h]
  | cons e es ih =>
    rw [putField]
    by_cases he : e.1 = key
    · rw [if_pos he, List.find?_cons, List.find?_cons]
      by_cases h : key' = key
      · simp [h]
      · have hne : ¬ e.1 = key' := fun heq => h (heq.symm.trans he)
        simp [h, hne, Ne.symm h]
    · rw [if_neg he, List.find?_cons, List.find?_cons]
      by_cases h' : e.1 = key'
      · have hne : key' ≠ key := fun heq => he (h'.trans heq)
        simp [h', hne]
      · simpa [h'] using ih

theorem get_put (key' key : List Char) (v : V) :
    (o.put key v).get key' = if key' = key then some v else o.get key' := find?_putField key' key v o.fields

/-! ## Entries -/

/-- The entries are the properties in another order. -/
theorem entries_perm (o : JsObject V) : o.entries.Perm o.fields := by
  refine ((List.perm_insertionSort _ _).append_right _).trans ?_
  simp only [decide_not, Bool.decide_eq_true]
  exact List.filter_append_perm _ _

theorem mem_entries : (key, v) ∈ o.entries ↔ o.get key = some v := by
  rw [get_eq_some_iff, (entries_perm o).mem_iff]

theorem nodup_keys (o : JsObject V) : o.keys.Nodup := ((entries_perm o).map _).nodup_iff.mpr o.nodup

theorem mem_keys : key ∈ o.keys ↔ ∃ v, o.get key = some v := by
  rw [keys, List.mem_map]
  constructor
  · rintro ⟨e, he, rfl⟩
    exact ⟨e.2, mem_entries.mp he⟩
  · rintro ⟨v, hv⟩
    exact ⟨(key, v), mem_entries.mpr hv, rfl⟩

theorem mem_values : v ∈ o.values ↔ ∃ key, o.get key = some v := by
  rw [values, List.mem_map]
  constructor
  · rintro ⟨e, he, rfl⟩
    exact ⟨e.1, mem_entries.mp he⟩
  · rintro ⟨key, hkey⟩
    exact ⟨(key, v), mem_entries.mpr hkey, rfl⟩

/-! ## Tables that are built from entries -/

/-- What is made of the entries, put under their keys. -/
def putAll (make : List Char → V → Option W) (t : JsObject W) (entries : List (List Char × V)) : JsObject W :=
  entries.foldl (fun t e => (make e.1 e.2).elim t (t.put e.1)) t

/-- The first entry with a key. -/
def lookup (entries : List (List Char × V)) (key : List Char) : Option V :=
  (entries.find? fun e => e.1 = key).map Prod.snd

theorem lookup_entries (o : JsObject V) (key : List Char) : lookup o.entries key = o.get key := by
  refine Option.ext fun v => ?_
  have hentries : JsObject.get ⟨o.entries, nodup_keys o⟩ key = some v ↔ (key, v) ∈ o.entries := get_eq_some_iff
  exact hentries.trans mem_entries

theorem lookup_eq_none {entries : List (List Char × V)} (h : key ∉ entries.map Prod.fst) :
    lookup entries key = none := by
  rw [lookup, Option.map_eq_none_iff, List.find?_eq_none]
  intro e he heq
  exact h (of_decide_eq_true heq ▸ List.mem_map_of_mem (f := Prod.fst) he)

/-- **What is put under keys of their own** is read key by key. -/
theorem get_putAll (make : List Char → V → Option W) {entries : List (List Char × V)}
    (h : (entries.map Prod.fst).Nodup) (t : JsObject W) (key : List Char) :
    (putAll make t entries).get key = ((lookup entries key).bind (make key)).or (t.get key) := by
  induction entries generalizing t with
  | nil => rfl
  | cons e es ih =>
    rw [List.map_cons, List.nodup_cons] at h
    rw [putAll, List.foldl_cons]
    refine (ih h.2 _).trans ?_
    by_cases he : e.1 = key
    · have hhead : lookup (e :: es) key = some e.2 := by
        rw [lookup, List.find?_cons, decide_eq_true he]
        rfl
      rw [lookup_eq_none (he ▸ h.1), hhead, he]
      change Option.or none _ = Option.or (make key e.2) (t.get key)
      cases make key e.2 with
      | none => rfl
      | some w => exact (get_put _ _ _).trans (if_pos rfl)
    · have htail : lookup (e :: es) key = lookup es key := by
        rw [lookup, List.find?_cons, decide_eq_false he]
        rfl
      rw [htail]
      congr 1
      cases make e.1 e.2 with
      | none => rfl
      | some w => exact (get_put _ _ _).trans (if_neg (Ne.symm he))

/-- A table of what is made of the entries of another one. -/
def mapEntries (o : JsObject V) (make : List Char → V → Option W) : JsObject W := putAll make empty o.entries

/-- **The table is read key by key.** -/
theorem get_mapEntries (o : JsObject V) (make : List Char → V → Option W) (key : List Char) :
    (o.mapEntries make).get key = (o.get key).bind (make key) := by
  rw [mapEntries, get_putAll make (nodup_keys o), lookup_entries, get_empty, Option.or_none]

/-- `Object.assign(o, o')`, and `{ ...o, ...o' }` with a new object. -/
def assign (o o' : JsObject V) : JsObject V := putAll (fun _ v => some v) o o'.entries

/-- What the second object has, and else what the first one has. -/
theorem get_assign (o o' : JsObject V) (key : List Char) : (o.assign o').get key = (o'.get key).or (o.get key) := by
  rw [assign, get_putAll _ (nodup_keys o'), lookup_entries, Option.bind_fun_some]

end JsObject

end PlmCore.Lib
