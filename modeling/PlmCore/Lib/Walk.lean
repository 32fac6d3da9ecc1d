/-
Walks that a partial function leads.

`f` gives the place after a place, or nothing where the walk ends. A walk has one end, since
each place has one successor, and two functions that agree on the places of a walk lead it the
same way.
-/
import Mathlib.Logic.Relation

set_option autoImplicit false

namespace PlmCore.Lib

variable {α : Type*}

/-- The walk from `a` comes to `b`. -/
def ComesTo (f : α → Option α) (a b : α) : Prop := Relation.ReflTransGen (fun x y => f x = some y) a b

/-- The walk from `a` ends at `b`. -/
def EndsAt (f : α → Option α) (a b : α) : Prop := ComesTo f a b ∧ f b = none

/-- `g` leads on as `f` does from every place of the walk from `a`. -/
def AgreeFrom (f g : α → Option α) (a : α) : Prop := ∀ x, ComesTo f a x → g x = f x

variable {f g : α → Option α} {a b c : α}

theorem ComesTo.refl : ComesTo f a a := Relation.ReflTransGen.refl

theorem ComesTo.tail (h : ComesTo f a b) (hstep : f b = some c) : ComesTo f a c :=
  Relation.ReflTransGen.tail h hstep

theorem ComesTo.head (hstep : f a = some b) (h : ComesTo f b c) : ComesTo f a c :=
  Relation.ReflTransGen.head hstep h

/-- From an end there is nowhere to come to. -/
theorem ComesTo.eq_of_end (h : ComesTo f a b) (hend : f a = none) : b = a := by
  rcases Relation.ReflTransGen.cases_head h with heq | ⟨x, hx, -⟩
  · exact heq.symm
  · rw [hend] at hx
    cases hx

/-- **A walk has one end.** -/
theorem EndsAt.unique (hb : EndsAt f a b) (hc : EndsAt f a c) : b = c := by
  have huniq : Relator.RightUnique fun x y => f x = some y := by
    intro x y z hy hz
    rw [hy] at hz
    exact Option.some.inj hz
  rcases Relation.ReflTransGen.total_of_right_unique huniq hb.1 hc.1 with h | h
  · exact (ComesTo.eq_of_end h hb.2).symm
  · exact ComesTo.eq_of_end h hc.2

theorem AgreeFrom.comesTo (hagree : AgreeFrom f g a) (h : ComesTo f a b) : ComesTo g a b := by
  induction h with
  | refl => exact ComesTo.refl
  | tail hx hstep ih => exact ih.tail ((hagree _ hx).trans hstep)

theorem AgreeFrom.symm (hagree : AgreeFrom f g a) : AgreeFrom g f a := by
  have hback : ∀ x, ComesTo g a x → ComesTo f a x := by
    intro x hx
    induction hx with
    | refl => exact ComesTo.refl
    | tail _ hstep ih => exact ih.tail ((hagree _ ih).symm.trans hstep)
  exact fun x hx => (hagree x (hback x hx)).symm

/-! ## Counting the steps -/

/-- Where the walk from a place is after a number of steps. -/
def placeAfter (f : α → Option α) : Nat → α → Option α
  | 0, a => some a
  | n + 1, a => (f a).bind (placeAfter f n)

theorem placeAfter_succ (n : Nat) : placeAfter f (n + 1) a = (placeAfter f n a).bind f := by
  induction n generalizing a with
  | zero => simp [placeAfter]
  | succ n ih =>
    rw [placeAfter, placeAfter, Option.bind_assoc]
    congr 1
    funext x
    exact ih

theorem placeAfter_add (n m : Nat) :
    placeAfter f (n + m) a = (placeAfter f n a).bind (placeAfter f m) := by
  induction n generalizing a with
  | zero => simp [placeAfter]
  | succ n ih =>
    rw [Nat.add_right_comm, placeAfter, placeAfter, Option.bind_assoc]
    congr 1
    funext x
    exact ih

theorem placeAfter_of_end (hend : f a = none) {n : Nat} (hn : 0 < n) : placeAfter f n a = none := by
  obtain ⟨n, rfl⟩ := Nat.exists_eq_add_of_lt hn
  rw [Nat.zero_add, placeAfter, hend, Option.bind_none]

/-- A walk comes to the places it is at after some number of steps. -/
theorem comesTo_iff_placeAfter : ComesTo f a b ↔ ∃ n, placeAfter f n a = some b := by
  constructor
  · intro h
    induction h with
    | refl => exact ⟨0, rfl⟩
    | tail _ hstep ih =>
      obtain ⟨n, hn⟩ := ih
      exact ⟨n + 1, by rw [placeAfter_succ, hn, Option.bind_some, hstep]⟩
  · rintro ⟨n, hn⟩
    induction n generalizing a with
    | zero =>
      obtain rfl : a = b := Option.some.inj hn
      exact ComesTo.refl
    | succ n ih =>
      obtain ⟨x, hx, hrest⟩ := Option.bind_eq_some_iff.mp hn
      exact (ih hrest).head hx

/-- The first places of the walk from a place. -/
def places (f : α → Option α) : Nat → α → List α
  | 0, _ => []
  | n + 1, a => a :: (f a).elim [] (places f n)

theorem mem_places {n : Nat} : b ∈ places f n a ↔ ∃ m < n, placeAfter f m a = some b := by
  induction n generalizing a with
  | zero => simp [places]
  | succ n ih =>
    have hrest : b ∈ (f a).elim [] (places f n) ↔ ∃ m < n, placeAfter f (m + 1) a = some b := by
      cases h : f a with
      | none => simp [placeAfter, h]
      | some x => simp [placeAfter, h, ih]
    rw [places, List.mem_cons, hrest]
    constructor
    · rintro (rfl | ⟨m, hm, hx⟩)
      · exact ⟨0, by omega, rfl⟩
      · exact ⟨m + 1, by omega, hx⟩
    · rintro ⟨m, hm, hx⟩
      cases m with
      | zero => exact .inl (Option.some.inj hx).symm
      | succ m => exact .inr ⟨m, by omega, hx⟩

theorem places_add (n m : Nat) :
    places f (n + m) a = places f n a ++ (placeAfter f n a).elim [] (places f m) := by
  induction n generalizing a with
  | zero => simp [places, placeAfter]
  | succ n ih =>
    rw [Nat.add_right_comm, places, places, placeAfter]
    cases h : f a with
    | none => simp
    | some x => simp [ih]

theorem length_places {n : Nat} (h : (placeAfter f n a).isSome) : (places f (n + 1) a).length = n + 1 := by
  induction n generalizing a with
  | zero => cases hf : f a <;> simp [places, hf]
  | succ n ih =>
    cases hf : f a with
    | none => simp [placeAfter, hf] at h
    | some x =>
      rw [places, hf, Option.elim_some, List.length_cons, ih]
      simpa [placeAfter, hf] using h

theorem AgreeFrom.endsAt (hagree : AgreeFrom f g a) (h : EndsAt f a b) : EndsAt g a b :=
  ⟨hagree.comesTo h.1, (hagree _ h.1).trans h.2⟩

end PlmCore.Lib
