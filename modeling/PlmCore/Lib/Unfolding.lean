/-
The tree a graph unfolds to.

Every node has a list of edges, and an edge may lead on to a node. A recursive walk meets an edge
once by every trail that leads to it, so what it meets are not the edges of the graph but those of
the tree the graph unfolds to. The two are the same where no edge is met by two trails.
-/
import Mathlib.Data.List.Flatten
import Mathlib.Data.List.Nodup
import PlmCore.Lib.Descent

set_option autoImplicit false

namespace PlmCore.Lib

open Relation

section Unfolding

variable {α ε : Type} {edges edges' : α → List ε} {next : ε → Option α}

/-- Edges, each below the one before it, that lead from a node to a node. -/
inductive Trail (edges : α → List ε) (next : ε → Option α) : α → List ε → α → Prop
  | refl (a : α) : Trail edges next a [] a
  | cons {a b c : α} {e : ε} {p : List ε} (he : e ∈ edges a) (hnext : next e = some b)
      (h : Trail edges next b p c) : Trail edges next a (e :: p) c

/-- An edge of the first node leads to the second. -/
def Below (edges : α → List ε) (next : ε → Option α) (a b : α) : Prop := ∃ e ∈ edges a, next e = some b

/-- A walk of that depth comes to an end everywhere. -/
def EndsWithin (edges : α → List ε) (next : ε → Option α) : Nat → α → Prop
  | 0, _ => False
  | depth + 1, a => ∀ e ∈ edges a, ∀ b, next e = some b → EndsWithin edges next depth b

/-- The edges a walk of that depth meets, each with the trail by which it comes there. -/
def unfolding (edges : α → List ε) (next : ε → Option α) : Nat → α → List (List ε × ε)
  | 0, _ => []
  | depth + 1, a => (edges a).flatMap fun e =>
    ([], e) :: ((next e).elim [] (unfolding edges next depth)).map fun p => (e :: p.1, p.2)

theorem Trail.snoc {a b c : α} {e : ε} {p : List ε} (h : Trail edges next a p b) (he : e ∈ edges b)
    (hnext : next e = some c) : Trail edges next a (p ++ [e]) c := by
  induction h with
  | refl a => exact .cons he hnext (.refl c)
  | cons he₀ hnext₀ _ ih => exact .cons he₀ hnext₀ (ih he)

/-- A trail ends with its last edge. -/
theorem trail_snoc_iff {a c : α} {e : ε} {p : List ε} :
    Trail edges next a (p ++ [e]) c ↔ ∃ b, Trail edges next a p b ∧ e ∈ edges b ∧ next e = some c := by
  constructor
  · intro h
    induction p generalizing a with
    | nil =>
      cases h with
      | cons he hnext h =>
        cases h with
        | refl => exact ⟨a, .refl a, he, hnext⟩
    | cons e₀ p ih =>
      cases h with
      | cons he hnext h =>
        obtain ⟨b, hp, he', hnext'⟩ := ih h
        exact ⟨b, .cons he hnext hp, he', hnext'⟩
  · rintro ⟨b, hp, he, hnext⟩
    exact hp.snoc he hnext

theorem EndsWithin.mono {depth depth' : Nat} {a : α} (h : EndsWithin edges next depth a)
    (hle : depth ≤ depth') : EndsWithin edges next depth' a := by
  induction depth generalizing depth' a with
  | zero => exact h.elim
  | succ depth ih =>
    obtain ⟨d, rfl⟩ : ∃ d, depth' = d + 1 := ⟨depth' - 1, by omega⟩
    exact fun e he b hb => ih (h e he b hb) (by omega)

theorem mem_unfolding_succ {depth : Nat} {a : α} {x : List ε × ε} :
    x ∈ unfolding edges next (depth + 1) a ↔ ∃ e ∈ edges a, x = ([], e) ∨
      ∃ b, next e = some b ∧ ∃ p ∈ unfolding edges next depth b, x = (e :: p.1, p.2) := by
  simp only [unfolding, List.mem_flatMap, List.mem_cons, List.mem_map]
  refine exists_congr fun e => and_congr_right fun _ => or_congr_right ?_
  cases next e with
  | none => simp
  | some b => simp [eq_comm]

/-- **The walk meets the edges the trails lead to**, when it comes to an end. -/
theorem mem_unfolding {depth : Nat} {a : α} {p : List ε} {e : ε} (h : EndsWithin edges next depth a) :
    (p, e) ∈ unfolding edges next depth a ↔ ∃ c, Trail edges next a p c ∧ e ∈ edges c := by
  induction depth generalizing a p with
  | zero => exact h.elim
  | succ depth ih =>
    rw [mem_unfolding_succ]
    constructor
    · rintro ⟨e₀, he₀, hx | ⟨b, hb, q, hq, hx⟩⟩
      · obtain ⟨rfl, rfl⟩ := Prod.mk.inj hx
        exact ⟨a, .refl a, he₀⟩
      · obtain ⟨rfl, rfl⟩ := Prod.mk.inj hx
        obtain ⟨c, htrail, he⟩ := (ih (h e₀ he₀ b hb)).mp hq
        exact ⟨c, .cons he₀ hb htrail, he⟩
    · rintro ⟨c, htrail, he⟩
      cases htrail with
      | refl => exact ⟨e, he, .inl rfl⟩
      | cons he₀ hb htrail =>
        exact ⟨_, he₀, .inr ⟨_, hb, _, (ih (h _ he₀ _ hb)).mpr ⟨c, htrail, he⟩, rfl⟩⟩

/-- No edge is met twice by one trail. -/
theorem nodup_unfolding (hnodup : ∀ c, (edges c).Nodup) (depth : Nat) (a : α) :
    (unfolding edges next depth a).Nodup := by
  induction depth generalizing a with
  | zero => exact List.nodup_nil
  | succ depth ih =>
    rw [unfolding, List.nodup_flatMap]
    constructor
    · intro e _
      rw [List.nodup_cons]
      refine ⟨fun hmem => ?_, ?_⟩
      · obtain ⟨p, -, hp⟩ := List.mem_map.mp hmem
        cases hp
      · refine List.Nodup.map (fun p q hpq => ?_) ?_
        · obtain ⟨hfst, hsnd⟩ := Prod.mk.inj hpq
          exact Prod.ext (List.cons.inj hfst).2 hsnd
        · cases next e with
          | none => exact List.nodup_nil
          | some b => exact ih b
    · refine (hnodup a).imp fun {e₁ e₂} hne => ?_
      -- the first edge of the trail, or the edge itself, tells the two apart
      have hfirst : ∀ {e : ε} {x : List ε × ε}, x ∈ ([], e) :: ((next e).elim []
          (unfolding edges next depth)).map (fun p => (e :: p.1, p.2)) → (x.1 ++ [x.2]).head? = some e := by
        intro e x hx
        obtain rfl | hx := List.mem_cons.mp hx
        · rfl
        · obtain ⟨p, -, rfl⟩ := List.mem_map.mp hx
          rfl
      intro x hx₁ hx₂
      exact hne (Option.some.inj ((hfirst hx₁).symm.trans (hfirst hx₂)))

/-- At the end of a trail all edges are met by it. -/
theorem sublist_unfolding {depth : Nat} {a c : α} {p : List ε} (h : EndsWithin edges next depth a)
    (htrail : Trail edges next a p c) :
    ((edges c).map (Prod.mk p)).Sublist (unfolding edges next depth a) := by
  induction htrail generalizing depth with
  | refl a =>
    cases depth with
    | zero => exact h.elim
    | succ depth =>
      rw [unfolding, List.map_eq_flatMap]
      refine List.Sublist.flatMap_right _ fun e _ => ?_
      exact List.singleton_sublist.mpr List.mem_cons_self
  | @cons a b c e p he hnext _ ih =>
    cases depth with
    | zero => exact h.elim
    | succ depth =>
      have hbelow := (ih (h e he b hnext)).map fun q : List ε × ε => (e :: q.1, q.2)
      rw [List.map_map] at hbelow
      refine hbelow.trans ?_
      rw [unfolding]
      refine List.Sublist.trans ?_ (List.sublist_flatten_of_mem (List.mem_map_of_mem he))
      rw [hnext]
      exact List.sublist_cons_self _ _

/-- Two graphs with the same edges wherever a trail leads unfold to the same tree. -/
theorem unfolding_congr {depth : Nat} {a : α}
    (h : ∀ p c, Trail edges next a p c → edges' c = edges c) :
    unfolding edges' next depth a = unfolding edges next depth a ∧
      (EndsWithin edges' next depth a ↔ EndsWithin edges next depth a) := by
  induction depth generalizing a with
  | zero => exact ⟨rfl, .rfl⟩
  | succ depth ih =>
    have hsame : edges' a = edges a := h [] a (.refl a)
    have hbelow : ∀ e ∈ edges a, ∀ b, next e = some b →
        unfolding edges' next depth b = unfolding edges next depth b ∧
          (EndsWithin edges' next depth b ↔ EndsWithin edges next depth b) :=
      fun e he b hb => ih fun p c htrail => h (e :: p) c (.cons he hb htrail)
    constructor
    · rw [unfolding, unfolding, hsame]
      refine List.flatMap_congr fun e he => ?_
      cases hnext : next e with
      | none => rfl
      | some b => rw [Option.elim_some, Option.elim_some, (hbelow e he b hnext).1]
    · simp only [EndsWithin, hsame]
      exact forall₂_congr fun e he => forall₂_congr fun b hb => (hbelow e he b hb).2

/-- **A walk comes to an end** on an acyclic graph, where finitely many nodes have edges. -/
theorem exists_endsWithin [DecidableEq α] (hacyclic : ∀ a, ¬ TransGen (Below edges next) a a) (nodes : Finset α)
    (hnodes : ∀ a b, Below edges next a b → a ∈ nodes) (a : α) :
    ∃ depth, EndsWithin edges next depth a := by
  let R := Below edges next
  -- the rank of a node falls along its edges
  induction hrank : rank R (fun _ => True) nodes ∅ a using Nat.strong_induction_on generalizing a with
  | h n ih =>
    have hbelow : ∀ e ∈ edges a, ∃ depth, ∀ b, next e = some b → EndsWithin edges next depth b := by
      intro e he
      cases hnext : next e with
      | none => exact ⟨0, fun b hb => by cases hb⟩
      | some b =>
        have hstep : R a b := ⟨e, he, hnext⟩
        have hcycle : ¬ TransGen (Swaying R fun _ => True) a a := by
          intro hcycle
          have hsway : Swaying R (fun _ => True) ≤ R := fun _ _ hstep => hstep.1
          exact hacyclic a (TransGen.mono hsway a a hcycle)
        have hless : rank R (fun _ => True) nodes ∅ b < rank R (fun _ => True) nodes ∅ a :=
          rank_step_lt (hnodes a b hstep) trivial hstep hcycle
        rw [hrank] at hless
        obtain ⟨depth, hdepth⟩ := ih _ hless b rfl
        refine ⟨depth, fun b' hb' => ?_⟩
        obtain rfl := Option.some.inj hb'
        exact hdepth
    -- the deepest of the walks below the node
    have hall : ∀ es : List ε, es ⊆ edges a → ∃ depth, ∀ e ∈ es, ∀ b, next e = some b →
        EndsWithin edges next depth b := by
      intro es
      induction es with
      | nil => exact fun _ => ⟨0, fun e he => by cases he⟩
      | cons e es ihes =>
        intro hes
        obtain ⟨d₁, h₁⟩ := hbelow e (hes List.mem_cons_self)
        obtain ⟨d₂, h₂⟩ := ihes fun x hx => hes (List.mem_cons_of_mem _ hx)
        refine ⟨max d₁ d₂, fun x hx b hb => ?_⟩
        obtain rfl | hx := List.mem_cons.mp hx
        · exact (h₁ b hb).mono (le_max_left _ _)
        · exact (h₂ x hx b hb).mono (le_max_right _ _)
    obtain ⟨depth, hdepth⟩ := hall (edges a) (List.Subset.refl _)
    exact ⟨depth + 1, hdepth⟩

end Unfolding

end PlmCore.Lib
