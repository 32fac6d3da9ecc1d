/-
A recursive query that keeps duplicates (`WITH RECURSIVE … UNION ALL`).

Each round joins the rows of the round before, and the query ends with the first round without rows.
Nothing keeps a row from coming back, so the query ends if and only if no cycle is reached; then its
rows are what is reached.
-/
import PlmCore.Lib.Unfolding

set_option autoImplicit false

namespace PlmCore.Lib

open Relation

section RecursiveQuery

variable {α : Type} (step : α → List α)

/-- The rows of all rounds, from the working table on; none where the rounds given are too few. -/
def recursiveQuery : Nat → List α → Option (List α)
  | 0, _ => none
  | _ + 1, [] => some []
  | rounds + 1, row :: rows =>
    (recursiveQuery rounds ((row :: rows).flatMap step)).map (row :: rows ++ ·)

/-- A row is joined to another. -/
def Joins (a b : α) : Prop := b ∈ step a

variable {step} {rounds : Nat} {work rows : List α} {a b : α}

/-- **The rows of the query** are those that the working table reaches. -/
theorem mem_recursiveQuery (h : recursiveQuery step rounds work = some rows) :
    b ∈ rows ↔ ∃ a ∈ work, ReflTransGen (Joins step) a b := by
  induction rounds generalizing work rows with
  | zero => cases h
  | succ rounds ih =>
    cases work with
    | nil =>
      obtain rfl := Option.some.inj h
      simp
    | cons row work =>
      obtain ⟨later, hlater, rfl⟩ := Option.map_eq_some_iff.mp h
      have hnext := ih hlater
      rw [List.mem_append, hnext]
      constructor
      · rintro (hb | ⟨c, hc, hreach⟩)
        · exact ⟨b, hb, .refl⟩
        · obtain ⟨a, ha, hjoin⟩ := List.mem_flatMap.mp hc
          exact ⟨a, ha, .head hjoin hreach⟩
      · rintro ⟨a, ha, hreach⟩
        obtain rfl | ⟨c, hjoin, hreach⟩ := hreach.cases_head
        · exact .inl ha
        · exact .inr ⟨c, List.mem_flatMap.mpr ⟨a, ha, hjoin⟩, hreach⟩

/-- The rounds suffice when the walk from every row of the working table comes to an end. -/
theorem recursiveQuery_isSome_iff : (recursiveQuery step (rounds + 1) work).isSome = true ↔
    ∀ a ∈ work, EndsWithin step some rounds a := by
  induction rounds generalizing work with
  | zero =>
    cases work with
    | nil => simp [recursiveQuery]
    | cons row work =>
      have hnone : recursiveQuery step 1 (row :: work) = none := rfl
      rw [hnone]
      exact iff_of_false (by simp) fun h => h row List.mem_cons_self
  | succ rounds ih =>
    cases work with
    | nil => simp [recursiveQuery]
    | cons row work =>
      rw [recursiveQuery, Option.isSome_map, ih]
      simp only [List.mem_flatMap, EndsWithin, Option.some.injEq, forall_eq', forall_exists_index,
        and_imp]
      exact ⟨fun h b hb c hc => h c b hb hc, fun h c b hb hc => h b hb c hc⟩

/-- No cycle is reached by a walk that comes to an end. -/
theorem EndsWithin.acyclic {depth : Nat} (h : EndsWithin step some depth a)
    (hreach : ReflTransGen (Joins step) a b) : ¬ TransGen (Joins step) b b := by
  induction depth generalizing a with
  | zero => exact h.elim
  | succ depth ih =>
    obtain rfl | ⟨c, hjoin, hreach⟩ := hreach.cases_head
    · intro hcycle
      obtain ⟨c, hjoin, hback⟩ := TransGen.head'_iff.mp hcycle
      exact ih (h c hjoin c rfl) hback hcycle
    · exact ih (h c hjoin c rfl) hreach

open Classical in
/-- A walk that reaches no cycle comes to an end, where finitely many rows are joined to any. -/
theorem exists_endsWithin_of_acyclic [DecidableEq α] (sources : Finset α)
    (hsources : ∀ a b, Joins step a b → a ∈ sources)
    (h : ∀ b, ReflTransGen (Joins step) a b → ¬ TransGen (Joins step) b b) :
    ∃ depth, EndsWithin step some depth a := by
  -- the graph without what is not reached has no cycle at all
  let reached : α → List α := fun b => if ReflTransGen (Joins step) a b then step b else []
  have hbelow : ∀ {b c}, Below reached some b c → ReflTransGen (Joins step) a b ∧ Joins step b c := by
    rintro b c ⟨e, he, hec⟩
    obtain rfl := Option.some.inj hec
    by_cases hb : ReflTransGen (Joins step) a b
    · simp only [reached, if_pos hb] at he
      exact ⟨hb, he⟩
    · simp only [reached, if_neg hb] at he
      cases he
  have hacyclic : ∀ b, ¬ TransGen (Below reached some) b b := by
    intro b hcycle
    obtain ⟨c, hfirst, -⟩ := TransGen.head'_iff.mp hcycle
    exact h b (hbelow hfirst).1 (TransGen.mono (fun _ _ hstep => (hbelow hstep).2) _ _ hcycle)
  obtain ⟨depth, hdepth⟩ := exists_endsWithin hacyclic sources
    (fun b c hstep => hsources b c (hbelow hstep).2) a
  refine ⟨depth, (unfolding_congr ?_).2.mp hdepth⟩
  intro p c htrail
  have hreach : ReflTransGen (Joins step) a c := by
    have htail : ∀ {b c p}, Trail step some b p c → ReflTransGen (Joins step) b c := by
      intro b c p htrail
      induction htrail with
      | refl => exact .refl
      | cons he hnext _ ih =>
        obtain rfl := Option.some.inj hnext
        exact .head he ih
    exact htail htrail
  exact if_pos hreach

/-- **When the query ends**: it reaches no cycle. -/
theorem recursiveQuery_ends_iff [DecidableEq α] (sources : Finset α)
    (hsources : ∀ a b, Joins step a b → a ∈ sources) :
    (∃ rounds, (recursiveQuery step rounds work).isSome = true) ↔
      ∀ a ∈ work, ∀ b, ReflTransGen (Joins step) a b → ¬ TransGen (Joins step) b b := by
  constructor
  · rintro ⟨rounds, hsome⟩ a ha b hreach
    cases rounds with
    | zero => cases hsome
    | succ rounds => exact (recursiveQuery_isSome_iff.mp hsome a ha).acyclic hreach
  · intro h
    -- the longest of the walks from the working table
    have hall : ∃ depth, ∀ a ∈ work, EndsWithin step some depth a := by
      induction work with
      | nil => exact ⟨0, fun a ha => absurd ha List.not_mem_nil⟩
      | cons row work ih =>
        obtain ⟨hrow, hwork⟩ := List.forall_mem_cons.mp h
        obtain ⟨d₁, h₁⟩ := exists_endsWithin_of_acyclic sources hsources hrow
        obtain ⟨d₂, h₂⟩ := ih hwork
        refine ⟨max d₁ d₂, List.forall_mem_cons.mpr ⟨h₁.mono (le_max_left _ _), fun a ha => ?_⟩⟩
        exact (h₂ a ha).mono (le_max_right _ _)
    obtain ⟨depth, hdepth⟩ := hall
    exact ⟨depth + 1, recursiveQuery_isSome_iff.mpr hdepth⟩

end RecursiveQuery

end PlmCore.Lib
