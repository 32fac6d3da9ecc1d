/-
Whole batches of scopes: which are accepted, what they leave, and what a second registration of
the same batch does.

A scope reads and writes what the tables have at its own code, so the scopes of a batch with
distinct codes may be registered in any order. The sort only sees to it that the parents are there.
-/
import PlmCore.Pno.Catalog

set_option autoImplicit false

namespace PlmCore.Pno.Catalog

open PlmCore.Lib

variable {sha256 : String → String} {service_code instance_id : String} {now : Nat}
  {t : ScopeTables} {scopes scopes' ordered : List ScopeRegistration}

/-! ## Accepted batches -/

theorem accept_all_none {rest : List ScopeRegistration} :
    rest.foldl (fun w s => w.bind fun w => accept sha256 service_code instance_id now w s) none =
      none := by
  induction rest with
  | nil => rfl
  | cons s rest ih => exact ih

theorem accept_all_cons (w : ScopeTables × Bool) (s : ScopeRegistration) (rest : List ScopeRegistration) :
    accept_all sha256 service_code instance_id now w (s :: rest) =
      (accept sha256 service_code instance_id now w s).bind fun w =>
        accept_all sha256 service_code instance_id now w rest := by
  rw [accept_all, List.foldl_cons, Option.bind_some]
  cases accept sha256 service_code instance_id now w s with
  | none => exact accept_all_none
  | some w => rfl

/-- The loop of `register_all` ends without a conflict exactly when every scope is accepted. -/
theorem foldlM_register_iff {b : Batch} {w : ScopeTables × Bool} :
    (∃ b', ordered.foldlM (Batch.register sha256 service_code instance_id now) b = .ok b' ∧
        b'.conflicts = [] ∧ (b'.tables, b'.any_change) = w) ↔
      b.conflicts = [] ∧
        accept_all sha256 service_code instance_id now (b.tables, b.any_change) ordered = some w := by
  induction ordered generalizing b with
  | nil =>
    constructor
    · rintro ⟨b', hb', hnone, rfl⟩
      cases hb'
      exact ⟨hnone, rfl⟩
    · rintro ⟨hnone, hw⟩
      exact ⟨b, rfl, hnone, Option.some.inj hw⟩
  | cons s rest ih =>
    rw [List.foldlM_cons, accept_all_cons]
    cases hs : accept sha256 service_code instance_id now (b.tables, b.any_change) s with
    | some w' =>
      rw [register_of_accept hs]
      exact ih
    | none =>
      refine iff_of_false ?_ fun h => absurd h.2 (Option.some_ne_none w).symm
      rintro ⟨b', hb', hnone, hw⟩
      obtain herror | ⟨c, hconflict⟩ := register_of_refused hs
      · rw [herror] at hb'
        cases hb'
      · -- the conflict stays to the end of the loop
        rw [hconflict] at hb'
        exact absurd (ih.mp ⟨b', hb', hnone, hw⟩).1 (List.append_ne_nil_of_right_ne_nil _ (by simp))

/-- **A batch is registered exactly when** it can be sorted and every scope is accepted in turn. -/
theorem register_all_ok_iff {w : ScopeTables × Bool} :
    register_all sha256 service_code instance_id now t scopes = .ok w ↔
      ∃ ordered, topological_sort (fun code => (t.permission_scope code).isSome) scopes = .ok ordered ∧
        accept_all sha256 service_code instance_id now (t, false) ordered = some w := by
  unfold register_all
  cases topological_sort (fun code => (t.permission_scope code).isSome) scopes with
  | error e => simp
  | ok ordered =>
    have hloop := @foldlM_register_iff sha256 service_code instance_id now ordered ⟨t, [], false⟩ w
    rw [and_iff_right rfl] at hloop
    simp only [Except.ok.injEq, exists_eq_left']
    rw [← hloop]
    cases ordered.foldlM (Batch.register sha256 service_code instance_id now) ⟨t, [], false⟩ with
    | error e => simp
    | ok b =>
      by_cases hnone : b.conflicts = []
      · simp [hnone]
      · simp [hnone]

/-! ## The order of a batch -/

/-- Two scopes with other codes may change places. -/
theorem accept_comm {w : ScopeTables × Bool} {s s' : ScopeRegistration}
    (hne : s.scope_code ≠ s'.scope_code) :
    ((accept sha256 service_code instance_id now w s).bind fun w =>
        accept sha256 service_code instance_id now w s') =
      (accept sha256 service_code instance_id now w s').bind fun w =>
        accept sha256 service_code instance_id now w s := by
  unfold accept
  rw [Option.bind_map, Option.bind_map]
  simp only [Function.comp_def, Function.update_of_ne hne, Function.update_of_ne hne.symm]
  cases decide_row sha256 service_code now s (w.1.permission_scope s.scope_code) with
  | none =>
    cases decide_row sha256 service_code now s' (w.1.permission_scope s'.scope_code) with
    | none => rfl
    | some d' => rfl
  | some d =>
    cases decide_row sha256 service_code now s' (w.1.permission_scope s'.scope_code) with
    | none => rfl
    | some d' =>
      simp only [Option.map_some, Option.bind_some, Option.some.injEq, Prod.mk.injEq,
        ScopeTables.mk.injEq]
      refine ⟨⟨Function.update_comm hne .., Function.update_comm hne ..⟩, ?_⟩
      ac_rfl

/-- **Scopes with distinct codes** are accepted in any order, and leave the same. -/
theorem accept_all_perm {w : ScopeTables × Bool} (hdistinct : (scopes.map (·.scope_code)).Nodup)
    (h : scopes.Perm scopes') :
    accept_all sha256 service_code instance_id now w scopes =
      accept_all sha256 service_code instance_id now w scopes' := by
  refine h.foldl_eq' (fun s hs s' hs' w => ?_) (some w)
  by_cases hsame : s = s'
  · rw [hsame]
  · have hne : s.scope_code ≠ s'.scope_code :=
      fun hcode => hsame (List.inj_on_of_nodup_map hdistinct hs hs' hcode)
    cases w with
    | none => rfl
    | some w => exact accept_comm hne

variable {registered : String → Bool}

theorem topological_sort_ok_iff : topological_sort registered scopes = .ok ordered ↔
    dependencySort (·.scope_code) (·.parent_scope_code) scopes.length registered scopes =
      .ok ordered := by
  unfold topological_sort
  cases dependencySort (fun s : ScopeRegistration => s.scope_code) (·.parent_scope_code) scopes.length
      registered scopes with
  | error remaining => simp
  | ok ordered => simp

/-- A batch with distinct codes is registered as it stands once it can be sorted. -/
theorem register_all_ok_iff_of_distinct {w : ScopeTables × Bool}
    (hdistinct : (scopes.map (·.scope_code)).Nodup) :
    register_all sha256 service_code instance_id now t scopes = .ok w ↔
      (∃ ordered, topological_sort (fun code => (t.permission_scope code).isSome) scopes =
        .ok ordered) ∧ accept_all sha256 service_code instance_id now (t, false) scopes = some w := by
  rw [register_all_ok_iff]
  have hsame : ∀ ordered,
      topological_sort (fun code => (t.permission_scope code).isSome) scopes = .ok ordered →
        accept_all sha256 service_code instance_id now (t, false) ordered =
          accept_all sha256 service_code instance_id now (t, false) scopes :=
    fun ordered hsort => (accept_all_perm hdistinct
      (dependencySort_ok (topological_sort_ok_iff.mp hsort)).1.symm).symm
  constructor
  · rintro ⟨ordered, hsort, hw⟩
    exact ⟨⟨ordered, hsort⟩, hsame ordered hsort ▸ hw⟩
  · rintro ⟨⟨ordered, hsort⟩, hw⟩
    exact ⟨ordered, hsort, (hsame ordered hsort).trans hw⟩

/-- **The sort of a batch with distinct codes**, and what its order matters.

The passes end by themselves, since more of them change nothing. The sort succeeds exactly when each
parent is registered or in the batch and no scopes that are not registered wait for each other in a
circle. It gives a permutation in which a scope comes after its parent unless that was registered
before. Another order of the batch is sorted, and registered with the same tables, when this one
is. -/
theorem topological_sort_correct (registered : String → Bool) (scopes : List ScopeRegistration)
    (hdistinct : (scopes.map (·.scope_code)).Nodup) :
    (∀ passes ≥ scopes.length,
      dependencySort (·.scope_code) (·.parent_scope_code) passes registered scopes =
        dependencySort (·.scope_code) (·.parent_scope_code) scopes.length registered scopes) ∧
    ((∃ ordered, topological_sort registered scopes = .ok ordered) ↔
      (∀ s ∈ scopes, ∀ p, s.parent_scope_code = some p →
        registered p = true ∨ p ∈ scopes.map (·.scope_code)) ∧
      ∀ code, ¬ Relation.TransGen
        (Awaits (·.scope_code) (·.parent_scope_code) registered scopes) code code) ∧
    (∀ ordered, topological_sort registered scopes = .ok ordered → ordered.Perm scopes ∧
      ∀ before s after, ordered = before ++ s :: after → ∀ p, s.parent_scope_code = some p →
        registered p = true ∨ p ∈ before.map (·.scope_code)) ∧
    ∀ scopes', scopes.Perm scopes' →
      ((∃ ordered, topological_sort registered scopes = .ok ordered) ↔
        ∃ ordered, topological_sort registered scopes' = .ok ordered) ∧
      ∀ sha256 service_code instance_id now t result,
        register_all sha256 service_code instance_id now t scopes = .ok result ↔
          register_all sha256 service_code instance_id now t scopes' = .ok result := by
  refine ⟨fun passes hpasses => dependencySort_stable hpasses, ?_, fun ordered hsort => ?_, ?_⟩
  · simp only [topological_sort_ok_iff]
    exact dependencySort_succeeds_iff hdistinct
  · exact dependencySort_ok (topological_sort_ok_iff.mp hsort)
  · intro scopes' hperm
    have hsort : ∀ registered, (∃ ordered, topological_sort registered scopes = .ok ordered) ↔
        ∃ ordered, topological_sort registered scopes' = .ok ordered := by
      intro registered
      simp only [topological_sort_ok_iff]
      exact dependencySort_succeeds_perm hdistinct hperm
    refine ⟨hsort registered, fun sha256 service_code instance_id now t result => ?_⟩
    have hdistinct' := (hperm.map (·.scope_code)).nodup_iff.mp hdistinct
    rw [register_all_ok_iff_of_distinct hdistinct, register_all_ok_iff_of_distinct hdistinct',
      hsort, accept_all_perm hdistinct hperm]

section Example

def noTables : ScopeTables := ⟨fun _ => none, fun _ _ _ => none⟩

def lifecycleScope : ScopeRegistration :=
  ⟨"LIFECYCLE", some "NODE", none, [⟨"transition", none⟩], []⟩

def nodeScope : ScopeRegistration :=
  ⟨"NODE", none, some "nodes", [⟨"nodeType", none⟩], [⟨"nodeType", "/internal/scope-values/nodeType"⟩]⟩

theorem topological_sort_correct_child_first :
    topological_sort (fun _ => false) [lifecycleScope, nodeScope] = .ok [nodeScope, lifecycleScope] ∧
      (∀ before s after, [nodeScope, lifecycleScope] = before ++ s :: after →
        ∀ p, s.parent_scope_code = some p → false = true ∨ p ∈ before.map (·.scope_code)) := by
  have hdistinct : ([lifecycleScope, nodeScope].map (·.scope_code)).Nodup := by decide
  have hsort : topological_sort (fun _ => false) [lifecycleScope, nodeScope] =
      .ok [nodeScope, lifecycleScope] := by decide
  exact ⟨hsort, ((topological_sort_correct (fun _ => false) _ hdistinct).2.2.1 _ hsort).2⟩

end Example

end PlmCore.Pno.Catalog
