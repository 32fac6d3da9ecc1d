/-
`MetaModelService`: the check a cascade rule passes before it is stored.

The metamodel is taken from the configuration snapshot, which psm-admin builds from its tables.
-/
import PlmCore.Psm.Config

set_option autoImplicit false

namespace PlmCore.Psm

/-- `MetaModelService.lifecycleOfNodeType`. -/
def lifecycleOfNodeType (env : Env) : Option String → Except PlmError (Option String)
  | none => .ok none
  | some nodeTypeId =>
    match env.getNodeType nodeTypeId with
    | none => .error (.illegalArgument ("Node type not found: " ++ nodeTypeId))
    | some nt => .ok nt.lifecycleId

/-- `SELECT lifecycle_id, from_state_id FROM lifecycle_transition WHERE id = ?`. -/
def transitionRow (env : Env) (transitionId : String) : Option (String × String) :=
  env.lifecycles.findSome? fun lifecycle =>
    (lifecycle.transitions.find? (·.id = transitionId)).map fun t => (lifecycle.id, t.fromStateId)

/-- The row, or the exception of a query without one. -/
def rowOr {α : Type} (row : Option α) (message : String) : Except PlmError α :=
  match row with
  | none => .error (.illegalArgument message)
  | some r => .ok r

/-- `if (!c) throw new IllegalArgumentException(message)`. -/
def check (c : Bool) (message : String) : Except PlmError Unit :=
  if c then .ok () else .error (.illegalArgument message)

/-- `MetaModelService.validateCascadeRule`. -/
def validateCascadeRule (env : Env) (linkTypeId parentTransitionId childFromStateId
    childTransitionId : String) : Except PlmError Unit := do
  let lt ← rowOr (env.getLinkType linkTypeId) ("Link type not found: " ++ linkTypeId)
  check (lt.targetSourceId = some "SELF")
    "Cascade rules are only supported for SELF link types (target_source_id=SELF)"
  let sourceLifecycleId ← lifecycleOfNodeType env lt.sourceNodeTypeId
  let targetLifecycleId ← lifecycleOfNodeType env lt.targetType
  let parent ← rowOr (transitionRow env parentTransitionId)
    ("Parent transition not found: " ++ parentTransitionId)
  check (sourceLifecycleId = some parent.1) ("Parent transition " ++ parentTransitionId
    ++ " does not belong to the source node type's lifecycle")
  let child ← rowOr (transitionRow env childTransitionId)
    ("Child transition not found: " ++ childTransitionId)
  check (targetLifecycleId = some child.1) ("Child transition " ++ childTransitionId
    ++ " does not belong to the target node type's lifecycle")
  check (childFromStateId = child.2) ("child_from_state " ++ childFromStateId
    ++ " must equal the child transition's from_state (" ++ child.2
    ++ "), otherwise the cascade can never fire")

/-! ## What the check ensures -/

theorem exceptBind_ok {α β : Type} {e : Except PlmError α} {f : α → Except PlmError β} {b : β}
    (h : e >>= f = .ok b) : ∃ a, e = .ok a ∧ f a = .ok b := by
  cases e with
  | error e => cases h
  | ok a => exact ⟨a, rfl, h⟩

theorem rowOr_ok {α : Type} {row : Option α} {message : String} {r : α}
    (h : rowOr row message = .ok r) : row = some r := by
  cases row with
  | none => cases h
  | some r' =>
    cases h
    rfl

theorem check_ok {c : Bool} {message : String} (h : check c message = .ok ()) : c = true := by
  unfold check at h
  by_cases hc : c = true
  · exact hc
  · rw [if_neg hc] at h
    cases h

/-- **An accepted rule is coherent**: the state it is for is where its transition starts. -/
theorem validateCascadeRule_ok {env : Env} {linkTypeId parentTransitionId childFromStateId
    childTransitionId : String}
    (h : validateCascadeRule env linkTypeId parentTransitionId childFromStateId childTransitionId
      = .ok ()) : ∃ child, transitionRow env childTransitionId = some child
        ∧ childFromStateId = child.2 := by
  unfold validateCascadeRule at h
  obtain ⟨lt, -, h⟩ := exceptBind_ok h
  obtain ⟨_, -, h⟩ := exceptBind_ok h
  obtain ⟨source, -, h⟩ := exceptBind_ok h
  obtain ⟨target, -, h⟩ := exceptBind_ok h
  obtain ⟨parent, -, h⟩ := exceptBind_ok h
  obtain ⟨_, -, h⟩ := exceptBind_ok h
  obtain ⟨child, hchild, h⟩ := exceptBind_ok h
  obtain ⟨_, -, h⟩ := exceptBind_ok h
  exact ⟨child, rowOr_ok hchild, of_decide_eq_true (check_ok h)⟩

/-- The lookup of a transition is the lookup in its lifecycle. -/
theorem transitionRow_fromStateId {env : Env} {transitionId : String}
    {transition : LifecycleTransitionConfig} {row : String × String}
    (hcached : env.getCachedTransition transitionId = some transition)
    (hrow : transitionRow env transitionId = some row) : row.2 = transition.fromStateId := by
  unfold Env.getCachedTransition at hcached
  rw [List.find?_flatMap] at hcached
  unfold transitionRow at hrow
  have hsame : env.lifecycles.findSome? (fun lifecycle =>
      (lifecycle.transitions.find? (·.id = transitionId)).map (·.fromStateId)) = some row.2 := by
    rw [← Option.map_some, ← hrow, List.map_findSome?]
    congr 1
    funext lifecycle
    simp only [Function.comp_apply, Option.map_map]
    rfl
  have hother : env.lifecycles.findSome? (fun lifecycle =>
      (lifecycle.transitions.find? (·.id = transitionId)).map (·.fromStateId))
      = some transition.fromStateId := by
    rw [← Option.map_some, ← hcached, List.map_findSome?]
    rfl
  exact Option.some.inj (hsame.symm.trans hother)

/-- Every cascade rule of the configuration passes the check. -/
def CascadesAccepted (env : Env) : Prop :=
  ∀ lt ∈ env.linkTypes, ∀ c ∈ lt.cascades,
    validateCascadeRule env lt.id c.parentTransitionId c.childFromStateId c.childTransitionId = .ok ()

instance (env : Env) : Decidable (CascadesAccepted env) :=
  inferInstanceAs (Decidable (∀ lt ∈ env.linkTypes, ∀ c ∈ lt.cascades, _ = _))

end PlmCore.Psm
