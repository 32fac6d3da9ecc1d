/-
The metamodel tables of psm-admin, as `V1__schema.sql` and `V5__attribute_metadata_rules.sql` declare
them, and the values that satisfy the schema.

A table is the list of its rows, `Tables` holds every table that the modelled services read, and `Db`
is a `Tables` with a proof that the declared constraints hold. `execute` is one SQL statement: it
succeeds exactly when the constraints hold of the tables it computes. The lengths of `VARCHAR` columns
are constraints too where a service writes a text of its caller or one it has put together.
-/
import Mathlib.Data.List.Nodup
import Mathlib.Tactic.MkIffOfInductiveProp
import PlmCore.Lib.Txn

set_option autoImplicit false

namespace PlmCore.Psa

open PlmCore.Lib

/-! ## Rows -/

/-- A row of `lifecycle`. -/
structure LifecycleRow where
  id : String
  name : String
  description : Option String
  deriving DecidableEq

/-- A row of `lifecycle_state`. -/
structure LifecycleStateRow where
  id : String
  lifecycleId : String
  name : String
  isInitial : Int
  displayOrder : Int
  color : Option String
  deriving DecidableEq

/-- A row of `lifecycle_transition`. -/
structure LifecycleTransitionRow where
  id : String
  lifecycleId : String
  name : String
  fromStateId : String
  toStateId : String
  guardExpr : Option String
  actionType : Option String
  versionStrategy : String
  deriving DecidableEq

/-- A row of `signature_requirement`. -/
structure SignatureRequirementRow where
  lifecycleTransitionId : String
  roleRequired : String
  displayOrder : Int
  deriving DecidableEq

/-- A row of `lifecycle_state_action`. -/
structure LifecycleStateActionRow where
  lifecycleStateId : String
  algorithmInstanceId : String
  trigger : String
  executionMode : String
  displayOrder : Int
  deriving DecidableEq

/-- A row of `lifecycle_transition_guard`. -/
structure LifecycleTransitionGuardRow where
  lifecycleTransitionId : String
  algorithmInstanceId : String
  effect : String
  displayOrder : Int
  deriving DecidableEq

/-- A row of `node_type`. -/
structure NodeTypeRow where
  id : String
  name : String
  description : Option String
  lifecycleId : Option String
  logicalIdLabel : Option String
  logicalIdPattern : Option String
  numberingScheme : String
  versionPolicy : String
  color : Option String
  icon : Option String
  collapseHistory : Bool
  parentNodeTypeId : Option String
  deriving DecidableEq

/-- A row of `attribute_definition`. -/
structure AttributeDefinitionRow where
  id : String
  nodeTypeId : Option String
  domainId : Option String
  name : String
  label : String
  dataType : String
  defaultValue : Option String
  widgetType : Option String
  displayOrder : Int
  displaySection : Option String
  tooltip : Option String
  asName : Int
  enumDefinitionId : Option String
  deriving DecidableEq

/-- A row of `enum_value`. -/
structure EnumValueRow where
  enumDefinitionId : String
  value : String
  label : Option String
  displayOrder : Int
  deriving DecidableEq

/-- A row of `attribute_metadata`. -/
structure AttributeMetadataRow where
  attributeDefinitionId : String
  metaKey : String
  metaValue : Option String
  deriving DecidableEq

/-- A row of `attribute_validation_rule`. -/
structure AttributeValidationRuleRow where
  nodeTypeId : Option String
  attributeDefinitionId : String
  lifecycleStateId : Option String
  algorithmInstanceId : String
  effect : String
  deriving DecidableEq

/-- A row of `entity_metadata`. -/
structure EntityMetadataRow where
  targetType : String
  targetId : String
  metaKey : String
  metaValue : Option String
  deriving DecidableEq

/-! ## The store -/

/-- The tables. Of a domain and of an enum definition only the id is read. -/
@[ext]
structure Tables where
  lifecycles : List LifecycleRow
  states : List LifecycleStateRow
  transitions : List LifecycleTransitionRow
  signatureRequirements : List SignatureRequirementRow
  stateActions : List LifecycleStateActionRow
  transitionGuards : List LifecycleTransitionGuardRow
  nodeTypes : List NodeTypeRow
  domains : List String
  enumDefinitions : List String
  enumValues : List EnumValueRow
  attributeDefinitions : List AttributeDefinitionRow
  attributeMetadata : List AttributeMetadataRow
  validationRules : List AttributeValidationRuleRow
  entityMetadata : List EntityMetadataRow
  deriving DecidableEq

namespace Tables

/-- The ids of the lifecycles. -/
def lifecycleIds (t : Tables) : List String := t.lifecycles.map (·.id)

/-- The ids of the lifecycle states. -/
def stateIds (t : Tables) : List String := t.states.map (·.id)

/-- The ids of the transitions. -/
def transitionIds (t : Tables) : List String := t.transitions.map (·.id)

/-- The ids of the node types. -/
def nodeTypeIds (t : Tables) : List String := t.nodeTypes.map (·.id)

/-- The ids of the attribute definitions. -/
def attributeIds (t : Tables) : List String := t.attributeDefinitions.map (·.id)

/-- The keys and references of the lifecycle tables. -/
@[mk_iff]
structure LifecycleKeys (t : Tables) : Prop where
  pk_lifecycle : t.lifecycleIds.Nodup
  pk_state : t.stateIds.Nodup
  pk_transition : t.transitionIds.Nodup
  uq_state_name : (t.states.map fun s => (s.lifecycleId, s.name)).Nodup
  uq_transition_name : (t.transitions.map fun r => (r.lifecycleId, r.name)).Nodup
  pk_signature_requirement :
    (t.signatureRequirements.map fun r => (r.lifecycleTransitionId, r.roleRequired)).Nodup
  pk_state_action :
    (t.stateActions.map fun a => (a.lifecycleStateId, a.algorithmInstanceId, a.trigger)).Nodup
  chk_state_action : ∀ a ∈ t.stateActions, a.trigger ∈ ["ON_ENTER", "ON_EXIT"]
    ∧ a.executionMode ∈ ["TRANSACTIONAL", "POST_COMMIT"]
  pk_transition_guard :
    (t.transitionGuards.map fun g => (g.lifecycleTransitionId, g.algorithmInstanceId)).Nodup
  fk_state : ∀ s ∈ t.states, s.lifecycleId ∈ t.lifecycleIds
  fk_transition : ∀ r ∈ t.transitions, r.lifecycleId ∈ t.lifecycleIds
  fk_transition_from : ∀ r ∈ t.transitions, r.fromStateId ∈ t.stateIds
  fk_transition_to : ∀ r ∈ t.transitions, r.toStateId ∈ t.stateIds
  fk_signature_requirement : ∀ r ∈ t.signatureRequirements, r.lifecycleTransitionId ∈ t.transitionIds
  fk_state_action : ∀ a ∈ t.stateActions, a.lifecycleStateId ∈ t.stateIds
  fk_transition_guard : ∀ g ∈ t.transitionGuards, g.lifecycleTransitionId ∈ t.transitionIds

/-- The keys and references of node types and attributes. -/
@[mk_iff]
structure TypeKeys (t : Tables) : Prop where
  pk_node_type : t.nodeTypeIds.Nodup
  pk_attribute : t.attributeIds.Nodup
  uq_attr_def_nodetype_name : ∀ p ∈ t.nodeTypeIds,
    ((t.attributeDefinitions.filter (·.nodeTypeId = some p)).map (·.name)).Nodup
  uq_attr_def_domain_name : ∀ d ∈ t.domains,
    ((t.attributeDefinitions.filter (·.domainId = some d)).map (·.name)).Nodup
  pk_enum_value : (t.enumValues.map fun v => (v.enumDefinitionId, v.value)).Nodup
  pk_attribute_metadata : (t.attributeMetadata.map fun m => (m.attributeDefinitionId, m.metaKey)).Nodup
  uq_entity_metadata : (t.entityMetadata.map fun m => (m.targetType, m.targetId, m.metaKey)).Nodup
  fk_node_type_lifecycle : ∀ n ∈ t.nodeTypes, ∀ l ∈ n.lifecycleId, l ∈ t.lifecycleIds
  fk_node_type_parent : ∀ n ∈ t.nodeTypes, ∀ p ∈ n.parentNodeTypeId, p ∈ t.nodeTypeIds
  fk_attribute_node_type : ∀ a ∈ t.attributeDefinitions, ∀ p ∈ a.nodeTypeId, p ∈ t.nodeTypeIds
  fk_attribute_domain : ∀ a ∈ t.attributeDefinitions, ∀ d ∈ a.domainId, d ∈ t.domains
  fk_attribute_enum : ∀ a ∈ t.attributeDefinitions, ∀ e ∈ a.enumDefinitionId, e ∈ t.enumDefinitions
  fk_enum_value : ∀ v ∈ t.enumValues, v.enumDefinitionId ∈ t.enumDefinitions
  fk_attribute_metadata : ∀ m ∈ t.attributeMetadata, m.attributeDefinitionId ∈ t.attributeIds
  fk_validation_rule : ∀ r ∈ t.validationRules, r.attributeDefinitionId ∈ t.attributeIds
  chk_attr_def_owner : ∀ a ∈ t.attributeDefinitions, a.nodeTypeId.isSome ≠ a.domainId.isSome

/-- The lengths of the columns that calls fill. -/
@[mk_iff]
structure Lengths (t : Tables) : Prop where
  lifecycle : ∀ l ∈ t.lifecycles, l.id.length ≤ 36 ∧ l.name.length ≤ 255
  state : ∀ s ∈ t.states, s.id.length ≤ 36
  transition : ∀ r ∈ t.transitions, r.id.length ≤ 36
  nodeType : ∀ n ∈ t.nodeTypes, n.id.length ≤ 36 ∧ n.name.length ≤ 255
    ∧ (∀ d ∈ n.description, d.length ≤ 1000) ∧ n.numberingScheme.length ≤ 50
    ∧ n.versionPolicy.length ≤ 20 ∧ (∀ c ∈ n.color, c.length ≤ 20) ∧ ∀ i ∈ n.icon, i.length ≤ 50

instance (t : Tables) : Decidable t.LifecycleKeys := decidable_of_iff _ (lifecycleKeys_iff t).symm

instance (t : Tables) : Decidable t.TypeKeys := decidable_of_iff _ (typeKeys_iff t).symm

instance (t : Tables) : Decidable t.Lengths := decidable_of_iff _ (lengths_iff t).symm

/-- The declared constraints. -/
structure Valid (t : Tables) : Prop extends LifecycleKeys t, TypeKeys t, Lengths t

instance (t : Tables) : Decidable t.Valid :=
  if h₁ : t.LifecycleKeys then
    if h₂ : t.TypeKeys then
      if h₃ : t.Lengths then .isTrue { h₁, h₂, h₃ with }
      else .isFalse fun h => h₃ h.toLengths
    else .isFalse fun h => h₂ h.toTypeKeys
  else .isFalse fun h => h₁ h.toLifecycleKeys

/-- The store before anything was written. -/
def empty : Tables := ⟨[], [], [], [], [], [], [], [], [], [], [], [], [], []⟩

theorem empty_valid : empty.Valid := by decide

end Tables

/-- A store that satisfies its schema. -/
structure Db extends Tables where
  valid : toTables.Valid

/-- The empty database. -/
def Db.empty : Db := ⟨Tables.empty, Tables.empty_valid⟩

/-- Two stores with the same tables are the same store. -/
theorem Db.ext {s s' : Db} (h : s.toTables = s'.toTables) : s = s' := by
  cases s
  cases s'
  congr

/-! ## Queries -/

/-- How a query orders its rows: `ORDER BY display_order` leaves open which of two rows with one
display order comes first. -/
structure FetchOrder {α : Type} (displayOrder : α → Int) where
  order : List α → List α
  perm : ∀ rows, (order rows).Perm rows
  sorted : ∀ rows, (order rows).Pairwise fun a b => displayOrder a ≤ displayOrder b

/-- Rows with one display order come as they are stored. -/
def FetchOrder.stored {α : Type} (displayOrder : α → Int) : FetchOrder displayOrder where
  order rows := rows.mergeSort fun a b => displayOrder a ≤ displayOrder b
  perm rows := List.mergeSort_perm rows _
  sorted rows := by
    have h : (rows.mergeSort fun a b => displayOrder a ≤ displayOrder b).Pairwise
        fun a b => decide (displayOrder a ≤ displayOrder b) = true :=
      List.pairwise_mergeSort (by simp; omega) (by simp; omega) rows
    exact h.imp fun hab => of_decide_eq_true hab

namespace Tables

variable (t : Tables)

/-- `SELECT * FROM lifecycle_state WHERE lifecycle_id = ?`. -/
def statesOf (lifecycleId : String) : List LifecycleStateRow :=
  t.states.filter (·.lifecycleId = lifecycleId)

/-- `SELECT * FROM lifecycle_transition WHERE lifecycle_id = ?`. -/
def transitionsOf (lifecycleId : String) : List LifecycleTransitionRow :=
  t.transitions.filter (·.lifecycleId = lifecycleId)

/-- `SELECT * FROM lifecycle_state_action WHERE lifecycle_state_id = ?`. -/
def stateActionsOf (stateId : String) : List LifecycleStateActionRow :=
  t.stateActions.filter (·.lifecycleStateId = stateId)

/-- `SELECT * FROM lifecycle_transition_guard WHERE lifecycle_transition_id = ?`. -/
def guardsOf (transitionId : String) : List LifecycleTransitionGuardRow :=
  t.transitionGuards.filter (·.lifecycleTransitionId = transitionId)

/-- `SELECT * FROM signature_requirement WHERE lifecycle_transition_id = ?`. -/
def signatureRequirementsOf (transitionId : String) : List SignatureRequirementRow :=
  t.signatureRequirements.filter (·.lifecycleTransitionId = transitionId)

/-- `SELECT * FROM entity_metadata WHERE target_type = ? AND target_id = ?`. -/
def metadataRows (targetType targetId : String) : List EntityMetadataRow :=
  t.entityMetadata.filter fun m => m.targetType = targetType ∧ m.targetId = targetId

end Tables

/-! ## Statements -/

/-- The exceptions of the services. -/
inductive PsaError
  | illegalArgument (message : String)
  | dataIntegrity
  deriving DecidableEq

/-- A service method: it runs in one database transaction. -/
abbrev PsaTxn := Txn Db PsaError

/-- One SQL statement that rewrites the tables by `f`. -/
def execute (f : Tables → Tables) : PsaTxn Unit := fun s =>
  if h : (f s.toTables).Valid then (.ok (), ⟨f s.toTables, h⟩) else (.error .dataIntegrity, s)

/-- **A statement that returns has done exactly its rewriting.** -/
@[simp] theorem returns_execute {f : Tables → Tables} {s s' : Db} {u : Unit} :
    Returns (execute f) s u s' ↔ s'.toTables = f s.toTables := by
  constructor
  · intro h
    unfold Returns execute at h
    split at h
    · cases h
      rfl
    · cases h
  · intro h
    have hv : (f s.toTables).Valid := h ▸ s'.valid
    have hs : s' = ⟨f s.toTables, hv⟩ := Db.ext h
    unfold Returns execute
    rw [dif_pos hv, hs]

/-- The end of a method's database transaction: an exception undoes what was written. -/
def afterCall {α : Type} (method : PsaTxn α) (s : Db) : Db :=
  match method s with
  | (.ok _, s') => s'
  | (.error _, _) => s

/-- After a call the store is as it was, or the method has returned. -/
theorem afterCall_cases {α : Type} (method : PsaTxn α) (s : Db) :
    afterCall method s = s ∨ ∃ a, Returns method s a (afterCall method s) := by
  unfold afterCall Returns
  cases h : method s with
  | mk r s' =>
    cases r with
    | error e => exact .inl rfl
    | ok a => exact .inr ⟨a, rfl⟩

/-- `LifecycleService.validateCode`: the code is `[a-z0-9][a-z0-9-]*`. -/
def isKebab (code : String) : Bool :=
  let plain (c : Char) : Bool := ('a' ≤ c && c ≤ 'z') || ('0' ≤ c && c ≤ '9')
  match code.toList with
  | [] => false
  | c :: cs => plain c && cs.all fun c => plain c || c = '-'

/-- `LifecycleService.validateCode`. -/
def validateCode (code : Option String) : PsaTxn String :=
  orElseThrow (code.filter isKebab) (.illegalArgument
    ("code required, must be kebab-case [a-z0-9][a-z0-9-]*: '" ++ code.getD "null" ++ "'"))

@[simp] theorem returns_validateCode {o : Option String} {s s' : Db} {code : String} :
    Returns (validateCode o) s code s' ↔ (o = some code ∧ isKebab code = true) ∧ s' = s := by
  rw [validateCode, returns_orElseThrow, Option.filter_eq_some_iff]

end PlmCore.Psa
