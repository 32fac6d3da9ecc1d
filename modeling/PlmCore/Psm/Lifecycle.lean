/-
`LifecycleService`: applying a transition to a node, with the state actions of the two
states and the cascade to the children.

The transition creates a version in the target state, runs the transactional actions,
locks the node, and then applies the cascade rules of its link types to the children by the
same method, in the same database transaction. What a child's exception says is collected,
and what the child wrote before it stays until the whole transition is aborted, as any failure
of a child aborts it. Actions in mode `POST_COMMIT` are collected on the
way and run after the database transaction, where their failures are ignored.
-/
import PlmCore.Psm.Collapse
import PlmCore.Psm.Link

set_option autoImplicit false

namespace PlmCore.Psm

open PlmCore.Lib

/-! ## Cascade rules -/

/-- `CascadeRule`. -/
structure CascadeRule where
  childId : Uuid
  childFromStateId : String
  childTransitionId : String
  toStateId : Option String
  deriving DecidableEq

/-- `LifecycleService.acceptedChildTypes`: the type and every type that has it as ancestor. -/
def acceptedChildTypes (env : Env) (targetType : String) : List String :=
  targetType :: ((env.nodeTypes.filter fun nt => targetType ∈ nt.ancestorChain).map (·.id))

/-- `LifecycleService.resolveChildNodeId`: a node of exactly the declared type, else the last
one whose type is accepted. -/
def resolveChildNodeId (env : Env) (t : Tables) (logicalId declaredTargetType : String) :
    Option Uuid :=
  let rows := t.nodesByLogicalId logicalId
  match rows.find? (·.nodeTypeId = declaredTargetType) with
  | some n => some n.id
  | none =>
    ((rows.filter (·.nodeTypeId ∈ acceptedChildTypes env declaredTargetType)).getLast?).map (·.id)

/-- The links `resolveCascadeRules` reads: SELF links of any version of the node whose key has
no version. -/
def Tables.cascadeLinks (t : Tables) (nodeId : Uuid) : List LinkRow :=
  t.links.filter fun l => t.isLinkOf nodeId l ∧ l.targetSourceId = "SELF" ∧ hasAt l.targetKey = false

/-- `LifecycleService.resolveCascadeRules`. -/
def resolveCascadeRules (env : Env) (t : Tables) (nodeId : Uuid) (parentTransitionId : String) :
    List CascadeRule :=
  (t.cascadeLinks nodeId).flatMap fun l =>
    let matching := ((env.getLinkType l.linkTypeId).map (·.cascades)).getD []
      |>.filter (·.parentTransitionId = parentTransitionId)
    match resolveChildNodeId env t (beforeAt l.targetKey) l.targetType with
    | none => []
    | some childId => matching.map fun c =>
        ⟨childId, c.childFromStateId, c.childTransitionId,
          env.resolveTransitionToState c.childTransitionId⟩

/-- The child was already brought to the target state in this transaction. -/
def Tables.isAlreadyThere (t : Tables) (rule : CascadeRule) (txId : Uuid) : Bool :=
  match t.getCurrentVersionForTx rule.childId txId with
  | none => false
  | some v => v.txId = txId ∧ v.lifecycleStateId = rule.toStateId

/-- The child takes part: it is in the rule's from-state, or it is checked out. -/
def Tables.inCascadeScope (t : Tables) (rule : CascadeRule) : Bool :=
  (t.getLastCommittedVersion rule.childId).any (·.lifecycleStateId = some rule.childFromStateId)
    ∨ t.hasOpenVersion rule.childId

/-- `LifecycleService.resolveLabel`. -/
def Tables.resolveLabel (t : Tables) (nodeId : Uuid) : String :=
  ((t.node? nodeId).bind (·.logicalId)).getD (toString nodeId)

/-! ## State actions -/

/-- `StateActionService.executeTransactionalActions`. -/
def executeTransactionalActions (env : Env) (stateId : String) (trigger : StateActionTrigger)
    (ctx : StateActionContext) : Plm Unit :=
  (env.effectiveActions stateId trigger .TRANSACTIONAL).forM fun a =>
    collapseHistory env { ctx with parameters := a.parameters }

/-- `StateActionService.collectPostCommitActions`. -/
def collectPostCommitActions (env : Env) (stateId : String) (trigger : StateActionTrigger)
    (ctx : StateActionContext) : List StateActionContext :=
  (env.effectiveActions stateId trigger .POST_COMMIT).map fun a =>
    { ctx with parameters := a.parameters }

/-! ## The transition -/

/-- The label and the message of a child that could not be transitioned. -/
def cascadeErrors (t : Tables) (childId : Uuid) : PlmError → List String
  | .cascadeBlocked blockedNodes => blockedNodes
  | e => ["'" ++ t.resolveLabel childId ++ "': " ++ e.getMessage]

/-- What a transition leaves behind: its version, and the actions to run after the database
transaction. -/
structure TransitionResult where
  versionId : Uuid
  postActions : List StateActionContext

/-- One rule of `executeCascade`. `transition` is `applyTransition` on a child. It returns the
errors and the actions the child registered. -/
def cascadeChild (transition : Uuid → String → Plm TransitionResult) (txId : Uuid)
    (rule : CascadeRule) : Plm (List String × List StateActionContext) := do
  -- comparing with the target state of an unknown transition
  let inTx ← query fun s => (s.getCurrentVersionForTx rule.childId txId).any (·.txId = txId)
  require (rule.toStateId.isSome ∨ inTx = false) (.nullPointer ("Cannot invoke "
    ++ "\"String.equals(Object)\" because the return value of \"CascadeRule.toStateId()\" is null"))
  let skip ← query fun s => s.isAlreadyThere rule txId || !s.inCascadeScope rule
  if skip then pure ([], [])
  else do
    let outcome ← attempt (transition rule.childId rule.childTransitionId)
    match outcome with
    | .ok result => pure ([], result.postActions)
    | .error e =>
      -- `catch (Exception e)`
      if e.isJavaError then throw e
      else query fun s => (cascadeErrors s.toTables rule.childId e, [])

/-- The loop of `executeCascade`. -/
def cascadeChildren (transition : Uuid → String → Plm TransitionResult) (txId : Uuid) :
    List CascadeRule → Plm (List String × List StateActionContext)
  | [] => pure ([], [])
  | rule :: rules => do
    let (errors, actions) ← cascadeChild transition txId rule
    let (moreErrors, moreActions) ← cascadeChildren transition txId rules
    pure (errors ++ moreErrors, actions ++ moreActions)

/-- `LifecycleService.executeCascade`. -/
def executeCascade (env : Env) (transition : Uuid → String → Plm TransitionResult)
    (nodeId : Uuid) (parentTransitionId : String) (txId : Uuid) : Plm (List StateActionContext) := do
  let rules ← query fun s => resolveCascadeRules env s.toTables nodeId parentTransitionId
  let (errors, actions) ← cascadeChildren transition txId rules
  require (errors = []) (.cascadeBlocked errors)
  pure actions

/-- The version strategy of a transition, `NONE` when it has none. -/
def LifecycleTransitionConfig.strategy (transition : LifecycleTransitionConfig) : VersionStrategy :=
  transition.versionStrategy.getD .NONE

/-- The checks of a transition: it exists, and the node's committed version is in its
from-state. -/
def loadTransition (env : Env) (nodeId : Uuid) (transitionId : String) :
    Plm LifecycleTransitionConfig := do
  let transition ← orElseThrow (env.getCachedTransition transitionId)
    (.illegalArgument ("Transition not found: " ++ transitionId))
  let row ← query (·.getLastCommittedVersion nodeId)
  let current ← orElseThrow row (.illegalState ("Node has no version: " ++ toString nodeId))
  require (current.lifecycleStateId = some transition.fromStateId) (.illegalState
    ("Node is not in state " ++ transition.fromStateId ++ " (is: "
      ++ current.lifecycleStateId.getD "null" ++ ")"))
  pure transition

/-- `self.applyTransition`: the aspect stands before the method. -/
def guardedTransition (env : Env) (ctx : Caller) (transition : Uuid → String → Plm TransitionResult)
    (nodeId : Uuid) (transitionId : String) : Plm TransitionResult := do
  let blocked ← query fun s => env.transitionGuard ctx.userId s.toTables nodeId transitionId
  match blocked with
  | some message => throw (.accessDenied message)
  | none => transition nodeId transitionId

/-- What the state actions of a transition are given. -/
def actionContext (t : Tables) (nodeId versionId : Uuid) (toStateId : String) : StateActionContext where
  nodeId := nodeId
  toStateId := toStateId
  versionId := versionId
  revision := ((t.version? versionId).map (·.revision)).getD ""
  parameters := []

/-- `LifecycleService.applyTransition` without the actions after the database transaction, on
a call stack of the given depth. -/
def applyTransitionInternal (env : Env) (ctx : Caller) (txId : Uuid) :
    Nat → Uuid → String → Plm TransitionResult
  | 0, _, _ => throw .stackOverflow
  | depth + 1, nodeId, transitionId => do
    let transition ← loadTransition env nodeId transitionId
    let versionId ← createVersion env ctx nodeId txId .LIFECYCLE (some transition.strategy)
      (some transition.toStateId) []
      (some ("Lifecycle transition: " ++ transition.fromStateId ++ " → " ++ transition.toStateId))
    let saCtx ← query fun s => actionContext s.toTables nodeId versionId transition.toStateId
    executeTransactionalActions env transition.fromStateId .ON_EXIT saCtx
    executeTransactionalActions env transition.toStateId .ON_ENTER saCtx
    tryLock ctx nodeId
    let childActions ←
      executeCascade env (guardedTransition env ctx (applyTransitionInternal env ctx txId depth))
        nodeId transitionId txId
    enqueue (.stateChanged nodeId transition.fromStateId transition.toStateId ctx.userId)
    pure ⟨versionId, childActions
      ++ collectPostCommitActions env transition.fromStateId .ON_EXIT saCtx
      ++ collectPostCommitActions env transition.toStateId .ON_ENTER saCtx⟩

/-- The actions after the database transaction, each on its own; a failure is logged. -/
def runPostActions (env : Env) (s : Db) (actions : List StateActionContext) : Db :=
  actions.foldl (fun s a => match collapseHistory env a s with
    | (.ok _, s') => s'
    | (.error _, _) => s) s

/-- `LifecycleService.applyTransition`. -/
def applyTransition (env : Env) (ctx : Caller) (depth : Nat) (nodeId : Uuid)
    (transitionId : String) (txId : Uuid) : Plm Uuid := fun s =>
  match applyTransitionInternal env ctx txId depth nodeId transitionId s with
  | (.ok result, s') => (.ok result.versionId, runPostActions env s' result.postActions)
  | (.error e, s') => (.error e, s')

end PlmCore.Psm
