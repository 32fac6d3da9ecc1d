/-
Actions in platform-lib: what the user interface offers (`ActionService`) and what is checked
when a `@PlmAction` method is called (`PlmActionAspect`), with the psm-api façade of the
permission checks (`PolicyService`).

Both read the required permissions of an action from the configuration, look up the scope of
each permission in the catalog, and ask the enforcer. The scope values of a call are the node
type and the transition; either may be missing.
-/
import PlmCore.Platform.Authz
import PlmCore.Platform.ConfigCache

set_option autoImplicit false

namespace PlmCore.Platform

open PlmCore.Lib

/-! ## `PolicyService` -/

/-- Who asks whom: the enforcer (and what a reload makes of it), the caller, and the scope of
each permission of the catalog. -/
structure Authorizer where
  enforcer : Enforcer
  reloaded : Enforcer
  user : Option AuthzContext
  scopeFor : String → Option String

/-- What a call is about. -/
structure ScopeValues where
  nodeTypeId : Option String
  transitionId : Option String
  deriving DecidableEq

/-- The keys of `canExecute`: the values that are there. -/
def ScopeValues.present (v : ScopeValues) : Keys :=
  (v.nodeTypeId.map fun nt => ("nodeType", some nt)).toList
    ++ (v.transitionId.map fun tr => ("transition", some tr)).toList

namespace Authorizer

variable (a : Authorizer)

def canExecute (permissionCode scope : String) (v : ScopeValues) : Except AuthzError Bool :=
  canScope a.enforcer a.reloaded a.user scope permissionCode v.present

def assertGlobal (permissionCode : String) : Except AuthzError Unit :=
  assertScope a.enforcer a.reloaded a.user "GLOBAL" permissionCode []

def assertNodeType (permissionCode nodeTypeId : String) : Except AuthzError Unit :=
  assertScope a.enforcer a.reloaded a.user "NODE" permissionCode [("nodeType", some nodeTypeId)]

def assertLifecycle (permissionCode nodeTypeId : String) (transitionId : Option String) :
    Except AuthzError Unit :=
  assertScope a.enforcer a.reloaded a.user "LIFECYCLE" permissionCode
    [("nodeType", some nodeTypeId), ("transition", transitionId)]

end Authorizer

/-! ## `ActionService` -/

/-- The loop over the required permissions; an unknown permission is passed over. -/
def allExecutable (a : Authorizer) (v : ScopeValues) : List String → Except AuthzError Bool
  | [] => .ok true
  | permCode :: permCodes =>
    match a.scopeFor permCode with
    | none => allExecutable a v permCodes
    | some permScope =>
      match a.canExecute permCode permScope v with
      | .error err => .error err
      | .ok false => .ok false
      | .ok true => allExecutable a v permCodes

/-- `ActionService.checkRequiredPermissions`. Without required permissions the code of the
action is the permission that is asked for. -/
def ActionService.checkRequiredPermissions (a : Authorizer) (action : ActionConfig)
    (v : ScopeValues) : Except AuthzError Bool :=
  match a.user with
  | none => .ok true
  | some user =>
    if user.isAdmin then .ok true
    else if action.requiredPermissions = [] then
      a.canExecute action.actionCode ((a.scopeFor action.actionCode).getD "GLOBAL") v
    else allExecutable a v action.requiredPermissions

/-! ## `PlmActionAspect` -/

/-- `permissionCache`: of the last action with the code that requires any. -/
def permissionsOf (actions : List ActionConfig) (actionCode : String) : List String :=
  (ConfigCache.indexBy (actions.filter fun x => !x.requiredPermissions.isEmpty) (·.actionCode)
    actionCode).elim [] (·.requiredPermissions)

/-- One permission: what its scope has asked for. A scope without handler is passed over, as
is a scope of nodes when the call has no node type. -/
def checkRequired (a : Authorizer) (v : ScopeValues) (permCode permScope : String) :
    Except AuthzError Unit :=
  if permScope = "GLOBAL" then a.assertGlobal permCode
  else if permScope = "NODE" then
    match v.nodeTypeId with
    | none => .ok ()
    | some nt => a.assertNodeType permCode nt
  else if permScope = "LIFECYCLE" then
    match v.nodeTypeId with
    | none => .ok ()
    | some nt => a.assertLifecycle permCode nt v.transitionId
  else .ok ()

/-- `PlmActionAspect.checkRequiredPermissions`. -/
def PlmActionAspect.checkRequiredPermissions (a : Authorizer) (v : ScopeValues) :
    List String → Except AuthzError Unit
  | [] => .ok ()
  | permCode :: permCodes =>
    match a.scopeFor permCode with
    | none => PlmActionAspect.checkRequiredPermissions a v permCodes
    | some permScope =>
      match checkRequired a v permCode permScope with
      | .error err => .error err
      | .ok () => PlmActionAspect.checkRequiredPermissions a v permCodes

/-- `ActionNodeContextPort.NodeCtx`. -/
structure NodeCtx where
  nodeId : Option String
  nodeTypeId : String
  currentStateId : Option String
  isLocked : Bool
  isLockedByCurrentUser : Bool

/-- What becomes of a call. -/
inductive CallOutcome where
  | proceeds
  | rejected (err : AuthzError)
  | guarded (messages : List String)
  deriving DecidableEq

/-- What the aspect reads: the configuration cache, and the actions its own caches were built
from at the last event. -/
structure Aspect where
  configCache : ConfigCache ConfigContent
  cachedActions : List ActionConfig

/-- The values the aspect resolves for a scope code: the node context and the transition. -/
abbrev ResolveScope := String → Option NodeCtx × Option String

/-- `PlmActionAspect.enforce`. `assertGuards` is the guard service, given the id of the
action; it returns the messages of the guards that block. -/
def PlmActionAspect.enforce (p : Aspect) (a : Authorizer) (resolve : ResolveScope)
    (assertGuards : String → NodeCtx → Option String → List String) (actionCode : String) :
    CallOutcome :=
  match a.user with
  | none => .rejected (.policyDenied
      ("Authentication required to execute action '" ++ actionCode ++ "'"))
  | some user =>
    if user.isAdmin then .proceeds
    else match p.configCache.getAction actionCode with
      | none => .proceeds
      | some action =>
        let (nodeCtx, transitionId) := resolve action.scope
        match PlmActionAspect.checkRequiredPermissions a
            ⟨nodeCtx.map (·.nodeTypeId), transitionId⟩ (permissionsOf p.cachedActions actionCode) with
        | .error err => .rejected err
        | .ok () =>
          match nodeCtx with
          | none => .proceeds
          | some nodeCtx =>
            match assertGuards action.id nodeCtx transitionId with
            | [] => .proceeds
            | messages => .guarded messages

/-- A call of a non-admin goes through only behind both checks, where the action is found. -/
theorem PlmActionAspect.enforce_proceeds {p : Aspect} {a : Authorizer} {user : AuthzContext}
    {resolve : ResolveScope} {assertGuards : String → NodeCtx → Option String → List String}
    {actionCode : String} {action : ActionConfig} (huser : a.user = some user)
    (hadmin : user.isAdmin = false) (hget : p.configCache.getAction actionCode = some action)
    (h : PlmActionAspect.enforce p a resolve assertGuards actionCode = .proceeds) :
    PlmActionAspect.checkRequiredPermissions a
        ⟨(resolve action.scope).1.map (·.nodeTypeId), (resolve action.scope).2⟩
        (permissionsOf p.cachedActions actionCode) = .ok ()
      ∧ ∀ nodeCtx, (resolve action.scope).1 = some nodeCtx →
        assertGuards action.id nodeCtx (resolve action.scope).2 = [] := by
  unfold PlmActionAspect.enforce at h
  simp only [huser, hadmin, Bool.false_eq_true, if_false, hget] at h
  cases hperm : PlmActionAspect.checkRequiredPermissions a
      ⟨(resolve action.scope).1.map (·.nodeTypeId), (resolve action.scope).2⟩
      (permissionsOf p.cachedActions actionCode) with
  | error err => simp [hperm] at h
  | ok u =>
    refine ⟨rfl, ?_⟩
    intro nodeCtx hnode
    simp only [hperm] at h
    simp only [hnode] at h
    cases hg : assertGuards action.id nodeCtx (resolve action.scope).2 with
    | nil => rfl
    | cons message messages => simp [hg] at h

/-! ## What the checks amount to -/

/-- A check: the permission, its scope and the key values it is asked with. -/
structure Check where
  permCode : String
  permScope : String
  keys : Keys

/-- The enforcer lets the caller through. -/
def Authorizer.grants (a : Authorizer) (c : Check) : Bool :=
  isGranted a.enforcer a.reloaded a.user c.permScope c.permCode c.keys

/-- The checks the user interface makes. -/
def uiChecks (scopeFor : String → Option String) (action : ActionConfig) (v : ScopeValues) :
    List Check :=
  if action.requiredPermissions = [] then
    [⟨action.actionCode, (scopeFor action.actionCode).getD "GLOBAL", v.present⟩]
  else action.requiredPermissions.filterMap fun p => (scopeFor p).map fun s => ⟨p, s, v.present⟩

/-- The keys the aspect asks with, when it asks at all. -/
def aspectKeys (v : ScopeValues) (permScope : String) : Option Keys :=
  if permScope = "GLOBAL" then some []
  else if permScope = "NODE" then v.nodeTypeId.map fun nt => [("nodeType", some nt)]
  else if permScope = "LIFECYCLE" then
    v.nodeTypeId.map fun nt => [("nodeType", some nt), ("transition", v.transitionId)]
  else none

/-- The checks the aspect makes. -/
def aspectChecks (scopeFor : String → Option String) (permCodes : List String) (v : ScopeValues) :
    List Check :=
  permCodes.filterMap fun p => (scopeFor p).bind fun s => (aspectKeys v s).map fun ks => ⟨p, s, ks⟩

theorem canExecute_ok_iff {a : Authorizer} {p s : String} {v : ScopeValues} :
    a.canExecute p s v = .ok true ↔ a.grants ⟨p, s, v.present⟩ = true := by
  unfold Authorizer.canExecute Authorizer.grants isGranted
  cases canScope a.enforcer a.reloaded a.user s p v.present with
  | error err => simp
  | ok granted => simp

theorem allExecutable_ok_iff {a : Authorizer} {v : ScopeValues} (permCodes : List String) :
    allExecutable a v permCodes = .ok true
      ↔ ∀ p ∈ permCodes, ∀ s, a.scopeFor p = some s → a.grants ⟨p, s, v.present⟩ = true := by
  induction permCodes with
  | nil => simp [allExecutable]
  | cons p permCodes ih =>
    rw [allExecutable]
    cases hs : a.scopeFor p with
    | none => simpa [hs] using ih
    | some s =>
      have hone := @canExecute_ok_iff a p s v
      simp only [List.mem_cons, forall_eq_or_imp, hs, Option.some.injEq, forall_eq']
      cases hc : a.canExecute p s v with
      | error err => simp [← hone, hc]
      | ok granted =>
        cases granted with
        | false => simp [← hone, hc]
        | true => simpa [← hone, hc] using ih

/-- **What the user interface asks.** -/
theorem checkRequiredPermissions_ui_iff {a : Authorizer} {user : AuthzContext}
    (huser : a.user = some user) (hadmin : user.isAdmin = false) (action : ActionConfig)
    (v : ScopeValues) :
    ActionService.checkRequiredPermissions a action v = .ok true
      ↔ ∀ c ∈ uiChecks a.scopeFor action v, a.grants c = true := by
  unfold ActionService.checkRequiredPermissions uiChecks
  simp only [huser, hadmin, Bool.false_eq_true, if_false]
  split
  · rw [canExecute_ok_iff]
    simp
  · rw [allExecutable_ok_iff]
    simp only [List.mem_filterMap, Option.map_eq_some_iff]
    constructor
    · rintro h c ⟨p, hp, s, hs, rfl⟩
      exact h p hp s hs
    · intro h p hp s hs
      exact h _ ⟨p, hp, s, hs, rfl⟩

theorem checkRequired_ok_iff {a : Authorizer} {v : ScopeValues} {p s : String} :
    checkRequired a v p s = .ok ()
      ↔ ∀ ks, aspectKeys v s = some ks → a.grants ⟨p, s, ks⟩ = true := by
  unfold checkRequired aspectKeys Authorizer.grants
  split
  · rename_i h
    subst h
    simp [Authorizer.assertGlobal, assertScope_ok_iff]
  · split
    · rename_i h
      subst h
      cases v.nodeTypeId with
      | none => simp
      | some nt => simp [Authorizer.assertNodeType, assertScope_ok_iff]
    · split
      · rename_i h
        subst h
        cases v.nodeTypeId with
        | none => simp
        | some nt => simp [Authorizer.assertLifecycle, assertScope_ok_iff]
      · simp

/-- **What the aspect asks.** -/
theorem checkRequiredPermissions_aspect_iff {a : Authorizer} {v : ScopeValues}
    (permCodes : List String) :
    PlmActionAspect.checkRequiredPermissions a v permCodes = .ok ()
      ↔ ∀ c ∈ aspectChecks a.scopeFor permCodes v, a.grants c = true := by
  induction permCodes with
  | nil => simp [PlmActionAspect.checkRequiredPermissions, aspectChecks]
  | cons p permCodes ih =>
    rw [PlmActionAspect.checkRequiredPermissions]
    have hcons : (∀ c ∈ aspectChecks a.scopeFor (p :: permCodes) v, a.grants c = true)
        ↔ (∀ s ks, a.scopeFor p = some s → aspectKeys v s = some ks → a.grants ⟨p, s, ks⟩ = true)
          ∧ ∀ c ∈ aspectChecks a.scopeFor permCodes v, a.grants c = true := by
      unfold aspectChecks
      simp only [List.mem_filterMap, List.mem_cons, Option.bind_eq_some_iff, Option.map_eq_some_iff]
      constructor
      · intro h
        refine ⟨fun s ks hs hks => h _ ⟨p, Or.inl rfl, s, hs, ks, hks, rfl⟩, ?_⟩
        rintro c ⟨q, hq, hc⟩
        exact h c ⟨q, Or.inr hq, hc⟩
      · rintro ⟨hp, hrest⟩ c ⟨q, rfl | hq, s, hs, ks, hks, rfl⟩
        · exact hp s ks hs hks
        · exact hrest _ ⟨q, hq, s, hs, ks, hks, rfl⟩
    rw [hcons]
    cases hs : a.scopeFor p with
    | none => simpa using ih
    | some s =>
      -- the scope is the one found, so the first half is about one check
      have hone : (∀ s' ks, some s = some s' → aspectKeys v s' = some ks
          → a.grants ⟨p, s', ks⟩ = true) ↔ checkRequired a v p s = .ok () := by
        rw [checkRequired_ok_iff]
        constructor
        · intro h ks hks
          exact h s ks rfl hks
        · rintro h s' ks ⟨⟩ hks
          exact h ks hks
      rw [hone]
      cases hc : checkRequired a v p s with
      | error err => simp [hc]
      | ok u => simpa [hc] using ih

end PlmCore.Platform
