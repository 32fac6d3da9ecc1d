/-
Authorization in platform-lib: the scope definitions a service keeps, the projection of a
grant into a rule of the policy model (`DynamicPolicyAdapter`), and the check of a request
(`DefaultPolicyEnforcer`), with the façade of psm-api in front of it (`PolicyService`).

A rule and a request have six fields, and the policy model compares them for equality. Both
sides write the key values of a scope the same way: the first key is the object, the others
are written one after the other as `name=value`.
-/
import PlmCore.Lib.JavaText

set_option autoImplicit false

namespace PlmCore.Platform

open PlmCore.Lib

/-! ## Keys and scopes -/

/-- A `Map<String, String>` of key values; a value may be null. -/
abbrev Keys := List (String × Option String)

/-- `Map.getOrDefault`. -/
def Keys.getOrDefault (keys : Keys) (name dflt : String) : Option String :=
  match keys.find? fun e => e.1 = name with
  | some e => e.2
  | none => some dflt

/-- `ScopeDefinitionCache.ScopeDef`; `keys` is the effective list, parents first. -/
structure ScopeDef where
  code : String
  parent : Option String
  keys : List String
  deriving DecidableEq

/-- `ScopeDefinitionCache.byCode`: the definitions in the order they were put. -/
abbrev ScopeDefinitionCache := List ScopeDef

/-- `ScopeDefinitionCache.get`: the last one put. -/
def ScopeDefinitionCache.get (scopes : ScopeDefinitionCache) (code : String) : Option ScopeDef :=
  (scopes.filter fun d => d.code = code).getLast?

/-- `ScopeDefinitionCache.isPopulated`. -/
def ScopeDefinitionCache.isPopulated (scopes : ScopeDefinitionCache) : Bool := !scopes.isEmpty

/-- `n=v|n=v` of the keys behind the first. -/
def encodeAttrs (keys : Keys) (names : List String) : String :=
  "|".intercalate (names.map fun n => n ++ "=" ++ (keys.getOrDefault n "").getD "")

/-- `DefaultPolicyEnforcer.encode`: object and attributes. The object is null where the key
map holds a null. -/
def encode (scopes : ScopeDefinitionCache) (scopeCode : String) (keys : Keys) :
    Option String × String :=
  match scopes.get scopeCode with
  | none => (some "", "")
  | some d =>
    match d.keys with
    | [] => (some "", "")
    | first :: others => (keys.getOrDefault first "", encodeAttrs keys others)

/-! ## Rules -/

/-- A grant as pno sends it. -/
structure PolicyRow where
  role_id : Option String
  permission_code : Option String
  scope : Option String
  project_space_id : Option String
  keys : Keys
  deriving DecidableEq

/-- A rule of the policy model. -/
structure Rule where
  sub : String
  project_space : String
  scope : String
  act : String
  object : String
  attrs : String
  deriving DecidableEq

/-- One row of `DynamicPolicyAdapter.loadPolicy`; rows without role, permission or scope are
left out. -/
def projectRow (scopes : ScopeDefinitionCache) (row : PolicyRow) : Option Rule :=
  match row.role_id, row.permission_code, row.scope with
  | some role, some permission, some scope =>
    let (object, attrs) := encode scopes scope row.keys
    some ⟨role, row.project_space_id.getD "", scope, permission, object.getD "", attrs⟩
  | _, _, _ => none

/-- `DynamicPolicyAdapter.loadPolicy`. -/
def loadPolicy (scopes : ScopeDefinitionCache) (rows : List PolicyRow) : List Rule :=
  rows.filterMap (projectRow scopes)

/-- `Enforcer.enforce`: some rule has the six fields of the request. -/
def enforce (rules : List Rule) (sub project_space scope act : String) (object : Option String)
    (attrs : String) : Bool :=
  rules.any fun p => p.sub = sub ∧ p.project_space = project_space ∧ p.scope = scope
    ∧ p.act = act ∧ some p.object = object ∧ p.attrs = attrs

/-! ## The check -/

/-- `AuthzContext`. -/
structure AuthzContext where
  userId : String
  roleIds : List String
  isAdmin : Bool
  projectSpaceId : Option String
  deriving DecidableEq

/-- What a service checks against: its scope definitions and the rules loaded last. -/
structure Enforcer where
  scopes : ScopeDefinitionCache
  rules : List Rule

/-- What a refused or failed check throws. -/
inductive AuthzError where
  | policyDenied (message : String)
  | illegalState (message : String)
  deriving DecidableEq

/-- `DefaultPolicyEnforcer.canScope`. `reloaded` is the enforcer after the synchronous reload
that an empty scope cache causes. -/
def canScope (e reloaded : Enforcer) (ctx : Option AuthzContext) (scopeCode permissionCode : String)
    (keys : Keys) : Except AuthzError Bool :=
  match ctx with
  | none => .ok false
  | some ctx =>
    if ctx.isAdmin then .ok true
    else if ctx.roleIds = [] then .ok false
    else
      let e := if e.scopes.isPopulated then e else reloaded
      if !e.scopes.isPopulated then .ok false
      else if nullOrBlank ctx.projectSpaceId then
        .error (.illegalState "No projectSpaceId in context — required for every authorization check")
      else
        let (object, attrs) := encode e.scopes scopeCode keys
        .ok (ctx.roleIds.any fun role =>
          enforce e.rules role (ctx.projectSpaceId.getD "") scopeCode permissionCode object attrs)

/-- `DefaultPolicyEnforcer.assertScope`. -/
def assertScope (e reloaded : Enforcer) (ctx : Option AuthzContext) (scopeCode permissionCode : String)
    (keys : Keys) : Except AuthzError Unit :=
  match canScope e reloaded ctx scopeCode permissionCode keys with
  | .error err => .error err
  | .ok true => .ok ()
  | .ok false => .error (.policyDenied ("User " ++ (ctx.map (·.userId)).getD "<unauthenticated>"
      ++ " cannot '" ++ permissionCode ++ "' on scope " ++ scopeCode))

/-- The check lets the caller through. -/
def isGranted (e reloaded : Enforcer) (ctx : Option AuthzContext) (scopeCode permissionCode : String)
    (keys : Keys) : Bool :=
  match canScope e reloaded ctx scopeCode permissionCode keys with
  | .ok granted => granted
  | .error _ => false

theorem assertScope_ok_iff {e reloaded : Enforcer} {ctx : Option AuthzContext}
    {scopeCode permissionCode : String} {keys : Keys} :
    assertScope e reloaded ctx scopeCode permissionCode keys = .ok ()
      ↔ isGranted e reloaded ctx scopeCode permissionCode keys = true := by
  unfold assertScope isGranted
  cases canScope e reloaded ctx scopeCode permissionCode keys with
  | error err => simp
  | ok granted => cases granted <;> simp

end PlmCore.Platform
