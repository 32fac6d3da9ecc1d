/-
Enforcement from platform-api to a `@PlmAction` method.

platform-api holds the actions of a service with the permissions and guards they require,
psm-admin fetches them when it builds a snapshot, psm-api pulls the snapshot and derives its
caches, and `PlmActionAspect` reads these at a call. A fetch that fails is an empty catalog to
psm-admin, and an action the aspect does not find is one without checks.
-/
import PlmCore.Platform.Action
import PlmCore.Platform.Listeners
import PlmCore.Platform.SnapshotBuilder

set_option autoImplicit false

namespace PlmCore.Platform

open PlmCore.Lib

/-! ## The producers -/

/-- What platform-api has configured for a service: the codes of its actions are unique. -/
structure PlatformCatalog where
  actions : List ActionConfig
  algorithms : List AlgorithmConfig
  permissions : List PermissionConfig
  uq_action_code : (actions.map (·.actionCode)).Nodup
  pk_action : (actions.map (·.id)).Nodup

/-- What psm-admin has configured, as far as a service derives caches from it. -/
structure AdminCatalog where
  lifecycles : List LifecycleConfig
  stateActions : List StateActionConfig
  entityMetadata : List (String × String)

/-- How the call of psm-admin to platform-api ends. platform-api fetches the permissions from
pno and answers without any when that fails. -/
inductive Fetch where
  | complete
  | withoutPermissions
  | empty
  | failed
  deriving DecidableEq

/-- `safeFetchPlatformSnapshot` and the content built around it. -/
def contentWith (platform : PlatformCatalog) (admin : AdminCatalog) : Fetch → ConfigContent
  | .complete => ⟨admin.lifecycles, platform.actions, platform.permissions, platform.algorithms,
      admin.stateActions, admin.entityMetadata⟩
  | .withoutPermissions => ⟨admin.lifecycles, platform.actions, [], platform.algorithms,
      admin.stateActions, admin.entityMetadata⟩
  | .empty => ⟨admin.lifecycles, [], [], [], admin.stateActions, admin.entityMetadata⟩
  | .failed => ⟨admin.lifecycles, [], [], [], admin.stateActions, admin.entityMetadata⟩

/-! ## A call -/

/-- A call of a `@PlmAction` method: the caller, what the aspect resolves for a scope, what the
beans of guards answer, and whether the request came in on a path the readiness filter lets
through. -/
structure Call where
  enforcer : Enforcer
  reloaded : Enforcer
  user : AuthzContext
  resolve : ResolveScope
  evaluate : String → NodeCtx → Option String → List String
  actionCode : String
  exempt : Bool

/-- `PermissionRegistry.scopeFor`. -/
def scopeIn (permissions : List PermissionConfig) (permissionCode : String) : Option String :=
  (ConfigCache.indexBy permissions (·.permissionCode) permissionCode).map (·.scope)

/-- The caller against a permission catalog. -/
def Call.authorizer (c : Call) (permissions : List PermissionConfig) : Authorizer :=
  ⟨c.enforcer, c.reloaded, some c.user, scopeIn permissions⟩

/-- `ActionGuardService.assertGuards`: the messages of the guards of an action that block;
hiding guards are passed over. -/
def Service.assertGuards (s : Service) (c : Call) (actionId : String) (nodeCtx : NodeCtx)
    (transitionId : Option String) : List String :=
  (s.actionGuardsCache.filter fun g => g.1 = actionId).flatMap fun g =>
    if g.2.effect = .HIDE then [] else c.evaluate g.2.bean nodeCtx transitionId

/-- A call: `ConfigReadinessFilter`, then the aspect; `none` is the filter's 503. -/
def Service.call (s : Service) (c : Call) : Option CallOutcome :=
  if s.configCache.isPopulated || c.exempt then
    some (PlmActionAspect.enforce ⟨s.configCache, s.cachedActions⟩
      (c.authorizer s.permissionsByCode) c.resolve (s.assertGuards c) c.actionCode)
  else none

/-! ## The chain -/

/-- platform-api, psm-admin and psm-api. `pending` records that platform-api was configured
after the last pull of psm-api; nothing reads it. -/
structure Chain where
  platform : PlatformCatalog
  admin : AdminCatalog
  builder : SnapshotBuilder ConfigContent
  service : Service
  pending : Bool

inductive ChainEvent where
  | configure (platform : PlatformCatalog)
  | write (admin : AdminCatalog)
  /-- psm-admin builds a snapshot for itself or another consumer. -/
  | build (fetch : Fetch)
  | pull (fetch : Fetch)
  | call (c : Call)

section Chain

variable (registry : AlgorithmRegistry) (order : ListenerOrder) (hash : ConfigContent → Int)

def Chain.step (s : Chain) : ChainEvent → Chain
  | .configure platform => { s with platform, pending := true }
  | .write admin => { s with admin }
  | .build fetch =>
    let b := s.builder.buildFullSnapshot hash (contentWith s.platform s.admin fetch)
    { s with builder := b.builder }
  | .pull fetch =>
    let b := s.builder.buildFullSnapshot hash (contentWith s.platform s.admin fetch)
    { s with
      builder := b.builder
      service := s.service.applySnapshot registry order.listeners b.snapshot
      pending := false }
  | .call _ => s

/-- The start: platform-api and psm-admin are configured, nothing was pulled. -/
def Chain.started (platform : PlatformCatalog) (admin : AdminCatalog) : Chain :=
  ⟨platform, admin, .started, .started, true⟩

/-! ## What is configured for a call -/

/-- The values of the scope of an action. -/
def Call.values (c : Call) (action : ActionConfig) : ScopeValues :=
  ⟨(c.resolve action.scope).1.map (·.nodeTypeId), (c.resolve action.scope).2⟩

/-- A required permission is satisfied: the catalog has it, and the caller is granted it for the
values of the call. -/
def PermissionSatisfied (p : PlatformCatalog) (c : Call) (action : ActionConfig)
    (permCode : String) : Prop :=
  ∃ permScope, scopeIn p.permissions permCode = some permScope ∧
    (c.authorizer p.permissions).grants ⟨permCode, permScope,
      (aspectKeys (c.values action) permScope).getD (c.values action).present⟩ = true

/-- The code of the algorithm an instance belongs to, in the catalog of platform-api. -/
def PlatformCatalog.codeOf (p : PlatformCatalog) (instanceId : String) : Option String :=
  (ConfigCache.indexBy (p.algorithms.flatMap (·.instances)) (·.id) instanceId).bind fun inst =>
    (ConfigCache.indexBy p.algorithms (·.id) inst.algorithmId).map (·.code)

/-- A guard is satisfied: its bean is there and finds nothing against the node of the call. -/
def GuardSatisfied (p : PlatformCatalog) (c : Call) (action : ActionConfig)
    (ag : ActionGuardConfig) : Prop :=
  ∃ code nodeCtx, p.codeOf ag.algorithmInstanceId = some code
    ∧ registry.hasBean code ∧ registry.resolves code .ActionGuard
    ∧ (c.resolve action.scope).1 = some nodeCtx
    ∧ c.evaluate code nodeCtx (c.resolve action.scope).2 = []

/-- The permissions and guards configured for the action of a call are satisfied. -/
def Satisfied (p : PlatformCatalog) (c : Call) : Prop :=
  ∀ action ∈ p.actions, action.actionCode = c.actionCode →
    (∀ permCode ∈ action.requiredPermissions, PermissionSatisfied p c action permCode)
      ∧ ∀ ag ∈ action.guards, GuardSatisfied registry p c action ag

/-- A call of a non-admin that goes through is satisfied. -/
def Protected (s : Chain) : ChainEvent → Prop
  | .call c => c.user.isAdmin = false → s.service.call c = some .proceeds
      → Satisfied registry s.platform c
  | _ => True

/-! ## The condition -/

/-- What the call's action requires is something the aspect checks: the permissions are in the
catalog with a scope that has a handler, whose node type is resolved; where there are guards the
node is resolved, each guard has a bean, and one that only hides has nothing against the call. -/
structure Checkable (p : PlatformCatalog) (c : Call) (action : ActionConfig) : Prop where
  permission : ∀ permCode ∈ action.requiredPermissions, ∃ permScope,
    scopeIn p.permissions permCode = some permScope
      ∧ (permScope = "GLOBAL" ∨ (permScope = "NODE" ∨ permScope = "LIFECYCLE")
          ∧ (c.resolve action.scope).1.isSome)
  guard : ∀ ag ∈ action.guards, ∃ code nodeCtx, p.codeOf ag.algorithmInstanceId = some code
    ∧ registry.hasBean code ∧ registry.resolves code .ActionGuard
    ∧ (c.resolve action.scope).1 = some nodeCtx
    ∧ (ag.effect = "BLOCK" ∨ c.evaluate code nodeCtx (c.resolve action.scope).2 = [])

/-- A pull reaches platform-api and through it pno, no other content has the hash of its
content, and the names in it are valid; a call comes after a pull of what was configured last,
or before any on a path that waits for one, and is checkable. -/
def FailsClosed (s : Chain) : ChainEvent → Prop
  | .pull fetch => fetch = .complete
    ∧ (∀ kept h, s.builder.cached = some (kept, h) →
        hash kept.content = hash (contentWith s.platform s.admin fetch) →
        kept.content = contentWith s.platform s.admin fetch)
    ∧ NamesValid ⟨some ⟨0, contentWith s.platform s.admin fetch⟩⟩
  | .call c => (s.pending = false ∨ (s.service.configCache.isPopulated = false ∧ c.exempt = false))
    ∧ ∀ action ∈ s.platform.actions, action.actionCode = c.actionCode →
        Checkable registry s.platform c action
  | _ => True

/-! ## The invariant -/

/-- The numbers of psm-admin and the snapshot held fit together, every listener has rebuilt from
the snapshot held, and after a pull this is what is configured. -/
structure Linked (s : Chain) : Prop where
  numbered : s.builder.Numbered hash
  held : ∀ h, s.service.configCache.snapshot = some h → s.builder.Issued h
  listeners : ∀ l, Fresh registry s.service l
  served : s.pending = false → ∃ admin,
    s.service.configCache.content = contentWith s.platform admin .complete

variable {registry order hash}

theorem Linked.started (platform : PlatformCatalog) (admin : AdminCatalog) :
    Linked registry hash (.started platform admin) where
  numbered := SnapshotBuilder.numbered_started hash
  held h hh := absurd hh (Option.some_ne_none h).symm
  listeners l := by cases l <;> rfl
  served h := absurd h Bool.noConfusion

theorem Linked.pull {s : Chain} {fetch : Fetch} (h : Linked registry hash s)
    (hgood : FailsClosed registry hash s (.pull fetch)) :
    Linked registry hash (s.step registry order hash (.pull fetch)) := by
  obtain ⟨rfl, hinj, hnames⟩ := hgood
  have hcontent := SnapshotBuilder.content_build h.numbered
    (contentWith s.platform s.admin .complete) hinj
  have hnumbered := h.numbered.build (contentWith s.platform s.admin .complete)
  have hcached := SnapshotBuilder.cached_build h.numbered
    (contentWith s.platform s.admin .complete)
  have hheld := fun k hk => (h.held k hk).build h.numbered (contentWith s.platform s.admin .complete)
  have hissued := SnapshotBuilder.issued_build h.numbered
    (contentWith s.platform s.admin .complete)
  have hversion := (hnumbered _ _ hcached).1
  simp only [Chain.step]
  generalize s.builder.buildFullSnapshot hash (contentWith s.platform s.admin .complete) = b
    at hcontent hnumbered hcached hheld hversion hissued ⊢
  unfold Service.applySnapshot
  by_cases hacc : s.service.configCache.accepts b.snapshot = true
  · -- the snapshot is newer: the listeners rebuild from it
    rw [if_pos hacc, ConfigCache.updateFromSnapshot_eq, if_pos hacc]
    have hvalid : NamesValid ⟨some b.snapshot⟩ := by
      refine NamesValid.congr ?_ hnames
      exact hcontent.symm
    obtain ⟨hcache, _, _, hfresh, _⟩ := handleEvent_fresh registry
      order.listeners { s.service with configCache := ⟨some b.snapshot⟩ } hvalid
    refine ⟨hnumbered, ?_, fun l => hfresh l (order.complete l), ?_⟩
    · intro k hk
      rw [hcache] at hk
      cases hk
      exact hissued
    · intro _
      refine ⟨s.admin, ?_⟩
      rw [hcache]
      exact hcontent
  · -- it is not: the snapshot held is the one built
    rw [if_neg hacc]
    refine ⟨hnumbered, hheld, h.listeners, ?_⟩
    intro _
    refine ⟨s.admin, ?_⟩
    rw [ConfigCache.accepts_iff] at hacc
    push Not at hacc
    obtain ⟨k, hk, hle⟩ := hacc
    obtain ⟨hk1, hk2⟩ := hheld k hk
    obtain ⟨x, hx⟩ := hk2 (by omega)
    have hsame : k = b.snapshot := (Prod.mk.inj (Option.some.inj (hx.symm.trans hcached))).1
    simp only [ConfigCache.content, hk, Option.map_some, Option.getD_some]
    rw [hsame, hcontent]

theorem Linked.step {s : Chain} {e : ChainEvent} (h : Linked registry hash s)
    (hgood : FailsClosed registry hash s e) :
    Linked registry hash (s.step registry order hash e) := by
  cases e with
  | configure platform =>
    exact ⟨h.numbered, h.held, h.listeners, fun hp => absurd hp Bool.noConfusion⟩
  | write admin => exact ⟨h.numbered, h.held, h.listeners, h.served⟩
  | build fetch =>
    exact ⟨h.numbered.build _, fun k hk => (h.held k hk).build h.numbered _, h.listeners, h.served⟩
  | pull fetch => exact h.pull hgood
  | call c => exact h

/-! ## A call of a linked service -/

/-- The permissions the aspect has for a code are those of its action. -/
theorem permissionsOf_eq {actions : List ActionConfig} {action : ActionConfig}
    (hcodes : (actions.map (·.actionCode)).Nodup) (hmem : action ∈ actions) :
    permissionsOf actions action.actionCode = action.requiredPermissions := by
  unfold permissionsOf
  by_cases hnil : action.requiredPermissions = []
  · -- an action without permissions has no entry
    have hnone : ConfigCache.indexBy (actions.filter fun x => !x.requiredPermissions.isEmpty)
        (·.actionCode) action.actionCode = none := by
      rw [ConfigCache.indexBy, List.getLast?_eq_none_iff, List.filter_eq_nil_iff]
      intro x hx hcode
      obtain ⟨hxmem, hxne⟩ := List.mem_filter.mp hx
      have hsame := List.inj_on_of_nodup_map hcodes hxmem hmem (of_decide_eq_true hcode)
      rw [hsame, hnil] at hxne
      exact absurd hxne (by simp)
    rw [hnone, hnil]
    rfl
  · have hkeys : ((actions.filter fun x => !x.requiredPermissions.isEmpty).map
        (·.actionCode)).Nodup := hcodes.sublist (List.filter_sublist.map _)
    have hin : action ∈ actions.filter fun x => !x.requiredPermissions.isEmpty := by
      rw [List.mem_filter]
      exact ⟨hmem, by simpa using hnil⟩
    rw [ConfigCache.indexBy_eq_some hkeys hin]
    rfl

/-- The guards kept for an action contain each of its guards that has a bean. -/
theorem mem_actionGuards {p : PlatformCatalog} {s : Service} {admin : AdminCatalog}
    {action : ActionConfig} {ag : ActionGuardConfig} {code : String} {effect : GuardEffect}
    (hcontent : s.configCache.content = contentWith p admin .complete)
    (hfresh : Fresh registry s .actionGuards) (hmem : action ∈ p.actions)
    (hag : ag ∈ action.guards) (hcode : p.codeOf ag.algorithmInstanceId = some code)
    (hbean : registry.hasBean code ∧ registry.resolves code .ActionGuard)
    (heffect : GuardEffect.valueOf ag.effect = some effect) :
    (action.id, ⟨ag.algorithmInstanceId, code, effect,
      paramsOfInstance s.configCache ag.algorithmInstanceId⟩) ∈ s.actionGuardsCache := by
  -- the guards of the action are found under its id, since ids are distinct
  have hguards : s.configCache.getActionGuards action.id = action.guards := by
    unfold ConfigCache.getActionGuards
    rw [hcontent]
    have hkeys : ((p.actions.filter fun a => !a.guards.isEmpty).map (·.id)).Nodup :=
      p.pk_action.sublist (List.filter_sublist.map _)
    have hin : action ∈ p.actions.filter fun a => !a.guards.isEmpty := by
      rw [List.mem_filter]
      exact ⟨hmem, by simpa using List.ne_nil_of_mem hag⟩
    exact congrArg (fun o => Option.elim o [] ActionConfig.guards)
      (ConfigCache.indexBy_eq_some hkeys hin)
  -- the code of the instance comes from the instances of the snapshot
  have hresolve : ActionGuardService.resolveAlgorithmCode s.configCache ag.algorithmInstanceId
      = some code := by
    unfold ActionGuardService.resolveAlgorithmCode ConfigCache.getInstance
    rw [hcontent]
    exact hcode
  rw [hfresh]
  -- so the guard is among those attached, and is resolved
  refine List.mem_filterMap.mpr ⟨(action.id, ag), ?_, ?_⟩
  · unfold attachedActionGuards ConfigCache.getAllActions
    refine List.mem_flatMap.mpr ⟨action, ?_, ?_⟩
    · rw [hcontent]
      exact hmem
    · rw [hguards]
      exact List.mem_map_of_mem hag
  · simp only [ActionGuardService.resolveGuard, resolveGuardFromConfig, hresolve, heffect]
    rw [if_pos hbean]
    rfl

/-- A scope with a handler has keys the aspect asks with. -/
theorem aspectKeys_isSome {v : ScopeValues} {permScope : String}
    (h : permScope = "GLOBAL" ∨ (permScope = "NODE" ∨ permScope = "LIFECYCLE")
      ∧ v.nodeTypeId.isSome) : ∃ ks, aspectKeys v permScope = some ks := by
  obtain ⟨nodeTypeId, transitionId⟩ := v
  unfold aspectKeys
  rcases h with rfl | ⟨hscope, hnode⟩
  · exact ⟨[], rfl⟩
  · obtain ⟨nt, rfl⟩ := Option.isSome_iff_exists.mp hnode
    rcases hscope with rfl | rfl
    · exact ⟨[("nodeType", some nt)], rfl⟩
    · exact ⟨[("nodeType", some nt), ("transition", transitionId)], rfl⟩

/-- A permission the aspect has checked is satisfied. -/
theorem permissionSatisfied_of_checked {p : PlatformCatalog} {c : Call} {action : ActionConfig}
    {permCode : String} (hcheck : Checkable registry p c action)
    (hp : permCode ∈ action.requiredPermissions)
    (hchecked : PlmActionAspect.checkRequiredPermissions (c.authorizer p.permissions)
      (c.values action) action.requiredPermissions = .ok ()) :
    PermissionSatisfied p c action permCode := by
  obtain ⟨permScope, hscope, hhandled⟩ := hcheck.permission permCode hp
  have hnode : permScope = "GLOBAL" ∨ (permScope = "NODE" ∨ permScope = "LIFECYCLE")
      ∧ (c.values action).nodeTypeId.isSome := by
    rw [Call.values, Option.isSome_map]
    exact hhandled
  obtain ⟨ks, hks⟩ := aspectKeys_isSome hnode
  refine ⟨permScope, hscope, ?_⟩
  rw [hks]
  apply (checkRequiredPermissions_aspect_iff action.requiredPermissions).mp hchecked
  refine List.mem_filterMap.mpr ⟨permCode, hp, ?_⟩
  change (scopeIn p.permissions permCode).bind _ = _
  rw [hscope, Option.bind_some]
  exact congrArg (Option.map _) hks

/-- A guard that is kept to block and has stopped nothing found nothing. -/
theorem evaluate_eq_nil_of_kept {s : Service} {c : Call} {actionId : String} {g : ResolvedGuard}
    {nodeCtx : NodeCtx} {transitionId : Option String}
    (hkept : (actionId, g) ∈ s.actionGuardsCache) (hblock : g.effect = .BLOCK)
    (h : s.assertGuards c actionId nodeCtx transitionId = []) :
    c.evaluate g.bean nodeCtx transitionId = [] := by
  unfold Service.assertGuards at h
  rw [List.flatMap_eq_nil_iff] at h
  have hone := h (actionId, g) (List.mem_filter.mpr ⟨hkept, by simp⟩)
  simpa [hblock] using hone

/-- **A call of a linked service**: what goes through is satisfied. -/
theorem Linked.call {s : Chain} {c : Call} (h : Linked registry hash s)
    (hgood : FailsClosed registry hash s (.call c)) :
    Protected registry s (.call c) := by
  intro hadmin hproceeds action hmem hcode
  obtain ⟨hpulled, hcheckable⟩ := hgood
  have hcheck := hcheckable action hmem hcode
  unfold Service.call at hproceeds
  rcases hpulled with hpending | ⟨hempty, hexempt⟩
  · obtain ⟨admin, hcontent⟩ := h.served hpending
    have hactions : s.service.cachedActions = s.platform.actions := by
      rw [show s.service.cachedActions = s.service.configCache.content.actions from
        h.listeners .plmActionAspect, hcontent]
      rfl
    have hpermissions : s.service.permissionsByCode = s.platform.permissions := by
      rw [show s.service.permissionsByCode = s.service.configCache.content.permissions from
        h.listeners .permissionRegistry, hcontent]
      rfl
    have hget : s.service.configCache.getAction c.actionCode = some action := by
      unfold ConfigCache.getAction
      rw [hcontent, ← hcode]
      exact ConfigCache.indexBy_eq_some s.platform.uq_action_code hmem
    split at hproceeds
    · obtain ⟨hchecked, hguards⟩ := PlmActionAspect.enforce_proceeds rfl hadmin hget
        (Option.some.inj hproceeds)
      rw [hactions, hpermissions, ← hcode,
        permissionsOf_eq s.platform.uq_action_code hmem] at hchecked
      constructor
      · intro permCode hp
        exact permissionSatisfied_of_checked hcheck hp hchecked
      · intro ag hag
        obtain ⟨code, nodeCtx, hcodeOf, hbean, hres, hnode, heff⟩ := hcheck.guard ag hag
        refine ⟨code, nodeCtx, hcodeOf, hbean, hres, hnode, ?_⟩
        rcases heff with hblock | hnothing
        · have hvalue : GuardEffect.valueOf ag.effect = some .BLOCK := by
            rw [hblock]
            rfl
          have hkept := mem_actionGuards hcontent (h.listeners .actionGuards) hmem hag hcodeOf
            ⟨hbean, hres⟩ hvalue
          exact evaluate_eq_nil_of_kept hkept rfl (hguards nodeCtx hnode)
        · exact hnothing
    · exact absurd hproceeds (Option.some_ne_none _).symm
  · -- nothing was pulled yet, and the filter answers 503
    rw [hempty, hexempt] at hproceeds
    exact absurd hproceeds (by simp)

/-- **Enforcement fails closed** in every run whose pulls and calls meet the condition: each call
of a non-admin that goes through satisfies what is configured for its action. -/
theorem enforcement_fails_closed (registry : AlgorithmRegistry) (order : ListenerOrder)
    (hash : ConfigContent → Int) (platform : PlatformCatalog) (admin : AdminCatalog)
    (es : List ChainEvent)
    (h : Along (Chain.step registry order hash) (FailsClosed registry hash)
      (.started platform admin) es) :
    Along (Chain.step registry order hash) (Protected registry) (.started platform admin) es := by
  refine Along.mono_invariant (fun s e hs he => Linked.step hs he) ?_
    (Linked.started platform admin) h
  intro s e hs he
  cases e with
  | call c => exact hs.call he
  | configure _ => trivial
  | write _ => trivial
  | build _ => trivial
  | pull _ => trivial

end Chain

/-! ## A failed fetch -/

/-- One action, which takes a permission on the type of its node. -/
private def checkoutCatalog : PlatformCatalog where
  actions := [⟨"act-checkout", "checkout", "NODE", ["UPDATE_NODE"], []⟩]
  algorithms := []
  permissions := [⟨"UPDATE_NODE", "NODE"⟩]
  uq_action_code := by decide
  pk_action := by decide

private def noLifecycles : AdminCatalog := ⟨[], [], []⟩

/-- A user without any grant, on a part. -/
private def visitorCall : Call where
  enforcer := ⟨[⟨"NODE", none, ["nodeType"]⟩], []⟩
  reloaded := ⟨[], []⟩
  user := ⟨"vito", ["visitor"], false, some "ps-1"⟩
  resolve := fun _ => (some ⟨some "n-1", "nt-part", some "draft", false, false⟩, none)
  evaluate := fun _ _ _ => []
  actionCode := "checkout"
  exempt := false

private def callOrder : ListenerOrder :=
  ⟨[.actionGuards, .plmActionAspect, .permissionRegistry, .lifecycleGuards, .stateActions,
    .attributeValidators], fun l => by cases l <;> decide⟩

private def actionCount (s : ConfigContent) : Int := s.actions.length

/-- After a pull that reached everything the visitor is refused. -/
theorem enforcement_fails_closed_visitor :
    Along (Chain.step [] callOrder actionCount) (Protected [])
      (.started checkoutCatalog noLifecycles) [.pull .complete, .call visitorCall] := by
  apply enforcement_fails_closed [] callOrder actionCount checkoutCatalog noLifecycles
  refine ⟨⟨rfl, fun _ _ hs => absurd hs (Option.some_ne_none _).symm, ?_⟩, ⟨Or.inl rfl, ?_⟩, trivial⟩
  · exact ⟨by decide, by decide, by decide, by decide⟩
  · intro action hmem _
    rw [List.mem_singleton.mp hmem]
    constructor
    · intro permCode hp
      rw [List.mem_singleton.mp hp]
      exact ⟨"NODE", by decide, Or.inr ⟨Or.inl rfl, rfl⟩⟩
    · exact fun ag hag => absurd hag List.not_mem_nil

/-- After a fetch that failed the action is gone from the snapshot, and the visitor's call goes
through. -/
theorem enforcement_open_after_failed_fetch :
    ¬ Along (Chain.step [] callOrder actionCount) (Protected [])
      (.started checkoutCatalog noLifecycles)
      [.pull .complete, .pull .failed, .call visitorCall] := by
  rintro ⟨_, _, hcall, _⟩
  have hsatisfied := hcall rfl (by decide +kernel)
    ⟨"act-checkout", "checkout", "NODE", ["UPDATE_NODE"], []⟩ List.mem_cons_self rfl
  obtain ⟨permScope, hscope, hgrants⟩ := hsatisfied.1 "UPDATE_NODE" List.mem_cons_self
  have hnode : permScope = "NODE" := by
    have hcatalog : scopeIn checkoutCatalog.permissions "UPDATE_NODE" = some "NODE" := by decide
    exact Option.some.inj (hscope.symm.trans hcatalog)
  subst hnode
  revert hgrants
  decide +kernel

end PlmCore.Platform
