/-
A psm-api process over its configuration: snapshots arrive, listeners rebuild, requests read.

Snapshots are handled one after the other, each with its event. Reads go on beside them; the
only one that changes anything is the first read of the lifecycles, which builds what it keeps
in one step and installs it in another.
-/
import PlmCore.Lib.Run
import PlmCore.Platform.DerivedCaches

set_option autoImplicit false

namespace PlmCore.Platform

open PlmCore.Lib
open PlmCore.Psm (StateActionTrigger StateActionMode)

/-! ## The process -/

/-- The listeners of `ConfigSnapshotUpdatedEvent`. -/
inductive Listener where
  | plmActionAspect
  | permissionRegistry
  | actionGuards
  | lifecycleGuards
  | stateActions
  | attributeValidators
  deriving DecidableEq

/-- The order in which the listeners are called; each is. -/
structure ListenerOrder where
  listeners : List Listener
  complete : ∀ l, l ∈ listeners

/-- `ConfigCache` and what is derived from it. `reading` are the lifecycle snapshots that
requests have built and not installed yet. -/
structure Service where
  configCache : ConfigCache ConfigContent
  lifecycleCache : Option LifecycleSnapshot
  reading : List LifecycleSnapshot
  cachedActions : List ActionConfig
  permissionsByCode : List PermissionConfig
  actionGuardsCache : List (String × ResolvedGuard)
  transitionGuardsCache : List (String × ResolvedGuard)
  stateActionsCache : List ((String × StateActionTrigger) × ResolvedStateAction)
  validatorCache : List (String × ResolvedValidator)

/-- A process that has just started. -/
def Service.started : Service := ⟨.empty, none, [], [], [], [], [], [], []⟩

/-- One listener; an exception leaves what it keeps as it is. -/
def Listener.handle (registry : AlgorithmRegistry) (s : Service) : Listener → Option Service
  | .plmActionAspect => some { s with cachedActions := s.configCache.getAllActions }
  | .permissionRegistry => some { s with permissionsByCode := s.configCache.content.permissions }
  | .actionGuards => (ActionGuardService.rebuildCache registry s.configCache).map
      fun gs => { s with actionGuardsCache := gs }
  | .lifecycleGuards => (LifecycleGuardService.rebuildCache registry s.configCache).map
      fun gs => { s with transitionGuardsCache := gs }
  | .stateActions => (StateActionService.rebuildCache registry s.configCache).map
      fun sas => { s with stateActionsCache := sas }
  | .attributeValidators => some
      { s with validatorCache := AttributeValidatorService.rebuildCache registry s.configCache }

/-- The event: an exception ends it. -/
def handleEvent (registry : AlgorithmRegistry) : List Listener → Service → Service
  | [], s => s
  | l :: ls, s =>
    match l.handle registry s with
    | none => s
    | some s' => handleEvent registry ls s'

/-- `pullConfigSnapshot` with the snapshot received: the event is published only if the cache
advanced. -/
def Service.applySnapshot (registry : AlgorithmRegistry) (order : List Listener) (s : Service)
    (snap : Snapshot ConfigContent) : Service :=
  if s.configCache.accepts snap then
    handleEvent registry order { s with configCache := s.configCache.updateFromSnapshot snap }
  else s

/-- `LifecycleService.getSnapshot` up to `compareAndSet`. -/
def Service.buildLifecycles (s : Service) : Service :=
  match s.lifecycleCache with
  | some _ => s
  | none => { s with reading := s.reading ++ [buildSnapshot s.configCache.content] }

/-- `compareAndSet(null, snap)` of the read with number `i`. -/
def Service.installLifecycles (s : Service) (i : Nat) : Service :=
  match s.reading[i]? with
  | none => s
  | some snap => { s with
      reading := s.reading.eraseIdx i
      lifecycleCache := s.lifecycleCache.or (some snap) }

/-- The states and transitions `LifecycleService` answers from. -/
def Service.lifecycles (s : Service) : LifecycleSnapshot :=
  s.lifecycleCache.getD (buildSnapshot s.configCache.content)

/-- What happens to the process. -/
inductive ServiceEvent where
  | snapshot (snap : Snapshot ConfigContent)
  | buildLifecycles
  | installLifecycles (i : Nat)

def Service.step (registry : AlgorithmRegistry) (order : List Listener) (s : Service) :
    ServiceEvent → Service
  | .snapshot snap => s.applySnapshot registry order snap
  | .buildLifecycles => s.buildLifecycles
  | .installLifecycles i => s.installLifecycles i

/-! ## What a listener leaves -/

/-- What the listener keeps is exactly what the snapshot held configures. -/
def Fresh (registry : AlgorithmRegistry) (s : Service) : Listener → Prop
  | .plmActionAspect => s.cachedActions = s.configCache.content.actions
  | .permissionRegistry => s.permissionsByCode = s.configCache.content.permissions
  | .actionGuards => s.actionGuardsCache = (attachedActionGuards s.configCache).filterMap
      fun ag => (ActionGuardService.resolveGuard registry s.configCache ag).join
  | .lifecycleGuards => s.transitionGuardsCache = (attachedTransitionGuards s.configCache).filterMap
      fun tg => (LifecycleGuardService.resolveGuard registry s.configCache tg).join
  | .stateActions => s.stateActionsCache = s.configCache.content.stateActions.filterMap
      fun sa => (resolveStateAction registry s.configCache sa).join
  | .attributeValidators => s.validatorCache = s.configCache.content.entityMetadata.filterMap
      (resolveValidator registry s.configCache)

/-- The trigger, mode and effect names the listeners read are names of their enums. A name is
read only where its instance belongs to an algorithm; a trigger always is. -/
structure NamesValid (c : ConfigCache ConfigContent) : Prop where
  trigger : ∀ sa ∈ c.content.stateActions, StateActionTrigger.valueOf sa.trigger ≠ none
  mode : ∀ sa ∈ c.content.stateActions, instanceToCode c.content sa.algorithmInstanceId ≠ none →
    StateActionMode.valueOf sa.executionMode ≠ none
  transitionEffect : ∀ tg ∈ attachedTransitionGuards c,
    codeOfInstance c.content tg.algorithmInstanceId ≠ none → GuardEffect.valueOf tg.effect ≠ none
  actionEffect : ∀ ag ∈ attachedActionGuards c,
    ActionGuardService.resolveAlgorithmCode c ag.2.algorithmInstanceId ≠ none →
    GuardEffect.valueOf ag.2.effect ≠ none

/-- Names are names of the content alone. -/
theorem NamesValid.congr {c c' : ConfigCache ConfigContent} (h : c.content = c'.content)
    (hn : NamesValid c) : NamesValid c' where
  trigger := h ▸ hn.trigger
  mode := h ▸ hn.mode
  transitionEffect := by
    have := hn.transitionEffect
    unfold attachedTransitionGuards ConfigCache.getTransitionGuards at this ⊢
    rw [← h]
    exact this
  actionEffect := by
    have := hn.actionEffect
    unfold attachedActionGuards ConfigCache.getActionGuards ConfigCache.getAllActions
      ActionGuardService.resolveAlgorithmCode ConfigCache.getInstance at this ⊢
    rw [← h]
    exact this

theorem resolveGuardFromConfig_ne_none {registry : AlgorithmRegistry} {iface : AlgorithmInterface}
    {c : ConfigCache ConfigContent} {code : Option String} {instanceId effectStr : String}
    (h : code ≠ none → GuardEffect.valueOf effectStr ≠ none) :
    resolveGuardFromConfig registry iface c code instanceId effectStr ≠ none := by
  unfold resolveGuardFromConfig
  cases code with
  | none => simp
  | some code =>
    cases heff : GuardEffect.valueOf effectStr with
    | none => exact absurd heff (h (by simp))
    | some effect => simp

theorem resolveStateAction_ne_none {registry : AlgorithmRegistry} {c : ConfigCache ConfigContent}
    {sa : StateActionConfig} (htrigger : StateActionTrigger.valueOf sa.trigger ≠ none)
    (hmode : instanceToCode c.content sa.algorithmInstanceId ≠ none →
      StateActionMode.valueOf sa.executionMode ≠ none) :
    resolveStateAction registry c sa ≠ none := by
  unfold resolveStateAction
  cases ht : StateActionTrigger.valueOf sa.trigger with
  | none => exact absurd ht htrigger
  | some trigger =>
    cases hc : instanceToCode c.content sa.algorithmInstanceId with
    | none => simp
    | some code =>
      cases hm : StateActionMode.valueOf sa.executionMode with
      | none => exact absurd hm (hmode (by simp [hc]))
      | some mode => simp

/-- With valid names no listener throws. -/
theorem Listener.handle_ne_none {registry : AlgorithmRegistry} {s : Service}
    (h : NamesValid s.configCache) (l : Listener) : l.handle registry s ≠ none := by
  cases l with
  | plmActionAspect => exact Option.some_ne_none _
  | permissionRegistry => exact Option.some_ne_none _
  | attributeValidators => exact Option.some_ne_none _
  | actionGuards =>
    have hall : ∀ ag ∈ attachedActionGuards s.configCache,
        ActionGuardService.resolveGuard registry s.configCache ag ≠ none := by
      intro ag hag
      rw [ActionGuardService.resolveGuard, ne_eq, Option.map_eq_none_iff]
      exact resolveGuardFromConfig_ne_none (h.actionEffect ag hag)
    simp [Listener.handle, ActionGuardService.rebuildCache, collect_eq_some hall]
  | lifecycleGuards =>
    have hall : ∀ tg ∈ attachedTransitionGuards s.configCache,
        LifecycleGuardService.resolveGuard registry s.configCache tg ≠ none := by
      intro tg htg
      rw [LifecycleGuardService.resolveGuard, ne_eq, Option.map_eq_none_iff]
      exact resolveGuardFromConfig_ne_none (h.transitionEffect tg htg)
    simp [Listener.handle, LifecycleGuardService.rebuildCache, collect_eq_some hall]
  | stateActions =>
    have hall : ∀ sa ∈ s.configCache.content.stateActions,
        resolveStateAction registry s.configCache sa ≠ none := by
      intro sa hsa
      exact resolveStateAction_ne_none (h.trigger sa hsa) (h.mode sa hsa)
    simp [Listener.handle, StateActionService.rebuildCache, collect_eq_some hall]

/-- A listener that returns has rebuilt what it keeps, and touched nothing else. -/
theorem Listener.handle_eq_some {registry : AlgorithmRegistry} {s s' : Service} {l : Listener}
    (h : l.handle registry s = some s') :
    Fresh registry s' l ∧ s'.configCache = s.configCache ∧ s'.lifecycleCache = s.lifecycleCache
      ∧ s'.reading = s.reading ∧ ∀ l', Fresh registry s l' → Fresh registry s' l' := by
  cases l with
  -- what is copied from the snapshot; the parts of the other listeners are as they were
  | plmActionAspect =>
    cases h
    refine ⟨rfl, rfl, rfl, rfl, fun l' hl' => ?_⟩
    cases l' <;> first | rfl | exact hl'
  | permissionRegistry =>
    cases h
    refine ⟨rfl, rfl, rfl, rfl, fun l' hl' => ?_⟩
    cases l' <;> first | rfl | exact hl'
  | attributeValidators =>
    cases h
    refine ⟨rfl, rfl, rfl, rfl, fun l' hl' => ?_⟩
    cases l' <;> first | rfl | exact hl'
  -- what is looked up name by name, each of which was found
  | actionGuards =>
    obtain ⟨gs, hgs, rfl⟩ := Option.map_eq_some_iff.mp h
    have hfresh := (collect_eq_some_iff.mp hgs).2
    refine ⟨hfresh, rfl, rfl, rfl, fun l' hl' => ?_⟩
    cases l' <;> first | exact hfresh | exact hl'
  | lifecycleGuards =>
    obtain ⟨gs, hgs, rfl⟩ := Option.map_eq_some_iff.mp h
    have hfresh := (collect_eq_some_iff.mp hgs).2
    refine ⟨hfresh, rfl, rfl, rfl, fun l' hl' => ?_⟩
    cases l' <;> first | exact hfresh | exact hl'
  | stateActions =>
    obtain ⟨sas, hsas, rfl⟩ := Option.map_eq_some_iff.mp h
    have hfresh := (collect_eq_some_iff.mp hsas).2
    refine ⟨hfresh, rfl, rfl, rfl, fun l' hl' => ?_⟩
    cases l' <;> first | exact hfresh | exact hl'

/-- With valid names the whole event is handled: every listener called is fresh after it. -/
theorem handleEvent_fresh (registry : AlgorithmRegistry) (ls : List Listener) (s : Service)
    (h : NamesValid s.configCache) :
    (handleEvent registry ls s).configCache = s.configCache
      ∧ (handleEvent registry ls s).lifecycleCache = s.lifecycleCache
      ∧ (handleEvent registry ls s).reading = s.reading
      ∧ (∀ l ∈ ls, Fresh registry (handleEvent registry ls s) l)
      ∧ ∀ l, Fresh registry s l → Fresh registry (handleEvent registry ls s) l := by
  induction ls generalizing s with
  | nil => exact ⟨rfl, rfl, rfl, fun l hl => absurd hl List.not_mem_nil, fun l hl => hl⟩
  | cons l ls ih =>
    rw [handleEvent]
    cases hl : l.handle registry s with
    | none => exact absurd hl (Listener.handle_ne_none h l)
    | some s' =>
      obtain ⟨hfresh, hcache, hlife, hread, hkeep⟩ := Listener.handle_eq_some hl
      obtain ⟨ihcache, ihlife, ihread, ihfresh, ihkeep⟩ := ih s' (hcache ▸ h)
      refine ⟨ihcache.trans hcache, ihlife.trans hlife, ihread.trans hread, ?_, ?_⟩
      · intro l' hl'
        rcases List.mem_cons.mp hl' with rfl | hl'
        · exact ihkeep _ hfresh
        · exact ihfresh l' hl'
      · exact fun l' hl' => ihkeep l' (hkeep l' hl')

/-! ## Following the snapshot -/

/-- Everything derived is what the snapshot held by `ConfigCache` configures. -/
structure Follows (registry : AlgorithmRegistry) (s : Service) : Prop where
  lifecycles : s.lifecycles = buildSnapshot s.configCache.content
  listeners : ∀ l, Fresh registry s l

/-- A snapshot that is taken has valid names, and the lifecycles were not read before it or are
the same in it. -/
def KeepsUp (s : Service) : ServiceEvent → Prop
  | .snapshot snap => s.configCache.accepts snap = true →
    NamesValid ⟨some snap⟩ ∧ ((s.lifecycleCache = none ∧ s.reading = [])
      ∨ buildSnapshot snap.content = buildSnapshot s.configCache.content)
  | .buildLifecycles => True
  | .installLifecycles _ => True

/-- The invariant: what was read of the lifecycles, installed or not, is of the snapshot held. -/
structure UpToDate (registry : AlgorithmRegistry) (s : Service) : Prop where
  listeners : ∀ l, Fresh registry s l
  installed : ∀ snap, s.lifecycleCache = some snap → snap = buildSnapshot s.configCache.content
  built : ∀ snap ∈ s.reading, snap = buildSnapshot s.configCache.content

theorem UpToDate.started (registry : AlgorithmRegistry) : UpToDate registry .started where
  listeners l := by cases l <;> rfl
  installed snap h := absurd h (Option.some_ne_none snap).symm
  built snap h := absurd h List.not_mem_nil

theorem UpToDate.follows {registry : AlgorithmRegistry} {s : Service} (h : UpToDate registry s) :
    Follows registry s where
  listeners := h.listeners
  lifecycles := by
    unfold Service.lifecycles
    cases hc : s.lifecycleCache with
    | none => rfl
    | some snap => exact h.installed snap hc

theorem UpToDate.applySnapshot {registry : AlgorithmRegistry} {order : ListenerOrder} {s : Service}
    {snap : Snapshot ConfigContent} (h : UpToDate registry s) (hkeeps : KeepsUp s (.snapshot snap)) :
    UpToDate registry (s.applySnapshot registry order.listeners snap) := by
  unfold Service.applySnapshot
  by_cases hacc : s.configCache.accepts snap = true
  · rw [if_pos hacc, ConfigCache.updateFromSnapshot_eq, if_pos hacc]
    obtain ⟨hnames, hlife⟩ := hkeeps hacc
    obtain ⟨hcache, hinst, hread, hfresh, _⟩ := handleEvent_fresh registry
      order.listeners { s with configCache := ⟨some snap⟩ } hnames
    -- what had been read either is nothing, or is the same in the new snapshot
    have hsame : ∀ l : LifecycleSnapshot, s.lifecycleCache = some l ∨ l ∈ s.reading →
        l = buildSnapshot snap.content := by
      intro l hl
      rcases hlife with ⟨hnone, hnil⟩ | heq
      · rcases hl with hl | hl
        · rw [hnone] at hl
          exact absurd hl (Option.some_ne_none l).symm
        · rw [hnil] at hl
          exact absurd hl List.not_mem_nil
      · rw [heq]
        rcases hl with hl | hl
        · exact h.installed l hl
        · exact h.built l hl
    refine ⟨fun l => hfresh l (order.complete l), ?_, ?_⟩
    · intro l hl
      rw [hinst] at hl
      rw [hcache]
      exact hsame l (Or.inl hl)
    · intro l hl
      rw [hread] at hl
      rw [hcache]
      exact hsame l (Or.inr hl)
  · rw [if_neg hacc]
    exact h

theorem UpToDate.buildLifecycles {registry : AlgorithmRegistry} {s : Service}
    (h : UpToDate registry s) : UpToDate registry s.buildLifecycles := by
  unfold Service.buildLifecycles
  cases hc : s.lifecycleCache with
  | some _ => exact h
  | none =>
    refine ⟨fun l => ?_, ?_, ?_⟩
    · have := h.listeners l
      cases l <;> exact this
    · intro snap hsnap
      exact absurd hsnap (Option.some_ne_none snap).symm
    · intro snap hsnap
      rcases List.mem_append.mp hsnap with hold | hnew
      · exact h.built snap hold
      · exact List.mem_singleton.mp hnew

theorem UpToDate.installLifecycles {registry : AlgorithmRegistry} {s : Service}
    (h : UpToDate registry s) (i : Nat) : UpToDate registry (s.installLifecycles i) := by
  unfold Service.installLifecycles
  cases hi : s.reading[i]? with
  | none => exact h
  | some snap =>
    have hmem : snap ∈ s.reading := List.mem_of_getElem? hi
    refine ⟨fun l => ?_, ?_, ?_⟩
    · have := h.listeners l
      cases l <;> exact this
    · intro l hl
      -- `compareAndSet` keeps what is there
      rcases Option.or_eq_some_iff.mp hl with hold | ⟨_, hnew⟩
      · exact h.installed l hold
      · rw [← Option.some.inj hnew]
        exact h.built snap hmem
    · intro l hl
      exact h.built l (List.mem_of_mem_eraseIdx hl)

theorem UpToDate.step {registry : AlgorithmRegistry} {order : ListenerOrder} {s : Service}
    {e : ServiceEvent} (h : UpToDate registry s) (hkeeps : KeepsUp s e) :
    UpToDate registry (s.step registry order.listeners e) := by
  cases e with
  | snapshot snap => exact h.applySnapshot hkeeps
  | buildLifecycles => exact h.buildLifecycles
  | installLifecycles i => exact h.installLifecycles i

/-- **Derived caches follow the snapshot** in every run whose snapshots, where they are taken,
have valid names and leave the lifecycles that were read as they are. -/
theorem derived_caches_follow (registry : AlgorithmRegistry) (order : ListenerOrder)
    (es : List ServiceEvent)
    (h : Along (Service.step registry order.listeners) KeepsUp .started es) :
    Follows registry (run (Service.step registry order.listeners) .started es) := by
  have hinv : UpToDate registry (run (Service.step registry order.listeners) .started es) :=
    Along.invariant (fun s e hs he => UpToDate.step hs he) (UpToDate.started registry) h
  exact hinv.follows

/-- The listeners in the order of their beans' packages. -/
private def beanOrder : ListenerOrder :=
  ⟨[.plmActionAspect, .actionGuards, .lifecycleGuards, .stateActions, .attributeValidators,
    .permissionRegistry], fun l => by cases l <;> decide⟩

/-- A lifecycle of one state, drawn in a colour, that collapses the history when it is entered. -/
private def partLifecycle (color : String) (trigger : String) : ConfigContent where
  lifecycles := [⟨"lc-part", [⟨"draft", "Draft", some color, "lc-part", true⟩], []⟩]
  actions := []
  permissions := []
  algorithms := [⟨"alg-1", "collapse_history", [⟨"inst-1", "alg-1", []⟩]⟩]
  stateActions := [⟨"draft", "inst-1", trigger, "TRANSACTIONAL", 1⟩]
  entityMetadata := []

/-- The first snapshot arrives before the first read. -/
theorem derived_caches_follow_first_snapshot :
    Follows [("collapse_history", [.StateAction])]
      (run (Service.step [("collapse_history", [.StateAction])] beanOrder.listeners) .started
        [.snapshot ⟨1, partLifecycle "grey" "ON_ENTER"⟩, .buildLifecycles, .installLifecycles 0]) := by
  apply derived_caches_follow [("collapse_history", [.StateAction])] beanOrder
  refine ⟨fun _ => ⟨⟨by decide, by decide, by decide, by decide⟩, Or.inl ⟨rfl, rfl⟩⟩, ?_⟩
  exact ⟨trivial, trivial, trivial⟩

/-- A colour changed after the first read is never shown. -/
theorem derived_caches_keep_old_lifecycles :
    ¬ Follows [("collapse_history", [.StateAction])]
      (run (Service.step [("collapse_history", [.StateAction])] beanOrder.listeners) .started
        [.snapshot ⟨1, partLifecycle "grey" "ON_ENTER"⟩, .buildLifecycles, .installLifecycles 0,
          .snapshot ⟨2, partLifecycle "green" "ON_ENTER"⟩]) := by
  intro h
  have hstate := congrArg (fun l => l.statesById "draft") h.lifecycles
  revert hstate
  decide +kernel

/-- An unknown trigger ends the event: the listeners behind `StateActionService` keep the old
snapshot. -/
example : (run (Service.step [("collapse_history", [.StateAction])] beanOrder.listeners) .started
    [.snapshot ⟨1, { partLifecycle "grey" "ON_LEAVE" with permissions := [⟨"READ", "NODE"⟩] }⟩]
    ).permissionsByCode = [] := by decide +kernel

end PlmCore.Platform
