/-
The caches psm-api derives from `ConfigCache`.

Six beans listen to `ConfigSnapshotUpdatedEvent` and rebuild what they keep from the snapshot
then held; the listeners are called one after the other, and an exception of one keeps the rest
from being called. `LifecycleService` does not listen: it builds its states and transitions at
the first read, and `invalidateCache`, which would empty it, has no caller.

Maps built by `put` are functions from their keys, and maps of lists built by `computeIfAbsent`
are the lists of their pairs, in the order they were added.
-/
import Mathlib.Data.List.Basic
import PlmCore.Platform.ConfigCache
import PlmCore.Psm.Config

set_option autoImplicit false

namespace PlmCore.Platform

open PlmCore.Psm (StateActionTrigger StateActionMode)

/-! ## Names of the configuration -/

/-- `GuardEffect`. -/
inductive GuardEffect where
  | HIDE
  | BLOCK
  deriving DecidableEq

/-- `GuardEffect.valueOf`; any other name throws. -/
def GuardEffect.valueOf (name : String) : Option GuardEffect :=
  if name = "HIDE" then some .HIDE else if name = "BLOCK" then some .BLOCK else none

/-- `StateActionTrigger.valueOf`. -/
def StateActionTrigger.valueOf (name : String) : Option StateActionTrigger :=
  if name = "ON_ENTER" then some .ON_ENTER else if name = "ON_EXIT" then some .ON_EXIT else none

/-- `StateActionMode.valueOf`. -/
def StateActionMode.valueOf (name : String) : Option StateActionMode :=
  if name = "TRANSACTIONAL" then some .TRANSACTIONAL
  else if name = "POST_COMMIT" then some .POST_COMMIT else none

/-- The interfaces an algorithm bean is resolved as. -/
inductive AlgorithmInterface where
  | ActionGuard
  | LifecycleGuard
  | StateAction
  | AttributeValidator
  deriving DecidableEq

/-- `AlgorithmRegistry`: the codes of the beans with the interfaces each implements. -/
abbrev AlgorithmRegistry := List (String × List AlgorithmInterface)

/-- `hasBean`. -/
def AlgorithmRegistry.hasBean (registry : AlgorithmRegistry) (code : String) : Bool :=
  registry.any fun b => b.1 = code

/-- `resolve` returns; otherwise it throws, which every caller turns into passing over. -/
def AlgorithmRegistry.resolves (registry : AlgorithmRegistry) (code : String)
    (iface : AlgorithmInterface) : Bool :=
  (registry.filter fun b => b.1 = code).getLast?.any fun b => b.2.contains iface

/-! ## `LifecycleService` -/

structure CachedState where
  id : String
  name : String
  color : Option String
  lifecycleId : String
  isInitial : Bool
  deriving DecidableEq

structure CachedTransition where
  id : String
  name : String
  lifecycleId : String
  fromStateId : String
  toStateId : String
  actionType : Option String
  versionStrategy : Option String
  deriving DecidableEq

/-- `LifecycleSnapshot`. -/
@[ext] structure LifecycleSnapshot where
  statesById : String → Option CachedState
  transitionsById : String → Option CachedTransition

/-- `LifecycleService.buildSnapshot`. -/
def buildSnapshot (s : ConfigContent) : LifecycleSnapshot where
  statesById id := (ConfigCache.indexBy (s.lifecycles.flatMap (·.states)) (·.id) id).map
    fun x => ⟨x.id, x.name, x.color, x.lifecycleId, x.isInitial⟩
  transitionsById id := (ConfigCache.indexBy (s.lifecycles.flatMap (·.transitions)) (·.id) id).map
    fun x => ⟨x.id, x.name, x.lifecycleId, x.fromStateId, x.toStateId, x.actionType, x.versionStrategy⟩

/-! ## Passing over and throwing -/

/-- A loop that adds what `f` makes of each item: `some none` passes it over, and `none`
throws. -/
def collect {α β : Type} (f : α → Option (Option β)) : List α → Option (List β)
  | [] => some []
  | x :: xs =>
    match f x with
    | none => none
    | some y => (collect f xs).map (y.toList ++ ·)

theorem collect_eq_some {α β : Type} {f : α → Option (Option β)} {xs : List α}
    (h : ∀ x ∈ xs, f x ≠ none) : collect f xs = some (xs.filterMap fun x => (f x).join) := by
  induction xs with
  | nil => rfl
  | cons x xs ih =>
    have hx := h x (List.mem_cons_self)
    have ihs := ih fun y hy => h y (List.mem_cons_of_mem x hy)
    rw [collect]
    cases hf : f x with
    | none => exact absurd hf hx
    | some y => cases y <;> simp [ihs, hf]

theorem collect_eq_some_iff {α β : Type} {f : α → Option (Option β)} {xs : List α} {ys : List β} :
    collect f xs = some ys ↔ (∀ x ∈ xs, f x ≠ none) ∧ ys = xs.filterMap fun x => (f x).join := by
  constructor
  · intro h
    have hall : ∀ x ∈ xs, f x ≠ none := by
      induction xs generalizing ys with
      | nil => exact fun x hx => absurd hx List.not_mem_nil
      | cons x xs ih =>
        rw [collect] at h
        cases hf : f x with
        | none => simp [hf] at h
        | some y =>
          simp only [hf] at h
          obtain ⟨zs, hzs, _⟩ := Option.map_eq_some_iff.mp h
          intro z hz
          rcases List.mem_cons.mp hz with rfl | hz
          · simp [hf]
          · exact ih hzs z hz
    refine ⟨hall, ?_⟩
    rw [collect_eq_some hall] at h
    exact (Option.some.inj h).symm
  · rintro ⟨hall, rfl⟩
    exact collect_eq_some hall

/-! ## The guard services -/

/-- `ResolvedGuard`; the bean is its code. -/
structure ResolvedGuard where
  algorithmInstanceId : String
  bean : String
  effect : GuardEffect
  parameters : List (String × String)
  deriving DecidableEq

/-- `LifecycleGuardService.resolveAlgorithmCode`: of the first algorithm with the instance. -/
def codeOfInstance (s : ConfigContent) (instanceId : String) : Option String :=
  (s.algorithms.find? fun alg => alg.instances.any fun inst => inst.id = instanceId).map (·.code)

/-- The parameters of an instance. -/
def paramsOfInstance (c : ConfigCache ConfigContent) (instanceId : String) :
    List (String × String) :=
  (c.getInstance instanceId).elim [] (·.paramValues)

/-- `resolveGuardFromConfig` with the code found and the interface asked for. The effect is
read before the bean is looked for. -/
def resolveGuardFromConfig (registry : AlgorithmRegistry) (iface : AlgorithmInterface)
    (c : ConfigCache ConfigContent) (code : Option String) (instanceId effectStr : String) :
    Option (Option ResolvedGuard) :=
  match code with
  | none => some none
  | some code =>
    match GuardEffect.valueOf effectStr with
    | none => none
    | some effect =>
      some (if registry.hasBean code ∧ registry.resolves code iface
        then some ⟨instanceId, code, effect, paramsOfInstance c instanceId⟩ else none)

/-- The guards `LifecycleGuardService.rebuildCache` goes through. -/
def attachedTransitionGuards (c : ConfigCache ConfigContent) : List TransitionGuardConfig :=
  (c.content.lifecycles.flatMap (·.transitions)).flatMap fun t => c.getTransitionGuards t.id

/-- One guard, with the transition it is kept under. -/
def LifecycleGuardService.resolveGuard (registry : AlgorithmRegistry)
    (c : ConfigCache ConfigContent) (tg : TransitionGuardConfig) :
    Option (Option (String × ResolvedGuard)) :=
  (resolveGuardFromConfig registry .LifecycleGuard c
    (codeOfInstance c.content tg.algorithmInstanceId) tg.algorithmInstanceId tg.effect).map
    (Option.map (tg.lifecycleTransitionId, ·))

/-- `LifecycleGuardService.rebuildCache`. -/
def LifecycleGuardService.rebuildCache (registry : AlgorithmRegistry)
    (c : ConfigCache ConfigContent) : Option (List (String × ResolvedGuard)) :=
  collect (LifecycleGuardService.resolveGuard registry c) (attachedTransitionGuards c)

/-- `ActionGuardService.resolveAlgorithmCode`: of the algorithm the instance names, the last
with its id. -/
def ActionGuardService.resolveAlgorithmCode (c : ConfigCache ConfigContent) (instanceId : String) :
    Option String :=
  (c.getInstance instanceId).bind fun inst =>
    (ConfigCache.indexBy c.content.algorithms (·.id) inst.algorithmId).map (·.code)

/-- The guards `ActionGuardService.rebuildCache` goes through, with their actions. -/
def attachedActionGuards (c : ConfigCache ConfigContent) : List (String × ActionGuardConfig) :=
  c.getAllActions.flatMap fun action => (c.getActionGuards action.id).map (action.id, ·)

/-- One guard, with the action it is kept under. -/
def ActionGuardService.resolveGuard (registry : AlgorithmRegistry)
    (c : ConfigCache ConfigContent) (ag : String × ActionGuardConfig) :
    Option (Option (String × ResolvedGuard)) :=
  (resolveGuardFromConfig registry .ActionGuard c
    (ActionGuardService.resolveAlgorithmCode c ag.2.algorithmInstanceId)
    ag.2.algorithmInstanceId ag.2.effect).map (Option.map (ag.1, ·))

/-- `ActionGuardService.rebuildCache`. -/
def ActionGuardService.rebuildCache (registry : AlgorithmRegistry)
    (c : ConfigCache ConfigContent) : Option (List (String × ResolvedGuard)) :=
  collect (ActionGuardService.resolveGuard registry c) (attachedActionGuards c)

/-! ## `StateActionService` -/

/-- `ResolvedStateAction`. -/
structure ResolvedStateAction where
  algorithmInstanceId : String
  bean : String
  mode : StateActionMode
  displayOrder : Int
  parameters : List (String × String)
  deriving DecidableEq

/-- The instance map of `rebuildCache`: the last algorithm with the instance. -/
def instanceToCode (s : ConfigContent) (instanceId : String) : Option String :=
  (s.algorithms.filter fun alg => alg.instances.any fun inst => inst.id = instanceId).getLast?.map
    (·.code)

/-- One state action of `StateActionService.rebuildCache`. -/
def resolveStateAction (registry : AlgorithmRegistry) (c : ConfigCache ConfigContent)
    (sa : StateActionConfig) :
    Option (Option ((String × StateActionTrigger) × ResolvedStateAction)) :=
  match StateActionTrigger.valueOf sa.trigger with
  | none => none
  | some trigger =>
    match instanceToCode c.content sa.algorithmInstanceId with
    | none => some none
    | some code =>
      match StateActionMode.valueOf sa.executionMode with
      | none => none
      | some mode =>
        some (if registry.hasBean code ∧ registry.resolves code .StateAction then
          some ((sa.lifecycleStateId, trigger), ⟨sa.algorithmInstanceId, code, mode,
            sa.displayOrder, paramsOfInstance c sa.algorithmInstanceId⟩)
        else none)

/-- `StateActionService.rebuildCache`. -/
def StateActionService.rebuildCache (registry : AlgorithmRegistry)
    (c : ConfigCache ConfigContent) :
    Option (List ((String × StateActionTrigger) × ResolvedStateAction)) :=
  collect (resolveStateAction registry c) c.content.stateActions

/-! ## `AttributeValidatorService` -/

/-- `ResolvedValidator`. -/
structure ResolvedValidator where
  stateId : String
  instanceId : String
  bean : String
  effect : GuardEffect
  params : List (String × String)
  deriving DecidableEq

/-- `split(sep, 2)`: what stands before the first separator and behind it. -/
def splitFirst (sep : List Char) : List Char → Option (List Char × List Char)
  | [] => none
  | x :: xs =>
    if sep.isPrefixOf (x :: xs) then some ([], (x :: xs).drop sep.length)
    else (splitFirst sep xs).map fun (l, r) => (x :: l, r)

/-- The parts of an `ATTR_VALIDATOR` key: node type, attribute, state and instance. -/
def validatorKey (key : String) : Option (String × String × String × String) := do
  if !"ATTR_VALIDATOR:".toList.isPrefixOf key.toList then none
  let (_, rest) ← splitFirst [':'] key.toList
  let (target, metaKey) ← splitFirst [':'] rest
  let (nodeTypeId, attrDefId) ← splitFirst ['_', '_'] target
  let (stateId, instanceId) ← splitFirst ['_', '_'] metaKey
  return (String.ofList nodeTypeId, String.ofList attrDefId, String.ofList stateId,
    String.ofList instanceId)

/-- One entry of `AttributeValidatorService.rebuildCache`; nothing throws, and an unknown effect
blocks. -/
def resolveValidator (registry : AlgorithmRegistry) (c : ConfigCache ConfigContent)
    (entry : String × String) : Option (String × ResolvedValidator) := do
  let (nodeTypeId, attrDefId, stateId, instanceId) ← validatorKey entry.1
  let code ← codeOfInstance c.content instanceId
  if registry.hasBean code ∧ registry.resolves code .AttributeValidator then
    return (nodeTypeId ++ ":" ++ attrDefId, ⟨stateId, instanceId, code,
      (GuardEffect.valueOf entry.2).getD .BLOCK, paramsOfInstance c instanceId⟩)
  else none

/-- `AttributeValidatorService.rebuildCache`. -/
def AttributeValidatorService.rebuildCache (registry : AlgorithmRegistry)
    (c : ConfigCache ConfigContent) : List (String × ResolvedValidator) :=
  c.content.entityMetadata.filterMap (resolveValidator registry c)

end PlmCore.Platform
