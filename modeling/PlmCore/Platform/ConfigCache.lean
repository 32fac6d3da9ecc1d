/-
`ConfigCache`: the configuration snapshot a service keeps, and the indexes rebuilt with it.

Snapshots are numbered by their producer, and the cache takes only a snapshot with a larger
number than the one it holds. The content is what the derived caches and the authorization
checks read of it; lists a snapshot leaves null are empty here, as every reader takes them.
-/
import Mathlib.Data.Int.Order.Basic
import Mathlib.Data.List.Nodup
import Mathlib.Tactic.Common

set_option autoImplicit false

namespace PlmCore.Platform

/-! ## The content of a snapshot -/

structure LifecycleStateConfig where
  id : String
  name : String
  color : Option String
  lifecycleId : String
  isInitial : Bool
  deriving DecidableEq

structure TransitionGuardConfig where
  lifecycleTransitionId : String
  algorithmInstanceId : String
  effect : String
  deriving DecidableEq

structure LifecycleTransitionConfig where
  id : String
  name : String
  lifecycleId : String
  fromStateId : String
  toStateId : String
  actionType : Option String
  versionStrategy : Option String
  guards : List TransitionGuardConfig
  deriving DecidableEq

structure LifecycleConfig where
  id : String
  states : List LifecycleStateConfig
  transitions : List LifecycleTransitionConfig
  deriving DecidableEq

structure ActionGuardConfig where
  algorithmInstanceId : String
  effect : String
  deriving DecidableEq

structure ActionConfig where
  id : String
  actionCode : String
  scope : String
  requiredPermissions : List String
  guards : List ActionGuardConfig
  deriving DecidableEq

structure PermissionConfig where
  permissionCode : String
  scope : String
  deriving DecidableEq

structure AlgorithmInstanceConfig where
  id : String
  algorithmId : String
  paramValues : List (String × String)
  deriving DecidableEq

structure AlgorithmConfig where
  id : String
  code : String
  instances : List AlgorithmInstanceConfig
  deriving DecidableEq

structure StateActionConfig where
  lifecycleStateId : String
  algorithmInstanceId : String
  trigger : String
  executionMode : String
  displayOrder : Int
  deriving DecidableEq

/-- The content of a `ConfigSnapshot`, everything but its version. -/
structure ConfigContent where
  lifecycles : List LifecycleConfig
  actions : List ActionConfig
  permissions : List PermissionConfig
  algorithms : List AlgorithmConfig
  stateActions : List StateActionConfig
  entityMetadata : List (String × String)
  deriving DecidableEq

/-! ## The cache -/

/-- A `ConfigSnapshot`. -/
structure Snapshot (κ : Type) where
  version : Nat
  content : κ
  deriving DecidableEq

/-- `ConfigCache`, with what it was given last; the version of an empty cache is -1. -/
structure ConfigCache (κ : Type) where
  snapshot : Option (Snapshot κ)
  deriving DecidableEq

namespace ConfigCache

variable {κ : Type}

/-- A cache that was never populated. -/
def empty : ConfigCache κ := ⟨none⟩

/-- `snapshotVersion`. -/
def snapshotVersion (c : ConfigCache κ) : Int := (c.snapshot.map fun s => (s.version : Int)).getD (-1)

/-- `isPopulated`. -/
def isPopulated (c : ConfigCache κ) : Bool := 0 ≤ c.snapshotVersion

/-- `updateFromSnapshot`: stale snapshots are ignored. -/
def updateFromSnapshot (c : ConfigCache κ) (s : Snapshot κ) : ConfigCache κ :=
  if (s.version : Int) ≤ c.snapshotVersion then c else ⟨some s⟩

/-- The snapshot is taken. -/
def accepts (c : ConfigCache κ) (s : Snapshot κ) : Bool := c.snapshotVersion < s.version

theorem updateFromSnapshot_eq (c : ConfigCache κ) (s : Snapshot κ) :
    c.updateFromSnapshot s = if c.accepts s then ⟨some s⟩ else c := by
  unfold updateFromSnapshot accepts
  by_cases h : (s.version : Int) ≤ c.snapshotVersion
  · rw [if_pos h, if_neg (by simpa using h)]
  · rw [if_neg h, if_pos (by simpa using h)]

/-- Applying a snapshot never takes the cache back. -/
theorem snapshotVersion_updateFromSnapshot (c : ConfigCache κ) (s : Snapshot κ) :
    c.snapshotVersion ≤ (c.updateFromSnapshot s).snapshotVersion := by
  unfold updateFromSnapshot
  split
  · exact le_refl _
  · rename_i h
    exact le_of_lt (not_le.mp h)

/-- `indexBy`: the last item with a key is the one found. -/
def indexBy {α : Type} (items : List α) (key : α → String) (k : String) : Option α :=
  (items.filter fun x => key x = k).getLast?

theorem mem_of_indexBy {α : Type} {items : List α} {key : α → String} {k : String} {x : α}
    (h : indexBy items key k = some x) : x ∈ items ∧ key x = k := by
  have hmem := List.mem_of_getLast? h
  simpa using hmem

/-- Where keys are unique, an item is found by its key. -/
theorem indexBy_eq_some {α : Type} {items : List α} {key : α → String} {x : α}
    (hkeys : (items.map key).Nodup) (hx : x ∈ items) : indexBy items key (key x) = some x := by
  have hne : items.filter (fun y => key y = key x) ≠ [] :=
    List.ne_nil_of_mem (List.mem_filter.mpr ⟨hx, by simp⟩)
  have hlast : indexBy items key (key x)
      = some ((items.filter fun y => key y = key x).getLast hne) := List.getLast?_eq_some_getLast hne
  obtain ⟨hmem, hkey⟩ := mem_of_indexBy hlast
  rw [hlast, List.inj_on_of_nodup_map hkeys hmem hx hkey]

/-- A snapshot is taken iff it is newer than the one held. -/
theorem accepts_iff (c : ConfigCache κ) (s : Snapshot κ) :
    c.accepts s = true ↔ ∀ h, c.snapshot = some h → h.version < s.version := by
  unfold accepts snapshotVersion
  cases c.snapshot with
  | none =>
    simp only [Option.map_none, Option.getD_none, decide_eq_true_eq]
    constructor
    · intro _ h hh
      exact absurd hh (Option.some_ne_none h).symm
    · intro _
      omega
  | some h =>
    simp only [Option.map_some, Option.getD_some, decide_eq_true_eq, Option.some.injEq,
      forall_eq', Int.ofNat_lt]

variable (c : ConfigCache ConfigContent)

/-- The content held, empty before the first snapshot. -/
def content : ConfigContent := (c.snapshot.map (·.content)).getD ⟨[], [], [], [], [], []⟩

/-- `getAllActions`. -/
def getAllActions : List ActionConfig := c.content.actions

/-- `getAction`: by code. -/
def getAction (actionCode : String) : Option ActionConfig :=
  indexBy c.content.actions (·.actionCode) actionCode

/-- `getActionGuards`: of the action with the id that has guards. -/
def getActionGuards (actionId : String) : List ActionGuardConfig :=
  (indexBy (c.content.actions.filter fun a => !a.guards.isEmpty) (·.id) actionId).elim [] (·.guards)

/-- `getTransitionGuards`. -/
def getTransitionGuards (transitionId : String) : List TransitionGuardConfig :=
  (indexBy ((c.content.lifecycles.flatMap (·.transitions)).filter fun t => !t.guards.isEmpty)
    (·.id) transitionId).elim [] (·.guards)

/-- `getInstance`. -/
def getInstance (instanceId : String) : Option AlgorithmInstanceConfig :=
  indexBy (c.content.algorithms.flatMap (·.instances)) (·.id) instanceId

end ConfigCache

end PlmCore.Platform
