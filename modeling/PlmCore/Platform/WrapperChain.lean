/-
`ActionDispatcher`: the wrappers around the handler of an action; and the actions of a state, which
`StateActionService` runs.

Wrappers and state actions are configured with an order number. Both services take them in the order
in which the snapshot lists them and read no number, so they run in ascending order exactly where the
snapshot lists them so.
-/
import PlmCore.Platform.DerivedCaches

set_option autoImplicit false

namespace PlmCore.Platform

open PlmCore.Psm (StateActionTrigger StateActionMode)

/-! ## The chain -/

/-- `ActionWrapperConfig`. -/
structure ActionWrapperConfig where
  algorithmInstanceId : String
  executionOrder : Int
  deriving DecidableEq

/-- Parameters by their names. -/
abbrev Params := List (String × String)

/-- `ActionWrapper.Chain`, for contexts `κ` and outcomes `ρ`. -/
abbrev WrapperChain (κ ρ : Type) := κ → Params → ρ

/-- `ActionWrapper`: its `wrap` is given the context, the parameters, those of its instance and the rest
of the chain. -/
abbrev ActionWrapper (κ ρ : Type) := κ → Params → Params → WrapperChain κ ρ → ρ

/-- `ActionDispatcher.ResolvedWrapper`. -/
structure ResolvedWrapper (κ ρ : Type) where
  wrapper : ActionWrapper κ ρ
  instanceParams : Params

/-- A wrapper put around a chain. -/
def ResolvedWrapper.around {κ ρ : Type} (rw : ResolvedWrapper κ ρ) (next : WrapperChain κ ρ) :
    WrapperChain κ ρ :=
  fun ctx params => rw.wrapper ctx params rw.instanceParams next

namespace ActionDispatcher

variable {κ ρ : Type}

/-- `resolveAlgorithmCode`; a missing instance or algorithm throws. -/
def resolveAlgorithmCode (c : ConfigCache ConfigContent) (instanceId : String) : Option String :=
  (c.getInstance instanceId).bind fun inst =>
    (c.content.algorithms.find? (·.id = inst.algorithmId)).map (·.code)

/-- What is resolved of a wrapper: the code of its bean and the parameters of its instance. -/
def wrapperKey (c : ConfigCache ConfigContent) (aw : ActionWrapperConfig) : Option (String × Params) :=
  (resolveAlgorithmCode c aw.algorithmInstanceId).map (·, paramsOfInstance c aw.algorithmInstanceId)

/-- `algorithmRegistry.resolve(code, ActionWrapper.class)`; a missing bean throws. -/
def resolveBean (beans : String → Option (ActionWrapper κ ρ)) (key : Option (String × Params)) :
    Option (ResolvedWrapper κ ρ) :=
  key.bind fun k => (beans k.1).map (⟨·, k.2⟩)

/-- `resolveWrappers`. -/
def resolveWrappers (c : ConfigCache ConfigContent) (beans : String → Option (ActionWrapper κ ρ))
    (wrappers : List ActionWrapperConfig) : Option (List (ResolvedWrapper κ ρ)) :=
  wrappers.mapM fun aw => resolveBean beans (wrapperKey c aw)

/-- The loop of `buildChain`, with the wrappers below an index still to come. -/
def buildChain.loop (wrappers : List (ResolvedWrapper κ ρ)) :
    Nat → WrapperChain κ ρ → WrapperChain κ ρ
  | 0, chain => chain
  | i + 1, chain =>
    buildChain.loop wrappers i ((wrappers[i]?).elim chain (·.around chain))

/-- `buildChain`. -/
def buildChain (wrappers : List (ResolvedWrapper κ ρ)) (terminal : WrapperChain κ ρ) :
    WrapperChain κ ρ :=
  buildChain.loop wrappers wrappers.length terminal

/-- What `dispatch` and `wrapForHttp` run: the chain around the handler. -/
def chainFor (c : ConfigCache ConfigContent) (beans : String → Option (ActionWrapper κ ρ))
    (wrappers : List ActionWrapperConfig) (handler : WrapperChain κ ρ) : Option (WrapperChain κ ρ) :=
  (resolveWrappers c beans wrappers).map (buildChain · handler)

/-- Wrappers nested around a handler, the first outermost, each once. -/
def nest : List (ResolvedWrapper κ ρ) → WrapperChain κ ρ → WrapperChain κ ρ
  | [], handler => handler
  | rw :: wrappers, handler => rw.around (nest wrappers handler)

theorem nest_append (ws ws' : List (ResolvedWrapper κ ρ)) (handler : WrapperChain κ ρ) :
    nest (ws ++ ws') handler = nest ws (nest ws' handler) := by
  induction ws with
  | nil => rfl
  | cons rw ws ih => rw [List.cons_append, nest, nest, ih]

/-- What the loop still does is to nest the wrappers that are left. -/
theorem buildChain_loop_eq (ws : List (ResolvedWrapper κ ρ)) (i : Nat) (chain : WrapperChain κ ρ) :
    buildChain.loop ws i chain = nest (ws.take i) chain := by
  induction i generalizing chain with
  | zero => rfl
  | succ i ih =>
    rw [buildChain.loop, ih, List.take_add_one, nest_append]
    cases ws[i]? with
    | none => rfl
    | some rw => rfl

/-- **The chain nests the wrappers** in the order of the list, around the handler. -/
theorem buildChain_eq_nest (ws : List (ResolvedWrapper κ ρ)) (handler : WrapperChain κ ρ) :
    buildChain ws handler = nest ws handler := by
  rw [buildChain, buildChain_loop_eq, List.take_length]

/-! ## The order of the wrappers -/

/-- Whatever the beans do, the chain nests the wrappers in an ascending order, each exactly once. -/
def RunsAscending (c : ConfigCache ConfigContent) (wrappers : List ActionWrapperConfig) : Prop :=
  ∃ order : List ActionWrapperConfig, order.Perm wrappers ∧
    order.Pairwise (fun a b => a.executionOrder ≤ b.executionOrder) ∧
    ∀ (κ ρ : Type) (beans : String → Option (ActionWrapper κ ρ)) (handler : WrapperChain κ ρ),
      chainFor c beans wrappers handler = (resolveWrappers c beans order).map (nest · handler)

/-- The snapshot lists the wrappers in ascending order, but for wrappers that are the same bean with the
same parameters; or one of them cannot be resolved, and there is no chain. -/
def ListedAscending (c : ConfigCache ConfigContent) (wrappers : List ActionWrapperConfig) : Prop :=
  (∃ aw ∈ wrappers, wrapperKey c aw = none) ∨
    ∃ order : List ActionWrapperConfig, order.Perm wrappers ∧
      order.Pairwise (fun a b => a.executionOrder ≤ b.executionOrder) ∧
      order.map (wrapperKey c) = wrappers.map (wrapperKey c)

variable {c : ConfigCache ConfigContent} {wrappers order : List ActionWrapperConfig}

/-- What is resolved depends on the keys. -/
theorem resolveWrappers_eq (beans : String → Option (ActionWrapper κ ρ)) :
    resolveWrappers c beans wrappers = (wrappers.map (wrapperKey c)).mapM (resolveBean beans) := by
  rw [List.mapM_map]
  rfl

/-- A wrapper that cannot be resolved throws. -/
theorem resolveWrappers_eq_none {beans : String → Option (ActionWrapper κ ρ)}
    (h : ∃ aw ∈ wrappers, wrapperKey c aw = none) : resolveWrappers c beans wrappers = none := by
  obtain ⟨aw, hmem, hnone⟩ := h
  induction wrappers with
  | nil => exact absurd hmem List.not_mem_nil
  | cons first rest ih =>
    rw [resolveWrappers, List.mapM_cons]
    obtain rfl | hmem := List.mem_cons.mp hmem
    · rw [hnone]
      rfl
    · have hrest : rest.mapM (fun aw => resolveBean beans (wrapperKey c aw)) = none := ih hmem
      rw [hrest]
      cases resolveBean beans (wrapperKey c first) <;> rfl

/-- A bean that notes its key and goes on. -/
def tracer (code : String) : ActionWrapper Unit (List (String × Params)) :=
  fun ctx params instanceParams next => (code, instanceParams) :: next ctx params

/-- What the tracers note on a way through the chain. -/
def traceOf (ws : List (ResolvedWrapper Unit (List (String × Params)))) : List (String × Params) :=
  nest ws (fun _ _ => []) () []

theorem resolveBean_tracer (keys : List (String × Params)) :
    (keys.map some).mapM (resolveBean fun code => some (tracer code)) =
      some (keys.map fun k => ⟨tracer k.1, k.2⟩) := by
  induction keys with
  | nil => rfl
  | cons k keys ih =>
    rw [List.map_cons, List.mapM_cons, ih]
    rfl

theorem traceOf_tracers (keys : List (String × Params)) :
    traceOf (keys.map fun k => ⟨tracer k.1, k.2⟩) = keys := by
  induction keys with
  | nil => rfl
  | cons k keys ih => exact congrArg (k :: ·) ih

/-- **With tracers** the chain notes the keys of the wrappers in their order. -/
theorem trace_eq {keys : List (String × Params)} (h : wrappers.map (wrapperKey c) = keys.map some) :
    (resolveWrappers c (fun code => some (tracer code)) wrappers).map traceOf = some keys := by
  rw [resolveWrappers_eq, h, resolveBean_tracer, Option.map_some, traceOf_tracers]

/-- Where every wrapper can be resolved, the keys are there. -/
theorem exists_keys (h : ∀ aw ∈ wrappers, wrapperKey c aw ≠ none) :
    ∃ keys : List (String × Params), wrappers.map (wrapperKey c) = keys.map some := by
  induction wrappers with
  | nil => exact ⟨[], rfl⟩
  | cons aw wrappers ih =>
    obtain ⟨keys, hkeys⟩ := ih fun x hx => h x (List.mem_cons_of_mem aw hx)
    obtain ⟨k, hk⟩ := Option.ne_none_iff_exists'.mp (h aw List.mem_cons_self)
    exact ⟨k :: keys, by rw [List.map_cons, List.map_cons, hk, hkeys]⟩

/-- **Wrappers run in ascending order** exactly where the snapshot lists them so. -/
theorem runsAscending_iff : RunsAscending c wrappers ↔ ListedAscending c wrappers := by
  constructor
  · rintro ⟨order, hperm, hsorted, hchain⟩
    by_cases hnone : ∃ aw ∈ wrappers, wrapperKey c aw = none
    · exact .inl hnone
    · have hall : ∀ aw ∈ wrappers, wrapperKey c aw ≠ none := fun aw haw h => hnone ⟨aw, haw, h⟩
      obtain ⟨keys, hkeys⟩ := exists_keys hall
      obtain ⟨keys', hkeys'⟩ := exists_keys fun aw haw => hall aw (hperm.mem_iff.mp haw)
      -- the tracers tell the two orders apart
      have htrace := congrArg (Option.map fun chain => chain () [])
        (hchain Unit (List (String × Params)) (fun code => some (tracer code)) fun _ _ => [])
      simp only [chainFor, Option.map_map, Function.comp_def, buildChain_eq_nest] at htrace
      have hsame : some keys = some keys' := (trace_eq hkeys).symm.trans (htrace.trans (trace_eq hkeys'))
      refine .inr ⟨order, hperm, hsorted, ?_⟩
      rw [hkeys, hkeys', Option.some.inj hsame]
  · rintro (hnone | ⟨order, hperm, hsorted, hkeys⟩)
    · let sorted := wrappers.mergeSort fun a b => a.executionOrder ≤ b.executionOrder
      have hperm : sorted.Perm wrappers := List.mergeSort_perm _ _
      have hsorted : sorted.Pairwise fun a b => a.executionOrder ≤ b.executionOrder := by
        have h : sorted.Pairwise fun a b => decide (a.executionOrder ≤ b.executionOrder) = true :=
          List.pairwise_mergeSort (by simp; omega) (by simp; omega) wrappers
        exact h.imp fun hab => of_decide_eq_true hab
      refine ⟨sorted, hperm, hsorted, fun κ ρ beans handler => ?_⟩
      obtain ⟨aw, haw, hkey⟩ := hnone
      rw [chainFor, resolveWrappers_eq_none ⟨aw, haw, hkey⟩,
        resolveWrappers_eq_none ⟨aw, hperm.mem_iff.mpr haw, hkey⟩]
      rfl
    · refine ⟨order, hperm, hsorted, fun κ ρ beans handler => ?_⟩
      rw [chainFor, resolveWrappers_eq, resolveWrappers_eq, hkeys]
      congr 1
      funext ws
      exact buildChain_eq_nest ws handler

end ActionDispatcher

/-! ## The actions of a state -/

namespace StateActionService

variable {registry : AlgorithmRegistry} {c : ConfigCache ConfigContent}
  {cache : List ((String × StateActionTrigger) × ResolvedStateAction)}
  {stateId : String} {trigger : StateActionTrigger} {mode : StateActionMode}

/-- `resolveEffectiveActions`. -/
def resolveEffectiveActions (cache : List ((String × StateActionTrigger) × ResolvedStateAction))
    (stateId : String) (trigger : StateActionTrigger) : List ResolvedStateAction :=
  (cache.filter (·.1 = (stateId, trigger))).map (·.2)

/-- The actions of one mode, in the order in which the loops of `executeTransactionalActions` and
`collectPostCommitActions` take them. -/
def actionsOfMode (cache : List ((String × StateActionTrigger) × ResolvedStateAction)) (stateId : String)
    (trigger : StateActionTrigger) (mode : StateActionMode) : List ResolvedStateAction :=
  (resolveEffectiveActions cache stateId trigger).filter (·.mode = mode)

/-- What `executeTransactionalActions` executes, in this order. -/
def executeTransactionalActions (cache : List ((String × StateActionTrigger) × ResolvedStateAction))
    (stateId : String) (trigger : StateActionTrigger) : List ResolvedStateAction :=
  actionsOfMode cache stateId trigger .TRANSACTIONAL

/-- What `collectPostCommitActions` defers, in this order. -/
def collectPostCommitActions (cache : List ((String × StateActionTrigger) × ResolvedStateAction))
    (stateId : String) (trigger : StateActionTrigger) : List ResolvedStateAction :=
  actionsOfMode cache stateId trigger .POST_COMMIT

/-- The state actions of a state, a trigger and a mode that have a bean, as the snapshot lists them. -/
def listedActions (registry : AlgorithmRegistry) (c : ConfigCache ConfigContent) (stateId : String)
    (trigger : StateActionTrigger) (mode : StateActionMode) : List StateActionConfig :=
  c.content.stateActions.filter fun sa => (resolveStateAction registry c sa).join.any fun e =>
    e.1 = (stateId, trigger) ∧ e.2.mode = mode

/-- What is resolved of a state action keeps its instance and its order. -/
theorem resolveStateAction_eq_some {sa : StateActionConfig}
    {e : (String × StateActionTrigger) × ResolvedStateAction}
    (h : resolveStateAction registry c sa = some (some e)) :
    e.2.algorithmInstanceId = sa.algorithmInstanceId ∧ e.2.displayOrder = sa.displayOrder := by
  unfold resolveStateAction at h
  repeat' split at h
  · cases h
  · cases h
  · cases h
  · cases h
    exact ⟨rfl, rfl⟩
  · cases h

/-- **The actions of a state are taken** in the order in which the snapshot lists them, each once. -/
theorem actionsOfMode_eq (h : rebuildCache registry c = some cache) :
    (actionsOfMode cache stateId trigger mode).map (fun a => (a.algorithmInstanceId, a.displayOrder)) =
      (listedActions registry c stateId trigger mode).map fun sa => (sa.algorithmInstanceId, sa.displayOrder) := by
  obtain ⟨-, rfl⟩ := collect_eq_some_iff.mp h
  rw [actionsOfMode, resolveEffectiveActions, listedActions]
  induction c.content.stateActions with
  | nil => rfl
  | cons sa rest ih =>
    rw [List.filterMap_cons, List.filter_cons]
    cases hres : (resolveStateAction registry c sa).join with
    | none => simpa [hres] using ih
    | some e =>
      obtain ⟨hid, horder⟩ := resolveStateAction_eq_some (Option.join_eq_some_iff.mp hres)
      by_cases hkey : e.1 = (stateId, trigger)
      · by_cases hmode : e.2.mode = mode
        · simpa [hkey, hmode, hid, horder] using ih
        · simpa [hkey, hmode] using ih
      · simpa [hkey] using ih

/-- The actions of a state run in ascending order, each exactly once. -/
def RunAscending (registry : AlgorithmRegistry) (c : ConfigCache ConfigContent)
    (cache : List ((String × StateActionTrigger) × ResolvedStateAction)) (stateId : String)
    (trigger : StateActionTrigger) (mode : StateActionMode) : Prop :=
  ((actionsOfMode cache stateId trigger mode).map fun a => (a.algorithmInstanceId, a.displayOrder)).Perm
      ((listedActions registry c stateId trigger mode).map fun sa =>
        (sa.algorithmInstanceId, sa.displayOrder)) ∧
    (actionsOfMode cache stateId trigger mode).Pairwise fun a b => a.displayOrder ≤ b.displayOrder

/-- **State actions run in ascending order** exactly where the snapshot lists them so. -/
theorem runAscending_iff (h : rebuildCache registry c = some cache) :
    RunAscending registry c cache stateId trigger mode ↔
      (listedActions registry c stateId trigger mode).Pairwise fun a b => a.displayOrder ≤ b.displayOrder := by
  have heq : (actionsOfMode cache stateId trigger mode).map (fun a => (a.algorithmInstanceId, a.displayOrder)) =
      (listedActions registry c stateId trigger mode).map fun sa => (sa.algorithmInstanceId, sa.displayOrder) :=
    actionsOfMode_eq h
  have horders := congrArg (List.map Prod.snd) heq
  simp only [List.map_map, Function.comp_def] at horders
  have hpairs : (actionsOfMode cache stateId trigger mode).Pairwise (fun a b => a.displayOrder ≤ b.displayOrder) ↔
      (listedActions registry c stateId trigger mode).Pairwise fun a b => a.displayOrder ≤ b.displayOrder := by
    have hleft := List.pairwise_map (f := ResolvedStateAction.displayOrder) (R := (· ≤ ·))
      (l := actionsOfMode cache stateId trigger mode)
    rw [← hleft, horders, List.pairwise_map]
  rw [RunAscending, hpairs]
  exact and_iff_right (List.Perm.of_eq heq)

end StateActionService

/-! ## Both orders -/

/-- **Wrappers and state actions run in their configured order** exactly where the snapshot lists them in
it: the wrappers of the action but for those that are one bean with the same parameters, and the state
actions of each state, trigger and mode. -/
theorem configured_order_iff (registry : AlgorithmRegistry) (c : ConfigCache ConfigContent)
    (wrappers : List ActionWrapperConfig)
    (cache : List ((String × StateActionTrigger) × ResolvedStateAction))
    (hcache : StateActionService.rebuildCache registry c = some cache) :
    (ActionDispatcher.RunsAscending c wrappers ∧ ∀ stateId trigger mode,
      StateActionService.RunAscending registry c cache stateId trigger mode) ↔
      ActionDispatcher.ListedAscending c wrappers ∧ ∀ stateId trigger mode,
        (StateActionService.listedActions registry c stateId trigger mode).Pairwise
          fun a b => a.displayOrder ≤ b.displayOrder := by
  refine and_congr ActionDispatcher.runsAscending_iff ?_
  exact forall_congr' fun stateId => forall_congr' fun trigger => forall_congr' fun mode =>
    StateActionService.runAscending_iff hcache

/-- A lock inside a transaction. -/
def lockInTransaction : ConfigCache ConfigContent := ⟨some ⟨1,
  { lifecycles := []
    actions := []
    permissions := []
    algorithms := [
      ⟨"algo-tx", "transaction_wrapper", [⟨"inst-tx", "algo-tx", [("tx_mode", "AUTO_OPEN")]⟩]⟩,
      ⟨"algo-lock", "lock_wrapper", [⟨"inst-lock", "algo-lock", []⟩]⟩]
    stateActions := []
    entityMetadata := [] }⟩⟩

/-- The wrappers of the action in their order, and as the snapshot may list them. -/
def transactionThenLock : List ActionWrapperConfig := [⟨"inst-tx", 10⟩, ⟨"inst-lock", 20⟩]

theorem configured_order_of_transaction :
    (ActionDispatcher.RunsAscending lockInTransaction transactionThenLock ∧ ∀ stateId trigger mode,
      StateActionService.RunAscending [] lockInTransaction [] stateId trigger mode) :=
  (configured_order_iff [] lockInTransaction transactionThenLock [] rfl).mpr
    ⟨.inr ⟨transactionThenLock, List.Perm.refl _, by decide, rfl⟩, fun _ _ _ => List.Pairwise.nil⟩

/-- Listed the other way round, the lock is taken outside the transaction. -/
theorem wrappers_run_as_listed : ¬ ∀ (c : ConfigCache ConfigContent) (wrappers : List ActionWrapperConfig),
    ActionDispatcher.RunsAscending c wrappers := by
  intro hall
  obtain ⟨aw, haw, hnone⟩ | ⟨order, hperm, hsorted, hkeys⟩ :=
    ActionDispatcher.runsAscending_iff.mp (hall lockInTransaction transactionThenLock.reverse)
  · revert aw
    decide
  · have hlist : order = transactionThenLock := by
      refine (hperm.trans (List.reverse_perm _)).eq_of_pairwise ?_ hsorted (by decide)
      intro a b ha hb hab hba
      have hmem : a ∈ transactionThenLock := (hperm.trans (List.reverse_perm _)).mem_iff.mp ha
      have hall : ∀ a ∈ transactionThenLock, ∀ b ∈ transactionThenLock, a.executionOrder ≤ b.executionOrder →
          b.executionOrder ≤ a.executionOrder → a = b := by decide
      exact hall a hmem b hb hab hba
    rw [hlist] at hkeys
    exact absurd hkeys (by decide)

end PlmCore.Platform
