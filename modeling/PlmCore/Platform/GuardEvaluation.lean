/-
What the guard services report of the guards kept for a transition or an action
(`LifecycleGuardService`, `ActionGuardService`, `TransitionLifecycleGuard`).

Both services run through the guards in order and stop at the first guard with effect HIDE that
finds something. What they report is then independent of the order; what blocks is listed only as far
as they came, and the guard that asks the lifecycle guards on behalf of an action reads the list alone.
-/
import PlmCore.Platform.DerivedCaches

set_option autoImplicit false

namespace PlmCore.Platform

/-! ## Guards and their answers -/

section

variable (δ : Type)

/-- `GuardViolation`. -/
structure GuardViolation where
  code : String
  message : String
  effect : GuardEffect
  fieldRef : Option String
  details : List (String × δ)
  deriving DecidableEq

/-- `GuardEvaluation`. -/
structure GuardEvaluation where
  hidden : Bool
  violations : List (GuardViolation δ)
  deriving DecidableEq

end

/-- `LifecycleGuardContext`. -/
structure LifecycleGuardContext where
  nodeId : Option String
  nodeTypeId : Option String
  currentStateId : Option String
  transitionId : String
  isLocked : Bool
  isLockedByCurrentUser : Bool
  currentUserId : Option String
  parameters : List (String × String)
  deriving DecidableEq

/-- `ActionGuardContext`. -/
structure ActionGuardContext where
  nodeId : Option String
  nodeTypeId : Option String
  currentStateId : Option String
  actionCode : String
  transitionId : Option String
  isLocked : Bool
  isLockedByCurrentUser : Bool
  currentUserId : Option String
  parameters : List (String × String)
  ids : List (String × String)
  deriving DecidableEq

variable {δ : Type}

/-- `passed`. -/
def GuardEvaluation.passed (e : GuardEvaluation δ) : Bool := !e.hidden && e.violations.isEmpty

/-- The loop over the guards with what has been found so far. `answer` is what the bean of a guard
returns. An admin is stopped by no guard that blocks; a guard that hides ends the loop. -/
def evaluateLoop (isAdmin : Bool) (answer : ResolvedGuard → List (GuardViolation δ)) :
    List ResolvedGuard → List (GuardViolation δ) → GuardEvaluation δ
  | [], blockViolations => ⟨false, blockViolations⟩
  | rg :: effective, blockViolations =>
    if isAdmin ∧ rg.effect ≠ .HIDE then evaluateLoop isAdmin answer effective blockViolations
    else if answer rg = [] then evaluateLoop isAdmin answer effective blockViolations
    else if rg.effect = .HIDE then ⟨true, blockViolations⟩
    else evaluateLoop isAdmin answer effective
      (blockViolations ++ (answer rg).map fun v => { v with effect := rg.effect })

/-- The messages of the guards that are not passed over; no message, no exception. -/
def blockMessages (isAdmin : Bool) (answer : ResolvedGuard → List (GuardViolation δ))
    (effective : List ResolvedGuard) : List String :=
  if isAdmin then []
  else effective.flatMap fun rg => if rg.effect = .HIDE then [] else (answer rg).map (·.message)

/-- `resolveEffectiveGuards`: what a cache keeps under a key. -/
def resolveEffectiveGuards (cache : List (String × ResolvedGuard)) (key : String) :
    List ResolvedGuard :=
  (cache.filter fun e => e.1 = key).map (·.2)

/-! ## The services -/

/-- `LifecycleGuardService.evaluate`; `beans` is what the beans of guards answer. -/
def LifecycleGuardService.evaluate (cache : List (String × ResolvedGuard))
    (beans : String → LifecycleGuardContext → List (GuardViolation δ)) (transitionId : String)
    (isAdmin : Bool) (ctx : LifecycleGuardContext) : GuardEvaluation δ :=
  evaluateLoop isAdmin (fun rg => beans rg.bean { ctx with parameters := rg.parameters })
    (resolveEffectiveGuards cache transitionId) []

/-- `LifecycleGuardService.assertGuards`: the messages it throws. -/
def LifecycleGuardService.assertGuards (cache : List (String × ResolvedGuard))
    (beans : String → LifecycleGuardContext → List (GuardViolation δ)) (transitionId : String)
    (isAdmin : Bool) (ctx : LifecycleGuardContext) : List String :=
  blockMessages isAdmin (fun rg => beans rg.bean { ctx with parameters := rg.parameters })
    (resolveEffectiveGuards cache transitionId)

/-- `ActionGuardService.evaluateById`. The guards get the context of the call as it is. -/
def ActionGuardService.evaluateById (cache : List (String × ResolvedGuard))
    (beans : String → ActionGuardContext → List (GuardViolation δ)) (actionId : Option String)
    (isAdmin : Bool) (ctx : ActionGuardContext) : GuardEvaluation δ :=
  evaluateLoop isAdmin (fun rg => beans rg.bean ctx)
    (actionId.elim [] (resolveEffectiveGuards cache)) []

/-- `ActionGuardService.assertGuardsById`: the messages it throws. -/
def ActionGuardService.assertGuardsById (cache : List (String × ResolvedGuard))
    (beans : String → ActionGuardContext → List (GuardViolation δ)) (actionId : Option String)
    (isAdmin : Bool) (ctx : ActionGuardContext) : List String :=
  blockMessages isAdmin (fun rg => beans rg.bean ctx) (actionId.elim [] (resolveEffectiveGuards cache))

/-- `ActionGuardService.evaluate`: an action without id is looked up by its code. -/
def ActionGuardService.evaluate (cache : List (String × ResolvedGuard))
    (actionIdByCode : String → Option String)
    (beans : String → ActionGuardContext → List (GuardViolation δ)) (actionCode : String)
    (actionId : Option String) (isAdmin : Bool) (ctx : ActionGuardContext) : GuardEvaluation δ :=
  ActionGuardService.evaluateById cache beans (actionId.or (actionIdByCode actionCode)) isAdmin ctx

/-- `TransitionLifecycleGuard.evaluate`: the action guard that asks the guards of the transition. -/
def TransitionLifecycleGuard.evaluate (cache : List (String × ResolvedGuard))
    (beans : String → LifecycleGuardContext → List (GuardViolation δ)) (ctx : ActionGuardContext) :
    List (GuardViolation δ) :=
  match ctx.transitionId with
  | none => []
  | some transitionId =>
    (LifecycleGuardService.evaluate cache beans transitionId false
      ⟨ctx.nodeId, ctx.nodeTypeId, ctx.currentStateId, transitionId, ctx.isLocked,
        ctx.isLockedByCurrentUser, ctx.currentUserId, []⟩).violations

/-! ## What the loop comes to -/

/-- A guard that hides has found something. -/
def ResolvedGuard.hides (answer : ResolvedGuard → List (GuardViolation δ)) (rg : ResolvedGuard) : Bool :=
  rg.effect = .HIDE && !(answer rg).isEmpty

/-- A guard that blocks is passed over for an admin. -/
def ResolvedGuard.Counts (isAdmin : Bool) (rg : ResolvedGuard) : Prop :=
  isAdmin = true → rg.effect = .HIDE

instance (isAdmin : Bool) (rg : ResolvedGuard) : Decidable (rg.Counts isAdmin) :=
  inferInstanceAs (Decidable (isAdmin = true → rg.effect = .HIDE))

variable {isAdmin : Bool} {answer : ResolvedGuard → List (GuardViolation δ)}
  {effective : List ResolvedGuard} {blockViolations : List (GuardViolation δ)}

/-- **The loop hides** for a guard that hides, wherever it stands, and lists what blocks up to the
first. -/
theorem evaluateLoop_eq : evaluateLoop isAdmin answer effective blockViolations =
    ⟨effective.any (·.hides answer), blockViolations ++
      (effective.takeWhile fun rg => !rg.hides answer).flatMap fun rg =>
        if isAdmin = true ∨ rg.effect = .HIDE then []
        else (answer rg).map fun v => { v with effect := rg.effect }⟩ := by
  induction effective generalizing blockViolations with
  | nil => simp [evaluateLoop]
  | cons rg effective ih =>
    rw [evaluateLoop, List.any_cons, List.takeWhile_cons]
    by_cases hhide : rg.effect = .HIDE
    · by_cases hnil : answer rg = []
      · simp [ResolvedGuard.hides, hhide, hnil, ih]
      · simp [ResolvedGuard.hides, hhide, hnil]
    · have hnot : rg.hides answer = false := by simp [ResolvedGuard.hides, hhide]
      rw [hnot]
      by_cases hadmin : isAdmin = true
      · rw [if_pos ⟨hadmin, hhide⟩, ih]
        simp [hadmin]
      · rw [if_neg fun h => hadmin h.1]
        by_cases hnil : answer rg = []
        · rw [if_pos hnil, ih]
          simp [hnil]
        · rw [if_neg hnil, if_neg hhide, ih]
          simp [hadmin, hhide]

theorem evaluateLoop_hidden_iff : (evaluateLoop isAdmin answer effective []).hidden = true ↔
    ∃ rg ∈ effective, rg.effect = .HIDE ∧ answer rg ≠ [] := by
  rw [evaluateLoop_eq, List.any_eq_true]
  simp [ResolvedGuard.hides]

theorem evaluateLoop_passed_iff : (evaluateLoop isAdmin answer effective []).passed = true ↔
    ∀ rg ∈ effective, rg.Counts isAdmin → answer rg = [] := by
  rw [GuardEvaluation.passed, Bool.and_eq_true, Bool.not_eq_true', ← Bool.not_eq_true,
    evaluateLoop_hidden_iff]
  by_cases hhides : ∃ rg ∈ effective, rg.effect = .HIDE ∧ answer rg ≠ []
  · -- the guard that hides counts for every caller
    obtain ⟨rg, hrg, hhide, hfound⟩ := hhides
    exact iff_of_false (fun h => h.1 ⟨rg, hrg, hhide, hfound⟩)
      fun h => hfound (h rg hrg fun _ => hhide)
  · rw [and_iff_right hhides]
    push Not at hhides
    have hall : effective.takeWhile (fun rg => !rg.hides answer) = effective := by
      rw [List.takeWhile_eq_self_iff]
      intro rg hrg
      by_cases hhide : rg.effect = .HIDE
      · simp [ResolvedGuard.hides, hhides rg hrg hhide]
      · simp [ResolvedGuard.hides, hhide]
    rw [evaluateLoop_eq, hall, List.nil_append, List.isEmpty_iff, List.flatMap_eq_nil_iff]
    refine forall₂_congr fun rg hrg => ?_
    unfold ResolvedGuard.Counts
    by_cases hhide : rg.effect = .HIDE
    · simp [hhide, hhides rg hrg hhide]
    · cases isAdmin with
      | true => simp [hhide]
      | false => simp [hhide]

/-- An assertion throws for a caller who is no admin when a guard that blocks has found something. -/
theorem blockMessages_eq_nil_iff : blockMessages isAdmin answer effective = [] ↔
    isAdmin = true ∨ ∀ rg ∈ effective, rg.effect = .BLOCK → answer rg = [] := by
  unfold blockMessages
  cases isAdmin with
  | true => simp
  | false =>
    rw [if_neg (by simp), List.flatMap_eq_nil_iff]
    simp only [Bool.false_eq_true, false_or]
    refine forall₂_congr fun rg _ => ?_
    cases rg.effect with
    | HIDE => simp
    | BLOCK => simp

/-- What blocks is listed for no guard behind the first that hides. -/
theorem evaluateLoop_violations_eq_nil_iff :
    (evaluateLoop false answer effective []).violations = [] ↔
      ∀ rg ∈ effective.takeWhile fun rg => !rg.hides answer, rg.effect = .BLOCK → answer rg = [] := by
  rw [evaluateLoop_eq, List.nil_append, List.flatMap_eq_nil_iff]
  refine forall₂_congr fun rg _ => ?_
  cases rg.effect with
  | HIDE => simp
  | BLOCK => simp

/-- **The guard of the transition action is silent** on a guard that blocks behind one that hides. -/
theorem transitionLifecycleGuard_eq_nil_iff {cache : List (String × ResolvedGuard)}
    {beans : String → LifecycleGuardContext → List (GuardViolation δ)} {ctx : ActionGuardContext}
    {transitionId : String} (h : ctx.transitionId = some transitionId) :
    TransitionLifecycleGuard.evaluate cache beans ctx = [] ↔
      ∀ rg ∈ (resolveEffectiveGuards cache transitionId).takeWhile fun rg => !rg.hides fun rg =>
          beans rg.bean ⟨ctx.nodeId, ctx.nodeTypeId, ctx.currentStateId, transitionId, ctx.isLocked,
            ctx.isLockedByCurrentUser, ctx.currentUserId, rg.parameters⟩,
        rg.effect = .BLOCK → beans rg.bean ⟨ctx.nodeId, ctx.nodeTypeId, ctx.currentStateId, transitionId,
          ctx.isLocked, ctx.isLockedByCurrentUser, ctx.currentUserId, rg.parameters⟩ = [] := by
  unfold TransitionLifecycleGuard.evaluate
  rw [h]
  exact evaluateLoop_violations_eq_nil_iff

/-! ## Parameters -/

/-- A guard is kept with the parameters of its instance. -/
theorem parameters_of_rebuildCache {registry : AlgorithmRegistry} {c : ConfigCache ConfigContent}
    {cache : List (String × ResolvedGuard)}
    (h : LifecycleGuardService.rebuildCache registry c = some cache) {transitionId : String}
    {rg : ResolvedGuard} (hrg : rg ∈ resolveEffectiveGuards cache transitionId) :
    rg.parameters = paramsOfInstance c rg.algorithmInstanceId := by
  obtain ⟨e, he, rfl⟩ := List.mem_map.mp hrg
  obtain ⟨-, rfl⟩ := collect_eq_some_iff.mp h
  obtain ⟨tg, -, hresolve⟩ := List.mem_filterMap.mp (List.mem_of_mem_filter he)
  rw [Option.join_eq_some_iff] at hresolve
  unfold LifecycleGuardService.resolveGuard resolveGuardFromConfig at hresolve
  cases hcode : codeOfInstance c.content tg.algorithmInstanceId with
  | none => simp [hcode] at hresolve
  | some code =>
    cases heffect : GuardEffect.valueOf tg.effect with
    | none => simp [hcode, heffect] at hresolve
    | some effect =>
      by_cases hbean : registry.hasBean code = true ∧ registry.resolves code .LifecycleGuard = true
      · simp only [hcode, heffect, if_pos hbean, Option.map_some, Option.some.injEq] at hresolve
        rw [← hresolve]
      · simp [hcode, heffect, if_neg hbean] at hresolve

/-! ## What is reported -/

/-- **Guards count wherever they stand.** A transition or an action is reported to pass if and only if
no guard that counts for the caller finds anything, and to be hidden if and only if a guard that hides
does; a lifecycle guard is asked with the parameters of its instance. -/
theorem guards_count {registry : AlgorithmRegistry} {c : ConfigCache ConfigContent}
    {cache : List (String × ResolvedGuard)}
    (h : LifecycleGuardService.rebuildCache registry c = some cache)
    (lifecycleBeans : String → LifecycleGuardContext → List (GuardViolation δ))
    (actionCache : List (String × ResolvedGuard)) (actionIdByCode : String → Option String)
    (actionBeans : String → ActionGuardContext → List (GuardViolation δ)) (isAdmin : Bool)
    (transitionId : String) (lCtx : LifecycleGuardContext) (actionCode : String)
    (actionId : Option String) (ctx : ActionGuardContext) :
    (((LifecycleGuardService.evaluate cache lifecycleBeans transitionId isAdmin lCtx).passed = true ↔
          ∀ rg ∈ resolveEffectiveGuards cache transitionId, rg.Counts isAdmin →
            lifecycleBeans rg.bean
              { lCtx with parameters := paramsOfInstance c rg.algorithmInstanceId } = []) ∧
        ((LifecycleGuardService.evaluate cache lifecycleBeans transitionId isAdmin lCtx).hidden = true ↔
          ∃ rg ∈ resolveEffectiveGuards cache transitionId, rg.effect = .HIDE ∧
            lifecycleBeans rg.bean
              { lCtx with parameters := paramsOfInstance c rg.algorithmInstanceId } ≠ [])) ∧
      ((ActionGuardService.evaluate actionCache actionIdByCode actionBeans actionCode actionId isAdmin
            ctx).passed = true ↔
          ∀ rg ∈ (actionId.or (actionIdByCode actionCode)).elim [] (resolveEffectiveGuards actionCache),
            rg.Counts isAdmin → actionBeans rg.bean ctx = []) ∧
        ((ActionGuardService.evaluate actionCache actionIdByCode actionBeans actionCode actionId isAdmin
            ctx).hidden = true ↔
          ∃ rg ∈ (actionId.or (actionIdByCode actionCode)).elim [] (resolveEffectiveGuards actionCache),
            rg.effect = .HIDE ∧ actionBeans rg.bean ctx ≠ []) := by
  -- the parameters of a lifecycle guard are read when the cache is built
  have hparameters : ∀ rg ∈ resolveEffectiveGuards cache transitionId,
      rg.parameters = paramsOfInstance c rg.algorithmInstanceId :=
    fun rg hrg => parameters_of_rebuildCache h hrg
  refine ⟨⟨?_, ?_⟩, evaluateLoop_passed_iff, evaluateLoop_hidden_iff⟩
  · rw [LifecycleGuardService.evaluate, evaluateLoop_passed_iff]
    refine forall₂_congr fun rg hrg => ?_
    rw [hparameters rg hrg]
  · rw [LifecycleGuardService.evaluate, evaluateLoop_hidden_iff]
    refine exists_congr fun rg => and_congr_right fun hrg => ?_
    rw [hparameters rg hrg]

section Example

/-- The transition "release" is blocked until nobody has rejected. -/
private def signedRelease : ConfigContent where
  lifecycles := [⟨"lc-part", [], [⟨"release", "Release", "lc-part", "draft", "released", none, none,
    [⟨"release", "inst-sign", "BLOCK"⟩]⟩]⟩]
  actions := []
  permissions := []
  algorithms := [⟨"alg-sign", "signature_rejection",
    [⟨"inst-sign", "alg-sign", [("mode", "NO_REJECTED")]⟩]⟩]
  stateActions := []
  entityMetadata := []

/-- A guard that finds something unless the mode is the one of the instance. -/
private def rejections (_ : String) (ctx : LifecycleGuardContext) : List (GuardViolation Unit) :=
  if ctx.parameters = [("mode", "NO_REJECTED")] then []
  else [⟨"signature_rejection", "rejected", .BLOCK, none, []⟩]

/-- A guard that finds something where it is asked for the key "released". -/
private def releasedState (_ : String) (ctx : ActionGuardContext) : List (GuardViolation Unit) :=
  if ctx.parameters = [("meta_key", "released")] then [⟨"not_frozen", "released", .BLOCK, none, []⟩]
  else []

private def lockedPart : ActionGuardContext :=
  ⟨some "n1", some "part", some "released", "checkout", none, false, false, some "u1", [], []⟩

theorem guards_count_for_release :
    (LifecycleGuardService.evaluate [("release", ⟨"inst-sign", "signature_rejection", .BLOCK,
      [("mode", "NO_REJECTED")]⟩)] rejections "release" false
      ⟨some "n1", some "part", none, "release", false, false, none, []⟩).passed = true :=
  (@guards_count Unit [("signature_rejection", [.LifecycleGuard])] ⟨some ⟨1, signedRelease⟩⟩ _
    (by decide) rejections [] (fun _ => none) releasedState false "release"
    ⟨some "n1", some "part", none, "release", false, false, none, []⟩ "checkout" none
    lockedPart).1.1.mpr (by decide)

/-- An admin is reported to pass a guard that blocks and has found something, by either service; and
nobody is stopped by what an action guard would find with the parameters of its instance. -/
theorem guards_that_do_not_count :
    ((LifecycleGuardService.evaluate [("release", ⟨"inst-sign", "signature_rejection", .BLOCK, []⟩)]
          rejections "release" true
          ⟨some "n1", some "part", none, "release", false, false, none, []⟩).passed = true ∧
        rejections "signature_rejection"
          ⟨some "n1", some "part", none, "release", false, false, none, []⟩ ≠ []) ∧
      (ActionGuardService.evaluateById [("a1", ⟨"inst-1", "not_frozen", .BLOCK,
          [("meta_key", "released")]⟩)] releasedState (some "a1") false lockedPart).passed = true ∧
        releasedState "not_frozen" { lockedPart with parameters := [("meta_key", "released")] } ≠ [] := by
  decide

end Example

end PlmCore.Platform
