/-
An induction rule for transitions.

A transition is a tree of levels: each level creates the version of one node, runs its state
actions and locks the node, and its cascade runs levels below it in the same database
transaction; the actions of mode `POST_COMMIT` run afterwards, in a store that may have moved
on. `TransitionRule` says what has to be shown of one level and of one action for a relation
between the store before and the store after to hold of every transition, whatever the
cascade rules, the nesting and the failures caught on the way.
-/
import PlmCore.Psm.CascadeView
import PlmCore.Psm.CollapseEffect
import PlmCore.Psm.NodeEffect

set_option autoImplicit false

namespace PlmCore.Psm

open PlmCore.Lib

/-! ## Failed children -/

/-- A blocked cascade names what blocked it. -/
def PlmError.Names (e : PlmError) : Prop := e ≠ .cascadeBlocked []

theorem cascadeErrors_ne_nil {t : Tables} {childId : Uuid} {e : PlmError} (h : e.Names) :
    cascadeErrors t childId e ≠ [] := by
  unfold cascadeErrors
  split
  · intro hnil
    exact h (by rw [hnil])
  · exact List.cons_ne_nil _ _

/-- An exception of a transition names something. -/
theorem applyTransitionInternal_names (env : Env) (ctx : Caller) (x : Uuid) (depth : Nat)
    (nodeId : Uuid) (transitionId : String) (s : Db) :
    Outcome (applyTransitionInternal env ctx x depth nodeId transitionId) s (fun _ _ => True)
      fun e _ => True ∧ e.Names := by
  induction depth generalizing nodeId transitionId s with
  | zero => exact Outcome.throw ⟨trivial, nofun⟩
  | succ depth ih =>
    apply level_outcome
    · exact fun _ _ _ _ => trivial
    · exact fun e hown => hown.2 []
    · exact fun _ _ => trivial
    intro transition s₁ _ _
    apply executeCascade_outcome trivial
    · exact fun _ => nofun
    · intro errors hne heq
      exact hne (PlmError.cascadeBlocked.inj heq)
    · intro rule _ s₂ _ _ _
      exact guardedTransition_outcome trivial (fun _ => nofun) (ih _ _ s₂)

/-- A child's transition that returned, or a rule that was passed over, when there are no errors. -/
theorem cascadeChild_ok {env : Env} {ctx : Caller} {x : Uuid} {depth : Nat} {rule : CascadeRule}
    {s s' : Db} {r : List String × List StateActionContext}
    (hr : Returns (cascadeChild (guardedTransition env ctx (applyTransitionInternal env ctx x depth)) x
      rule) s r s') (hnone : r.1 = []) :
    (s' = s ∧ r.2 = [] ∧ (s.isAlreadyThere rule x = true ∨ s.inCascadeScope rule = false))
      ∨ s.isAlreadyThere rule x = false ∧ ∃ result,
        Returns (applyTransitionInternal env ctx x depth rule.childId rule.childTransitionId) s result s'
          ∧ r.2 = result.postActions := by
  simp only [cascadeChild, returns_bind, returns_query, returns_require, and_assoc,
    exists_and_left, exists_eq_left, exists_const, returns_ite, returns_pure, Bool.or_eq_true,
    Bool.not_eq_true'] at hr
  obtain ⟨-, ⟨hskip, rfl, rfl⟩ | ⟨hskip, outcome, s₁, hattempt, hr⟩⟩ := hr
  · exact Or.inl ⟨rfl, rfl, hskip⟩
  have hthere : s.isAlreadyThere rule x = false := by
    rw [not_or, Bool.not_eq_true] at hskip
    exact hskip.1
  have hchild := returns_attempt.mp hattempt
  have hnames : Outcome (guardedTransition env ctx (applyTransitionInternal env ctx x depth)
      rule.childId rule.childTransitionId) s (fun _ _ => True) fun e _ => True ∧ e.Names :=
    guardedTransition_outcome trivial (fun _ h => PlmError.noConfusion h)
      (applyTransitionInternal_names env ctx x depth rule.childId rule.childTransitionId s)
  cases outcome with
  | error e =>
    -- a failed child leaves an error
    simp only [returns_ite, returns_throw, and_false, returns_query, false_or] at hr
    obtain ⟨-, rfl, -⟩ := hr
    exact absurd hnone (cascadeErrors_ne_nil (hnames.2 e s₁ hchild).2)
  | ok result =>
    obtain ⟨rfl, rfl⟩ := returns_pure.mp hr
    refine Or.inr ⟨hthere, result, ?_, rfl⟩
    simp only [guardedTransition] at hchild
    obtain ⟨blocked, s₂, hquery, hrun⟩ := returns_bind.mp hchild
    obtain ⟨rfl, rfl⟩ := returns_query.mp hquery
    cases hguard : env.transitionGuard ctx.userId s₂.toTables rule.childId rule.childTransitionId with
    | none =>
      rw [hguard] at hrun
      exact hrun
    | some message =>
      rw [hguard] at hrun
      exact absurd hrun returns_throw

/-- **The steps of a transition that returns**, on a node with its cascade. -/
theorem applyTransitionInternal_ok {env : Env} {ctx : Caller} {x nodeId : Uuid} {depth : Nat}
    {transitionId : String} {s s' : Db} {r : TransitionResult}
    (h : Returns (applyTransitionInternal env ctx x (depth + 1) nodeId transitionId) s r s') :
    ∃ transition description vid s₁ s₂ s₃ s₄ actions s₅ a,
      Loaded env s.toTables nodeId transitionId transition
      ∧ Returns (createVersion env ctx nodeId x .LIFECYCLE (some transition.strategy)
          (some transition.toStateId) [] (some description)) s vid s₁
      ∧ a = actionContext s₁.toTables nodeId vid transition.toStateId
      ∧ Returns (executeTransactionalActions env transition.fromStateId .ON_EXIT a) s₁ () s₂
      ∧ Returns (executeTransactionalActions env transition.toStateId .ON_ENTER a) s₂ () s₃
      ∧ Returns (tryLock ctx nodeId) s₃ () s₄
      ∧ Returns (cascadeChildren (guardedTransition env ctx (applyTransitionInternal env ctx x depth)) x
          (resolveCascadeRules env s₄.toTables nodeId transitionId)) s₄ ([], actions) s₅
      ∧ s'.toTables = s₅.withEvents
          [.stateChanged nodeId transition.fromStateId transition.toStateId ctx.userId]
      ∧ r = ⟨vid, actions ++ collectPostCommitActions env transition.fromStateId .ON_EXIT a
          ++ collectPostCommitActions env transition.toStateId .ON_ENTER a⟩ := by
  simp only [applyTransitionInternal, executeCascade, returns_bind, returns_query, returns_require,
    returns_pure, returns_enqueue, and_assoc, exists_and_left, exists_eq_left, exists_const] at h
  obtain ⟨transition, s₀, hload, vid, s₁, hcreate, _, s₂, hexit, _, s₃, henter, _, s₄, hlock,
    actions, s₅, ⟨⟨errors, actions'⟩, _, hcascade, hnone, rfl, rfl⟩, s₆, hevent, rfl, rfl⟩ := h
  obtain ⟨rfl, hloaded⟩ := (loadTransition_outcome env nodeId transitionId s).1 _ _ hload
  change errors = [] at hnone
  rw [hnone] at hcascade
  exact ⟨transition, _, vid, s₁, s₂, s₃, s₄, _, s₅, _, hloaded, hcreate, rfl, hexit, henter, hlock,
    hcascade, hevent, rfl⟩

/-! ## The rule -/

/-- One level of a transition, from the store `s` to the store `s'`: the version `a.versionId` of
the node `a.nodeId` enters the state `a.toStateId`, and the node is locked. -/
def TransitionLevel (env : Env) (ctx : Caller) (x : Uuid) (s s' : Db) (a : StateActionContext) :
    Prop :=
  ∃ (transition : LifecycleTransitionConfig) (description : String) (s₁ s₂ s₃ : Db),
    Returns (createVersion env ctx a.nodeId x .LIFECYCLE (some transition.strategy)
      (some transition.toStateId) [] (some description)) s a.versionId s₁
    ∧ a = actionContext s₁.toTables a.nodeId a.versionId transition.toStateId
    ∧ Returns (executeTransactionalActions env transition.fromStateId .ON_EXIT a) s₁ () s₂
    ∧ Returns (executeTransactionalActions env transition.toStateId .ON_ENTER a) s₂ () s₃
    ∧ Returns (tryLock ctx a.nodeId) s₃ () s'

/-- What to show of one level, of one later action and of events, for `R` to hold of every
transition. `Q` is what a later action may rely on. -/
structure TransitionRule (env : Env) (ctx : Caller) (x : Uuid) (R : Db → Db → Prop)
    (Q : Db → StateActionContext → Prop) : Prop where
  refl : ∀ s, R s s
  trans : ∀ {s₁ s₂ s₃}, R s₁ s₂ → R s₂ s₃ → R s₁ s₃
  events : ∀ {s s' es}, s'.toTables = s.withEvents es → R s s'
  level : ∀ {s s' a}, TransitionLevel env ctx x s s' a → R s s'
  registers : ∀ {s s' a} p, TransitionLevel env ctx x s s' a → Q s' { a with parameters := p }
  keeps : ∀ {s s' a}, R s s' → Q s a → Q s' a
  action : ∀ {s s' a}, Q s a → Returns (collapseHistory env a) s () s' → R s s'

namespace TransitionRule

variable {env : Env} {ctx : Caller} {x : Uuid} {R : Db → Db → Prop}
  {Q : Db → StateActionContext → Prop}

/-- What a transition of a child is known to do. -/
def Holds (R : Db → Db → Prop) (Q : Db → StateActionContext → Prop)
    (transition : Uuid → String → Plm TransitionResult) : Prop :=
  ∀ nodeId transitionId s r s', Returns (transition nodeId transitionId) s r s' →
    R s s' ∧ ∀ a ∈ r.postActions, Q s' a

/-- The loop over the cascade rules, when no child fails. -/
theorem cascadeChildren (h : TransitionRule env ctx x R Q) {depth : Nat}
    (hchild : Holds R Q (applyTransitionInternal env ctx x depth)) {rules : List CascadeRule}
    {s s' : Db} {r : List String × List StateActionContext}
    (hr : Returns (Psm.cascadeChildren (guardedTransition env ctx
      (applyTransitionInternal env ctx x depth)) x rules) s r s') (hnone : r.1 = []) :
    R s s' ∧ ∀ a ∈ r.2, Q s' a := by
  induction rules generalizing s r with
  | nil =>
    obtain ⟨rfl, rfl⟩ := returns_pure.mp hr
    exact ⟨h.refl _, by simp⟩
  | cons rule rules ih =>
    simp only [Psm.cascadeChildren, returns_bind, returns_pure] at hr
    obtain ⟨r₁, s₁, h₁, r₂, s₂, h₂, rfl, rfl⟩ := hr
    obtain ⟨hnone₁, hnone₂⟩ := List.append_eq_nil_iff.mp hnone
    obtain ⟨hR₂, hQ₂⟩ := ih h₂ hnone₂
    rcases cascadeChild_ok h₁ hnone₁ with ⟨rfl, hnil, -⟩ | ⟨-, result, hrun, hactions⟩
    · refine ⟨hR₂, fun a ha => ?_⟩
      rw [hnil, List.nil_append] at ha
      exact hQ₂ a ha
    · obtain ⟨hR₁, hQ₁⟩ := hchild _ _ _ _ _ hrun
      refine ⟨h.trans hR₁ hR₂, fun a ha => ?_⟩
      rcases List.mem_append.mp ha with ha | ha
      · exact h.keeps hR₂ (hQ₁ a (hactions ▸ ha))
      · exact hQ₂ a ha

/-- **A transition without its later actions**, by induction on the depth of the cascade. -/
theorem internal (h : TransitionRule env ctx x R Q) (depth : Nat) :
    Holds R Q (applyTransitionInternal env ctx x depth) := by
  induction depth with
  | zero =>
    intro nodeId transitionId s r s' hr
    exact absurd hr returns_throw
  | succ depth ih =>
    intro nodeId transitionId s r s' hr
    obtain ⟨transition, description, vid, s₁, s₂, s₃, s₄, actions, s₅, a, -, hcreate, ha, hexit,
      henter, hlock, hcascade, hevent, rfl⟩ := applyTransitionInternal_ok hr
    obtain ⟨rfl, rfl⟩ : a.nodeId = nodeId ∧ a.versionId = vid := by
      rw [ha]
      exact ⟨rfl, rfl⟩
    have hlevel : TransitionLevel env ctx x s s₄ a := by
      refine ⟨transition, description, s₁, s₂, s₃, ?_, ?_, hexit, henter, hlock⟩
      · exact hcreate
      · exact ha
    obtain ⟨hR, hQ⟩ := h.cascadeChildren ih hcascade rfl
    have hafter : R s₄ s' := h.trans hR (h.events hevent)
    refine ⟨h.trans (h.level hlevel) hafter, fun a ha => ?_⟩
    simp only [collectPostCommitActions, List.mem_append, List.mem_map] at ha
    obtain (ha | ⟨c, -, rfl⟩) | ⟨c, -, rfl⟩ := ha
    · exact h.keeps (h.events hevent) (hQ a ha)
    · exact h.keeps hafter (h.registers c.parameters hlevel)
    · exact h.keeps hafter (h.registers c.parameters hlevel)

/-- The actions after the database transaction, of which some fail. -/
theorem postActions (h : TransitionRule env ctx x R Q) {actions : List StateActionContext} {s : Db}
    (hQ : ∀ a ∈ actions, Q s a) : R s (runPostActions env s actions) := by
  induction actions generalizing s with
  | nil => exact h.refl s
  | cons a actions ih =>
    simp only [runPostActions, List.foldl_cons]
    split
    · rename_i u s₁ hrun
      have hR : R s s₁ := h.action (hQ a (by simp)) hrun
      exact h.trans hR (ih fun b hb => h.keeps hR (hQ b (by simp [hb])))
    · exact ih fun b hb => hQ b (by simp [hb])

/-- **What holds of one level holds of every transition.** -/
theorem applyTransition (h : TransitionRule env ctx x R Q) {depth : Nat} {nodeId vid : Uuid}
    {transitionId : String} {s s' : Db}
    (hr : Returns (Psm.applyTransition env ctx depth nodeId transitionId x) s vid s') : R s s' := by
  unfold Returns Psm.applyTransition at hr
  split at hr
  · rename_i result s₁ hrun
    obtain ⟨hR, hQ⟩ := h.internal depth _ _ _ _ _ hrun
    cases hr
    exact h.trans hR (h.postActions hQ)
  · cases hr

end TransitionRule

/-- Running the transactional actions of a state is running collapses. -/
theorem executeTransactionalActions_rule {env : Env} {stateId : String} {trigger : StateActionTrigger}
    {a : StateActionContext} {R : Db → Db → Prop} (hrefl : ∀ s, R s s)
    (htrans : ∀ {s₁ s₂ s₃}, R s₁ s₂ → R s₂ s₃ → R s₁ s₃)
    (haction : ∀ {s s' : Db} p, Returns (collapseHistory env { a with parameters := p }) s () s' → R s s')
    {s s' : Db} (hr : Returns (executeTransactionalActions env stateId trigger a) s () s') : R s s' :=
  Moves.forM hrefl htrans (fun c _ _ _ _ h => haction c.parameters h) s () s' hr

end PlmCore.Psm
