/-
An invariant rule for transitions that knows which nodes are called.

The calls of a cascade lead from one to the next on the graph of the store before the first one.
`CallInvariant` says what has to be shown of the parts of a level (the version of its node, a
collapse, the lock, an event) for a property of the store to hold after the transition; the
version is only ever of a node that the root leads to.
-/
import PlmCore.Psm.CascadeGraph
import PlmCore.Psm.LifecycleEffect

set_option autoImplicit false

namespace PlmCore.Psm

open PlmCore.Lib Relation

/-! ## Later stores -/

/-- What a cut leaves is later. -/
theorem Later.cut {t₀ t' : Tables} {s : Db} (h : Later t₀ s.toTables) (hcut : Cut s.toTables t') :
    Later t₀ t' := by
  obtain ⟨q, hkeys, -⟩ := hcut.keys
  have hsub : t'.stateKeys ⊆ s.stateKeys := by
    rw [hkeys]
    exact List.filter_sublist.subset
  refine ⟨hcut.txs.trans h.txs, hcut.idents.trans h.idents, fun k hk => ?_, fun n l hl hlink => ?_⟩
  · obtain ⟨hk, hcommitted⟩ := List.mem_filter.mp hk
    rw [Tables.isCommitted_congr hcut.txs] at hcommitted
    exact h.committed (List.mem_filter.mpr ⟨hsub hk, hcommitted⟩)
  · obtain ⟨k, hk, hlink⟩ := isLinkOf_iff.mp hlink
    exact h.links n l (hcut.links hl) (isLinkOf_iff.mpr ⟨k, hsub hk, hlink⟩)

/-- A new version makes the store later. -/
theorem Later.entered {t₀ t' : Tables} {s : Db} {nodeId x : Uuid} {state : String}
    (h : Later t₀ s.toTables) (hentered : Entered nodeId x (some state) s.toTables t') : Later t₀ t' :=
  h.worked ⟨t', hentered, .refl t'⟩

/-! ## The rule -/

/-- What to show of the parts of a level. -/
structure CallInvariant (env : Env) (ctx : Caller) (x : Uuid) (t₀ : Tables) (root : Applied)
    (P : Db → Prop) : Prop where
  later : ∀ {s}, P s → Later t₀ s.toTables
  create : ∀ {s s' p vid state strategy description}, P s → ReflTransGen (Leads env t₀) root p →
    Applicable env t₀ p → Returns (createVersion env ctx p.1 x .LIFECYCLE strategy (some state) [] description) s vid s' → P s'
  collapse : ∀ {s s' a}, P s → Returns (collapseHistory env a) s () s' → P s'
  lock : ∀ {s s' nodeId}, P s → Returns (tryLock ctx nodeId) s () s' → P s'
  events : ∀ {s s' es}, P s → s'.toTables = s.withEvents es → P s'

namespace CallInvariant

variable {env : Env} {ctx : Caller} {x : Uuid} {t₀ : Tables} {root : Applied} {P : Db → Prop}

/-- The call is the root, or a rule of a call that is on the graph. -/
def Called (env : Env) (t₀ : Tables) (root p : Applied) : Prop :=
  p = root ∨ ∃ q, ReflTransGen (Leads env t₀) root q ∧
    ∃ rule ∈ resolveCascadeRules env t₀ q.1 q.2, p = (rule.childId, rule.childTransitionId)

/-- A call whose transition starts where its node is committed is on the graph. -/
theorem Called.reached {p : Applied} {transition : LifecycleTransitionConfig} {t : Tables}
    (h : Called env t₀ root p) (hlater : Later t₀ t) (hload : Loaded env t p.1 p.2 transition) :
    ReflTransGen (Leads env t₀) root p := by
  obtain rfl | ⟨q, hq, hrule⟩ := h
  · exact .refl
  · exact hq.tail ⟨hrule, hlater.applicable hload.applicable⟩

theorem actions (h : CallInvariant env ctx x t₀ root P) {stateId : String}
    {trigger : StateActionTrigger} {a : StateActionContext} {s s' : Db} (hP : P s)
    (hr : Returns (executeTransactionalActions env stateId trigger a) s () s') : P s' :=
  executeTransactionalActions_rule (R := fun s s' => P s → P s') (fun _ hs => hs)
    (fun h₁ h₂ hs => h₂ (h₁ hs)) (fun _ hr hs => h.collapse hs hr) hr hP

/-- The loop over the cascade rules, when no child fails. -/
theorem children {depth : Nat} {p : Applied}
    (hp : ReflTransGen (Leads env t₀) root p)
    (hchild : ∀ q s r s', Called env t₀ root q → P s →
      Returns (applyTransitionInternal env ctx x depth q.1 q.2) s r s' → P s')
    {rules : List CascadeRule} (hrules : rules ⊆ resolveCascadeRules env t₀ p.1 p.2) {s s' : Db}
    {r : List String × List StateActionContext} (hP : P s)
    (hr : Returns (Psm.cascadeChildren (guardedTransition env ctx
      (applyTransitionInternal env ctx x depth)) x rules) s r s') (hnone : r.1 = []) : P s' := by
  induction rules generalizing s r with
  | nil =>
    obtain ⟨rfl, rfl⟩ := returns_pure.mp hr
    exact hP
  | cons rule rules ih =>
    simp only [Psm.cascadeChildren, returns_bind, returns_pure] at hr
    obtain ⟨r₁, s₁, h₁, r₂, s₂, h₂, rfl, rfl⟩ := hr
    obtain ⟨hnone₁, hnone₂⟩ := List.append_eq_nil_iff.mp hnone
    obtain ⟨hrule, hrest⟩ := List.cons_subset.mp hrules
    have hs₁ : P s₁ := by
      obtain ⟨rfl, -, -⟩ | ⟨-, result, hrun, -⟩ := cascadeChild_ok h₁ hnone₁
      · exact hP
      · exact hchild _ _ _ _ (.inr ⟨p, hp, rule, hrule, rfl⟩) hP hrun
    exact ih hrest hs₁ h₂ hnone₂

/-- **A transition without its later actions**, by induction on the depth of the cascade. -/
theorem internal (h : CallInvariant env ctx x t₀ root P) (depth : Nat) (p : Applied) (s : Db)
    (r : TransitionResult) (s' : Db) (hp : Called env t₀ root p) (hP : P s)
    (hr : Returns (applyTransitionInternal env ctx x depth p.1 p.2) s r s') : P s' := by
  induction depth generalizing p s r s' with
  | zero => exact absurd hr returns_throw
  | succ depth ih =>
    obtain ⟨transition, description, vid, s₁, s₂, s₃, s₄, actions, s₅, a, hload, hcreate, -, hexit,
      henter, hlock, hcascade, hevent, -⟩ := applyTransitionInternal_ok hr
    have hreached := hp.reached (h.later hP) hload
    have happlicable := (h.later hP).applicable hload.applicable
    have hs₁ : P s₁ := h.create hP hreached happlicable hcreate
    have hs₄ : P s₄ := h.lock (h.actions (h.actions hs₁ hexit) henter) hlock
    have hs₅ : P s₅ := children hreached ih (fun rule hrule => (h.later hs₄).leads hrule) hs₄ hcascade rfl
    exact h.events hs₅ hevent

/-- The actions after the database transaction, of which some fail. -/
theorem postActions (h : CallInvariant env ctx x t₀ root P) (actions : List StateActionContext) {s : Db}
    (hP : P s) : P (runPostActions env s actions) := by
  induction actions generalizing s with
  | nil => exact hP
  | cons a actions ih =>
    simp only [runPostActions, List.foldl_cons]
    split
    · rename_i u s₁ hrun
      exact ih (h.collapse hP hrun)
    · exact ih hP

/-- **What each part of a level keeps holds after the transition.** -/
theorem applyTransition (h : CallInvariant env ctx x t₀ root P) {depth : Nat} {s s' : Db} {vid : Uuid}
    (hP : P s) (hr : Returns (Psm.applyTransition env ctx depth root.1 root.2 x) s vid s') : P s' := by
  unfold Returns Psm.applyTransition at hr
  split at hr
  · rename_i result s₁ hrun
    cases hr
    exact h.postActions _ (h.internal depth root s result s₁ (.inl rfl) hP hrun)
  · cases hr

end CallInvariant

end PlmCore.Psm
