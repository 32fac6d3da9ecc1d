/-
What the user interface offers against what the aspect enforces.

`ActionService` marks an action as authorized for a target, and `PlmActionAspect` checks the call
of the method behind it. Each enumerates the required permissions on its own: the first from the
action and with all the scope values it has, the second from its cache of action codes and with
the handlers of three scopes. They come to the same answer exactly as far as they ask the same
questions, so the comparison is made on the checks themselves.
-/
import PlmCore.Platform.Action

set_option autoImplicit false

namespace PlmCore.Platform

/-! ## The questions behind the checks -/

/-- The scope definitions a check is written with, after the reload an empty cache causes. -/
def Authorizer.scopesAsked (a : Authorizer) : ScopeDefinitionCache :=
  if a.enforcer.scopes.isPopulated then a.enforcer.scopes else a.reloaded.scopes

/-- What the policy model is asked: permission, scope, and what is written of the keys. -/
def Check.asked (scopes : ScopeDefinitionCache) (c : Check) :
    String × String × Option String × String :=
  (c.permCode, c.permScope, encode scopes c.permScope c.keys)

/-- A check is answered by its question alone. -/
theorem grants_congr {a : Authorizer} {c d : Check}
    (h : c.asked a.scopesAsked = d.asked a.scopesAsked) : a.grants c = a.grants d := by
  obtain ⟨p, s, ks⟩ := c
  obtain ⟨p', s', ks'⟩ := d
  simp only [Check.asked, Prod.mk.injEq] at h
  obtain ⟨rfl, rfl, henc⟩ := h
  unfold Authorizer.grants isGranted canScope
  unfold Authorizer.scopesAsked at henc
  by_cases hp : a.enforcer.scopes.isPopulated = true
  · rw [if_pos hp] at henc
    simp only [hp, if_true, henc]
  · rw [if_neg hp] at henc
    simp only [hp, Bool.false_eq_true, if_false, henc]

/-- The checks of `cs` whose question is also asked by `ds`. -/
def sharedChecks (scopes : ScopeDefinitionCache) (cs ds : List Check) : List Check :=
  cs.filter fun c => ds.any fun d => d.asked scopes = c.asked scopes

/-- The checks of `cs` whose question `ds` does not ask. -/
def ownChecks (scopes : ScopeDefinitionCache) (cs ds : List Check) : List Check :=
  cs.filter fun c => !ds.any fun d => d.asked scopes = c.asked scopes

/-- Two lists of checks come out the same iff a shared one is refused, or what each asks alone
comes out the same. -/
theorem all_granted_iff_all_granted_iff (a : Authorizer) (cs ds : List Check) :
    ((∀ c ∈ cs, a.grants c = true) ↔ (∀ d ∈ ds, a.grants d = true))
      ↔ (∃ c ∈ sharedChecks a.scopesAsked cs ds, a.grants c = false)
        ∨ ((∀ c ∈ ownChecks a.scopesAsked cs ds, a.grants c = true)
          ↔ ∀ d ∈ ownChecks a.scopesAsked ds cs, a.grants d = true) := by
  unfold sharedChecks ownChecks
  simp only [List.mem_filter, List.any_eq_true, decide_eq_true_eq, Bool.not_eq_true',
    List.any_eq_false, and_imp]
  by_cases hshared : ∃ c ∈ cs, (∃ d ∈ ds, d.asked a.scopesAsked = c.asked a.scopesAsked)
      ∧ a.grants c = false
  · -- both sides are refused by the shared check
    obtain ⟨c, hc, ⟨d, hd, hcd⟩, hno⟩ := hshared
    have hds : ¬ ∀ d ∈ ds, a.grants d = true := by
      intro hall
      have := hall d hd
      rw [grants_congr hcd, hno] at this
      exact Bool.false_ne_true this
    have hcs : ¬ ∀ c ∈ cs, a.grants c = true := by
      intro hall
      have := hall c hc
      rw [hno] at this
      exact Bool.false_ne_true this
    constructor
    · intro _
      exact Or.inl ⟨c, ⟨hc, d, hd, hcd⟩, hno⟩
    · intro _
      exact ⟨fun h => absurd h hcs, fun h => absurd h hds⟩
  · -- every shared check is granted, so the rest decides
    have hgranted : ∀ c ∈ cs, ∀ d ∈ ds, d.asked a.scopesAsked = c.asked a.scopesAsked
        → a.grants c = true := by
      intro c hc d hd hcd
      by_contra hno
      exact hshared ⟨c, hc, ⟨d, hd, hcd⟩, by simpa using hno⟩
    have hleft : (∀ c ∈ cs, a.grants c = true)
        ↔ ∀ c ∈ cs, (∀ d ∈ ds, ¬ d.asked a.scopesAsked = c.asked a.scopesAsked)
            → a.grants c = true := by
      constructor
      · intro h c hc _
        exact h c hc
      · intro h c hc
        by_cases hd : ∃ d ∈ ds, d.asked a.scopesAsked = c.asked a.scopesAsked
        · obtain ⟨d, hd, hcd⟩ := hd
          exact hgranted c hc d hd hcd
        · exact h c hc fun d hmem hcd => hd ⟨d, hmem, hcd⟩
    have hright : (∀ d ∈ ds, a.grants d = true)
        ↔ ∀ d ∈ ds, (∀ c ∈ cs, ¬ c.asked a.scopesAsked = d.asked a.scopesAsked)
            → a.grants d = true := by
      constructor
      · intro h d hd _
        exact h d hd
      · intro h d hd
        by_cases hc : ∃ c ∈ cs, c.asked a.scopesAsked = d.asked a.scopesAsked
        · obtain ⟨c, hc, hcd⟩ := hc
          rw [← grants_congr hcd]
          exact hgranted c hc d hd hcd.symm
        · exact h d hd fun c hmem hcd => hc ⟨c, hmem, hcd⟩
    rw [hleft, hright]
    constructor
    · exact Or.inr
    · rintro (⟨c, ⟨hc, hd⟩, hno⟩ | h)
      · exact absurd ⟨c, hc, hd, hno⟩ hshared
      · exact h

/-! ## The two answers -/

/-- `metadata.authorized` of an action of the user interface. -/
def OfferedAsPermitted (a : Authorizer) (action : ActionConfig) (v : ScopeValues) : Prop :=
  ActionService.checkRequiredPermissions a action v = .ok true

/-- The aspect refuses the call on permissions; a call that only a guard stops is not. -/
def RejectedOnPermissions (o : CallOutcome) : Prop := ∃ err, o = .rejected err

/-- An aspect that has handled the event of its cache. -/
def Aspect.upToDate (c : ConfigCache ConfigContent) : Aspect := ⟨c, c.getAllActions⟩

/-- An action of the catalog is found by its code, maybe as another action. -/
theorem getAction_isSome {c : ConfigCache ConfigContent} {action : ActionConfig}
    (hmem : action ∈ c.getAllActions) : ∃ x, c.getAction action.actionCode = some x := by
  unfold ConfigCache.getAction ConfigCache.indexBy
  rw [← Option.isSome_iff_exists, List.getLast?_isSome]
  apply List.ne_nil_of_mem (a := action)
  exact List.mem_filter.mpr ⟨hmem, by simp⟩

/-- The aspect for a user that is neither missing nor an admin. -/
theorem rejectedOnPermissions_iff {c : ConfigCache ConfigContent} {a : Authorizer}
    {user : AuthzContext} {action x : ActionConfig} {v : ScopeValues} {resolve : ResolveScope}
    {assertGuards : String → NodeCtx → Option String → List String}
    (huser : a.user = some user) (hadmin : user.isAdmin = false)
    (hx : c.getAction action.actionCode = some x)
    (hv : v = ⟨(resolve x.scope).1.map (·.nodeTypeId), (resolve x.scope).2⟩) :
    RejectedOnPermissions
        (PlmActionAspect.enforce (.upToDate c) a resolve assertGuards action.actionCode)
      ↔ ¬ ∀ d ∈ aspectChecks a.scopeFor (permissionsOf c.getAllActions action.actionCode) v,
          a.grants d = true := by
  rw [← checkRequiredPermissions_aspect_iff]
  unfold RejectedOnPermissions PlmActionAspect.enforce Aspect.upToDate
  simp only [huser, hadmin, Bool.false_eq_true, if_false, hx]
  rw [← hv]
  cases PlmActionAspect.checkRequiredPermissions a v
      (permissionsOf c.getAllActions action.actionCode) with
  | error err => simp
  | ok u =>
    cases (resolve x.scope).1 with
    | none => simp
    | some nodeCtx =>
      cases hg : assertGuards x.id nodeCtx (resolve x.scope).2 <;> simp [hg]

/-! ## The agreement -/

/-- A catalog of two actions, one without required permissions. -/
private def exportCatalog : ConfigCache ConfigContent :=
  ⟨some ⟨1, [], [⟨"act-read", "read", "NODE", ["READ"], []⟩, ⟨"act-export", "export", "NODE", [], []⟩],
    [], [], [], []⟩⟩

/-- A viewer, who may read parts and nothing else. -/
private def viewer : Authorizer where
  enforcer :=
    { scopes := [⟨"GLOBAL", none, []⟩, ⟨"NODE", none, ["nodeType"]⟩]
      rules := [⟨"viewer", "ps-1", "NODE", "READ", "nt-part", ""⟩] }
  reloaded := ⟨[], []⟩
  user := some ⟨"vera", ["viewer"], false, some "ps-1"⟩
  scopeFor := fun p => if p = "READ" then some "NODE" else none

/-- A part, unlocked. -/
private def partCtx : NodeCtx := ⟨some "n-1", "nt-part", some "draft", false, false⟩

end PlmCore.Platform
