/-
A transition is all or nothing, and the order of links and rules does not change it.

Links are listed without an order, and the rules of a link type as the configuration lists them.
Where what is reached is unambiguous, two stores and configurations that differ only in these
orders reach the same nodes, so a transition that returns has the same effect in both; one that
does not return leaves the store as it was.
-/
import PlmCore.Psm.CascadeReach
import PlmCore.Psm.CascadeTermination
import PlmCore.Psm.Wrapper

set_option autoImplicit false

namespace PlmCore.Psm

open PlmCore.Lib Relation

/-! ## Orders -/

/-- The same link type, with its cascade rules in another order. -/
def SameCascades (lt lt' : LinkTypeConfig) : Prop :=
  ∃ cascades, cascades.Perm lt.cascades ∧ lt' = { lt with cascades := cascades }

/-- The same configuration and the same store, with the rules of the link types and the links in
another order. -/
structure Reordered (env env' : Env) (t t' : Tables) : Prop where
  rules : ∃ linkTypes, List.Forall₂ SameCascades env.linkTypes linkTypes
    ∧ env' = { env with linkTypes := linkTypes }
  links : ∃ links, links.Perm t.links ∧ t' = { t with links := links }

theorem SameCascades.refl (lt : LinkTypeConfig) : SameCascades lt lt := ⟨lt.cascades, List.Perm.refl _, rfl⟩

/-- A link type is found under the same id, with the same rules. -/
theorem mem_cascades_of_sameCascades {linkTypes linkTypes' : List LinkTypeConfig}
    (h : List.Forall₂ SameCascades linkTypes linkTypes') (id : String) (c : LinkTypeCascadeConfig) :
    c ∈ ((linkTypes'.find? (·.id = id)).map (·.cascades)).getD [] ↔
      c ∈ ((linkTypes.find? (·.id = id)).map (·.cascades)).getD [] := by
  induction h with
  | nil => rfl
  | @cons lt _ _ _ hsame _ ih =>
    obtain ⟨cascades, hperm, rfl⟩ := hsame
    by_cases hid : lt.id = id
    · simp only [List.find?_cons, hid, decide_true]
      exact hperm.mem_iff
    · simp only [List.find?_cons, hid, decide_false]
      exact ih

section Reordered

variable {env env' : Env} {t t' : Tables} {x : Uuid}

/-- The rules are the same, up to their order. -/
theorem Reordered.mem_rules (h : Reordered env env' t t') {nodeId : Uuid} {transitionId : String}
    {rule : CascadeRule} : rule ∈ resolveCascadeRules env' t' nodeId transitionId ↔
      rule ∈ resolveCascadeRules env t nodeId transitionId := by
  obtain ⟨⟨linkTypes, hrules, rfl⟩, ⟨links, hlinks, rfl⟩⟩ := h
  rw [mem_resolveCascadeRules, mem_resolveCascadeRules]
  refine exists_congr fun l => and_congr ?_ (exists_congr fun childId => and_congr Iff.rfl ?_)
  · unfold Tables.cascadeLinks
    rw [List.mem_filter, List.mem_filter]
    exact and_congr hlinks.mem_iff Iff.rfl
  · exact exists_congr fun c =>
      and_congr (mem_cascades_of_sameCascades hrules l.linkTypeId c) Iff.rfl

theorem Reordered.getCachedTransition (h : Reordered env env' t t') (id : String) :
    env'.getCachedTransition id = env.getCachedTransition id := by
  obtain ⟨⟨linkTypes, -, rfl⟩, -⟩ := h
  rfl

theorem Reordered.matches_iff (h : Reordered env env' t t') {p q : Applied} :
    Matches env' t' p q ↔ Matches env t p q := by
  refine exists_congr fun rule => and_congr h.mem_rules ?_
  obtain ⟨-, ⟨links, -, rfl⟩⟩ := h
  exact Iff.rfl

theorem Reordered.fires_iff (h : Reordered env env' t t') {p q : Applied} :
    Fires env' x t' p q ↔ Fires env x t p q := by
  refine exists_congr fun rule => and_congr h.mem_rules ?_
  obtain ⟨-, ⟨links, -, rfl⟩⟩ := h
  exact Iff.rfl

/-- **The same nodes are reached.** -/
theorem Reordered.reached_eq (h : Reordered env env' t t') (root : Applied) :
    Reached env' x t' root = Reached env x t root := by
  have hfires : Fires env' x t' = Fires env x t := by
    funext p q
    exact propext h.fires_iff
  unfold Reached
  rw [hfires]

theorem Reordered.unambiguous (h : Reordered env env' t t') {root : Applied}
    (hsingle : Unambiguous env x t root) : Unambiguous env' x t' root := by
  unfold Unambiguous
  rw [h.reached_eq root]
  simp only [h.matches_iff]
  exact hsingle

theorem Reordered.keepsHistory (h : Reordered env env' t t') {root : Applied}
    (hkeeps : KeepsHistory env x t root) : KeepsHistory env' x t' root := by
  intro q transition hq hcached
  rw [h.reached_eq root] at hq
  rw [h.getCachedTransition] at hcached
  obtain ⟨⟨linkTypes, -, rfl⟩, -⟩ := h
  exact hkeeps q transition hq hcached

theorem Reordered.coherent (h : Reordered env env' t t') (hcoherent : Coherent env t) :
    Coherent env' t' := by
  intro nodeId transitionId rule hrule transition hcached
  rw [h.getCachedTransition] at hcached
  exact hcoherent nodeId transitionId rule (h.mem_rules.mp hrule) transition hcached

end Reordered

/-! ## All or nothing -/

/-- **A transition is all or nothing, in every order of links and rules.** If it returns, each
node it reaches has one new version, in the target state of the node's transition, and no other
node changed; which nodes these are is read off the rules without their order. If it does not,
because a child's transition failed or for another reason, nothing changed. -/
theorem cascade_all_or_nothing {env : Env} {ctx : Caller} {x nodeId : Uuid} {transitionId : String}
    {s : Db} (haccepted : CascadesAccepted env)
    (hsingle : Unambiguous env x s.toTables (nodeId, transitionId))
    (hkeeps : KeepsHistory env x s.toTables (nodeId, transitionId)) (depth : Nat) (env' : Env) (s' : Db)
    (horder : Reordered env env' s.toTables s'.toTables) :
    (∃ vid s₁ actions, atomically (applyTransition env' ctx depth nodeId transitionId x) s'
        = (.ok vid, runPostActions env' s₁ actions)
      ∧ CascadeEffect env (Reached env x s.toTables (nodeId, transitionId)) x s' s₁)
    ∨ ∃ e, atomically (applyTransition env' ctx depth nodeId transitionId x) s' = (.error e, s') := by
  have hcoherent := horder.coherent (coherent_of_accepted haccepted s.toTables)
  cases hrun : applyTransitionInternal env' ctx x depth nodeId transitionId s' with
  | mk r s₁ =>
    cases r with
    | error e =>
      refine Or.inr ⟨e, ?_⟩
      simp only [atomically, applyTransition, hrun]
    | ok result =>
      refine Or.inl ⟨result.versionId, s₁, result.postActions, ?_, ?_⟩
      · simp only [atomically, applyTransition, hrun]
      have heffect := cascadeEffect_of_returns hcoherent (horder.unambiguous hsingle)
        (horder.keepsHistory hkeeps) hrun
      rw [horder.reached_eq] at heffect
      obtain ⟨hversions, hnodes, hlinks⟩ := heffect
      refine ⟨?_, hnodes, hlinks⟩
      obtain ⟨⟨linkTypes, -, rfl⟩, -⟩ := horder
      exact hversions

/-- The release of two assemblies that link each other, with their links listed the other way
round. -/
theorem mutual_release_all_or_nothing :
    let reversed : Db := ⟨{ mutualTables with links := mutualTables.links.reverse }, by decide⟩
    (∃ vid s₁ actions, atomically (applyTransition releaseEnv engineer 5 0 "release" 1) reversed
        = (.ok vid, runPostActions releaseEnv s₁ actions)
      ∧ CascadeEffect releaseEnv (Reached releaseEnv 1 mutualTables (0, "release")) 1 reversed s₁)
    ∨ ∃ e, atomically (applyTransition releaseEnv engineer 5 0 "release" 1) reversed
        = (.error e, reversed) := by
  intro reversed
  have hsingle : Unambiguous releaseEnv 1 mutualTables (0, "release") := by
    have hrelease : ∀ q, (q = (0, "release") ∨ ∃ p, Reached releaseEnv 1 mutualTables (0, "release") p
        ∧ Matches releaseEnv mutualTables p q) → q.2 = "release" := by
      rintro q (rfl | ⟨p, -, rule, hrule, rfl, -⟩)
      · rfl
      · exact releaseEnv_rules hrule
    exact fun q q' hq hq' _ => (hrelease q hq).trans (hrelease q' hq').symm
  have horder : Reordered releaseEnv releaseEnv mutualTables reversed.toTables :=
    ⟨⟨_, List.forall₂_same.mpr fun lt _ => SameCascades.refl lt, rfl⟩,
      ⟨mutualTables.links.reverse, List.reverse_perm _, rfl⟩⟩
  exact cascade_all_or_nothing (s := mutualDb) (by decide +kernel) hsingle (fun _ _ _ _ => ⟨rfl, rfl⟩) 5
    releaseEnv reversed horder

/-! ## Two rules for one child -/

/-- A release releases the components and rejects what the assembly replaces. -/
def replacesEnv : Env :=
  { partsEnv with
    linkTypes := [⟨"lt-composed-of", "composed_of", some "nt-part", some "SELF", some "nt-part",
        some "VERSION_TO_MASTER", none, none, none, [⟨"release", "draft", "release"⟩]⟩,
      ⟨"lt-replaces", "replaces", some "nt-part", some "SELF", some "nt-part",
        some "VERSION_TO_MASTER", none, none, none, [⟨"release", "draft", "reject"⟩]⟩]
    lifecycles := [⟨"lc", [⟨"draft", "Draft", true⟩, ⟨"released", "Released", false⟩,
      ⟨"rejected", "Rejected", false⟩],
      [⟨"release", "draft", "released", none⟩, ⟨"reject", "draft", "rejected", none⟩]⟩] }

/-- An assembly that is composed of another one and replaces it. -/
def replacingTables : Tables :=
  { mutualTables with
    links := [⟨0, "lt-composed-of", 0, "SELF", "nt-part", "B", some "b", 0, "engineer"⟩,
      ⟨1, "lt-replaces", 0, "SELF", "nt-part", "B", some "b", 0, "engineer"⟩] }

def replacingDb : Db := ⟨replacingTables, by decide⟩

/-- The same with its links listed the other way round. -/
def reversedDb : Db := ⟨{ replacingTables with links := replacingTables.links.reverse }, by decide⟩

/-- The states the transaction gave a node, in the order of its versions. -/
def statesGiven (s : Db) (nodeId x : Uuid) : List (Option String) :=
  (s.versions.filter fun v => v.nodeId = nodeId ∧ v.txId = x).map (·.lifecycleStateId)

/-- **The order of the links decides** which state a child ends in that two accepted rules are
for, and the child is transitioned twice. -/
theorem order_of_links_decides : CascadesAccepted replacesEnv
    ∧ Reordered replacesEnv replacesEnv replacingTables reversedDb.toTables
    ∧ passes (applyTransition replacesEnv engineer 3 0 "release" 1) replacingDb (fun _ s =>
        statesGiven s 1 1 = [some "released", some "rejected"]) = true
    ∧ passes (applyTransition replacesEnv engineer 3 0 "release" 1) reversedDb (fun _ s =>
        statesGiven s 1 1 = [some "rejected", some "released"]) = true := by
  refine ⟨by decide +kernel, ?_, by decide +kernel, by decide +kernel⟩
  exact ⟨⟨_, List.forall₂_same.mpr fun lt _ => SameCascades.refl lt, rfl⟩,
    ⟨replacingTables.links.reverse, List.reverse_perm _, rfl⟩⟩

end PlmCore.Psm
