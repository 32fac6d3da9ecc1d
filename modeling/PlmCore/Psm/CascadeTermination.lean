/-
The recursion of a cascade ends.

`executeCascade` calls `applyTransition` on the children, and nothing in the recursion carries
the nodes it has visited: what stops it is that a child is skipped which the transaction already
brought to the target state of the rule. On a chain of calls, a call that does not waver is made
once, since its node stays in the target state for as long as the calls below it run. History
collapses on the way remove committed versions, and with them the states that were found, but
a version can only be removed once.
-/
import PlmCore.Psm.CascadeGraph

set_option autoImplicit false

namespace PlmCore.Psm

open PlmCore.Lib Relation

/-! ## The calls on the stack -/

/-- The store in a call below those in `seen`: it has fewer than `c` committed versions, or it
has `c` and the nodes of `seen` are where their transitions brought them. -/
def Held (env : Env) (x : Uuid) (t₀ : Tables) (seen : Finset Applied) (c : Nat) (s : Db) : Prop :=
  Later t₀ s.toTables ∧ (s.committedKeys.length < c ∨ s.committedKeys.length = c ∧
    ∀ p ∈ seen, ∃ transition, env.getCachedTransition p.2 = some transition
      ∧ LastIn s.committedKeys p.1 transition.fromStateId
      ∧ LastIn (s.keysOf x) p.1 transition.toStateId)

section Held

variable {env : Env} {ctx : Caller} {x : Uuid} {t₀ : Tables} {seen seen' : Finset Applied} {c : Nat}
  {s s' : Db}

theorem Held.mono (h : Held env x t₀ seen' c s) (hsub : seen ⊆ seen') : Held env x t₀ seen c s := by
  obtain ⟨hlater, hless | ⟨heq, hheld⟩⟩ := h
  · exact ⟨hlater, Or.inl hless⟩
  · exact ⟨hlater, Or.inr ⟨heq, fun p hp => hheld p (hsub hp)⟩⟩

theorem Held.sameView (h : Held env x t₀ seen c s) (hview : SameView s.toTables s'.toTables) :
    Held env x t₀ seen c s' := by
  refine ⟨h.1.sameView hview, ?_⟩
  rw [hview.committedKeys, hview.keysOf]
  exact h.2

/-- **The work on a node keeps the calls above it held**, when they do not waver, and its own
call is held too. -/
theorem Held.worked {p : Applied} {transition : LifecycleTransitionConfig}
    (h : Held env x t₀ seen c s) (hload : Loaded env s.toTables p.1 p.2 transition)
    (hworked : Worked p.1 x transition.toStateId s.toTables s'.toTables)
    (hseen' : ∀ r ∈ seen', r = p ∨ r ∈ seen ∧ ¬ Wavers env t₀ r ∧ ReflTransGen (Leads env t₀) r p) :
    Held env x t₀ seen' c s' := by
  obtain ⟨-, hcommitted, k, hkeys, hknode, hkstate, hkmax⟩ := hworked.keys
  have hlater : Later t₀ s'.toTables := h.1.worked hworked
  have hle := hcommitted.length_le
  rcases h.2 with hless | ⟨heq, hheld⟩
  · exact ⟨hlater, Or.inl (by omega)⟩
  by_cases hcut : s'.committedKeys.length < c
  · exact ⟨hlater, Or.inl hcut⟩
  -- no committed version went, so the committed states are what they were
  have hsame : s'.committedKeys = s.committedKeys := hcommitted.eq_of_length_le (by omega)
  refine ⟨hlater, Or.inr ⟨by rw [hsame]; exact heq, ?_⟩⟩
  have hnew : LastIn (s'.keysOf x) p.1 transition.toStateId := by
    rw [hkeys, ← hknode]
    exact lastIn_append_self hkstate hkmax
  intro r hr
  rw [hsame]
  rcases hseen' r hr with rfl | ⟨hr, hsteady, hpath⟩
  · exact ⟨transition, hload.1, hload.lastIn, hnew⟩
  obtain ⟨transition', hcached, hfrom, hto⟩ := hheld r hr
  refine ⟨transition', hcached, hfrom, ?_⟩
  by_cases hnode : p.1 = r.1
  · -- the same node again: from the same state, and so to the same one
    have hsource : transition'.fromStateId = transition.fromStateId :=
      hfrom.unique (hnode ▸ hload.lastIn)
    have htarget : transition'.toStateId = transition.toStateId := by
      by_contra hne
      exact hsteady ⟨p, hpath, hnode, transition', transition, hcached, hload.1, hsource, hne⟩
    rw [htarget, ← hnode]
    exact hnew
  · rw [hkeys]
    apply hto.append_other
    rw [hknode]
    exact hnode

/-- A rule that leads back to a held call is skipped. -/
theorem Held.skips {nodeId : Uuid} {transitionId : String} {rule : CascadeRule}
    (h : Held env x t₀ seen c s) (heq : s.committedKeys.length = c)
    (hrule : rule ∈ resolveCascadeRules env t₀ nodeId transitionId)
    (hseen : (rule.childId, rule.childTransitionId) ∈ seen) : s.isAlreadyThere rule x = true := by
  rcases h.2 with hless | ⟨-, hheld⟩
  · omega
  obtain ⟨transition, hcached, -, hto⟩ := hheld _ hseen
  rw [hto.isAlreadyThere, decide_eq_true_eq, toStateId_of_mem_rules hrule,
    Env.resolveTransitionToState, hcached]
  rfl

/-- A transition that starts in no committed state of its node fails before it writes. -/
theorem inapplicable_outcome {p : Applied} {depth : Nat} (h : Held env x t₀ seen c s)
    (hp : ¬ Applicable env t₀ p) :
    Outcome (applyTransitionInternal env ctx x (depth + 1) p.1 p.2) s
      (fun _ s' => Held env x t₀ seen c s') fun e s' => Held env x t₀ seen c s' ∧ e ≠ .stackOverflow := by
  apply level_outcome
  · exact fun s₁ s₂ h₁ hview => h₁.sameView hview
  · exact fun e he => he.1
  · rintro s₁ (hview | ⟨transition, hload, -⟩)
    · exact h.sameView hview
    · exact absurd (h.1.applicable hload.applicable) hp
  · intro transition s₁ hload
    exact absurd (h.1.applicable hload.applicable) hp

end Held

/-! ## The depth of the recursion -/

/-- No call is deeper in the recursion than this. -/
def cascadeBound (env : Env) (t : Tables) (root : Applied) : Nat :=
  (t.committedKeys.length + 1) * ((calls env t root).card + 1) ^ 2

/-- What is left of the bound in a call. -/
noncomputable def callRank (env : Env) (t₀ : Tables) (root : Applied) (c : Nat)
    (seen : Finset Applied) (p : Applied) : Nat :=
  c * ((calls env t₀ root).card + 1) ^ 2
    + rank (Leads env t₀) (Wavers env t₀) (calls env t₀ root) seen p

theorem callRank_lt_of_lt {env : Env} {t₀ : Tables} {root p q : Applied} {c c' : Nat}
    {seen seen' : Finset Applied} (h : c' < c) :
    callRank env t₀ root c' seen' q < callRank env t₀ root c seen p := by
  have hrank : rank (Leads env t₀) (Wavers env t₀) (calls env t₀ root) seen' q < _ := rank_lt_bound
  have hmul := Nat.mul_le_mul_right (((calls env t₀ root).card + 1) ^ 2) h
  rw [Nat.succ_mul] at hmul
  unfold callRank
  omega

/-- **The recursion stays below a call's rank.** -/
theorem call_outcome {env : Env} {ctx : Caller} {x : Uuid} {t₀ : Tables} {root : Applied}
    (hsettles : Settles env t₀ root) (depth : Nat) : ∀ (c : Nat) (seen : Finset Applied)
    (p : Applied) (s : Db), callRank env t₀ root c seen p + 1 < depth → p ∈ calls env t₀ root →
    p ∉ seen → ReflTransGen (Leads env t₀) root p →
    (∀ r ∈ seen, ¬ Wavers env t₀ r ∧ ReflTransGen (Leads env t₀) r p) →
    Held env x t₀ seen c s →
    Outcome (applyTransitionInternal env ctx x depth p.1 p.2) s
      (fun _ s' => Held env x t₀ seen c s')
      fun e s' => Held env x t₀ seen c s' ∧ e ≠ .stackOverflow := by
  induction depth with
  | zero =>
    intro c seen p s hdepth
    omega
  | succ depth ih =>
    intro c seen p s hdepth hcall hfresh hroot hseen hheld
    apply level_outcome
    · exact fun s₁ s₂ h₁ hview => h₁.sameView hview
    · exact fun e he => he.1
    · rintro s₁ (hview | ⟨transition, hload, hworked⟩)
      · exact hheld.sameView hview
      · exact hheld.worked hload hworked fun r hr => Or.inr ⟨hr, hseen r hr⟩
    intro transition s₁ hload hworked
    -- the call is marked when it does not waver, and in both cases its children rank lower
    obtain ⟨seen', hsub, hseen', hless⟩ : ∃ seen', seen ⊆ seen'
        ∧ (∀ r ∈ seen', ¬ Wavers env t₀ r ∧ (r = p ∨ r ∈ seen))
        ∧ ∀ q, Leads env t₀ p q →
          callRank env t₀ root c seen' q < callRank env t₀ root c seen p := by
      by_cases hwavers : Wavers env t₀ p
      · refine ⟨seen, Finset.Subset.refl _, fun r hr => ⟨(hseen r hr).1, Or.inr hr⟩, ?_⟩
        intro q hq
        exact Nat.add_lt_add_left (rank_step_lt hcall hwavers hq (hsettles p hroot)) _
      · refine ⟨insert p seen, Finset.subset_insert _ _, ?_, ?_⟩
        · intro r hr
          rcases Finset.mem_insert.mp hr with rfl | hr
          · exact ⟨hwavers, Or.inl rfl⟩
          · exact ⟨(hseen r hr).1, Or.inr hr⟩
        · intro q _
          exact Nat.add_lt_add_left (rank_insert_lt hcall hfresh) _
    have hpath : ∀ r ∈ seen', ReflTransGen (Leads env t₀) r p := by
      intro r hr
      rcases (hseen' r hr).2 with rfl | hr
      · exact ReflTransGen.refl
      · exact (hseen r hr).2
    have hheld₁ : Held env x t₀ seen' c s₁ := by
      apply hheld.worked hload hworked
      intro r hr
      obtain ⟨hsteady, rfl | hrseen⟩ := hseen' r hr
      · exact Or.inl rfl
      · exact Or.inr ⟨hrseen, hsteady, hpath r hr⟩
    have hcascade : Outcome (executeCascade env
        (guardedTransition env ctx (applyTransitionInternal env ctx x depth)) p.1 p.2 x) s₁
        (fun _ s₂ => Held env x t₀ seen' c s₂)
        fun e s₂ => Held env x t₀ seen' c s₂ ∧ e ≠ .stackOverflow := by
      apply executeCascade_outcome hheld₁
      · exact fun _ => nofun
      · exact fun _ _ => nofun
      intro rule hrule s₂ hs₂ hthere _
      have hrule₀ := hheld₁.1.leads hrule
      refine guardedTransition_outcome hs₂ (fun _ => nofun) ?_
      by_cases happlicable : Applicable env t₀ (rule.childId, rule.childTransitionId)
      · have hleads : Leads env t₀ p (rule.childId, rule.childTransitionId) :=
          ⟨⟨rule, hrule₀, rfl⟩, happlicable⟩
        have hfewer := hless _ hleads
        rcases hs₂.2 with hcut | ⟨heq, -⟩
        · -- committed versions went: the marks are gone, and the count is lower
          have hrestart : callRank env t₀ root s₂.committedKeys.length ∅
              (rule.childId, rule.childTransitionId) < callRank env t₀ root c seen p :=
            callRank_lt_of_lt hcut
          refine (ih s₂.committedKeys.length ∅ (rule.childId, rule.childTransitionId) s₂ (by omega)
            (rule_mem_calls hrule₀) (by simp) (hroot.tail hleads) (by simp)
            ⟨hs₂.1, Or.inr ⟨rfl, by simp⟩⟩).mono ?_ ?_
          · rintro _ s₃ ⟨hlater, h₃⟩
            exact ⟨hlater, Or.inl (by omega)⟩
          · rintro e s₃ ⟨⟨hlater, h₃⟩, he⟩
            exact ⟨⟨hlater, Or.inl (by omega)⟩, he⟩
        · refine ih c seen' (rule.childId, rule.childTransitionId) s₂ (by omega)
            (rule_mem_calls hrule₀) ?_ (hroot.tail hleads) ?_ hs₂
          · -- a marked child is where its rule brings it
            intro hmarked
            rw [hs₂.skips heq hrule₀ hmarked] at hthere
            cases hthere
          · exact fun r hr => ⟨(hseen' r hr).1, (hpath r hr).tail hleads⟩
      · obtain ⟨depth, rfl⟩ : ∃ d, depth = d + 1 := ⟨depth - 1, by omega⟩
        exact inapplicable_outcome hs₂ happlicable
    refine hcascade.mono ?_ ?_
    · exact fun _ s₂ h₂ => h₂.mono hsub
    · exact fun e s₂ h₂ => ⟨h₂.1.mono hsub, h₂.2⟩

/-- **A cascade that settles makes finitely many calls.** On a stack deeper than the bound, which
depends on the store and the root alone, it never overflows: it returns, or fails with an
exception of its own. -/
theorem cascade_terminates {env : Env} {ctx : Caller} {x nodeId : Uuid} {transitionId : String}
    {s : Db} (h : Settles env s.toTables (nodeId, transitionId)) {depth : Nat}
    (hdepth : cascadeBound env s.toTables (nodeId, transitionId) < depth) :
    (applyTransition env ctx depth nodeId transitionId x s).1 ≠ .error .stackOverflow := by
  have hrank : callRank env s.toTables (nodeId, transitionId) s.committedKeys.length ∅
      (nodeId, transitionId) + 1 < depth := by
    have hbound : rank (Leads env s.toTables) (Wavers env s.toTables)
      (calls env s.toTables (nodeId, transitionId)) ∅ (nodeId, transitionId) < _ := rank_lt_bound
    unfold cascadeBound at hdepth
    rw [Nat.succ_mul] at hdepth
    unfold callRank
    omega
  have hrun : Outcome (applyTransitionInternal env ctx x depth nodeId transitionId) s
      (fun _ _ => True) fun e _ => e ≠ .stackOverflow := by
    refine (call_outcome h depth s.committedKeys.length ∅ (nodeId, transitionId) s hrank
      (Finset.mem_insert_self _ _) (by simp) ReflTransGen.refl (by simp)
      ⟨Later.refl _, Or.inr ⟨rfl, by simp⟩⟩).mono ?_ ?_
    · exact fun _ _ _ => trivial
    · exact fun _ _ h => h.2
  intro hoverflow
  unfold applyTransition at hoverflow
  split at hoverflow
  · cases hoverflow
  · rename_i e s' he
    cases hoverflow
    exact hrun.2 _ s' he rfl

/-- Two committed assemblies that link each other, and an open transaction. -/
def mutualTables : Tables where
  txs := [⟨0, "engineer", .COMMITTED, some "created", 0, some 0⟩,
    ⟨1, "engineer", .OPEN, none, 0, none⟩]
  nodes := [⟨0, "nt-assembly", none, some "A", none, none, none, 0, "engineer"⟩,
    ⟨1, "nt-assembly", none, some "B", none, none, none, 0, "engineer"⟩]
  versions := [⟨0, 0, 1, "A", 1, some "draft", .CONTENT, none, 0, none, none, none, "main", 0,
      "engineer"⟩,
    ⟨1, 1, 1, "A", 1, some "draft", .CONTENT, none, 0, none, none, none, "main", 0, "engineer"⟩]
  attributes := []
  links := [⟨0, "lt-composed-of", 0, "SELF", "nt-part", "B", some "b", 0, "engineer"⟩,
    ⟨1, "lt-composed-of", 1, "SELF", "nt-part", "A", some "a", 0, "engineer"⟩]
  linkAttributes := []
  domains := []
  signatures := []
  baselines := []
  baselineEntries := []
  comments := []
  outbox := []
  nextId := 2

def mutualDb : Db := ⟨mutualTables, by decide⟩

/-- A release cascades to the release of the components. -/
def releaseEnv : Env :=
  { partsEnv with
    linkTypes := [⟨"lt-composed-of", "composed_of", some "nt-part", some "SELF", some "nt-part",
      some "VERSION_TO_MASTER", none, none, none, [⟨"release", "draft", "release"⟩]⟩] }

theorem releaseEnv_rules {t : Tables} {nodeId : Uuid} {transitionId : String} {rule : CascadeRule}
    (h : rule ∈ resolveCascadeRules releaseEnv t nodeId transitionId) :
    rule.childTransitionId = "release" := by
  obtain ⟨l, -, childId, -, c, hc, -, rfl⟩ := mem_resolveCascadeRules.mp h
  cases hlt : releaseEnv.getLinkType l.linkTypeId with
  | none => simp [hlt] at hc
  | some lt =>
    have hmem := List.mem_of_find?_eq_some hlt
    rw [List.mem_singleton.mp hmem] at hlt
    rw [hlt] at hc
    rw [List.mem_singleton.mp hc]

theorem releaseEnv_settles (t : Tables) (nodeId : Uuid) : Settles releaseEnv t (nodeId, "release") := by
  apply settles_of_single
  rintro p q ⟨⟨rule, hrule, rfl⟩, -⟩
  exact releaseEnv_rules hrule

/-- The release of two assemblies that link each other ends. -/
theorem mutual_release_terminates :
    (applyTransition releaseEnv engineer (cascadeBound releaseEnv mutualTables (0, "release") + 1) 0
      "release" 1 mutualDb).1 ≠ .error .stackOverflow :=
  cascade_terminates (releaseEnv_settles _ 0) (Nat.lt_succ_self _)

end PlmCore.Psm
