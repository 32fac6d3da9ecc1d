/-
The graph of a cascade, and what the store says about it while the cascade runs.

A call of a cascade applies a transition to a node, and the rules of the transition lead to
further calls. The graph is read off the store before the first call. While the transaction
works the store has no links and no committed versions but those it had then, so later calls
stay on the graph. Which state a node is committed in and which state the transaction brought
it to is the state of the last of its versions, among the committed ones and among those of the
transaction.
-/
import Mathlib.Data.Finset.Prod
import Mathlib.Logic.Relation
import PlmCore.Lib.Descent
import PlmCore.Psm.CascadeView

set_option autoImplicit false

namespace PlmCore.Psm

open PlmCore.Lib Relation

/-! ## The graph -/

/-- A node and a transition that is applied to it. -/
abbrev Applied := Uuid × String

/-- A committed version of the node is in the state the transition starts from. -/
def Applicable (env : Env) (t : Tables) (p : Applied) : Prop :=
  ∃ transition, env.getCachedTransition p.2 = some transition ∧
    ∃ v ∈ t.versions, v.nodeId = p.1 ∧ t.isCommitted v.txId = true
      ∧ v.lifecycleStateId = some transition.fromStateId

/-- A rule of the cascade of `p` applies `q`. -/
def Leads (env : Env) (t : Tables) (p q : Applied) : Prop :=
  (∃ rule ∈ resolveCascadeRules env t p.1 p.2, q = (rule.childId, rule.childTransitionId))
    ∧ Applicable env t q

/-- The cascade of `p` comes back to its node with a transition from the same state to another
one. -/
def Wavers (env : Env) (t : Tables) (p : Applied) : Prop :=
  ∃ q, ReflTransGen (Leads env t) p q ∧ q.1 = p.1 ∧
    ∃ transition transition', env.getCachedTransition p.2 = some transition
      ∧ env.getCachedTransition q.2 = some transition'
      ∧ transition.fromStateId = transition'.fromStateId
      ∧ transition.toStateId ≠ transition'.toStateId

/-- No cycle of the cascade of `root` wavers all along. -/
def Settles (env : Env) (t : Tables) (root : Applied) : Prop :=
  ∀ p, ReflTransGen (Leads env t) root p → ¬ TransGen (Swaying (Leads env t) (Wavers env t)) p p

/-- A cascade of one transition settles. -/
theorem settles_of_single {env : Env} {t : Tables} {root : Applied}
    (h : ∀ p q, Leads env t p q → q.2 = root.2) : Settles env t root := by
  have hreach : ∀ p q, p.2 = root.2 → ReflTransGen (Leads env t) p q → q.2 = root.2 := by
    intro p q hp hpath
    cases hpath with
    | refl => exact hp
    | tail _ hstep => exact h _ q hstep
  intro p hp hcycle
  obtain ⟨q, ⟨-, hwavers, -⟩, -⟩ := TransGen.head'_iff.mp hcycle
  obtain ⟨r, hpath, -, transition, transition', hcached, hcached', -, hne⟩ := hwavers
  have hp := hreach root p rfl hp
  rw [hp] at hcached
  rw [hreach p r hp hpath, hcached] at hcached'
  cases hcached'
  exact hne rfl

/-- The calls a cascade can make: its root, and the child transitions of the configuration on
every node. -/
def calls (env : Env) (t : Tables) (root : Applied) : Finset Applied :=
  insert root (t.nodeIds.toFinset ×ˢ
    (env.linkTypes.flatMap fun lt => lt.cascades.map (·.childTransitionId)).toFinset)

theorem childId_mem_nodeIds {env : Env} {t : Tables} {logicalId targetType : String} {c : Uuid}
    (h : resolveChildNodeId env t logicalId targetType = some c) : c ∈ t.nodeIds := by
  have hmem : ∀ n ∈ t.nodesByLogicalId logicalId, n.id ∈ t.nodeIds := fun n hn =>
    List.mem_map_of_mem (List.mem_filter.mp hn).1
  simp only [resolveChildNodeId] at h
  split at h
  · rename_i n hn
    cases h
    exact hmem n (List.mem_of_find?_eq_some hn)
  · obtain ⟨n, hn, rfl⟩ := Option.map_eq_some_iff.mp h
    exact hmem n (List.mem_filter.mp (List.mem_of_getLast? hn)).1

/-- A rule comes from a link of the node and a cascade of its type. -/
theorem mem_resolveCascadeRules {env : Env} {t : Tables} {nodeId : Uuid} {transitionId : String}
    {rule : CascadeRule} : rule ∈ resolveCascadeRules env t nodeId transitionId ↔
      ∃ l ∈ t.cascadeLinks nodeId, ∃ childId,
        resolveChildNodeId env t (beforeAt l.targetKey) l.targetType = some childId ∧
        ∃ c ∈ ((env.getLinkType l.linkTypeId).map (·.cascades)).getD [],
          c.parentTransitionId = transitionId ∧ rule = ⟨childId, c.childFromStateId,
            c.childTransitionId, env.resolveTransitionToState c.childTransitionId⟩ := by
  simp only [resolveCascadeRules, List.mem_flatMap]
  refine exists_congr fun l => and_congr_right fun _ => ?_
  cases resolveChildNodeId env t (beforeAt l.targetKey) l.targetType with
  | none => simp
  | some childId =>
    simp only [List.mem_map, List.mem_filter, decide_eq_true_eq, Option.some.injEq,
      exists_eq_left', and_assoc]
    exact exists_congr fun c => and_congr_right fun _ => and_congr_right fun _ => eq_comm

theorem rule_mem_calls {env : Env} {t : Tables} {root : Applied} {nodeId : Uuid}
    {transitionId : String} {rule : CascadeRule}
    (h : rule ∈ resolveCascadeRules env t nodeId transitionId) :
    (rule.childId, rule.childTransitionId) ∈ calls env t root := by
  obtain ⟨l, -, childId, hchild, c, hc, -, rfl⟩ := mem_resolveCascadeRules.mp h
  obtain ⟨lt, hlt, hcascades⟩ : ∃ lt, env.getLinkType l.linkTypeId = some lt ∧ c ∈ lt.cascades := by
    cases hlt : env.getLinkType l.linkTypeId with
    | none => simp [hlt] at hc
    | some lt => exact ⟨lt, rfl, by simpa [hlt] using hc⟩
  apply Finset.mem_insert_of_mem
  rw [Finset.mem_product, List.mem_toFinset, List.mem_toFinset, List.mem_flatMap]
  exact ⟨childId_mem_nodeIds hchild, lt, List.mem_of_find?_eq_some hlt, List.mem_map_of_mem hcascades⟩

/-- The target state of a rule is that of its transition. -/
theorem toStateId_of_mem_rules {env : Env} {t : Tables} {nodeId : Uuid} {transitionId : String}
    {rule : CascadeRule} (h : rule ∈ resolveCascadeRules env t nodeId transitionId) :
    rule.toStateId = env.resolveTransitionToState rule.childTransitionId := by
  obtain ⟨-, -, -, -, -, -, -, rfl⟩ := mem_resolveCascadeRules.mp h
  rfl

/-! ## The last state of a node -/

/-- Of these versions of the node, the one with the highest number is in the state. -/
def LastIn (keys : List StateKey) (nodeId : Uuid) (state : String) : Prop :=
  ∃ k ∈ keys, k.nodeId = nodeId ∧ k.lifecycleStateId = some state ∧
    ∀ k' ∈ keys, k'.nodeId = nodeId → k' ≠ k → k'.versionNumber < k.versionNumber

/-- The committed versions. -/
def Tables.committedKeys (t : Tables) : List StateKey :=
  t.stateKeys.filter fun k => t.isCommitted k.txId

/-- The versions of a transaction. -/
def Tables.keysOf (t : Tables) (x : Uuid) : List StateKey := t.stateKeys.filter fun k => k.txId = x

theorem LastIn.unique {keys : List StateKey} {nodeId : Uuid} {a b : String}
    (ha : LastIn keys nodeId a) (hb : LastIn keys nodeId b) : a = b := by
  obtain ⟨k, hk, hknode, hkstate, hkmax⟩ := ha
  obtain ⟨k', hk', hknode', hkstate', hkmax'⟩ := hb
  by_cases hsame : k' = k
  · rw [hsame, hkstate] at hkstate'
    exact Option.some.inj hkstate'
  · have h₁ := hkmax k' hk' hknode' hsame
    have h₂ := hkmax' k hk hknode (Ne.symm hsame)
    omega

/-- A version of another node changes nothing. -/
theorem LastIn.append_other {keys : List StateKey} {nodeId : Uuid} {state : String} {k : StateKey}
    (h : LastIn keys nodeId state) (hk : k.nodeId ≠ nodeId) : LastIn (keys ++ [k]) nodeId state := by
  obtain ⟨k₀, hk₀, hnode, hstate, hmax⟩ := h
  refine ⟨k₀, List.mem_append_left _ hk₀, hnode, hstate, ?_⟩
  intro k' hk' hnode' hne
  rcases List.mem_append.mp hk' with hold | hnew
  · exact hmax k' hold hnode' hne
  · rw [List.mem_singleton.mp hnew] at hnode'
    exact absurd hnode' hk

/-- A version with a higher number becomes the last. -/
theorem lastIn_append_self {keys : List StateKey} {state : String} {k : StateKey}
    (hstate : k.lifecycleStateId = some state)
    (hmax : ∀ k' ∈ keys, k'.nodeId = k.nodeId → k'.versionNumber < k.versionNumber) :
    LastIn (keys ++ [k]) k.nodeId state := by
  refine ⟨k, List.mem_append_right _ (List.mem_singleton_self k), rfl, hstate, ?_⟩
  intro k' hk' hnode hne
  rcases List.mem_append.mp hk' with hold | hnew
  · exact hmax k' hold hnode
  · exact absurd (List.mem_singleton.mp hnew) hne

/-- The last version by number, of rows with distinct numbers. -/
theorem lastIn_of_latest {rows : List VersionRow} {v : VersionRow} {nodeId : Uuid} {state : String}
    {p : VersionRow → Bool} {q : StateKey → Bool} (hq : ∀ w, q w.stateKey = p w)
    (hunique : (rows.map fun w => (w.nodeId, w.versionNumber)).Nodup)
    (hlatest : Tables.latest (rows.filter fun w => w.nodeId = nodeId ∧ p w = true) = some v)
    (hstate : v.lifecycleStateId = some state) :
    LastIn ((rows.map VersionRow.stateKey).filter q) nodeId state := by
  have hv := List.argmax_mem hlatest
  rw [List.mem_filter, decide_eq_true_eq] at hv
  refine ⟨v.stateKey, ?_, hv.2.1, hstate, ?_⟩
  · exact List.mem_filter.mpr ⟨List.mem_map_of_mem hv.1, (hq v).trans hv.2.2⟩
  intro k hk hnode hne
  obtain ⟨hk, hqk⟩ := List.mem_filter.mp hk
  obtain ⟨w, hw, rfl⟩ := List.mem_map.mp hk
  rw [hq w] at hqk
  have hle : w.versionNumber ≤ v.versionNumber :=
    List.le_of_mem_argmax (List.mem_filter.mpr ⟨hw, decide_eq_true ⟨hnode, hqk⟩⟩) hlatest
  refine lt_of_le_of_ne hle fun heq => hne ?_
  have hsame : (w.nodeId, w.versionNumber) = (v.nodeId, v.versionNumber) :=
    Prod.ext (hnode.trans hv.2.1.symm) heq
  rw [List.inj_on_of_nodup_map hunique hw hv.1 hsame]

/-- A transition that is applied starts in the state the node is committed in. -/
theorem Loaded.lastIn {env : Env} {s : Db} {nodeId : Uuid} {transitionId : String}
    {transition : LifecycleTransitionConfig} (h : Loaded env s.toTables nodeId transitionId transition) :
    LastIn s.committedKeys nodeId transition.fromStateId := by
  obtain ⟨-, v, hv, hstate⟩ := h
  exact lastIn_of_latest (fun _ => rfl) s.valid.uq_node_version hv hstate

theorem Loaded.applicable {env : Env} {t : Tables} {nodeId : Uuid} {transitionId : String}
    {transition : LifecycleTransitionConfig} (h : Loaded env t nodeId transitionId transition) :
    Applicable env t (nodeId, transitionId) := by
  obtain ⟨hcached, v, hv, hstate⟩ := h
  have hmem := List.argmax_mem hv
  rw [List.mem_filter, decide_eq_true_eq] at hmem
  exact ⟨transition, hcached, v, hmem.1, hmem.2.1, hmem.2.2, hstate⟩

/-- Where the transaction brought a child decides whether a rule skips it. -/
theorem LastIn.isAlreadyThere {t : Tables} {rule : CascadeRule} {x : Uuid} {state : String}
    (h : LastIn (t.keysOf x) rule.childId state) :
    t.isAlreadyThere rule x = decide (rule.toStateId = some state) := by
  obtain ⟨k, hk, hnode, hstate, hmax⟩ := h
  obtain ⟨hk, hkx⟩ := List.mem_filter.mp hk
  obtain ⟨v, hv, rfl⟩ := List.mem_map.mp hk
  have hvrow : v ∈ t.versions.filter fun w => w.nodeId = rule.childId ∧ w.txId = x :=
    List.mem_filter.mpr ⟨hv, decide_eq_true ⟨hnode, of_decide_eq_true hkx⟩⟩
  obtain ⟨w, hw⟩ : ∃ w, t.findOpenVersionInTx rule.childId x = some w := by
    cases hfind : t.findOpenVersionInTx rule.childId x with
    | some w => exact ⟨w, rfl⟩
    | none =>
      rw [List.argmax_eq_none.mp hfind] at hvrow
      cases hvrow
  have hwmem := List.argmax_mem hw
  rw [List.mem_filter, decide_eq_true_eq] at hwmem
  have hle : v.versionNumber ≤ w.versionNumber := List.le_of_mem_argmax hvrow hw
  -- the last row of the transaction is the one with the state
  have hsame : w.stateKey = v.stateKey := by
    by_contra hne
    have hwk : w.stateKey ∈ t.keysOf x :=
      List.mem_filter.mpr ⟨List.mem_map_of_mem hwmem.1, decide_eq_true hwmem.2.2⟩
    have hlt := hmax w.stateKey hwk hwmem.2.1 hne
    simp only [VersionRow.stateKey] at hlt
    omega
  have hwstate : w.lifecycleStateId = some state :=
    (congrArg StateKey.lifecycleStateId hsame).trans hstate
  simp only [Tables.isAlreadyThere, Tables.getCurrentVersionForTx, hw, Option.some_or]
  refine decide_eq_decide.mpr ⟨?_, ?_⟩
  · intro h
    rw [← h.2, hwstate]
  · intro h
    exact ⟨hwmem.2.2, hwstate.trans h.symm⟩

/-! ## What the work on a node changes -/

theorem SameView.committedKeys {t t' : Tables} (h : SameView t t') :
    t'.committedKeys = t.committedKeys := by
  simp only [Tables.committedKeys, h.keys, Tables.isCommitted_congr h.txs]

theorem SameView.keysOf {t t' : Tables} (h : SameView t t') (x : Uuid) : t'.keysOf x = t.keysOf x := by
  simp only [Tables.keysOf, h.keys]

/-- **The work on a node** leaves at most the committed versions there were, and adds to those
of its transaction one of the node, in the target state and above the others. -/
theorem Worked.keys {nodeId x : Uuid} {state : String} {t t' : Tables}
    (h : Worked nodeId x state t t') :
    t'.txs = t.txs ∧ t'.committedKeys.Sublist t.committedKeys ∧
      ∃ k : StateKey, t'.keysOf x = t.keysOf x ++ [k] ∧ k.nodeId = nodeId
        ∧ k.lifecycleStateId = some state
        ∧ ∀ k' ∈ t.keysOf x, k'.nodeId = k.nodeId → k'.versionNumber < k.versionNumber := by
  obtain ⟨t₁, hentered, hcut⟩ := h
  obtain ⟨id, number, hkeys, -, hnumber⟩ := hentered.key
  obtain ⟨q, hcutKeys, hq⟩ := hcut.keys
  have htxs : t'.txs = t.txs := hcut.txs.trans hentered.txs
  have hcommitted : t.isCommitted x = false := Tables.not_isCommitted_of_isOpen hentered.isOpen
  have hcommitted₁ : t₁.isCommitted x = false := by
    rw [Tables.isCommitted_congr hentered.txs]
    exact hcommitted
  have hsame : t₁.committedKeys = t.committedKeys := by
    simp only [Tables.committedKeys, hkeys, Tables.isCommitted_congr hentered.txs,
      List.filter_append, List.filter_cons, hcommitted, List.filter_nil, List.append_nil,
      Bool.false_eq_true, if_false]
  -- what was cut is committed, and so not of this transaction
  have hown : t'.keysOf x = t₁.keysOf x := by
    unfold Tables.keysOf
    rw [hcutKeys, List.filter_filter]
    refine List.filter_congr fun k hk => ?_
    by_cases hkx : k.txId = x
    · have hstays : q k = true := by
        by_contra hgone
        have hk := hq k hk (Bool.eq_false_iff.mpr hgone)
        rw [hkx, hcommitted₁] at hk
        cases hk
      simp [hstays]
    · simp [hkx]
  refine ⟨htxs, ?_, ⟨id, nodeId, number, some state, x⟩, ?_, rfl, rfl, ?_⟩
  · rw [← hsame]
    unfold Tables.committedKeys
    rw [hcutKeys]
    simp only [Tables.isCommitted_congr hcut.txs]
    exact List.filter_sublist.filter _
  · rw [hown]
    simp only [Tables.keysOf, hkeys, List.filter_append, List.filter_cons, List.filter_nil,
      decide_true, if_true]
  · intro k' hk' hnode
    obtain ⟨hk', hx⟩ := List.mem_filter.mp hk'
    exact hnumber k' hk' hnode (of_decide_eq_true hx)

/-- A store as it is later in a cascade that started in `t₀`. -/
structure Later (t₀ t : Tables) : Prop where
  txs : t.txs = t₀.txs
  idents : t.nodes.map NodeRow.ident = t₀.nodes.map NodeRow.ident
  committed : t.committedKeys ⊆ t₀.committedKeys
  links : ∀ nodeId, ∀ l ∈ t.links, t.isLinkOf nodeId l = true →
    l ∈ t₀.links ∧ t₀.isLinkOf nodeId l = true

theorem Later.refl (t : Tables) : Later t t := ⟨rfl, rfl, fun _ h => h, fun _ _ hl h => ⟨hl, h⟩⟩

/-- Which node a link belongs to is read off the version it hangs on. -/
theorem isLinkOf_iff {t : Tables} {nodeId : Uuid} {l : LinkRow} : t.isLinkOf nodeId l = true ↔
    ∃ k ∈ t.stateKeys, k.id = l.sourceNodeVersionId ∧ k.nodeId = nodeId := by
  simp only [Tables.isLinkOf, List.any_eq_true, decide_eq_true_eq, Tables.stateKeys, List.mem_map,
    exists_exists_and_eq_and, VersionRow.stateKey]

theorem Later.sameView {t₀ t t' : Tables} (h : Later t₀ t) (hview : SameView t t') : Later t₀ t' where
  txs := hview.txs.trans h.txs
  idents := hview.idents.trans h.idents
  committed := by
    rw [hview.committedKeys]
    exact h.committed
  links := by
    intro nodeId l hl hlink
    rw [hview.links] at hl
    rw [isLinkOf_iff, hview.keys, ← isLinkOf_iff] at hlink
    exact h.links nodeId l hl hlink

/-- The new version has no links yet. -/
theorem Later.worked {t₀ t' : Tables} {s : Db} {nodeId x : Uuid} {state : String}
    (h : Later t₀ s.toTables) (hworked : Worked nodeId x state s.toTables t') : Later t₀ t' := by
  obtain ⟨htxs, hcommitted, -⟩ := hworked.keys
  obtain ⟨t₁, hentered, hcut⟩ := hworked
  obtain ⟨id, number, hkeys, hid, -⟩ := hentered.key
  obtain ⟨q, hcutKeys, -⟩ := hcut.keys
  refine ⟨htxs.trans h.txs, (hcut.idents.trans hentered.idents).trans h.idents,
    fun k hk => h.committed (hcommitted.subset hk), ?_⟩
  intro n l hl hlink
  have hl : l ∈ s.links := hentered.links ▸ hcut.links hl
  refine h.links n l hl (isLinkOf_iff.mpr ?_)
  obtain ⟨k, hk, hkid, hkn⟩ := isLinkOf_iff.mp hlink
  rw [hcutKeys] at hk
  have hk₁ := (List.mem_filter.mp hk).1
  rw [hkeys] at hk₁
  rcases List.mem_append.mp hk₁ with hold | hnew
  · exact ⟨k, hold, hkid, hkn⟩
  · -- a link hangs on a version that exists
    obtain ⟨v, hv, hvid⟩ := List.mem_map.mp (s.valid.fk_link_version l hl)
    rw [List.mem_singleton.mp hnew] at hkid
    exact absurd (hvid.trans hkid.symm) (hid v.stateKey (List.mem_map_of_mem hv))

/-- Links resolve by the identities of the nodes. -/
theorem resolveChildNodeId_congr {env : Env} {t t' : Tables}
    (h : t'.nodes.map NodeRow.ident = t.nodes.map NodeRow.ident) (logicalId targetType : String) :
    resolveChildNodeId env t' logicalId targetType = resolveChildNodeId env t logicalId targetType := by
  -- the answer is a function of the identities
  have hident : ∀ t : Tables, resolveChildNodeId env t logicalId targetType =
      let rows := (t.nodes.map NodeRow.ident).filter fun i => i.2.1 = some logicalId
      match rows.find? (·.2.2 = targetType) with
      | some i => some i.1
      | none => ((rows.filter (·.2.2 ∈ acceptedChildTypes env targetType)).getLast?).map (·.1) := by
    intro t
    have hrows : ((t.nodes.map NodeRow.ident).filter fun i => i.2.1 = some logicalId)
        = (t.nodesByLogicalId logicalId).map NodeRow.ident := List.filter_map
    simp only [resolveChildNodeId, hrows]
    generalize t.nodesByLogicalId logicalId = rows
    have hfind : (rows.map NodeRow.ident).find? (fun i => i.2.2 = targetType)
        = (rows.find? fun n => n.nodeTypeId = targetType).map NodeRow.ident := List.find?_map
    rw [hfind]
    cases rows.find? (fun n => n.nodeTypeId = targetType) with
    | none =>
      simp only [Option.map_none, List.filter_map, List.getLast?_map, Option.map_map]
      rfl
    | some n => rfl
  rw [hident, hident, h]

/-- **A later call stays on the graph.** -/
theorem Later.leads {env : Env} {t₀ t : Tables} {nodeId : Uuid} {transitionId : String}
    {rule : CascadeRule} (h : Later t₀ t) (hrule : rule ∈ resolveCascadeRules env t nodeId transitionId) :
    rule ∈ resolveCascadeRules env t₀ nodeId transitionId := by
  obtain ⟨l, hl, childId, hchild, hc⟩ := mem_resolveCascadeRules.mp hrule
  obtain ⟨hmem, hl⟩ := List.mem_filter.mp hl
  obtain ⟨hlink, hself, hat⟩ := of_decide_eq_true hl
  obtain ⟨hmem₀, hlink₀⟩ := h.links nodeId l hmem hlink
  rw [resolveChildNodeId_congr h.idents] at hchild
  exact mem_resolveCascadeRules.mpr ⟨l, List.mem_filter.mpr ⟨hmem₀,
    decide_eq_true ⟨hlink₀, hself, hat⟩⟩, childId, hchild, hc⟩

/-- While no link goes, the rules stay what they are. -/
theorem Later.rules_eq {env : Env} {t₀ t : Tables} (h : Later t₀ t) (hlinks : t.links = t₀.links)
    (hkeys : t₀.stateKeys ⊆ t.stateKeys) (nodeId : Uuid) (transitionId : String) :
    resolveCascadeRules env t nodeId transitionId = resolveCascadeRules env t₀ nodeId transitionId := by
  have hcascade : t.cascadeLinks nodeId = t₀.cascadeLinks nodeId := by
    unfold Tables.cascadeLinks
    rw [hlinks]
    refine List.filter_congr fun l hl => ?_
    have hlink : t.isLinkOf nodeId l = t₀.isLinkOf nodeId l := by
      rw [Bool.eq_iff_iff]
      constructor
      · intro hs
        exact (h.links nodeId l (hlinks ▸ hl) hs).2
      · intro hs
        obtain ⟨k, hk, hlink⟩ := isLinkOf_iff.mp hs
        exact isLinkOf_iff.mpr ⟨k, hkeys hk, hlink⟩
    rw [hlink]
  simp only [resolveCascadeRules, hcascade, resolveChildNodeId_congr h.idents]

theorem Later.applicable {env : Env} {t₀ t : Tables} {p : Applied} (h : Later t₀ t)
    (happlicable : Applicable env t p) : Applicable env t₀ p := by
  obtain ⟨transition, hcached, v, hv, hnode, hcommitted, hstate⟩ := happlicable
  have hkey : v.stateKey ∈ t.committedKeys := List.mem_filter.mpr ⟨List.mem_map_of_mem hv, hcommitted⟩
  obtain ⟨hkey, hcommitted⟩ := List.mem_filter.mp (h.committed hkey)
  obtain ⟨w, hw, hwv⟩ := List.mem_map.mp hkey
  simp only [VersionRow.stateKey, StateKey.mk.injEq] at hwv
  refine ⟨transition, hcached, w, hw, hwv.2.1.trans hnode, ?_, hwv.2.2.2.1.trans hstate⟩
  rw [hwv.2.2.2.2]
  exact hcommitted

end PlmCore.Psm
