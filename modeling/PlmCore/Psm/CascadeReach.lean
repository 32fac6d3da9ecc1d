/-
What a cascade reaches, and what it leaves of the store.

A rule fires for a child that is committed in its state and that the transaction has not brought
to its target yet. The nodes a transition reaches are those that firing rules lead to from the
root, and none of this depends on the order in which links and rules are listed. When no node
is reached under two transitions and no state a node enters or leaves collapses the history, a
transition that returns made exactly one version of each node it reaches, in the target state of
the node's transition, and wrote no other version and no other node row.
-/
import PlmCore.Psm.CascadeGraph
import PlmCore.Psm.LifecycleEffect
import PlmCore.Psm.MetaModel
import PlmCore.Psm.Outside

set_option autoImplicit false

namespace PlmCore.Psm

open PlmCore.Lib Relation

/-! ## What is reached -/

/-- The node is committed in the state. -/
def Tables.CommittedIn (t : Tables) (nodeId : Uuid) (state : String) : Prop :=
  ∃ v, t.getLastCommittedVersion nodeId = some v ∧ v.lifecycleStateId = some state

/-- A rule of the cascade of `p` is for `q`, whose node is committed in the rule's state. -/
def Matches (env : Env) (t : Tables) (p q : Applied) : Prop :=
  ∃ rule ∈ resolveCascadeRules env t p.1 p.2, q = (rule.childId, rule.childTransitionId)
    ∧ t.CommittedIn rule.childId rule.childFromStateId

/-- And the transaction did not bring the node to the rule's target before. -/
def Fires (env : Env) (x : Uuid) (t : Tables) (p q : Applied) : Prop :=
  ∃ rule ∈ resolveCascadeRules env t p.1 p.2, q = (rule.childId, rule.childTransitionId)
    ∧ t.CommittedIn rule.childId rule.childFromStateId ∧ t.isAlreadyThere rule x = false

/-- The root, and what firing rules lead to from it. -/
def Reached (env : Env) (x : Uuid) (t : Tables) (root : Applied) : Applied → Prop :=
  ReflTransGen (Fires env x t) root

/-- No two transitions are meant for one node: not by the rules of what is reached, and not by
them and the root. -/
def Unambiguous (env : Env) (x : Uuid) (t : Tables) (root : Applied) : Prop :=
  ∀ q q', (q = root ∨ ∃ p, Reached env x t root p ∧ Matches env t p q) →
    (q' = root ∨ ∃ p, Reached env x t root p ∧ Matches env t p q') → q.1 = q'.1 → q.2 = q'.2

/-- The states that what is reached leaves and enters collapse no history in the transaction. -/
def KeepsHistory (env : Env) (x : Uuid) (t : Tables) (root : Applied) : Prop :=
  ∀ q transition, Reached env x t root q → env.getCachedTransition q.2 = some transition →
    env.effectiveActions transition.fromStateId .ON_EXIT .TRANSACTIONAL = []
      ∧ env.effectiveActions transition.toStateId .ON_ENTER .TRANSACTIONAL = []

/-- The rules of the store are coherent: a rule's state is where its transition starts. -/
def Coherent (env : Env) (t : Tables) : Prop :=
  ∀ nodeId transitionId, ∀ rule ∈ resolveCascadeRules env t nodeId transitionId, ∀ transition,
    env.getCachedTransition rule.childTransitionId = some transition →
      rule.childFromStateId = transition.fromStateId

section Reached

variable {env : Env} {x : Uuid} {t : Tables} {root p q : Applied}

theorem Fires.matches (h : Fires env x t p q) : Matches env t p q := by
  obtain ⟨rule, hrule, hq, hcommitted, -⟩ := h
  exact ⟨rule, hrule, hq, hcommitted⟩

/-- What is reached is meant for its node. -/
theorem Reached.meant (h : Reached env x t root q) :
    q = root ∨ ∃ p, Reached env x t root p ∧ Matches env t p q := by
  rcases ReflTransGen.cases_tail h with rfl | ⟨p, hp, hfires⟩
  · exact Or.inl rfl
  · exact Or.inr ⟨p, hp, hfires.matches⟩

theorem Unambiguous.eq_of_reached (h : Unambiguous env x t root) (hp : Reached env x t root p)
    (hq : Reached env x t root q) (hnode : p.1 = q.1) : p = q :=
  Prod.ext hnode (h p q hp.meant hq.meant hnode)

/-- **Accepted rules are coherent.** -/
theorem coherent_of_accepted (h : CascadesAccepted env) (t : Tables) : Coherent env t := by
  intro nodeId transitionId rule hrule transition hcached
  obtain ⟨l, -, childId, -, c, hc, -, rfl⟩ := mem_resolveCascadeRules.mp hrule
  cases hlt : env.getLinkType l.linkTypeId with
  | none => simp [hlt] at hc
  | some lt =>
    rw [hlt] at hc
    obtain ⟨child, hchild, hfrom⟩ := validateCascadeRule_ok (h lt (List.mem_of_find?_eq_some hlt) c hc)
    rw [hfrom]
    exact transitionRow_fromStateId hcached hchild

end Reached

/-! ## The store on the way -/

/-- **The version of a level** is appended to the others. -/
theorem createVersion_appends {env : Env} {ctx : Caller} {nodeId x vid : Uuid} {ct : ChangeType}
    {strategy : Option VersionStrategy} {state : String} {attributes : List (String × Option String)}
    {description : Option String} {s s' : Db}
    (h : Returns (createVersion env ctx nodeId x ct strategy (some state) attributes description) s vid
      s') :
    s.isOpen x = true ∧ s'.txs = s.txs ∧ s'.nodes = s.nodes ∧ s'.links = s.links ∧
      ∃ r : VersionRow, s'.versions = s.versions ++ [r] ∧ r.nodeId = nodeId ∧ r.txId = x
        ∧ r.lifecycleStateId = some state ∧ r.id ∉ s.versionIds
        ∧ ∀ w ∈ s.versions, w.nodeId = nodeId → w.txId = x → w.versionNumber < r.versionNumber := by
  obtain ⟨hopen, numbering, row, hrow, hvid, hs'⟩ := createVersion_ok h
  have hfresh : row.id ∉ s.versionIds := by
    apply fresh_of_addVersion
    rw [← hs']
    exact s'.valid
  refine ⟨hopen, by rw [hs']; rfl, by rw [hs']; rfl, by rw [hs']; rfl, ?_⟩
  -- the digest is stored in the new row only
  have hold : ∀ fp, s.versions.map (fun v => if v.id = row.id then { v with fingerprint := some fp }
      else v) = s.versions := by
    intro fp
    refine (List.map_congr_left fun v hv => ?_).trans (List.map_id _)
    have hne : v.id ≠ row.id := fun heq => hfresh (heq ▸ List.mem_map_of_mem hv)
    exact if_neg hne
  refine ⟨{ row with fingerprint := some (env.sha256 (fingerprintText ((s.insertVersionRows row
    (putAll (s.currentAttributes nodeId x) attributes) (s.currentDomains nodeId x)).contentOf
      row.nodeId row))) }, ?_, ?_, ?_, ?_, hfresh, ?_⟩
  · rw [hs']
    simp only [Tables.addVersion, Tables.refresh, Tables.setFingerprint, Tables.updateVersion,
      Tables.insertVersionRows, Tables.insertDomains, Tables.insertAttributes, Tables.insertVersion,
      Tables.takeId, List.map_append, List.map_cons, List.map_nil, if_true, hold]
  · rw [hrow]
    rfl
  · rw [hrow]
    rfl
  · rw [hrow]
    rfl
  · intro w hw hnode htx
    rw [hrow]
    exact Tables.number_lt_next (List.mem_map_of_mem hw) hnode htx

/-- A store that grew by versions of the transaction, one of each node. -/
structure Progress (x : Uuid) (s₀ : Db) (rows : List VersionRow) (s : Db) : Prop where
  txs : s.txs = s₀.txs
  idents : s.nodes.map NodeRow.ident = s₀.nodes.map NodeRow.ident
  links : s.links = s₀.links
  versions : s.versions = s₀.versions ++ rows
  nodes : ∀ m, (∀ r ∈ rows, r.nodeId ≠ m) → s.node? m = s₀.node? m
  own : ∀ r ∈ rows, r.txId = x ∧ s₀.isOpen x = true ∧ r.id ∉ s₀.versionIds
  above : ∀ r ∈ rows, ∀ w ∈ s₀.versions, w.nodeId = r.nodeId → w.txId = x →
    w.versionNumber < r.versionNumber
  once : (rows.map (·.nodeId)).Nodup

namespace Progress

variable {env : Env} {x : Uuid} {s₀ s s' : Db} {rows : List VersionRow} {nodeId : Uuid}

theorem start (x : Uuid) (s₀ : Db) : Progress x s₀ [] s₀ :=
  ⟨rfl, rfl, rfl, (List.append_nil _).symm, fun _ _ => rfl, by simp, by simp, List.nodup_nil⟩

theorem not_committed (h : Progress x s₀ rows s) {r : VersionRow} (hr : r ∈ rows) :
    s₀.isCommitted r.txId = false := by
  rw [(h.own r hr).1]
  exact Tables.not_isCommitted_of_isOpen (h.own r hr).2.1

/-- The committed versions are those of the start. -/
theorem getLastCommittedVersion (h : Progress x s₀ rows s) (m : Uuid) :
    s.getLastCommittedVersion m = s₀.getLastCommittedVersion m := by
  unfold Tables.getLastCommittedVersion
  rw [h.versions, List.filter_append]
  have hnone : rows.filter (fun v => decide (v.nodeId = m ∧ s.isCommitted v.txId = true)) = [] := by
    rw [List.filter_eq_nil_iff]
    intro r hr hcommitted
    rw [decide_eq_true_eq, Tables.isCommitted_congr h.txs, h.not_committed hr] at hcommitted
    cases hcommitted.2
  rw [hnone, List.append_nil]
  simp only [Tables.isCommitted_congr h.txs]

theorem committedIn (h : Progress x s₀ rows s) {m : Uuid} {state : String} :
    s.CommittedIn m state ↔ s₀.CommittedIn m state := by
  unfold Tables.CommittedIn
  rw [h.getLastCommittedVersion]

/-- A node without a new version is where it was in the transaction. -/
theorem isAlreadyThere (h : Progress x s₀ rows s) {rule : CascadeRule}
    (hnone : ∀ r ∈ rows, r.nodeId ≠ rule.childId) :
    s.isAlreadyThere rule x = s₀.isAlreadyThere rule x := by
  have hopen : s.findOpenVersionInTx rule.childId x = s₀.findOpenVersionInTx rule.childId x := by
    unfold Tables.findOpenVersionInTx
    rw [h.versions, List.filter_append]
    have hnil : rows.filter (fun v => decide (v.nodeId = rule.childId ∧ v.txId = x)) = [] := by
      rw [List.filter_eq_nil_iff]
      intro r hr hsame
      exact hnone r hr (of_decide_eq_true hsame).1
    rw [hnil, List.append_nil]
  simp only [Tables.isAlreadyThere, Tables.getCurrentVersionForTx, hopen, h.getLastCommittedVersion]

/-- A node with a new version is in its state. -/
theorem lastIn (h : Progress x s₀ rows s) {r : VersionRow} (hr : r ∈ rows) {state : String}
    (hstate : r.lifecycleStateId = some state) : LastIn (s.keysOf x) r.nodeId state := by
  refine ⟨r.stateKey, ?_, rfl, hstate, ?_⟩
  · refine List.mem_filter.mpr ⟨List.mem_map_of_mem ?_, decide_eq_true (h.own r hr).1⟩
    rw [h.versions]
    exact List.mem_append_right _ hr
  intro k hk hnode hne
  obtain ⟨hk, hx⟩ := List.mem_filter.mp hk
  obtain ⟨w, hw, rfl⟩ := List.mem_map.mp hk
  rw [h.versions] at hw
  rcases List.mem_append.mp hw with hold | hnew
  · exact h.above r hr w hold hnode (of_decide_eq_true hx)
  · exact absurd (congrArg VersionRow.stateKey (List.inj_on_of_nodup_map h.once hnew hr hnode)) hne

theorem later (h : Progress x s₀ rows s) : Later s₀.toTables s.toTables where
  txs := h.txs
  idents := h.idents
  committed := by
    intro k hk
    obtain ⟨hk, hcommitted⟩ := List.mem_filter.mp hk
    obtain ⟨w, hw, rfl⟩ := List.mem_map.mp hk
    rw [Tables.isCommitted_congr h.txs] at hcommitted
    rw [h.versions] at hw
    rcases List.mem_append.mp hw with hold | hnew
    · exact List.mem_filter.mpr ⟨List.mem_map_of_mem hold, hcommitted⟩
    · have hnot := h.not_committed hnew
      rw [VersionRow.stateKey, hnot] at hcommitted
      cases hcommitted
  links := by
    intro n l hl hlink
    rw [h.links] at hl
    refine ⟨hl, isLinkOf_iff.mpr ?_⟩
    obtain ⟨k, hk, hid, hnode⟩ := isLinkOf_iff.mp hlink
    obtain ⟨w, hw, rfl⟩ := List.mem_map.mp hk
    rw [h.versions] at hw
    rcases List.mem_append.mp hw with hold | hnew
    · exact ⟨w.stateKey, List.mem_map_of_mem hold, hid, hnode⟩
    · -- no link hangs on a new version
      have hexists := s₀.valid.fk_link_version l hl
      rw [← hid] at hexists
      exact absurd hexists (h.own w hnew).2.2

/-- The rules are those of the start. -/
theorem rules (h : Progress x s₀ rows s) (nodeId : Uuid) (transitionId : String) :
    resolveCascadeRules env s.toTables nodeId transitionId
      = resolveCascadeRules env s₀.toTables nodeId transitionId := by
  refine h.later.rules_eq h.links (fun k hk => ?_) nodeId transitionId
  obtain ⟨w, hw, rfl⟩ := List.mem_map.mp hk
  exact List.mem_map_of_mem (h.versions ▸ List.mem_append_left _ hw)

theorem withEvents (h : Progress x s₀ rows s) {es : List PlmEvent}
    (hs' : s'.toTables = s.withEvents es) : Progress x s₀ rows s' := by
  constructor
  · rw [hs']
    exact h.txs
  · rw [hs']
    exact h.idents
  · rw [hs']
    exact h.links
  · rw [hs']
    exact h.versions
  · rw [hs']
    exact h.nodes
  · exact h.own
  · exact h.above
  · exact h.once

/-- The lock of a node is in its own row. -/
theorem lock (h : Progress x s₀ rows s) {ctx : Caller} (hnode : ∃ r ∈ rows, r.nodeId = nodeId)
    (hlock : Returns (tryLock ctx nodeId) s () s') : Progress x s₀ rows s' := by
  obtain ⟨n, -, ⟨-, rfl⟩ | ⟨-, hs'⟩⟩ := tryLock_ok hlock
  · exact h
  have hrow : ∀ m, m ≠ nodeId →
      (s.setLock nodeId (some ctx.userId) (some ctx.now)).node? m = s.node? m := by
    intro m hm
    unfold Tables.node? Tables.setLock
    rw [List.find?_map]
    have hfind : s.nodes.find? ((fun n : NodeRow => decide (n.id = m)) ∘ fun n => if n.id = nodeId then
        { n with lockedBy := some ctx.userId, lockedAt := some ctx.now } else n)
        = s.nodes.find? fun n => decide (n.id = m) := by
      congr 1
      funext n
      by_cases hn : n.id = nodeId <;> simp [hn]
    rw [hfind]
    cases hfound : s.nodes.find? fun n => decide (n.id = m) with
    | none => rfl
    | some n =>
      have hid : n.id = m := by simpa using List.find?_some hfound
      rw [Option.map_some, if_neg (hid ▸ hm)]
  have hlocked : Progress x s₀ rows ⟨s.setLock nodeId (some ctx.userId) (some ctx.now),
      s.valid.setLock nodeId _ _⟩ := by
    refine ⟨h.txs, ?_, h.links, h.versions, ?_, h.own, h.above, h.once⟩
    · rw [← h.idents]
      exact (sameView_setLock nodeId _ _ s.toTables).idents
    · intro m hm
      rw [← h.nodes m hm]
      obtain ⟨r, hr, hrnode⟩ := hnode
      exact hrow m fun heq => hm r hr (hrnode.trans heq.symm)
  exact hlocked.withEvents hs'

/-- **A level adds one version**, of a node that has none yet. -/
theorem level (h : Progress x s₀ rows s) {ctx : Caller} {vid : Uuid} {ct : ChangeType}
    {strategy : Option VersionStrategy} {state : String} {attributes : List (String × Option String)}
    {description : Option String} (hnone : ∀ r ∈ rows, r.nodeId ≠ nodeId)
    (hcreate : Returns (createVersion env ctx nodeId x ct strategy (some state) attributes description)
      s vid s') : ∃ r, Progress x s₀ (rows ++ [r]) s' ∧ r.nodeId = nodeId
        ∧ r.lifecycleStateId = some state := by
  obtain ⟨hopen, htxs, hnodes, hlinks, r, hversions, hrnode, hrx, hrstate, hfresh, habove⟩ :=
    createVersion_appends hcreate
  have hcases : ∀ w ∈ rows ++ [r], w ∈ rows ∨ w = r := by
    intro w hw
    rcases List.mem_append.mp hw with hold | hnew
    · exact Or.inl hold
    · exact Or.inr (List.mem_singleton.mp hnew)
  -- the row is appended: transaction, nodes and links are as they were
  refine ⟨r, ⟨htxs.trans h.txs, by rw [hnodes]; exact h.idents, hlinks.trans h.links, ?_, ?_, ?_, ?_, ?_⟩,
    hrnode, hrstate⟩
  · rw [hversions, h.versions, List.append_assoc]
  · intro m hm
    rw [← h.nodes m fun w hw => hm w (List.mem_append_left _ hw)]
    unfold Tables.node?
    rw [hnodes]
  · intro w hw
    rcases hcases w hw with hold | rfl
    · exact h.own w hold
    -- the row is of the open transaction and was not there at the start
    · refine ⟨hrx, ?_, fun hmem => hfresh ?_⟩
      · rw [← Tables.isOpen_congr h.txs]
        exact hopen
      · unfold Tables.versionIds
        rw [h.versions, List.map_append]
        exact List.mem_append_left _ hmem
  · intro w hw v hv hnode htx
    rcases hcases w hw with hold | rfl
    · exact h.above w hold v hv hnode htx
    · exact habove v (h.versions ▸ List.mem_append_left _ hv) (hnode.trans hrnode) htx
  · rw [List.map_append, List.map_cons, List.map_nil]
    -- a node gets one row, since it had none so far
    refine List.nodup_append.mpr ⟨h.once, List.nodup_singleton _, ?_⟩
    rintro a ha b hb rfl
    obtain ⟨w, hw, hwa⟩ := List.mem_map.mp ha
    rw [List.mem_singleton, hrnode] at hb
    exact hnone w hw (hwa.trans hb)

end Progress

/-! ## The recursion -/

/-- New versions are of reached nodes, in the target states of their transitions. -/
def Placed (env : Env) (x : Uuid) (t : Tables) (root : Applied) (rows : List VersionRow) : Prop :=
  ∀ r ∈ rows, ∃ q transition, Reached env x t root q ∧ q.1 = r.nodeId
    ∧ env.getCachedTransition q.2 = some transition
    ∧ r.lifecycleStateId = some transition.toStateId

/-- What fires from the nodes of `more` has a new version. -/
def Finished (env : Env) (x : Uuid) (t : Tables) (root : Applied) (rows more : List VersionRow) :
    Prop :=
  ∀ r ∈ more, ∀ p, Reached env x t root p → p.1 = r.nodeId → ∀ q, Fires env x t p q →
    ∃ w ∈ rows ++ more, w.nodeId = q.1

section Recursion

variable {env : Env} {ctx : Caller} {x : Uuid} {s₀ : Db} {root : Applied}

theorem Placed.append {rows more : List VersionRow} (h : Placed env x s₀.toTables root rows)
    (hmore : Placed env x s₀.toTables root more) : Placed env x s₀.toTables root (rows ++ more) := by
  intro r hr
  rcases List.mem_append.mp hr with hr | hr
  · exact h r hr
  · exact hmore r hr

theorem Finished.append {rows more last : List VersionRow}
    (h : Finished env x s₀.toTables root rows more)
    (hlast : Finished env x s₀.toTables root (rows ++ more) last) :
    Finished env x s₀.toTables root rows (more ++ last) := by
  intro r hr p hp hnode q hq
  rw [← List.append_assoc]
  rcases List.mem_append.mp hr with hr | hr
  · obtain ⟨w, hw, hwq⟩ := h r hr p hp hnode q hq
    exact ⟨w, List.mem_append_left _ hw, hwq⟩
  · exact hlast r hr p hp hnode q hq

/-- What a call leaves: further versions of reached nodes, complete below them. -/
def Goes (env : Env) (x : Uuid) (s₀ : Db) (root : Applied) (rows : List VersionRow) (s' : Db)
    (more : List VersionRow) : Prop :=
  Progress x s₀ (rows ++ more) s' ∧ Placed env x s₀.toTables root (rows ++ more)
    ∧ Finished env x s₀.toTables root rows more

/-- What is shown of the calls of one depth. -/
def CallsReach (env : Env) (ctx : Caller) (x : Uuid) (s₀ : Db) (root : Applied) (depth : Nat) : Prop :=
  ∀ (p : Applied) (s s' : Db) (result : TransitionResult) (rows : List VersionRow),
    Returns (applyTransitionInternal env ctx x depth p.1 p.2) s result s' →
    Reached env x s₀.toTables root p → Progress x s₀ rows s → Placed env x s₀.toTables root rows →
    (∀ r ∈ rows, r.nodeId ≠ p.1) →
    ∃ more, Goes env x s₀ root rows s' more ∧ ∃ r ∈ more, r.nodeId = p.1

/-- **One rule of a cascade.** A child it fires for has a version afterwards. -/
theorem child_reaches (hcoherent : Coherent env s₀.toTables)
    (hsingle : Unambiguous env x s₀.toTables root) {depth : Nat}
    (ih : CallsReach env ctx x s₀ root depth) {p : Applied} (hp : Reached env x s₀.toTables root p)
    {rule : CascadeRule} (hrule : rule ∈ resolveCascadeRules env s₀.toTables p.1 p.2) {s s' : Db}
    {r : List String × List StateActionContext} {rows : List VersionRow}
    (hrun : Returns (cascadeChild (guardedTransition env ctx (applyTransitionInternal env ctx x depth))
      x rule) s r s') (herrors : r.1 = []) (hprogress : Progress x s₀ rows s)
    (hplaced : Placed env x s₀.toTables root rows) :
    ∃ more, Goes env x s₀ root rows s' more ∧
      (s₀.CommittedIn rule.childId rule.childFromStateId → s₀.isAlreadyThere rule x = false →
        ∃ w ∈ rows ++ more, w.nodeId = rule.childId) := by
  rcases cascadeChild_ok hrun herrors with ⟨rfl, -, hskip⟩ | ⟨hthere, result, hcall, -⟩
  · refine ⟨[], ⟨?_, ?_, ?_⟩, ?_⟩
    · rwa [List.append_nil]
    · rwa [List.append_nil]
    · intro w hw
      cases hw
    intro hcommitted hthere
    by_contra hnone
    simp only [List.append_nil, not_exists, not_and] at hnone
    rcases hskip with hskip | hskip
    · rw [hprogress.isAlreadyThere hnone, hthere] at hskip
      cases hskip
    · obtain ⟨v, hv, hstate⟩ := hprogress.committedIn.mpr hcommitted
      simp [Tables.inCascadeScope, hv, hstate] at hskip
  -- the child's transition returned, so it starts where the child is committed
  obtain ⟨transition, hload⟩ : ∃ transition,
      Loaded env s.toTables rule.childId rule.childTransitionId transition := by
    cases depth with
    | zero => exact absurd hcall returns_throw
    | succ depth =>
      obtain ⟨transition, -, -, -, -, -, -, -, -, -, hload, -⟩ := applyTransitionInternal_ok hcall
      exact ⟨transition, hload⟩
  have hcommitted : s₀.CommittedIn rule.childId rule.childFromStateId := by
    rw [hcoherent p.1 p.2 rule hrule transition hload.1]
    exact hprogress.committedIn.mp hload.2
  have hmatches : Matches env s₀.toTables p (rule.childId, rule.childTransitionId) :=
    ⟨rule, hrule, rfl, hcommitted⟩
  by_cases hin : ∃ w ∈ rows, w.nodeId = rule.childId
  · -- a child with a version is where the rule brings it
    obtain ⟨w, hw, hwnode⟩ := hin
    obtain ⟨q, transition', hq, hqnode, hcached, hstate⟩ := hplaced w hw
    have hsame : q.2 = rule.childTransitionId :=
      hsingle q (rule.childId, rule.childTransitionId) hq.meant (Or.inr ⟨p, hp, hmatches⟩)
        (hqnode.trans hwnode)
    have hlast : LastIn (s.keysOf x) rule.childId transition'.toStateId :=
      hwnode ▸ hprogress.lastIn hw hstate
    rw [hlast.isAlreadyThere, toStateId_of_mem_rules hrule, Env.resolveTransitionToState, ← hsame,
      hcached] at hthere
    simp at hthere
  · simp only [not_exists, not_and] at hin
    have hthere₀ : s₀.isAlreadyThere rule x = false := by
      rw [← hprogress.isAlreadyThere hin]
      exact hthere
    have hfires : Fires env x s₀.toTables p (rule.childId, rule.childTransitionId) :=
      ⟨rule, hrule, rfl, hcommitted, hthere₀⟩
    obtain ⟨more, hgoes, w, hw, hwnode⟩ := ih (rule.childId, rule.childTransitionId) s s' result rows
      hcall (hp.tail hfires) hprogress hplaced hin
    exact ⟨more, hgoes, fun _ _ => ⟨w, List.mem_append_right _ hw, hwnode⟩⟩

/-- The loop of a cascade. -/
theorem children_reach (hcoherent : Coherent env s₀.toTables)
    (hsingle : Unambiguous env x s₀.toTables root) {depth : Nat}
    (ih : CallsReach env ctx x s₀ root depth) {p : Applied} (hp : Reached env x s₀.toTables root p)
    (rules : List CascadeRule) : ∀ (s s' : Db) (r : List String × List StateActionContext)
      (rows : List VersionRow), rules ⊆ resolveCascadeRules env s₀.toTables p.1 p.2 →
    Returns (cascadeChildren (guardedTransition env ctx (applyTransitionInternal env ctx x depth))
      x rules) s r s' → r.1 = [] → Progress x s₀ rows s → Placed env x s₀.toTables root rows →
    ∃ more, Goes env x s₀ root rows s' more ∧
      ∀ rule ∈ rules, s₀.CommittedIn rule.childId rule.childFromStateId →
        s₀.isAlreadyThere rule x = false → ∃ w ∈ rows ++ more, w.nodeId = rule.childId := by
  induction rules with
  | nil =>
    intro s s' r rows _ hrun _ hprogress hplaced
    obtain ⟨-, rfl⟩ := returns_pure.mp hrun
    refine ⟨[], ⟨?_, ?_, ?_⟩, ?_⟩
    · rwa [List.append_nil]
    · rwa [List.append_nil]
    · intro w hw
      cases hw
    · intro rule hrule
      cases hrule
  | cons rule rules ihrules =>
    intro s s' r rows hrules hrun herrors hprogress hplaced
    simp only [Psm.cascadeChildren, returns_bind, returns_pure] at hrun
    obtain ⟨r₁, s₁, h₁, r₂, s₂, h₂, rfl, rfl⟩ := hrun
    obtain ⟨hnone₁, hnone₂⟩ := List.append_eq_nil_iff.mp herrors
    -- the first child, and then the rest from where it ended
    obtain ⟨more₁, ⟨hprogress₁, hplaced₁, hfinished₁⟩, hfires₁⟩ := child_reaches hcoherent hsingle ih hp
      (hrules List.mem_cons_self) h₁ hnone₁ hprogress hplaced
    obtain ⟨more₂, ⟨hprogress₂, hplaced₂, hfinished₂⟩, hfires₂⟩ := ihrules s₁ s' r₂ (rows ++ more₁)
      (fun rule' h => hrules (List.mem_cons_of_mem _ h)) h₂ hnone₂ hprogress₁ hplaced₁
    rw [List.append_assoc] at hprogress₂ hplaced₂ hfires₂
    refine ⟨more₁ ++ more₂, ⟨hprogress₂, hplaced₂, hfinished₁.append hfinished₂⟩, ?_⟩
    intro rule' hrule' hcommitted hthere
    -- rows of the first child are still there at the end
    rcases List.mem_cons.mp hrule' with rfl | hrule'
    · obtain ⟨w, hw, hwnode⟩ := hfires₁ hcommitted hthere
      refine ⟨w, ?_, hwnode⟩
      rw [← List.append_assoc]
      exact List.mem_append_left _ hw
    · exact hfires₂ rule' hrule' hcommitted hthere

/-- **A transition of a reached node** makes its version and those of what it reaches. -/
theorem call_reaches (hcoherent : Coherent env s₀.toTables)
    (hsingle : Unambiguous env x s₀.toTables root) (hkeeps : KeepsHistory env x s₀.toTables root)
    (depth : Nat) : CallsReach env ctx x s₀ root depth := by
  induction depth with
  | zero =>
    intro p s s' result rows hrun
    exact absurd hrun returns_throw
  | succ depth ih =>
    intro p s s' result rows hrun hreached hprogress hplaced hnone
    obtain ⟨transition, description, vid, s₁, s₂, s₃, s₄, actions, s₅, a, hload, hcreate, -, hexit,
      henter, hlock, hcascade, hevent, -⟩ := applyTransitionInternal_ok hrun
    -- no state action runs
    obtain ⟨hexitNone, henterNone⟩ := hkeeps p transition hreached hload.1
    unfold executeTransactionalActions at hexit henter
    rw [hexitNone, returns_forM_nil] at hexit
    rw [henterNone, returns_forM_nil, hexit] at henter
    rw [henter] at hlock
    obtain ⟨r, hlevel, hrnode, hrstate⟩ := hprogress.level hnone hcreate
    have hlocked := hlevel.lock ⟨r, List.mem_append_right _ (List.mem_singleton_self r), hrnode⟩ hlock
    have hown : Placed env x s₀.toTables root [r] := by
      intro w hw
      rw [List.mem_singleton.mp hw]
      exact ⟨p, transition, hreached, hrnode.symm, hload.1, hrstate⟩
    rw [hlocked.rules] at hcascade
    obtain ⟨more, ⟨hprogress₅, hplaced₅, hfinished₅⟩, hfires₅⟩ := children_reach hcoherent hsingle ih
      hreached _ s₄ s₅ _ (rows ++ [r]) (fun _ h => h) hcascade rfl hlocked (hplaced.append hown)
    rw [List.append_assoc] at hprogress₅ hplaced₅ hfires₅
    refine ⟨[r] ++ more, ⟨hprogress₅.withEvents hevent, hplaced₅, ?_⟩, r,
      List.mem_append_left _ (List.mem_singleton_self r), hrnode⟩
    intro w hw q hq hnode q' hfires
    rw [← List.append_assoc]
    rcases List.mem_append.mp hw with hw | hw
    · -- the node itself was reached under its transition only
      rw [List.mem_singleton.mp hw, hrnode] at hnode
      rw [hsingle.eq_of_reached hq hreached hnode] at hfires
      obtain ⟨rule, hrule, rfl, hcommitted, hthere⟩ := hfires
      rw [List.append_assoc]
      exact hfires₅ rule hrule hcommitted hthere
    · exact hfinished₅ w hw q hq hnode q' hfires

end Recursion

/-! ## The effect -/

/-- The nodes under `reached` have one new version each, in the target state of their transition,
and no other node has one; the other node rows and all links are as they were. -/
structure CascadeEffect (env : Env) (reached : Applied → Prop) (x : Uuid) (s s' : Db) : Prop where
  versions : ∃ rows : List VersionRow, s'.versions = s.versions ++ rows
    ∧ (∀ r ∈ rows, r.txId = x) ∧ (rows.map (·.nodeId)).Nodup
    ∧ ∀ nodeId state, (∃ r ∈ rows, r.nodeId = nodeId ∧ r.lifecycleStateId = state) ↔
      ∃ q, reached q ∧ q.1 = nodeId ∧ env.resolveTransitionToState q.2 = state
  nodes : ∀ nodeId, (∀ q, reached q → q.1 ≠ nodeId) → s'.node? nodeId = s.node? nodeId
  links : s'.links = s.links

/-- **What a transition that returns has done**, before the actions that run after its database
transaction. -/
theorem cascadeEffect_of_returns {env : Env} {ctx : Caller} {x nodeId : Uuid} {transitionId : String}
    {depth : Nat} {s s' : Db} {result : TransitionResult} (hcoherent : Coherent env s.toTables)
    (hsingle : Unambiguous env x s.toTables (nodeId, transitionId))
    (hkeeps : KeepsHistory env x s.toTables (nodeId, transitionId))
    (h : Returns (applyTransitionInternal env ctx x depth nodeId transitionId) s result s') :
    CascadeEffect env (Reached env x s.toTables (nodeId, transitionId)) x s s' := by
  obtain ⟨rows, ⟨hprogress, hplaced, hfinished⟩, r₀, hr₀, hroot⟩ :=
    call_reaches hcoherent hsingle hkeeps depth (nodeId, transitionId) s s' result [] h
      ReflTransGen.refl (Progress.start x s) (by simp [Placed]) (by simp)
  rw [List.nil_append] at hprogress hplaced
  -- along a path of firing rules every node has its version
  have hall : ∀ q, Reached env x s.toTables (nodeId, transitionId) q → ∃ r ∈ rows, r.nodeId = q.1 := by
    intro q hq
    induction hq with
    | refl => exact ⟨r₀, hr₀, hroot⟩
    | tail hp hfires ih =>
      obtain ⟨r, hr, hnode⟩ := ih
      exact hfinished r hr _ hp hnode.symm _ hfires
  refine ⟨⟨rows, hprogress.versions, fun r hr => (hprogress.own r hr).1, hprogress.once, ?_⟩, ?_,
    hprogress.links⟩
  · intro n state
    constructor
    · rintro ⟨r, hr, rfl, rfl⟩
      obtain ⟨q, transition, hq, hnode, hcached, hstate⟩ := hplaced r hr
      refine ⟨q, hq, hnode, ?_⟩
      rw [Env.resolveTransitionToState, hcached, hstate]
      rfl
    · rintro ⟨q, hq, rfl, rfl⟩
      obtain ⟨r, hr, hnode⟩ := hall q hq
      obtain ⟨q', transition, hq', hnode', hcached, hstate⟩ := hplaced r hr
      rw [hsingle.eq_of_reached hq' hq (hnode'.trans hnode)] at hcached
      refine ⟨r, hr, hnode, ?_⟩
      rw [Env.resolveTransitionToState, hcached, hstate]
      rfl
  · intro n hn
    apply hprogress.nodes
    intro r hr hnode
    obtain ⟨q, -, hq, hqnode, -⟩ := hplaced r hr
    exact hn q hq (hqnode.trans hnode)

end PlmCore.Psm
