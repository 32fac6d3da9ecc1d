/-
A cascade that does not end.

Two assemblies link each other; the cycle check of the links follows declared target types and
does not see it. Of the three transitions from draft each cascades to the next. Every one of
these rules passes the check of `MetaModelService`. A transition of one assembly then applies
the next transition to the other, and each call finds its node in the state of the call two
before, so that none is skipped.
-/
import Mathlib.Tactic.IntervalCases
import PlmCore.Psm.CascadeTermination
import PlmCore.Psm.MetaModel

set_option autoImplicit false

namespace PlmCore.Psm

open PlmCore.Lib

/-! ## A version can be made -/

/-- The current version of a node is one of its versions. -/
theorem Tables.mem_of_getCurrentVersionForTx {t : Tables} {nodeId x : Uuid} {v : VersionRow}
    (h : t.getCurrentVersionForTx nodeId x = some v) : v ∈ t.versions ∧ v.nodeId = nodeId := by
  rcases Option.or_eq_some_iff.mp h with h | ⟨-, h⟩
  · have hmem := List.argmax_mem h
    rw [List.mem_filter, decide_eq_true_eq] at hmem
    exact ⟨hmem.1, hmem.2.1⟩
  · have hmem := List.argmax_mem h
    rw [List.mem_filter, decide_eq_true_eq] at hmem
    exact ⟨hmem.1, hmem.2.1⟩

/-- Inserting a version keeps the constraints when its id is taken from the supply, its number
is new and its references exist. -/
theorem Tables.Valid.insertVersion {t : Tables} (h : t.Valid) {row : VersionRow}
    (hid : row.id = t.nextId) (hnode : row.nodeId ∈ t.nodeIds) (htx : row.txId ∈ t.txIds)
    (hprevious : ∀ p ∈ row.previousVersionId, p ∈ t.versionIds)
    (hnumber : ∀ w ∈ t.versions, w.nodeId = row.nodeId → w.versionNumber < row.versionNumber) :
    (t.takeId.insertVersion row).Valid := by
  have hids : (t.takeId.insertVersion row).versionIds = t.versionIds ++ [row.id] := by
    simp [Tables.versionIds, Tables.insertVersion, Tables.takeId]
  have hsub : ∀ i ∈ t.versionIds, i ∈ (t.takeId.insertVersion row).versionIds := by
    intro i hi
    rw [hids]
    exact List.mem_append_left _ hi
  -- ids in the tables are below the supply, from which the new one is taken
  have hfresh : row.id ∉ t.versionIds := by
    intro hmem
    obtain ⟨v, hv, hvid⟩ := List.mem_map.mp hmem
    have hlt : v.id < t.nextId := h.generated v hv
    exact Nat.ne_of_lt hlt (hvid.trans hid)
  have hcases : ∀ v ∈ (t.takeId.insertVersion row).versions, v ∈ t.versions ∨ v = row := by
    intro v hv
    rcases List.mem_append.mp hv with hold | hnew
    · exact Or.inl hold
    · exact Or.inr (List.mem_singleton.mp hnew)
  refine { h with
    pk_version := ?_
    uq_node_version := ?_
    fk_version_node := ?_
    fk_version_tx := ?_
    fk_version_previous := ?_
    fk_attribute_version := fun a ha => hsub _ (h.fk_attribute_version a ha)
    fk_link_version := fun l hl => hsub _ (h.fk_link_version l hl)
    fk_domain_version := fun d hd => hsub _ (h.fk_domain_version d hd)
    fk_signature_version := fun g hg => hsub _ (h.fk_signature_version g hg)
    fk_comment_version := fun c hc => hsub _ (h.fk_comment_version c hc)
    generated := ?_ }
  · rw [hids]
    refine List.nodup_append.mpr ⟨h.pk_version, List.nodup_singleton _, ?_⟩
    rintro a ha b hb rfl
    exact hfresh (List.mem_singleton.mp hb ▸ ha)
  · simp only [Tables.insertVersion, Tables.takeId, List.map_append, List.map_cons, List.map_nil]
    refine List.nodup_append.mpr ⟨h.uq_node_version, List.nodup_singleton _, ?_⟩
    rintro a ha b hb rfl
    obtain ⟨w, hw, hwkey⟩ := List.mem_map.mp ha
    rw [List.mem_singleton] at hb
    rw [← hwkey, Prod.mk.injEq] at hb
    -- one more version of the node, under a number of its own
    have hlt := hnumber w hw hb.1
    omega
  · intro v hv
    rcases hcases v hv with hold | rfl
    · exact h.fk_version_node v hold
    · exact hnode
  · intro v hv
    rcases hcases v hv with hold | rfl
    · exact h.fk_version_tx v hold
    · exact htx
  · intro v hv p hp
    rcases hcases v hv with hold | rfl
    · exact hsub _ (h.fk_version_previous v hold p hp)
    · exact hsub _ (hprevious p hp)
  · intro v hv
    -- the supply has moved on past the new id
    change v.id < t.nextId + 1
    rcases hcases v hv with hold | rfl
    · exact Nat.lt_succ_of_lt (h.generated v hold)
    · rw [hid]
      exact Nat.lt_succ_self _

theorem Tables.mem_txIds_of_isOpen {t : Tables} {x : Uuid} (h : t.isOpen x = true) : x ∈ t.txIds := by
  simp only [Tables.isOpen, Tables.txStatus?, Tables.tx?, decide_eq_true_eq,
    Option.map_eq_some_iff] at h
  obtain ⟨row, hrow, -⟩ := h
  have hid : row.id = x := by simpa using List.find?_some hrow
  exact hid ▸ List.mem_map_of_mem (List.mem_of_find?_eq_some hrow)

theorem storeFingerprint_returns (env : Env) (nodeId : Uuid) {s : Db} {v : VersionRow}
    (hv : v ∈ s.versions) : ∃ s', Returns (storeFingerprint env nodeId v.id) s () s' ∧
      ∃ fp, s'.toTables = s.setFingerprint v.id fp := by
  have hvalid : (s.setFingerprint v.id
      (env.sha256 (fingerprintText (s.contentOf nodeId v)))).Valid := by
    apply s.valid.updateVersion <;> exact fun _ => rfl
  obtain ⟨s', h⟩ := execute_succeeds.mpr hvalid
  refine ⟨s', ?_, _, returns_execute.mp h⟩
  simp only [storeFingerprint, returns_bind, returns_compute]
  exact ⟨_, s, ⟨rfl, v, s.version?_of_mem hv, rfl⟩, h⟩

/-- A version of a node without attributes and domains is made when no validator objects. -/
theorem createVersion_returns {env : Env} {ctx : Caller} {nodeId x : Uuid} {ct : ChangeType}
    {strategy : Option VersionStrategy} {state description : Option String} {s : Db} {v : VersionRow}
    {numbering : String × Nat} (hopen : s.isOpen x = true)
    (hsilent : ∀ t req, env.collectViolations t req = [])
    (hcurrent : s.getCurrentVersionForTx nodeId x = some v)
    (hnumbering : computeNumbering (strategy.getD (defaultStrategy ct)) v.revision v.iteration
      = .ok numbering)
    (hlast : ∀ w ∈ s.versions, w.nodeId = nodeId → w.versionNumber ≤ v.versionNumber)
    (hattributes : s.attributes = []) (hdomains : s.domains = []) :
    ∃ s', Returns (createVersion env ctx nodeId x ct strategy state [] description) s s.nextId s' ∧
      ∃ fp, s'.toTables = (s.takeId.insertVersion (nextVersion ctx s.nextId nodeId x ct state
        description (some v) numbering)).setFingerprint s.nextId fp := by
  obtain ⟨hv, hvnode⟩ := Tables.mem_of_getCurrentVersionForTx hcurrent
  have hvalidated : ∀ s : Db, Outcome (validateStateChange env nodeId
      (s.getCurrentVersionForTx nodeId x) state []) s (fun _ s' => s' = s) fun _ _ => False := by
    intro s
    apply Outcome.bind
    apply Outcome.query
    apply Outcome.ite
    · intro _
      apply Outcome.bind
      apply Outcome.query
      exact Outcome.require (fun _ => rfl) fun hne => hne (hsilent _ _)
    · intro _
      exact Outcome.pure rfl
  have hrun : Outcome (createVersion env ctx nodeId x ct strategy state [] description) s
      (fun vid s' => vid = s.nextId ∧ ∃ fp, s'.toTables = (s.takeId.insertVersion (nextVersion ctx
        s.nextId nodeId x ct state description (some v) numbering)).setFingerprint s.nextId fp)
      fun _ _ => False := by
    unfold createVersion
    apply Outcome.bind
    apply Outcome.query
    apply Outcome.bind
    apply Outcome.require (fun _ => ?_) fun hclosed => hclosed hopen
    apply Outcome.bind
    apply Outcome.query
    apply Outcome.bind
    refine (hvalidated s).mono ?_ fun _ _ h => h
    rintro _ s' hs'
    obtain rfl := hs'.symm
    apply Outcome.bind
    rw [hcurrent, Option.map_some, Option.getD_some, Option.map_some, Option.getD_some, hnumbering]
    apply Outcome.ofResult
    swap
    · rintro e ⟨⟩
    rintro _ ⟨⟩
    apply Outcome.bind
    apply Outcome.query
    apply Outcome.bind
    obtain ⟨s₁, h₁⟩ := execute_succeeds.mpr s.valid.takeId
    apply Outcome.of_returns (returns_randomUUID.mpr ⟨rfl, returns_execute.mp h₁⟩)
    apply Outcome.bind
    have hrow : (Tables.insertVersion (nextVersion ctx s.nextId nodeId x ct state description
        (some v) numbering) s₁.toTables).Valid := by
      rw [returns_execute.mp h₁]
      refine s.valid.insertVersion rfl ?_ (Tables.mem_txIds_of_isOpen hopen) ?_ ?_
      · exact hvnode ▸ s.valid.fk_version_node v hv
      · rintro p ⟨⟩
        exact List.mem_map_of_mem hv
      · intro w hw hnode
        exact Nat.lt_succ_of_le (hlast w hw hnode)
    obtain ⟨s₂, h₂⟩ := execute_succeeds.mpr hrow
    apply Outcome.of_returns h₂
    rw [returns_execute, returns_execute.mp h₁] at h₂
    -- there is nothing to copy
    have hempty : putAll (((some v).map fun v => s.attributeMap v.id).getD []) [] = [] := by
      simp [putAll, Tables.attributeMap, Tables.attributesOf, hattributes]
    rw [hempty]
    apply Outcome.bind
    apply Outcome.pure
    apply Outcome.bind
    apply Outcome.query
    have hnone : (((some v).map fun v => s₂.domainsOf v.id).getD []) = [] := by
      have hsame : s₂.domains = s.domains := by rw [h₂]; rfl
      simp [Tables.domainsOf, hsame, hdomains]
    rw [hnone]
    apply Outcome.bind
    apply Outcome.pure
    apply Outcome.bind
    have hstored : nextVersion ctx s.nextId nodeId x ct state description (some v) numbering
        ∈ s₂.versions := by
      rw [h₂]
      exact List.mem_append_right _ (List.mem_singleton_self _)
    obtain ⟨s₃, h₃, fp, hfp⟩ := storeFingerprint_returns env nodeId hstored
    apply Outcome.of_returns h₃
    exact Outcome.pure ⟨rfl, fp, by rw [hfp, h₂]; rfl⟩
  obtain ⟨_, s', hreturns, rfl, hs'⟩ := hrun.returns
  exact ⟨s', hreturns, hs'⟩

/-- The versions after a new one, up to fingerprints. -/
theorem mem_versions_inserted {row w : VersionRow} {t : Tables} {vid : Uuid} {fp : String}
    (h : w ∈ ((t.insertVersion row).setFingerprint vid fp).versions) :
    ∃ v ∈ t.versions ++ [row], w.stateKey = v.stateKey ∧ w.revision = v.revision := by
  obtain ⟨v, hv, rfl⟩ := List.mem_map.mp h
  refine ⟨v, hv, ?_⟩
  split <;> exact ⟨rfl, rfl⟩

/-! ## The configuration -/

/-- The transitions from draft, each of which cascades to the next. -/
inductive Turn
  | approve
  | reject
  | archive
  deriving DecidableEq

namespace Turn

def next : Turn → Turn
  | approve => reject
  | reject => archive
  | archive => approve

def id : Turn → String
  | approve => "approve"
  | reject => "reject"
  | archive => "archive"

def toStateId : Turn → String
  | approve => "approved"
  | reject => "rejected"
  | archive => "archived"

def config (turn : Turn) : LifecycleTransitionConfig := ⟨turn.id, "draft", turn.toStateId, none⟩

def cascade (turn : Turn) : LinkTypeCascadeConfig := ⟨turn.id, "draft", turn.next.id⟩

/-- The rule of a turn for a child. -/
def rule (turn : Turn) (childId : Uuid) : CascadeRule :=
  ⟨childId, "draft", turn.next.id, some turn.next.toStateId⟩

/-- A turn does not lead where the one before it did. -/
theorem toStateId_next_next_ne (turn : Turn) : turn.toStateId ≠ turn.next.next.toStateId := by
  cases turn <;> decide

end Turn

/-- Parts and assemblies whose composition cascades the turns. -/
def loopEnv : Env :=
  { partsEnv with
    linkTypes := [⟨"lt-composed-of", "composed_of", some "nt-part", some "SELF", some "nt-part",
      some "VERSION_TO_MASTER", none, none, none,
      [Turn.approve.cascade, Turn.reject.cascade, Turn.archive.cascade]⟩]
    lifecycles := [⟨"lc", [⟨"draft", "Draft", true⟩, ⟨"approved", "Approved", false⟩,
      ⟨"rejected", "Rejected", false⟩, ⟨"archived", "Archived", false⟩],
      [Turn.approve.config, Turn.reject.config, Turn.archive.config]⟩] }

/-- The other assembly. -/
def partner (nodeId : Uuid) : Uuid := 1 - nodeId

/-- The check of a link from the second assembly to the first does not find the way back. -/
example : ({ mutualTables with links := mutualTables.links.take 1 } : Tables).createsCycle 1 0 = false := by
  decide +kernel

theorem loopEnv_accepted : CascadesAccepted loopEnv := by decide +kernel

theorem loop_rules {nodeId : Uuid} (h : nodeId ≤ 1) (turn : Turn) :
    resolveCascadeRules loopEnv mutualTables nodeId turn.id = [turn.rule (partner nodeId)] := by
  interval_cases nodeId <;> cases turn <;> decide +kernel

/-! ## The calls -/

/-- The store in every call of the loop: it grew by versions of the transaction. -/
structure Spins (s : Db) : Prop where
  later : Later mutualTables s.toTables
  links : s.links = mutualTables.links
  keys : mutualTables.stateKeys ⊆ s.stateKeys
  own : ∀ k ∈ s.stateKeys, k ∈ mutualTables.stateKeys ∨ k.txId = 1 ∧ 1 < k.versionNumber
  attributes : s.attributes = []
  domains : s.domains = []
  revisions : ∀ v ∈ s.versions, v.revision = "A"
  locks : ∀ n ∈ s.nodes, ∀ owner ∈ n.lockedBy, owner = "engineer"

/-- The transaction did not bring the node to the state. -/
def Elsewhere (t : Tables) (nodeId : Uuid) (state : String) : Prop :=
  (∀ k ∈ t.keysOf 1, k.nodeId ≠ nodeId) ∨ ∃ state', LastIn (t.keysOf 1) nodeId state' ∧ state' ≠ state

namespace Spins

variable {s s' : Db} {nodeId : Uuid} {turn : Turn}

theorem isOpen (h : Spins s) : s.isOpen 1 = true := by
  rw [Tables.isOpen_congr h.later.txs]
  decide

/-- Every assembly has its committed draft. -/
theorem committed (h : Spins s) (hnode : nodeId ≤ 1) : ∃ v, s.getLastCommittedVersion nodeId = some v
    ∧ v.lifecycleStateId = some "draft" ∧ v.versionNumber = 1 := by
  obtain ⟨k, hk, hknode, hcommitted⟩ : ∃ k ∈ mutualTables.stateKeys, k.nodeId = nodeId
      ∧ mutualTables.isCommitted k.txId = true := by
    interval_cases nodeId <;> decide
  obtain ⟨w, hw, rfl⟩ := List.mem_map.mp (h.keys hk)
  have hw : w ∈ s.versions.filter fun v => v.nodeId = nodeId ∧ s.isCommitted v.txId := by
    refine List.mem_filter.mpr ⟨hw, decide_eq_true ⟨hknode, ?_⟩⟩
    rw [Tables.isCommitted_congr h.later.txs]
    exact hcommitted
  obtain ⟨v, hv⟩ : ∃ v, s.getLastCommittedVersion nodeId = some v := by
    cases hlast : s.getLastCommittedVersion nodeId with
    | some v => exact ⟨v, rfl⟩
    | none =>
      rw [List.argmax_eq_none.mp hlast] at hw
      cases hw
  have hmem := List.argmax_mem hv
  rw [List.mem_filter, decide_eq_true_eq] at hmem
  have hkey : v.stateKey ∈ mutualTables.committedKeys :=
    h.later.committed (List.mem_filter.mpr ⟨List.mem_map_of_mem hmem.1, hmem.2.2⟩)
  have hdraft : ∀ k ∈ mutualTables.committedKeys, k.lifecycleStateId = some "draft"
      ∧ k.versionNumber = 1 := by decide
  exact ⟨v, hv, hdraft v.stateKey hkey⟩

/-- The version a turn continues has the highest number of the node. -/
theorem current (h : Spins s) (hnode : nodeId ≤ 1) : ∃ v, s.getCurrentVersionForTx nodeId 1 = some v
    ∧ v.revision = "A" ∧ 1 ≤ v.versionNumber
    ∧ ∀ w ∈ s.versions, w.nodeId = nodeId → w.versionNumber ≤ v.versionNumber := by
  obtain ⟨v₀, hv₀, -, hone⟩ := h.committed hnode
  have hold : ∀ k ∈ mutualTables.stateKeys, k.versionNumber = 1 := by decide
  have hpositive : ∀ w ∈ s.versions, 1 ≤ w.versionNumber := by
    intro w hw
    rcases h.own _ (List.mem_map_of_mem hw) with hk | ⟨-, hk⟩
    · exact (hold _ hk).ge
    · exact hk.le
  have hsome : ∃ v, s.getCurrentVersionForTx nodeId 1 = some v := by
    unfold Tables.getCurrentVersionForTx
    cases s.findOpenVersionInTx nodeId 1 with
    | some v => exact ⟨v, rfl⟩
    | none => exact ⟨v₀, hv₀⟩
  obtain ⟨v, hv⟩ := hsome
  obtain ⟨hmem, -⟩ := Tables.mem_of_getCurrentVersionForTx hv
  refine ⟨v, hv, h.revisions v hmem, hpositive v hmem, ?_⟩
  intro w hw hwnode
  rcases h.own _ (List.mem_map_of_mem hw) with hk | ⟨hwx, -⟩
  · exact (hold _ hk).le.trans (hpositive v hmem)
  · -- a version of the transaction is compared with its last
    have hwin : w ∈ s.versions.filter fun v => v.nodeId = nodeId ∧ v.txId = 1 :=
      List.mem_filter.mpr ⟨hw, decide_eq_true ⟨hwnode, hwx⟩⟩
    rcases Option.or_eq_some_iff.mp hv with hopen | ⟨hnone, -⟩
    · exact List.le_of_mem_argmax hwin hopen
    · rw [List.argmax_eq_none.mp hnone] at hwin
      cases hwin

theorem loaded (h : Spins s) (hnode : nodeId ≤ 1) :
    Returns (loadTransition loopEnv nodeId turn.id) s turn.config s := by
  obtain ⟨v, hv, hstate, -⟩ := h.committed hnode
  have hcached : loopEnv.getCachedTransition turn.id = some turn.config := by
    cases turn <;> rfl
  simp only [loadTransition, returns_bind, returns_query, returns_orElseThrow, returns_require,
    returns_pure]
  exact ⟨_, s, ⟨hcached, rfl⟩, _, s, ⟨rfl, rfl⟩, v, s, ⟨hv, rfl⟩, (), s, ⟨hstate, rfl⟩, rfl, rfl⟩

/-- The rules of a turn are those of the start. -/
theorem rules (h : Spins s) (hnode : nodeId ≤ 1) :
    resolveCascadeRules loopEnv s.toTables nodeId turn.id = [turn.rule (partner nodeId)] := by
  rw [h.later.rules_eq h.links h.keys]
  exact loop_rules hnode turn

/-- What leaves the view, the revisions and the locks leaves the loop going. -/
theorem sameView (h : Spins s) (hview : SameView s.toTables s'.toTables)
    (hattributes : s'.attributes = s.attributes) (hdomains : s'.domains = s.domains)
    (hversions : s'.versions = s.versions)
    (hlocks : ∀ n ∈ s'.nodes, ∀ owner ∈ n.lockedBy, owner = "engineer") : Spins s' where
  later := h.later.sameView hview
  links := hview.links.trans h.links
  keys := hview.keys ▸ h.keys
  own := hview.keys ▸ h.own
  attributes := hattributes.trans h.attributes
  domains := hdomains.trans h.domains
  revisions := hversions ▸ h.revisions
  locks := hlocks

/-- **A turn's version**: the loop goes on, its node is in the target state, and the other
assembly is where it was. -/
theorem turned (h : Spins s) (turn : Turn) (hnode : nodeId ≤ 1) (description : Option String) :
    ∃ s', Returns (createVersion loopEnv engineer nodeId 1 .LIFECYCLE
        (some turn.config.strategy) (some turn.config.toStateId) [] description) s s.nextId s'
      ∧ Spins s' ∧ LastIn (s'.keysOf 1) nodeId turn.toStateId
      ∧ ∀ m state, m ≠ nodeId → Elsewhere s.toTables m state → Elsewhere s'.toTables m state := by
  obtain ⟨v, hv, hrevision, hpositive, hlast⟩ := h.current hnode
  -- the rule has no strategy of its own, so a lifecycle version keeps the revision
  have hnumbering : computeNumbering ((some turn.config.strategy).getD (defaultStrategy .LIFECYCLE))
      v.revision v.iteration = .ok ("A", max v.iteration 1) := by
    have hnotBlank : isBlank "A" = false := by decide +kernel
    rw [hrevision]
    simp only [computeNumbering, Option.getD_some, LifecycleTransitionConfig.strategy, Turn.config,
      Option.getD_none, hnotBlank, Bool.false_eq_true, if_false]
  obtain ⟨s', hrun, fp, hs'⟩ : ∃ s', Returns (createVersion loopEnv engineer nodeId 1 .LIFECYCLE
      (some turn.config.strategy) (some turn.config.toStateId) [] description) s s.nextId s' ∧ _ :=
    createVersion_returns h.isOpen (fun _ _ => rfl) hv hnumbering hlast h.attributes h.domains
  have hentered := (createVersion_outcome s).1 s.nextId s' hrun
  have hworked : Worked nodeId 1 turn.toStateId s.toTables s'.toTables :=
    ⟨s'.toTables, hentered, Cut.refl _⟩
  obtain ⟨-, -, k, hkeys, hknode, hkstate, hkmax⟩ := hworked.keys
  -- every row of after is a row of before, up to its fingerprint, or the new version
  have hmem : ∀ w ∈ s'.versions, ∃ w' ∈ s.versions ++ [nextVersion engineer s.nextId nodeId 1
      .LIFECYCLE (some turn.config.toStateId) description (some v) ("A", max v.iteration 1)],
      w.stateKey = w'.stateKey ∧ w.revision = w'.revision := by
    rw [hs']
    exact fun w hw => mem_versions_inserted hw
  refine ⟨s', hrun, ?_, ?_, ?_⟩
  -- the loop goes on: nothing but a version has come
  · constructor
    · exact h.later.worked hworked
    · exact hentered.links.trans h.links
    · obtain ⟨id, number, hall, -⟩ := hentered.key
      rw [hall]
      exact fun k hk => List.mem_append_left _ (h.keys hk)
    · intro k hk
      obtain ⟨w, hw, rfl⟩ := List.mem_map.mp hk
      obtain ⟨w', hw', hsame, -⟩ := hmem w hw
      rw [hsame]
      rcases List.mem_append.mp hw' with hold | hnew
      · exact h.own _ (List.mem_map_of_mem hold)
      · rw [List.mem_singleton.mp hnew]
        exact Or.inr ⟨rfl, Nat.lt_succ_of_le hpositive⟩
    · rw [hs']
      exact h.attributes
    · rw [hs']
      exact h.domains
    · intro w hw
      obtain ⟨w', hw', -, hsame⟩ := hmem w hw
      rw [hsame]
      rcases List.mem_append.mp hw' with hold | hnew
      · exact h.revisions w' hold
      · rw [List.mem_singleton.mp hnew]
        rfl
    · rw [hs']
      exact h.locks
  · rw [hkeys, ← hknode]
    -- the new version is the last of its node
    exact lastIn_append_self hkstate hkmax
  -- and is of no other node
  · intro m state hm helse
    rw [Elsewhere, hkeys]
    rcases helse with hnone | ⟨state', hlast, hne⟩
    · refine Or.inl fun k' hk' => ?_
      rcases List.mem_append.mp hk' with hold | hnew
      · exact hnone k' hold
      · rw [List.mem_singleton.mp hnew, hknode]
        exact hm.symm
    · exact Or.inr ⟨state', hlast.append_other (by rw [hknode]; exact hm.symm), hne⟩

/-- The lock of an assembly is free or the caller's own. -/
theorem locked (h : Spins s) (hnode : nodeId ≤ 1) :
    ∃ s', Returns (tryLock engineer nodeId) s () s' ∧ Spins s' ∧ SameView s.toTables s'.toTables := by
  obtain ⟨n, hn, hid⟩ : ∃ n ∈ s.nodes, n.id = nodeId := by
    have hident : nodeId ∈ (mutualTables.nodes.map NodeRow.ident).map Prod.fst := by
      interval_cases nodeId <;> decide
    rw [← h.later.idents, List.map_map] at hident
    obtain ⟨n, hn, hid⟩ := List.mem_map.mp hident
    exact ⟨n, hn, hid⟩
  have hrow : s.node? nodeId = some n := hid ▸ find?_eq_some_of_nodup NodeRow.id s.valid.pk_node hn
  cases hlocked : n.lockedBy with
  | none =>
    obtain ⟨s₁, h₁⟩ := execute_succeeds.mpr
      (s.valid.setLock nodeId (some engineer.userId) (some engineer.now))
    obtain ⟨s₂, h₂⟩ := enqueue_succeeds (.lockAcquired nodeId engineer.userId) s₁
    have hs₂ : s₂.toTables = (s.setLock nodeId (some engineer.userId) (some engineer.now)).withEvents
        [.lockAcquired nodeId engineer.userId] := by
      rw [returns_enqueue.mp h₂, returns_execute.mp h₁]
    -- locks and events are no part of what the cascade looks at
    have hview : SameView s.toTables s₂.toTables := by
      rw [hs₂]
      exact (sameView_setLock _ _ _ _).trans (sameView_withEvents _ _)
    refine ⟨s₂, ?_, h.sameView hview ?_ ?_ ?_ ?_, hview⟩
    · simp only [tryLock, returns_bind, returns_query, returns_orElseThrow]
      refine ⟨_, s, ⟨rfl, rfl⟩, n, s, ⟨hrow, rfl⟩, ?_⟩
      rw [hlocked]
      exact returns_bind.mpr ⟨(), s₁, h₁, h₂⟩
    · rw [hs₂]
      rfl
    · rw [hs₂]
      rfl
    · rw [hs₂]
      rfl
    · intro m hm owner howner
      rw [hs₂] at hm
      obtain ⟨m₀, hm₀, rfl⟩ := List.mem_map.mp hm
      -- a lock that is taken is the caller's, so no lock of another user appears
      by_cases hsame : m₀.id = nodeId
      · rw [if_pos hsame] at howner
        cases howner
        rfl
      · rw [if_neg hsame] at howner
        exact h.locks m₀ hm₀ owner howner
  | some owner =>
    refine ⟨s, ?_, h, SameView.refl _⟩
    have howner : owner = engineer.userId := h.locks n hn owner hlocked
    simp only [tryLock, returns_bind, returns_query, returns_orElseThrow]
    refine ⟨_, s, ⟨rfl, rfl⟩, n, s, ⟨hrow, rfl⟩, ?_⟩
    rw [hlocked]
    exact returns_require.mpr ⟨howner, rfl⟩

/-- The rule of a turn is not skipped. -/
theorem follows (h : Spins s) (hnode : nodeId ≤ 1)
    (helse : Elsewhere s.toTables nodeId turn.next.toStateId) :
    s.isAlreadyThere (turn.rule nodeId) 1 = false ∧ s.inCascadeScope (turn.rule nodeId) = true := by
  obtain ⟨v, hv, hstate, -⟩ := h.committed hnode
  constructor
  · rcases helse with hnone | ⟨state', hlast, hne⟩
    · -- the committed version is of another transaction
      have hfind : s.findOpenVersionInTx nodeId 1 = none := by
        unfold Tables.findOpenVersionInTx Tables.latest
        rw [List.argmax_eq_none, List.filter_eq_nil_iff]
        intro w hw hwin
        obtain ⟨hwnode, hwx⟩ := of_decide_eq_true hwin
        exact hnone w.stateKey (List.mem_filter.mpr ⟨List.mem_map_of_mem hw, decide_eq_true hwx⟩) hwnode
      have hmem := List.argmax_mem hv
      rw [List.mem_filter, decide_eq_true_eq] at hmem
      have hother : v.txId ≠ 1 := by
        intro htx
        have hcommitted := hmem.2.2
        rw [htx, Tables.not_isCommitted_of_isOpen h.isOpen] at hcommitted
        cases hcommitted
      simp [Tables.isAlreadyThere, Tables.getCurrentVersionForTx, Turn.rule, hfind, hv, hother]
    · have hthere : s.isAlreadyThere (turn.rule nodeId) 1
          = decide ((turn.rule nodeId).toStateId = some state') := hlast.isAlreadyThere
      rw [hthere]
      exact decide_eq_false fun heq => hne (Option.some.inj heq).symm
  · simp [Tables.inCascadeScope, Turn.rule, hv, hstate]

end Spins

/-- **Every call of the loop overflows the stack**, however deep that is. -/
theorem loop_overflows (depth : Nat) : ∀ (nodeId : Uuid) (turn : Turn) (s : Db), nodeId ≤ 1 → Spins s →
    Elsewhere s.toTables (partner nodeId) turn.next.toStateId →
    Outcome (applyTransitionInternal loopEnv engineer 1 depth nodeId turn.id) s (fun _ _ => False)
      fun e _ => e = .stackOverflow := by
  induction depth with
  | zero =>
    intro nodeId turn s _ _ _
    exact Outcome.throw rfl
  | succ depth ih =>
    intro nodeId turn s hnode hspins helse
    have hpartner : partner nodeId ≤ 1 ∧ partner nodeId ≠ nodeId
        ∧ partner (partner nodeId) = nodeId := by
      unfold partner
      interval_cases nodeId <;> decide
    apply Outcome.bind
    apply Outcome.of_returns (hspins.loaded hnode)
    apply Outcome.bind
    obtain ⟨s₁, h₁, hspins₁, hlast, helse₁⟩ := hspins.turned turn hnode
      (some ("Lifecycle transition: " ++ turn.config.fromStateId ++ " → " ++ turn.config.toStateId))
    apply Outcome.of_returns h₁
    apply Outcome.bind
    apply Outcome.query
    apply Outcome.bind
    apply Outcome.pure
    apply Outcome.bind
    apply Outcome.pure
    apply Outcome.bind
    obtain ⟨s₂, h₂, hspins₂, hview⟩ := hspins₁.locked hnode
    apply Outcome.of_returns h₂
    have helse₂ : Elsewhere s₂.toTables (partner nodeId) turn.next.toStateId := by
      rw [Elsewhere, hview.keysOf]
      exact helse₁ _ _ hpartner.2.1 helse
    have hback : Elsewhere s₂.toTables (partner (partner nodeId)) turn.next.next.toStateId := by
      rw [Elsewhere, hview.keysOf, hpartner.2.2]
      exact Or.inr ⟨_, hlast, turn.toStateId_next_next_ne⟩
    obtain ⟨hthere, hscope⟩ := hspins₂.follows hpartner.1 helse₂
    -- the rule for the other assembly is the only one
    apply Outcome.bind
    apply Outcome.bind
    apply Outcome.query
    rw [hspins₂.rules hnode]
    apply Outcome.bind
    apply Outcome.bind
    apply Outcome.bind
    apply Outcome.query
    apply Outcome.bind
    apply Outcome.require (fun _ => ?_) fun hnull => absurd (Or.inl rfl) hnull
    apply Outcome.bind
    apply Outcome.query
    rw [hthere, hscope]
    apply Outcome.bind
    apply Outcome.attempt
    apply Outcome.bind
    apply Outcome.query
    refine (ih (partner nodeId) turn.next s₂ hpartner.1 hspins₂ hback).mono ?_ ?_
    · exact fun _ _ hfalse => hfalse.elim
    · rintro e s₃ rfl
      exact Outcome.throw rfl

/-- **A cascade that makes infinitely many calls**, on rules the metamodel accepts: whatever the
depth of the stack, the transition overflows it. -/
theorem accepted_cascade_overflows : CascadesAccepted loopEnv ∧
    ∀ depth, (applyTransition loopEnv engineer depth 0 Turn.approve.id 1 mutualDb).1
      = .error .stackOverflow := by
  refine ⟨loopEnv_accepted, fun depth => ?_⟩
  have hspins : Spins mutualDb := by
    constructor
    · exact Later.refl _
    · rfl
    · exact fun _ hk => hk
    · exact fun k hk => Or.inl hk
    · rfl
    · rfl
    · decide
    · decide
  have helse : Elsewhere mutualDb.toTables (partner 0) Turn.approve.next.toStateId :=
    Or.inl (by decide)
  have hrun := loop_overflows depth 0 Turn.approve mutualDb (by decide) hspins helse
  unfold applyTransition
  split
  · rename_i result s' hs'
    exact (hrun.1 result s' hs').elim
  · rename_i e s' hs'
    rw [hrun.2 e s' hs']

end PlmCore.Psm
