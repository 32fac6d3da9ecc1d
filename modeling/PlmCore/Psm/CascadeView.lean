/-
What a cascade reads of the store, and what the work of a transition on one node does to that.

A cascade finds the children of a node through its links, and of a child it reads in which
state it is committed and in which state the transaction left it. That depends on four things:
the transactions, the identities of the nodes, the links, and the versions with their node,
number, state and transaction. `createVersion` adds one version to them, a history collapse
cuts committed versions and links, and the rest of the work leaves them as they are. The
lemmas hold whatever the work ends with, since a cascade goes on after the failure of a child.
-/
import PlmCore.Psm.Lifecycle

set_option autoImplicit false

namespace PlmCore.Psm

open PlmCore.Lib

/-! ## The view -/

/-- The columns of `node_version` a cascade reads. -/
structure StateKey where
  id : Uuid
  nodeId : Uuid
  versionNumber : Nat
  lifecycleStateId : Option String
  txId : Uuid
  deriving DecidableEq

def VersionRow.stateKey (v : VersionRow) : StateKey :=
  ⟨v.id, v.nodeId, v.versionNumber, v.lifecycleStateId, v.txId⟩

def Tables.stateKeys (t : Tables) : List StateKey := t.versions.map VersionRow.stateKey

/-- The columns of `node` that links are resolved by. -/
def NodeRow.ident (n : NodeRow) : Uuid × Option String × String := (n.id, n.logicalId, n.nodeTypeId)

/-- A cascade reads the same of both. -/
structure SameView (t t' : Tables) : Prop where
  txs : t'.txs = t.txs
  idents : t'.nodes.map NodeRow.ident = t.nodes.map NodeRow.ident
  links : t'.links = t.links
  keys : t'.stateKeys = t.stateKeys

/-- Links and committed versions went, and nothing else a cascade reads changed. -/
structure Cut (t t' : Tables) : Prop where
  txs : t'.txs = t.txs
  idents : t'.nodes.map NodeRow.ident = t.nodes.map NodeRow.ident
  links : t'.links ⊆ t.links
  keys : ∃ q : StateKey → Bool, t'.stateKeys = t.stateKeys.filter q
    ∧ ∀ k ∈ t.stateKeys, q k = false → t.isCommitted k.txId = true

/-- The transaction has a new version of the node, in the state, above those it had. -/
structure Entered (nodeId x : Uuid) (state : Option String) (t t' : Tables) : Prop where
  txs : t'.txs = t.txs
  idents : t'.nodes.map NodeRow.ident = t.nodes.map NodeRow.ident
  links : t'.links = t.links
  isOpen : t.isOpen x = true
  key : ∃ id number, t'.stateKeys = t.stateKeys ++ [⟨id, nodeId, number, state, x⟩]
    ∧ (∀ k ∈ t.stateKeys, k.id ≠ id)
    ∧ ∀ k ∈ t.stateKeys, k.nodeId = nodeId → k.txId = x → k.versionNumber < number

variable {t t' t'' : Tables}

theorem SameView.refl (t : Tables) : SameView t t := ⟨rfl, rfl, rfl, rfl⟩

theorem SameView.trans (h : SameView t t') (h' : SameView t' t'') : SameView t t'' :=
  ⟨h'.txs.trans h.txs, h'.idents.trans h.idents, h'.links.trans h.links, h'.keys.trans h.keys⟩

theorem Cut.refl (t : Tables) : Cut t t :=
  ⟨rfl, rfl, fun _ h => h, fun _ => true, by simp, by simp⟩

/-- Cutting twice is cutting. -/
theorem Cut.trans (h : Cut t t') (h' : Cut t' t'') : Cut t t'' := by
  obtain ⟨q, hkeys, hq⟩ := h.keys
  obtain ⟨q', hkeys', hq'⟩ := h'.keys
  refine ⟨h'.txs.trans h.txs, h'.idents.trans h.idents, fun l hl => h.links (h'.links hl),
    fun k => q' k && q k, ?_, ?_⟩
  · rw [hkeys', hkeys, List.filter_filter]
  · intro k hk hgone
    by_cases hqk : q k = true
    · -- the second cut took it
      simp only [hqk, Bool.and_true] at hgone
      have hk' : k ∈ t'.stateKeys := hkeys ▸ List.mem_filter.mpr ⟨hk, hqk⟩
      rw [← Tables.isCommitted_congr h.txs]
      exact hq' k hk' hgone
    · exact hq k hk (Bool.eq_false_iff.mpr hqk)

theorem SameView.cut (h : SameView t t') : Cut t t' :=
  ⟨h.txs, h.idents, fun _ hl => h.links ▸ hl, fun _ => true, by simp [h.keys], by simp⟩

theorem Entered.sameView {nodeId x : Uuid} {state : Option String} (h : Entered nodeId x state t t')
    (h' : SameView t' t'') : Entered nodeId x state t t'' where
  txs := h'.txs.trans h.txs
  idents := h'.idents.trans h.idents
  links := h'.links.trans h.links
  isOpen := h.isOpen
  key := by
    obtain ⟨id, number, hkeys, hid, hnumber⟩ := h.key
    exact ⟨id, number, h'.keys.trans hkeys, hid, hnumber⟩

theorem Entered.of_sameView {nodeId x : Uuid} {state : Option String} (h : SameView t t')
    (h' : Entered nodeId x state t' t'') : Entered nodeId x state t t'' where
  txs := h'.txs.trans h.txs
  idents := h'.idents.trans h.idents
  links := h'.links.trans h.links
  isOpen := by rw [← Tables.isOpen_congr h.txs]; exact h'.isOpen
  key := by
    obtain ⟨id, number, hkeys, hid, hnumber⟩ := h'.key
    rw [h.keys] at hkeys hid hnumber
    exact ⟨id, number, hkeys, hid, hnumber⟩

/-! ## Statements -/

theorem sameView_takeId (t : Tables) : SameView t t.takeId := ⟨rfl, rfl, rfl, rfl⟩

theorem sameView_withEvents (es : List PlmEvent) (t : Tables) : SameView t (t.withEvents es) :=
  ⟨rfl, rfl, rfl, rfl⟩

theorem sameView_insertAttribute (a : AttributeRow) (t : Tables) : SameView t (t.insertAttribute a) :=
  ⟨rfl, rfl, rfl, rfl⟩

theorem sameView_insertDomain (d : DomainRow) (t : Tables) : SameView t (t.insertDomain d) :=
  ⟨rfl, rfl, rfl, rfl⟩

theorem sameView_setLock (nodeId : Uuid) (lockedBy : Option String) (lockedAt : Option Nat)
    (t : Tables) : SameView t (t.setLock nodeId lockedBy lockedAt) where
  txs := rfl
  idents := by
    simp only [Tables.setLock, List.map_map]
    refine List.map_congr_left fun n _ => ?_
    by_cases hn : n.id = nodeId <;> simp [hn, NodeRow.ident]
  links := rfl
  keys := rfl

/-- Rewriting other columns of a version. -/
theorem sameView_mapVersions {f : VersionRow → VersionRow} (hf : ∀ v, (f v).stateKey = v.stateKey)
    (t : Tables) : SameView t { t with versions := t.versions.map f } where
  txs := rfl
  idents := rfl
  links := rfl
  keys := by
    simp only [Tables.stateKeys, List.map_map]
    exact List.map_congr_left fun v _ => hf v

theorem sameView_updateVersion (vid : Uuid) {f : VersionRow → VersionRow}
    (hf : ∀ v, (f v).stateKey = v.stateKey) (t : Tables) : SameView t (t.updateVersion vid f) := by
  apply sameView_mapVersions
  intro v
  by_cases hv : v.id = vid
  · rw [if_pos hv]
    exact hf v
  · rw [if_neg hv]

theorem sameView_clearPrevious (ids : List Uuid) (t : Tables) : SameView t (t.clearPrevious ids) := by
  apply sameView_mapVersions
  intro v
  split <;> rfl

theorem entered_insertVersion {x : Uuid} {row : VersionRow} (hopen : t.isOpen x = true)
    (htx : row.txId = x) (hfresh : (t.insertVersion row).Valid)
    (hnumber : ∀ k ∈ t.stateKeys, k.nodeId = row.nodeId → k.txId = x →
      k.versionNumber < row.versionNumber) :
    Entered row.nodeId x row.lifecycleStateId t (t.insertVersion row) where
  txs := rfl
  idents := rfl
  links := rfl
  isOpen := hopen
  key := by
    refine ⟨row.id, row.versionNumber, ?_, ?_, hnumber⟩
    · subst htx
      simp [Tables.stateKeys, Tables.insertVersion, VersionRow.stateKey]
    · intro k hk hid
      obtain ⟨v, hv, rfl⟩ := List.mem_map.mp hk
      have hnodup := hfresh.pk_version
      simp only [Tables.versionIds, Tables.insertVersion, List.map_append, List.map_cons,
        List.map_nil] at hnodup
      have hdisjoint := (List.nodup_append.mp hnodup).2.2
      exact hdisjoint v.id (List.mem_map_of_mem hv) row.id (List.mem_singleton_self _) hid

theorem cut_deleteLinks (p : VersionSelection) (t : Tables) : Cut t (t.deleteLinks p) :=
  ⟨rfl, rfl, fun _ hl => (List.mem_filter.mp hl).1, fun _ => true, by simp [Tables.stateKeys,
    Tables.deleteLinks], by simp⟩

theorem cut_deleteVersions {ids : List Uuid}
    (hids : ∀ k ∈ t.stateKeys, k.id ∈ ids → t.isCommitted k.txId = true) :
    Cut t (t.deleteVersions fun v => v.id ∈ ids) where
  txs := rfl
  idents := rfl
  links _ hl := hl
  keys := by
    refine ⟨fun k => k.id ∉ ids, ?_, ?_⟩
    · simp only [Tables.stateKeys, Tables.deleteVersions, List.filter_map]
      congr 1
      refine List.filter_congr fun v _ => ?_
      by_cases hv : v.id ∈ ids <;> simp [hv, VersionRow.stateKey]
    · intro k hk hgone
      exact hids k hk (by simpa using hgone)

/-! ## The work on one node -/

/-- An exception of the work on one node: not a failed cascade, and no `java.lang.Error`. -/
def PlmError.Own (e : PlmError) : Prop := e ≠ .stackOverflow ∧ ∀ blocked, e ≠ .cascadeBlocked blocked

/-- A statement that leaves the view leaves it whatever it ends with. -/
theorem keeps_sameView {f : Tables → Tables} (hf : ∀ t, SameView t (f t)) (t : Tables) :
    Keeps (fun s : Db => SameView t s.toTables) PlmError.Own (execute f) := by
  intro s hs
  apply outcome_execute
  · intro s' hs'
    have hview : SameView s.toTables s'.toTables := by
      rw [hs']
      exact hf _
    exact hs.trans hview
  · exact ⟨hs, nofun, nofun⟩

theorem enqueue_sameView (e : PlmEvent) (t : Tables) :
    Keeps (fun s : Db => SameView t s.toTables) PlmError.Own (enqueue e) :=
  keeps_sameView (sameView_withEvents [e]) t

theorem randomUUID_sameView (t : Tables) :
    Keeps (fun s : Db => SameView t s.toTables) PlmError.Own randomUUID := by
  apply Keeps.bind (Keeps.query _)
  intro id
  apply Keeps.bind (keeps_sameView sameView_takeId t)
  intro _
  exact Keeps.pure _

theorem storeFingerprint_sameView (env : Env) (nodeId vid : Uuid) (t : Tables) :
    Keeps (fun s : Db => SameView t s.toTables) PlmError.Own (storeFingerprint env nodeId vid) := by
  apply Keeps.bind
  · apply Keeps.bind (Keeps.query _)
    intro version
    apply Keeps.bind (Keeps.orElseThrow ⟨nofun, nofun⟩)
    intro v
    apply Keeps.bind (Keeps.query _)
    intro content
    exact Keeps.pure _
  · intro fp
    have hview : ∀ t : Tables, SameView t (t.setFingerprint vid fp) :=
      sameView_updateVersion vid fun _ => rfl
    exact keeps_sameView hview t

theorem tryLock_sameView (ctx : Caller) (nodeId : Uuid) (t : Tables) :
    Keeps (fun s : Db => SameView t s.toTables) PlmError.Own (tryLock ctx nodeId) := by
  apply Keeps.bind (Keeps.query _)
  intro row
  apply Keeps.bind (Keeps.orElseThrow ⟨nofun, nofun⟩)
  intro n
  cases n.lockedBy with
  | none =>
    apply Keeps.bind (keeps_sameView (sameView_setLock nodeId _ _) t)
    intro _
    exact enqueue_sameView _ t
  | some owner => exact Keeps.require fun _ => ⟨nofun, nofun⟩

theorem validateStateChange_sameView (env : Env) (nodeId : Uuid) (current : Option VersionRow)
    (state : Option String) (attributes : List (String × Option String)) (t : Tables) :
    Keeps (fun s : Db => SameView t s.toTables) PlmError.Own
      (validateStateChange env nodeId current state attributes) := by
  apply Keeps.bind (Keeps.query _)
  intro req
  apply Keeps.ite
  · apply Keeps.bind (Keeps.query _)
    intro violations
    exact Keeps.require fun _ => ⟨nofun, nofun⟩
  · exact Keeps.pure _

theorem computeNumbering_own {strategy : VersionStrategy} {revision : String} {iteration : Nat}
    {e : PlmError} (h : computeNumbering strategy revision iteration = .error e) : e.Own := by
  have hblank : ∀ (r : String) (i : Nat), (if isBlank r then
      .error (.illegalArgument "revision must not be blank") else .ok (r, i)
        : Except PlmError (String × Nat)) = .error e → e.Own := by
    intro r i hr
    split at hr
    · cases hr
      exact ⟨nofun, nofun⟩
    · cases hr
  cases strategy with
  | NONE => exact hblank _ _ h
  | ITERATE => exact hblank _ _ h
  | REVISE => exact hblank _ _ h

/-- The number of the next version is above those the transaction has of the node. -/
theorem Tables.number_lt_next {nodeId x : Uuid} {k : StateKey} (hk : k ∈ t.stateKeys)
    (hnode : k.nodeId = nodeId) (htx : k.txId = x) :
    k.versionNumber < ((t.getCurrentVersionForTx nodeId x).map (·.versionNumber)).getD 0 + 1 := by
  obtain ⟨v, hv, rfl⟩ := List.mem_map.mp hk
  change v.nodeId = nodeId at hnode
  change v.txId = x at htx
  have hmem : v ∈ t.versions.filter fun v => v.nodeId = nodeId ∧ v.txId = x :=
    List.mem_filter.mpr ⟨hv, by simpa using And.intro hnode htx⟩
  obtain ⟨w, hw⟩ : ∃ w, t.findOpenVersionInTx nodeId x = some w := by
    cases hfind : t.findOpenVersionInTx nodeId x with
    | some w => exact ⟨w, rfl⟩
    | none =>
      have hnil := List.argmax_eq_none.mp hfind
      rw [hnil] at hmem
      cases hmem
  have hle : v.versionNumber ≤ w.versionNumber := List.le_of_mem_argmax hmem hw
  simp only [Tables.getCurrentVersionForTx, hw, Option.some_or, Option.map_some, Option.getD_some,
    VersionRow.stateKey]
  omega

/-- **`createVersion` enters one version in the state**, or fails before or after it did. -/
theorem createVersion_outcome {env : Env} {ctx : Caller} {nodeId x : Uuid} {changeType : ChangeType}
    {strategy : Option VersionStrategy} {state : String}
    {attributes : List (String × Option String)} {description : Option String} (s : Db) :
    Outcome (createVersion env ctx nodeId x changeType strategy (some state) attributes description) s
      (fun _ s' => Entered nodeId x (some state) s.toTables s'.toTables)
      (fun e s' => (SameView s.toTables s'.toTables
        ∨ Entered nodeId x (some state) s.toTables s'.toTables) ∧ e.Own) := by
  have hstart := SameView.refl s.toTables
  unfold createVersion
  apply Outcome.bind
  apply Outcome.query
  apply Outcome.bind
  apply Outcome.require
  swap
  · intro _
    exact ⟨Or.inl hstart, nofun, nofun⟩
  intro hopen
  apply Outcome.bind
  apply Outcome.query
  apply Outcome.bind
  refine (validateStateChange_sameView env nodeId _ _ attributes s.toTables s hstart).mono ?_ ?_
  swap
  · rintro e s₁ ⟨hview, hown⟩
    exact ⟨Or.inl hview, hown⟩
  intro _ s₁ hs₁
  apply Outcome.bind
  apply Outcome.ofResult
  swap
  · intro e he
    exact ⟨Or.inl hs₁, computeNumbering_own he⟩
  intro numbering _
  apply Outcome.bind
  apply Outcome.query
  apply Outcome.bind
  refine (randomUUID_sameView s.toTables s₁ hs₁).mono ?_ ?_
  swap
  · rintro e s₂ ⟨hview, hown⟩
    exact ⟨Or.inl hview, hown⟩
  intro vid s₂ hs₂
  apply Outcome.bind
  apply outcome_execute
  swap
  · exact ⟨Or.inl hs₂, nofun, nofun⟩
  intro s₃ hs₃
  -- the version is there, and the rest leaves the view
  have hentered : Entered nodeId x (some state) s.toTables s₃.toTables := by
    apply Entered.of_sameView hs₂
    have hvalid := s₃.valid
    rw [hs₃] at hvalid ⊢
    refine entered_insertVersion ?_ rfl hvalid ?_
    · rw [Tables.isOpen_congr hs₂.txs]
      exact hopen
    · intro k hk hnode htx
      rw [hs₂.keys] at hk
      exact Tables.number_lt_next hk hnode htx
  have hrest : Keeps (fun s' : Db => SameView s₃.toTables s'.toTables) PlmError.Own (do
      (putAll (((s.getCurrentVersionForTx nodeId x).map fun v => s₁.attributeMap v.id).getD [])
        attributes).forM fun e => execute (Tables.insertAttribute ⟨vid, e.1, e.2⟩)
      let domains ← query fun s' =>
        ((s.getCurrentVersionForTx nodeId x).map fun v => s'.domainsOf v.id).getD []
      domains.forM fun d => execute (Tables.insertDomain ⟨vid, d.domainId⟩)
      storeFingerprint env nodeId vid
      pure vid) := by
    apply Keeps.bind
    · exact Keeps.forM _ fun e _ => keeps_sameView (sameView_insertAttribute _) _
    intro _
    apply Keeps.bind (Keeps.query _)
    intro domains
    apply Keeps.bind
    · exact Keeps.forM _ fun d _ => keeps_sameView (sameView_insertDomain _) _
    intro _
    apply Keeps.bind (storeFingerprint_sameView env nodeId vid _)
    intro _
    exact Keeps.pure _
  refine (hrest s₃ (SameView.refl _)).mono ?_ ?_
  · intro _ s' hs'
    exact hentered.sameView hs'
  · rintro e s' ⟨hs', hown⟩
    exact ⟨Or.inr (hentered.sameView hs'), hown⟩

/-! ## State actions -/

/-- The versions with these ids are committed. -/
def Tables.Doomed (ids : List Uuid) (t : Tables) : Prop :=
  ∀ k ∈ t.stateKeys, k.id ∈ ids → t.isCommitted k.txId = true

theorem Tables.Doomed.cut {ids : List Uuid} (h : t.Doomed ids) (hcut : Cut t t') : t'.Doomed ids := by
  intro k hk hid
  obtain ⟨q, hkeys, -⟩ := hcut.keys
  rw [hkeys] at hk
  rw [Tables.isCommitted_congr hcut.txs]
  exact h k (List.mem_filter.mp hk).1 hid

/-- A statement that cuts the doomed. -/
theorem keeps_cut {ids : List Uuid} {f : Tables → Tables} (hf : ∀ t, t.Doomed ids → Cut t (f t))
    (t : Tables) :
    Keeps (fun s : Db => Cut t s.toTables ∧ s.Doomed ids) PlmError.Own (execute f) := by
  rintro s ⟨hcut, hdoomed⟩
  apply outcome_execute
  · intro s' hs'
    have hstep : Cut s.toTables s'.toTables := by
      rw [hs']
      exact hf _ hdoomed
    exact ⟨hcut.trans hstep, hdoomed.cut hstep⟩
  · exact ⟨⟨hcut, hdoomed⟩, nofun, nofun⟩

/-- The deletion of versions that are committed cuts, as far as it comes. -/
theorem deleteInto_cut (versions : List VersionRow) (cur : Uuid) (t : Tables) :
    Keeps (fun s : Db => Cut t s.toTables ∧ s.Doomed (versions.map (·.id))) PlmError.Own
      (deleteInto versions cur) := by
  have hview : ∀ f : Tables → Tables, (∀ t, SameView t (f t)) → Keeps (fun s : Db =>
      Cut t s.toTables ∧ s.Doomed (versions.map (·.id))) PlmError.Own (execute f) :=
    fun f hf => keeps_cut (fun t _ => (hf t).cut) t
  apply Keeps.bind
  · unfold moveLastSignatures
    cases Tables.latest versions with
    | none => exact Keeps.pure _
    | some last => exact hview _ fun _ => ⟨rfl, rfl, rfl, rfl⟩
  intro _
  apply Keeps.bind
  · exact hview _ fun _ => ⟨rfl, rfl, rfl, rfl⟩
  intro _
  apply Keeps.bind
  · exact hview _ fun _ => ⟨rfl, rfl, rfl, rfl⟩
  intro _
  apply Keeps.bind (keeps_cut (fun t _ => cut_deleteLinks _ t) t)
  intro _
  apply Keeps.bind
  · exact hview _ fun _ => ⟨rfl, rfl, rfl, rfl⟩
  intro _
  apply Keeps.bind (hview _ (sameView_clearPrevious _))
  intro _
  exact keeps_cut (fun t ht => cut_deleteVersions ht) t

/-- **A history collapse cuts**, whatever it ends with. -/
theorem collapseHistory_cut (env : Env) (a : StateActionContext) (t : Tables) :
    Keeps (fun s : Db => Cut t s.toTables) PlmError.Own (collapseHistory env a) := by
  intro s hs
  apply Outcome.ite
  · intro _
    exact Outcome.pure hs
  intro _
  apply Outcome.bind
  have hcollapse : Outcome (collapseRevisionHistory a.nodeId a.revision a.versionId) s
      (fun _ s' => Cut t s'.toTables) fun e s' => Cut t s'.toTables ∧ e.Own := by
    apply Outcome.bind
    apply Outcome.query
    apply Outcome.ite
    · intro _
      exact Outcome.pure hs
    intro _
    -- what is to be deleted is committed
    have hdoomed : s.Doomed ((s.toDelete a.nodeId a.revision a.versionId).map (·.id)) := by
      intro k hk hid
      obtain ⟨v, hv, rfl⟩ := List.mem_map.mp hk
      obtain ⟨w, hw, hwid⟩ := List.mem_map.mp hid
      simp only [Tables.toDelete, List.mem_filter, decide_eq_true_eq] at hw
      obtain rfl : w = v := List.inj_on_of_nodup_map s.valid.pk_version hw.1 hv hwid
      exact hw.2.2.2.2.1
    refine (deleteInto_cut _ a.versionId t s ⟨hs, hdoomed⟩).mono ?_ ?_
    · exact fun _ _ h => h.1
    · exact fun _ _ h => ⟨h.1.1, h.2⟩
  refine hcollapse.mono ?_ fun _ _ h => h
  intro _ s₁ hs₁
  have hview : ∀ t : Tables, SameView t (t.updateVersion a.versionId fun v => { v with iteration := 0 }) :=
    sameView_updateVersion _ fun _ => rfl
  apply outcome_execute
  · intro s' hs'
    have hstep : Cut s₁.toTables s'.toTables := by
      rw [hs']
      exact (hview _).cut
    exact hs₁.trans hstep
  · exact ⟨hs₁, nofun, nofun⟩

/-- The actions of a state cut. -/
theorem executeTransactionalActions_cut (env : Env) (stateId : String) (trigger : StateActionTrigger)
    (a : StateActionContext) (t : Tables) :
    Keeps (fun s : Db => Cut t s.toTables) PlmError.Own
      (executeTransactionalActions env stateId trigger a) :=
  Keeps.forM _ fun c _ => collapseHistory_cut env { a with parameters := c.parameters } t

/-! ## One level -/

/-- The transition that is applied exists and starts in the state the node is committed in. -/
def Loaded (env : Env) (t : Tables) (nodeId : Uuid) (transitionId : String)
    (transition : LifecycleTransitionConfig) : Prop :=
  env.getCachedTransition transitionId = some transition
    ∧ ∃ v, t.getLastCommittedVersion nodeId = some v
      ∧ v.lifecycleStateId = some transition.fromStateId

/-- A version was entered and then something cut. -/
def Worked (nodeId x : Uuid) (state : String) (t t' : Tables) : Prop :=
  ∃ t₁, Entered nodeId x (some state) t t₁ ∧ Cut t₁ t'

theorem loadTransition_outcome (env : Env) (nodeId : Uuid) (transitionId : String) (s : Db) :
    Outcome (loadTransition env nodeId transitionId) s
      (fun transition s' => s' = s ∧ Loaded env s.toTables nodeId transitionId transition)
      fun e s' => s' = s ∧ e.Own := by
  apply Outcome.bind
  apply Outcome.orElseThrow
  swap
  · intro _
    exact ⟨rfl, nofun, nofun⟩
  intro transition htransition
  apply Outcome.bind
  apply Outcome.query
  apply Outcome.bind
  apply Outcome.orElseThrow
  swap
  · intro _
    exact ⟨rfl, nofun, nofun⟩
  intro v hv
  apply Outcome.bind
  apply Outcome.require
  swap
  · intro _
    exact ⟨rfl, nofun, nofun⟩
  intro hstate
  exact Outcome.pure ⟨rfl, htransition, v, hv, hstate⟩

/-- **One level of a transition**: the work on the node, which fails or leaves its view, and
then the cascade to its children. -/
theorem level_outcome {env : Env} {ctx : Caller} {x nodeId : Uuid} {transitionId : String}
    {depth : Nat} {s : Db} {I : Db → Prop} {P : PlmError → Prop}
    (hI : ∀ s₁ s₂ : Db, I s₁ → SameView s₁.toTables s₂.toTables → I s₂) (hP : ∀ e, e.Own → P e)
    (hfail : ∀ s₁ : Db, SameView s.toTables s₁.toTables ∨
      (∃ transition, Loaded env s.toTables nodeId transitionId transition
        ∧ Worked nodeId x transition.toStateId s.toTables s₁.toTables) → I s₁)
    (hcascade : ∀ transition s₁, Loaded env s.toTables nodeId transitionId transition →
      Worked nodeId x transition.toStateId s.toTables s₁.toTables →
      Outcome (executeCascade env (guardedTransition env ctx (applyTransitionInternal env ctx x depth))
        nodeId transitionId x) s₁ (fun _ s₂ => I s₂) fun e s₂ => I s₂ ∧ P e) :
    Outcome (applyTransitionInternal env ctx x (depth + 1) nodeId transitionId) s
      (fun _ s' => I s') fun e s' => I s' ∧ P e := by
  apply Outcome.bind
  refine (loadTransition_outcome env nodeId transitionId s).mono ?_ ?_
  swap
  · rintro e s₁ ⟨rfl, hown⟩
    exact ⟨hfail _ (Or.inl (SameView.refl _)), hP e hown⟩
  rintro transition s₁ ⟨rfl, hload⟩
  apply Outcome.bind
  refine (createVersion_outcome s₁).mono ?_ ?_
  swap
  · rintro e s₂ ⟨hview | hentered, hown⟩
    · exact ⟨hfail s₂ (Or.inl hview), hP e hown⟩
    · exact ⟨hfail s₂ (Or.inr ⟨transition, hload, s₂.toTables, hentered, Cut.refl _⟩), hP e hown⟩
  intro versionId s₂ hentered
  -- from here on the version is there, whatever fails
  have hworked : ∀ s₃ e, e.Own → Cut s₂.toTables s₃.toTables → I s₃ ∧ P e := by
    intro s₃ e hown hcut
    exact ⟨hfail s₃ (Or.inr ⟨transition, hload, s₂.toTables, hentered, hcut⟩), hP e hown⟩
  apply Outcome.bind
  apply Outcome.query
  apply Outcome.bind
  refine (executeTransactionalActions_cut env _ _ _ s₂.toTables s₂ (Cut.refl _)).mono ?_
    fun e s₃ h => hworked s₃ e h.2 h.1
  intro _ s₃ hs₃
  apply Outcome.bind
  refine (executeTransactionalActions_cut env _ _ _ s₂.toTables s₃ hs₃).mono ?_
    fun e s₄ h => hworked s₄ e h.2 h.1
  intro _ s₄ hs₄
  apply Outcome.bind
  refine (tryLock_sameView ctx nodeId s₄.toTables s₄ (SameView.refl _)).mono ?_
    fun e s₅ h => hworked s₅ e h.2 (hs₄.trans h.1.cut)
  intro _ s₅ hs₅
  apply Outcome.bind
  refine (hcascade transition s₅ hload ⟨s₂.toTables, hentered, hs₄.trans hs₅.cut⟩).mono ?_
    fun _ _ h => h
  intro childActions s₆ hs₆
  apply Outcome.bind
  refine (enqueue_sameView _ s₆.toTables s₆ (SameView.refl _)).mono ?_ ?_
  · intro _ s₇ hs₇
    exact Outcome.pure (hI s₆ s₇ hs₆ hs₇)
  · rintro e s₇ ⟨hview, hown⟩
    exact ⟨hI s₆ s₇ hs₆ hview, hP e hown⟩

/-- One rule of a cascade that keeps an invariant when the child's transition does. -/
theorem cascadeChild_outcome {x : Uuid} {transition : Uuid → String → Plm TransitionResult}
    {rule : CascadeRule} {s : Db} {I : Db → Prop} {P : PlmError → Prop} (hs : I s)
    (hnull : ∀ m, P (.nullPointer m))
    (hchild : s.isAlreadyThere rule x = false → s.inCascadeScope rule = true →
      Outcome (transition rule.childId rule.childTransitionId) s (fun _ s' => I s')
        fun e s' => I s' ∧ P e) :
    Outcome (cascadeChild transition x rule) s (fun _ s' => I s') fun e s' => I s' ∧ P e := by
  apply Outcome.bind
  apply Outcome.query
  apply Outcome.bind
  apply Outcome.require
  swap
  · intro _
    exact ⟨hs, hnull _⟩
  intro _
  apply Outcome.bind
  apply Outcome.query
  apply Outcome.ite
  · intro _
    exact Outcome.pure hs
  intro hskip
  rw [Bool.or_eq_true, not_or, Bool.not_eq_true, Bool.not_eq_true, Bool.not_eq_false'] at hskip
  apply Outcome.bind
  apply Outcome.attempt
  refine (hchild hskip.1 hskip.2).mono ?_ ?_
  · intro result s' hs'
    exact Outcome.pure hs'
  · rintro e s' ⟨hs', he⟩
    exact Outcome.ite (fun _ => Outcome.throw ⟨hs', he⟩) fun _ => Outcome.query hs'

/-- The loop of a cascade keeps what each of its rounds keeps. -/
theorem executeCascade_outcome {env : Env} {x nodeId : Uuid} {transitionId : String}
    {transition : Uuid → String → Plm TransitionResult} {s : Db} {I : Db → Prop}
    {P : PlmError → Prop} (hs : I s) (hnull : ∀ m, P (.nullPointer m))
    (hblocked : ∀ errors, errors ≠ [] → P (.cascadeBlocked errors))
    (hround : ∀ rule ∈ resolveCascadeRules env s.toTables nodeId transitionId, ∀ s₁, I s₁ →
      s₁.isAlreadyThere rule x = false → s₁.inCascadeScope rule = true →
      Outcome (transition rule.childId rule.childTransitionId) s₁ (fun _ s' => I s')
        fun e s' => I s' ∧ P e) :
    Outcome (executeCascade env transition nodeId transitionId x) s (fun _ s' => I s')
      fun e s' => I s' ∧ P e := by
  have hloop : ∀ rules : List CascadeRule,
      (∀ rule ∈ rules, ∀ s₁, I s₁ → s₁.isAlreadyThere rule x = false →
        s₁.inCascadeScope rule = true →
        Outcome (transition rule.childId rule.childTransitionId) s₁ (fun _ s' => I s')
          fun e s' => I s' ∧ P e) →
      Keeps I P (cascadeChildren transition x rules) := by
    intro rules
    induction rules with
    | nil => exact fun _ => Keeps.pure _
    | cons rule rules ih =>
      intro hrules
      apply Keeps.bind
      · intro s₁ hs₁
        exact cascadeChild_outcome hs₁ hnull (hrules rule List.mem_cons_self s₁ hs₁)
      rintro ⟨errors, actions⟩
      apply Keeps.bind (ih fun r hr => hrules r (List.mem_cons_of_mem _ hr))
      rintro ⟨moreErrors, moreActions⟩
      exact Keeps.pure _
  apply Outcome.bind
  apply Outcome.query
  apply Outcome.bind
  refine (hloop _ hround s hs).mono ?_ fun _ _ h => h
  rintro ⟨errors, actions⟩ s₁ hs₁
  apply Outcome.bind
  apply Outcome.require
  · intro _
    exact Outcome.pure hs₁
  · intro hne
    exact ⟨hs₁, hblocked errors hne⟩

theorem guardedTransition_outcome {env : Env} {ctx : Caller} {s : Db} {I : Db → Prop}
    {P : PlmError → Prop} {transition : Uuid → String → Plm TransitionResult} {nodeId : Uuid}
    {transitionId : String} (hs : I s) (hdenied : ∀ m, P (.accessDenied m))
    (h : Outcome (transition nodeId transitionId) s (fun _ s' => I s') fun e s' => I s' ∧ P e) :
    Outcome (guardedTransition env ctx transition nodeId transitionId) s (fun _ s' => I s')
      fun e s' => I s' ∧ P e := by
  apply Outcome.bind
  apply Outcome.query
  cases env.transitionGuard ctx.userId s.toTables nodeId transitionId with
  | none => exact h
  | some message => exact Outcome.throw ⟨hs, hdenied message⟩

end PlmCore.Psm
