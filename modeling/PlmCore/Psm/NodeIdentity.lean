/-
The identity of a node: its id, its type and its logical id.

Only `createNode` inserts a node, under a new id and a logical id that no stored node has. No
other method changes more of a node than its lock, or deletes it. So as long as a created node is
stored, no other node has its logical id.
-/
import PlmCore.Lib.Run
import PlmCore.Psm.MethodRule
import PlmCore.Psm.Store

set_option autoImplicit false

namespace PlmCore.Psm

open PlmCore.Lib

/-! ## The node of a logical id -/

/-- The id is used, the node of that id has the type and the logical id, and as long as it is
stored no other node has the logical id. -/
structure Tables.Identifies (t : Tables) (nodeId : Uuid) (nodeTypeId logicalId : String) : Prop where
  used : nodeId < t.nextId
  same : ∀ n ∈ t.nodes, n.id = nodeId → n.logicalId = some logicalId ∧ n.nodeTypeId = nodeTypeId
  only : nodeId ∈ t.nodeIds → ∀ n ∈ t.nodes, n.logicalId = some logicalId → n.id = nodeId

/-- Nodes may go or be locked and unlocked; none comes, and ids are not used again. -/
structure NodesStay (t t' : Tables) : Prop where
  nextId : t.nextId ≤ t'.nextId
  nodes : t'.nodes.map NodeRow.unlocked ⊆ t.nodes.map NodeRow.unlocked

namespace NodesStay

variable {t t₁ t' : Tables}

theorem refl (t : Tables) : NodesStay t t := ⟨Nat.le_refl _, List.Subset.refl _⟩

theorem trans (h : NodesStay t t₁) (h' : NodesStay t₁ t') : NodesStay t t' :=
  ⟨Nat.le_trans h.nextId h'.nextId, fun _ hn => h.nodes (h'.nodes hn)⟩

theorem of_eq (hnext : t.nextId ≤ t'.nextId)
    (hnodes : t'.nodes.map NodeRow.unlocked = t.nodes.map NodeRow.unlocked) : NodesStay t t' :=
  ⟨hnext, hnodes ▸ List.Subset.refl _⟩

theorem of_nodes (hnext : t.nextId ≤ t'.nextId) (hnodes : t'.nodes = t.nodes) : NodesStay t t' :=
  .of_eq hnext (by rw [hnodes])

theorem setLock (t : Tables) (nodeId : Uuid) (b : Option String) (a : Option Nat) :
    NodesStay t (t.setLock nodeId b a) := .of_eq (Nat.le_refl _) (unlocked_setLock ..)

theorem withEvents (h : NodesStay t t') (es : List PlmEvent) : NodesStay t (t'.withEvents es) :=
  ⟨h.nextId, h.nodes⟩

/-- The columns but the lock are those of a node that was there. -/
theorem of_mem (h : NodesStay t t') {n : NodeRow} (hn : n ∈ t'.nodes) :
    ∃ m ∈ t.nodes, m.id = n.id ∧ m.logicalId = n.logicalId ∧ m.nodeTypeId = n.nodeTypeId := by
  obtain ⟨m, hm, hsame⟩ := List.mem_map.mp (h.nodes (List.mem_map_of_mem hn))
  obtain ⟨hid, htype, -, hlogical, -⟩ := NodeRow.mk.inj hsame
  exact ⟨m, hm, hid, hlogical, htype⟩

theorem identifies {nodeId : Uuid} {nodeTypeId logicalId : String} (h : NodesStay t t')
    (hi : t.Identifies nodeId nodeTypeId logicalId) : t'.Identifies nodeId nodeTypeId logicalId where
  used := Nat.lt_of_lt_of_le hi.used h.nextId
  same n hn hid := by
    obtain ⟨m, hm, hmid, hlogical, htype⟩ := h.of_mem hn
    rw [← hlogical, ← htype]
    exact hi.same m hm (hmid.trans hid)
  only hstored n hn hlogical := by
    have hstored' : nodeId ∈ t.nodeIds := by
      obtain ⟨k, hk, hkid⟩ := List.mem_map.mp hstored
      obtain ⟨m, hm, hmid, -⟩ := h.of_mem hk
      exact List.mem_map.mpr ⟨m, hm, hmid.trans hkid⟩
    obtain ⟨m, hm, hmid, hmlogical, -⟩ := h.of_mem hn
    rw [← hmid]
    exact hi.only hstored' m hm (hmlogical.trans hlogical)

end NodesStay

/-! ## Requests that create no node -/

section Requests

variable {env : Env} {ctx : Caller} {x nodeId : Uuid} {s s' : Db}

theorem nodesStay_tryLock (h : Returns (tryLock ctx nodeId) s () s') :
    NodesStay s.toTables s'.toTables := by
  obtain ⟨n, -, ⟨-, rfl⟩ | ⟨-, hs'⟩⟩ := tryLock_ok h
  · exact .refl _
  · rw [hs']
    exact (NodesStay.setLock ..).withEvents _

theorem nodesStay_openTransaction (h : Returns (openTransaction ctx) s x s') :
    NodesStay s.toTables s'.toTables := by
  rw [(openTransaction_ok h).2]
  exact .of_nodes (Nat.le_succ _) rfl

/-- The methods on nodes and the transitions insert no node and delete none. -/
theorem nodesStay_rule (env : Env) : MethodRule env NodesStay where
  refl := .refl
  trans := .trans
  events t es := (NodesStay.refl t).withEvents es
  rows h := by
    rw [h.tables]
    exact .of_nodes (Nat.le_refl _) rfl
  described vid description t := by
    unfold Tables.describe
    split
    · exact .refl t
    · exact .of_nodes (Nat.le_refl _) rfl
  refreshed nodeId v t := .of_nodes (Nat.le_refl _) rfl
  locked := nodesStay_tryLock
  opened := nodesStay_openTransaction
  versioned h := by
    obtain ⟨-, numbering, row, -, -, hs'⟩ := createVersion_ok h
    rw [hs']
    exact .of_nodes (Nat.le_succ _) rfl
  collapsed h := by
    obtain rfl | hcollapsed := collapseHistory_cases h
    · exact .refl _
    · exact .of_nodes (Nat.le_of_eq hcollapsed.nextId.symm) hcollapsed.nodes

theorem nodesStay_commit {comment : Option String} {selected : List Uuid} {o : Option Uuid}
    (h : Returns (commitTransaction env ctx x comment selected) s o s') :
    NodesStay s.toTables s'.toTables := by
  obtain ⟨-, s₁, es, hdefer, -, hs'⟩ := commitTransaction_ok h
  have hdeferred : NodesStay s.toTables s₁.toTables := by
    obtain ⟨-, -, rfl⟩ | ⟨-, y, s₀, -, hopen, hs₁⟩ := deferNodes_ok hdefer
    · exact .refl _
    · refine (nodesStay_openTransaction hopen).trans ?_
      rw [hs₁]
      exact .of_nodes (Nat.le_refl _) rfl
  rw [hs']
  refine (hdeferred.trans (.of_eq ?_ ?_)).withEvents es
  · exact Nat.le_refl _
  · exact unlocked_unlockNodes ..

/-- Discarding versions takes the nodes that have no other. -/
theorem Discards.nodesStay {p : VersionSelection} {gone : List Uuid} {t t' : Tables}
    (h : Discards p gone t t') (hnext : t'.nextId = t.nextId) : NodesStay t t' where
  nextId := Nat.le_of_eq hnext.symm
  nodes := by
    rw [h.nodes]
    exact List.map_subset _ List.filter_sublist.subset

theorem nodesStay_rollback (h : Returns (rollbackTransaction ctx x) s () s') :
    NodesStay s.toTables s'.toTables := by
  obtain ⟨-, es, hs'⟩ := rollbackTransaction_ok h
  refine (rollbackTransaction_discards h).1.nodesStay ?_
  rw [hs']
  rfl

theorem nodesStay_release {nodeIds : List Uuid} (h : Returns (releaseNodes ctx x nodeIds) s () s') :
    NodesStay s.toTables s'.toTables := by
  obtain ⟨-, ⟨-, rfl⟩ | ⟨es, hs'⟩⟩ := releaseNodes_ok h
  · exact .refl _
  · refine (releaseNodes_discards h).1.nodesStay ?_
    have hdrop : ∀ t : Tables, (t.dropEmptyTx x).nextId = t.nextId := by
      intro t
      unfold Tables.dropEmptyTx
      split <;> rfl
    have hnodes : ∀ (ids : List Uuid) (t : Tables),
        (ids.foldl (fun t n => t.released x n) t).nextId = t.nextId := by
      intro ids
      induction ids with
      | nil => exact fun _ => rfl
      | cons nodeId ids ih => exact fun t => ih (t.released x nodeId)
    rw [hs']
    exact (hdrop _).trans (hnodes nodeIds _)

theorem nodesStay_cleanStale {now : Nat} (h : Returns (cleanStaleTransactions now) s () s') :
    NodesStay s.toTables s'.toTables := by
  refine (cleanStaleTransactions_discards h).1.nodesStay ?_
  rw [cleanStaleTransactions_ok h]
  generalize s.staleTxIds now = xs
  generalize s.toTables = t
  induction xs generalizing t with
  | nil => rfl
  | cons x xs ih => exact ih _

/-! ### Links and annotations -/

theorem nodesStay_createLink {linkTypeId : String} {linkId : Uuid}
    {sourceCode type key linkLogicalId : Option String}
    (h : Returns (createLink env ctx linkTypeId nodeId sourceCode type key x linkLogicalId) s linkId s') :
    NodesStay s.toTables s'.toTables := by
  obtain ⟨target, sv, s₁, s₂, v, es, hensure, hlock, -, -, -, -, hs'⟩ := createLink_ok h
  refine ((nodesStay_rule env).ensureOpenVersion hensure).trans ((nodesStay_tryLock hlock).trans ?_)
  rw [hs']
  exact .of_nodes (Nat.le_succ _) rfl

theorem nodesStay_deleteLink {linkId : Uuid} (h : Returns (deleteLink env ctx linkId) s () s') :
    NodesStay s.toTables s'.toTables := by
  obtain ⟨link, source, s₁, es, -, -, -, -, hlock, hs'⟩ := deleteLink_ok h
  refine (nodesStay_tryLock hlock).trans ?_
  rw [hs']
  exact .of_nodes (Nat.le_refl _) rfl

theorem nodesStay_updateLink {linkId : Uuid} {u : LinkUpdate}
    (h : Returns (updateLink env ctx linkId u) s () s') : NodesStay s.toTables s'.toTables := by
  obtain ⟨link, source, s₁, target, logicalId, rows, v, es, -, -, -, -, hlock, -, -, -, -, hs'⟩ :=
    updateLink_ok h
  refine (nodesStay_tryLock hlock).trans ?_
  rw [hs']
  exact .of_nodes (Nat.le_refl _) rfl

theorem nodesStay_addComment {vid id : Uuid} {text : Option String} {parent : Option Uuid}
    {attributeName : Option String}
    (h : Returns (addComment env ctx nodeId vid text parent attributeName) s id s') :
    NodesStay s.toTables s'.toTables := by
  obtain ⟨v, c, es, -, -, -, -, -, hs'⟩ := addComment_ok h
  rw [hs']
  exact .of_nodes (Nat.le_succ _) rfl

theorem nodesStay_sign {id : Uuid} {meaning comment : Option String}
    (h : Returns (sign env ctx nodeId meaning comment) s id s') : NodesStay s.toTables s'.toTables := by
  obtain ⟨v, g, es, -, -, -, hs'⟩ := sign_ok h
  rw [hs']
  exact .of_nodes (Nat.le_succ _) rfl

theorem nodesStay_unlock (h : Returns (unlock nodeId) s () s') : NodesStay s.toTables s'.toTables := by
  obtain ⟨es, hs'⟩ := unlock_ok h
  rw [hs']
  exact (NodesStay.setLock ..).withEvents es

theorem nodesStay_createBaseline {depth : Nat} {root id : Uuid} {name : String}
    {description : Option String} (h : Returns (createBaseline env ctx depth root name description) s id s') :
    NodesStay s.toTables s'.toTables := by
  obtain ⟨-, entries, hs'⟩ := createBaseline_ok h
  rw [hs']
  exact .of_nodes (Nat.le_succ _) rfl

end Requests

/-! ## Creating a node -/

section Creation

variable {env : Env} {ctx : Caller} {projectSpaceId : Option String} {nodeTypeId : String}
  {logicalId externalId : Option String} {nodeId : Uuid} {s s' : Db}

/-- The new node has an id and a logical id that no node has, and the rest of the work inserts no
other. -/
theorem createNode_inserts
    (h : Returns (createNode env ctx projectSpaceId nodeTypeId logicalId externalId) s nodeId s') :
    s.nodesByLogicalId (trim (nvl logicalId)) = [] ∧ nodeId = s.nextId ∧ ∃ s₁ : Db,
      s₁.toTables = s.takeId.insertNode
        (newNode ctx nodeId projectSpaceId nodeTypeId (trim (nvl logicalId)) externalId) ∧
      NodesStay s₁.toTables s'.toTables := by
  obtain ⟨x, s₁, s₂, s₃, row, es, hnone, hid, hins, hlock, htx, -, hs'⟩ := createNode_ok h
  refine ⟨hnone, hid, s₁, hins, ?_⟩
  have hadded : NodesStay s₃.toTables (s₃.addVersion env row [] []) := .of_nodes (Nat.le_succ _) rfl
  refine (nodesStay_tryLock hlock).trans (((nodesStay_rule env).findOrOpenTransaction htx).trans ?_)
  rw [hs']
  exact hadded.withEvents es

/-- **A created node** is the node of its logical id. -/
theorem identifies_created
    (h : Returns (createNode env ctx projectSpaceId nodeTypeId logicalId externalId) s nodeId s') :
    s'.Identifies nodeId nodeTypeId (trim (nvl logicalId)) := by
  obtain ⟨hnone, hid, s₁, hins, hstay⟩ := createNode_inserts h
  have hnodes : s₁.nodes = s.nodes ++
      [newNode ctx nodeId projectSpaceId nodeTypeId (trim (nvl logicalId)) externalId] := by
    rw [hins]
    rfl
  refine hstay.identifies ⟨?_, fun n hn hnid => ?_, fun _ n hn hlogical => ?_⟩
  · rw [hid, hins]
    exact Nat.lt_succ_self _
  · have hnew : newNode ctx nodeId projectSpaceId nodeTypeId (trim (nvl logicalId)) externalId ∈
        s₁.nodes := by
      rw [hnodes]
      exact List.mem_append_right _ (List.mem_singleton_self _)
    rw [List.inj_on_of_nodup_map s₁.valid.pk_node hn hnew hnid]
    exact ⟨rfl, rfl⟩
  · rw [hnodes, List.mem_append, List.mem_singleton] at hn
    obtain hold | rfl := hn
    · have hmem : n ∈ s.nodesByLogicalId (trim (nvl logicalId)) :=
        List.mem_filter.mpr ⟨hold, decide_eq_true hlogical⟩
      rw [hnone] at hmem
      cases hmem
    · rfl

/-- **Creating another node** takes neither the id nor the logical id. -/
theorem identifies_other {other : Uuid} {otherTypeId otherLogicalId : String}
    (h : Returns (createNode env ctx projectSpaceId nodeTypeId logicalId externalId) s nodeId s')
    (hi : s.Identifies other otherTypeId otherLogicalId) :
    s'.Identifies other otherTypeId otherLogicalId := by
  obtain ⟨hnone, rfl, s₁, hins, hstay⟩ := createNode_inserts h
  have hnodes : s₁.nodes = s.nodes ++
      [newNode ctx s.nextId projectSpaceId nodeTypeId (trim (nvl logicalId)) externalId] := by
    rw [hins]
    rfl
  have hne : s.nextId ≠ other := Nat.ne_of_gt hi.used
  refine hstay.identifies ⟨?_, fun n hn hnid => ?_, fun hstored n hn hlogical => ?_⟩
  · rw [hins]
    exact Nat.lt_succ_of_lt hi.used
  · rw [hnodes, List.mem_append, List.mem_singleton] at hn
    obtain hold | rfl := hn
    · exact hi.same n hold hnid
    · exact absurd hnid hne
  · obtain ⟨k, hk, hkid⟩ := List.mem_map.mp hstored
    rw [hnodes, List.mem_append, List.mem_singleton] at hn hk
    have hkold : k ∈ s.nodes := by
      obtain hold | rfl := hk
      · exact hold
      · exact absurd hkid hne
    obtain hold | rfl := hn
    · exact hi.only (List.mem_map.mpr ⟨k, hkold, hkid⟩) n hold hlogical
    · -- the duplicate check would have found the node
      have hmem : k ∈ s.nodesByLogicalId (trim (nvl logicalId)) := by
        refine List.mem_filter.mpr ⟨hkold, decide_eq_true ?_⟩
        rw [(hi.same k hkold hkid).1]
        exact hlogical.symm
      rw [hnone] at hmem
      cases hmem

end Creation

/-! ## Runs -/

section Runs

variable {env : Env} {nodeId : Uuid} {nodeTypeId logicalId : String} {s s' : Db}

theorem identifies_authoring {ctx : Caller} {depth : Nat} {x : Uuid} {op : AuthoringOp}
    (hi : s.Identifies nodeId nodeTypeId logicalId) (h : Returns (op.run env ctx depth x) s () s') :
    s'.Identifies nodeId nodeTypeId logicalId := by
  cases op with
  | createNode projectSpaceId typeId askedId externalId =>
    obtain ⟨newId, h⟩ := returns_void.mp h
    -- another node may come, under another logical id or type
    exact identifies_other h hi
  | checkout otherId namesTransaction =>
    obtain ⟨vid, h⟩ := returns_void.mp h
    -- nothing else writes the identity of a node
    exact ((nodesStay_rule env).checkout h).identifies hi
  | modifyNode otherId attributes description strategy =>
    obtain ⟨vid, h⟩ := returns_void.mp h
    exact ((nodesStay_rule env).modifyNode h).identifies hi
  | createLink linkTypeId otherId sourceCode type key linkLogicalId =>
    obtain ⟨linkId, h⟩ := returns_void.mp h
    exact (nodesStay_createLink h).identifies hi
  | updateLink linkId update => exact (nodesStay_updateLink h).identifies hi
  | deleteLink linkId => exact (nodesStay_deleteLink h).identifies hi
  | assignDomain otherId domainId =>
    exact ((nodesStay_rule env).domainAction (fun _ _ _ _ _ => assignDomain_ok) h).identifies hi
  | unassignDomain otherId domainId =>
    exact ((nodesStay_rule env).domainAction (fun _ _ _ _ _ => unassignDomain_ok) h).identifies hi
  | transition otherId transitionId =>
    obtain ⟨vid, h⟩ := returns_void.mp h
    exact ((nodesStay_rule env).transition h).identifies hi
  | commit comment selectedNodeIds =>
    obtain ⟨o, h⟩ := returns_void.mp h
    exact (nodesStay_commit h).identifies hi
  | addComment otherId versionId text parentCommentId attributeName =>
    obtain ⟨id, h⟩ := returns_void.mp h
    exact (nodesStay_addComment h).identifies hi
  | sign otherId meaning comment =>
    obtain ⟨id, h⟩ := returns_void.mp h
    exact (nodesStay_sign h).identifies hi

/-- **Every request** leaves the logical id with its node. -/
theorem identifies_method {r : StoreRequest} (hi : s.Identifies nodeId nodeTypeId logicalId)
    (h : Returns (r.method env) s () s') : s'.Identifies nodeId nodeTypeId logicalId := by
  cases r with
  | openTransaction ctx =>
    obtain ⟨x, h⟩ := returns_void.mp h
    exact (nodesStay_openTransaction h).identifies hi
  | authoring ctx depth txId op => exact identifies_authoring hi h
  | rollback ctx txId => exact (nodesStay_rollback h).identifies hi
  | release ctx txId nodeIds => exact (nodesStay_release h).identifies hi
  | cleanStale now => exact (nodesStay_cleanStale h).identifies hi
  | lock ctx otherId => exact (nodesStay_tryLock h).identifies hi
  | unlock otherId => exact (nodesStay_unlock h).identifies hi
  | createBaseline ctx depth rootNodeId name description =>
    obtain ⟨id, h⟩ := returns_void.mp h
    exact (nodesStay_createBaseline h).identifies hi

/-- **A logical id stays with its node** along every run. -/
theorem identifies_run (hi : s.Identifies nodeId nodeTypeId logicalId) (rs : List StoreRequest) :
    (run (Db.step env) s rs).Identifies nodeId nodeTypeId logicalId := by
  have hstep : ∀ (s : Db) (r : StoreRequest), s.Identifies nodeId nodeTypeId logicalId →
      (s.step env r).Identifies nodeId nodeTypeId logicalId := fun s r hs =>
    Db.step_invariant (fun s => s.Identifies nodeId nodeTypeId logicalId) hs
      fun _ hrun => identifies_method hs hrun
  exact @run_invariant _ _ _ (fun s : Db => s.Identifies nodeId nodeTypeId logicalId) hstep s hi rs

end Runs

end PlmCore.Psm
