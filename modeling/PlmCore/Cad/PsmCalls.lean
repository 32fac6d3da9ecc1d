/-
PSM as cad-api calls it, `PsmActionClient.java`: the nodes by their ids and identities, the links by
source and target key, and the five calls an import makes.

`Psm` is a view of the PSM store; `viewNode` and the theorems at the end say of which rows, and that
the service methods of PSM do to it what the calls here do. Attributes are not part of the
view. Whatever else lets a call fail, in PSM or on the way to it, is a `Fault`.
-/
import PlmCore.Psm.Authoring

set_option autoImplicit false

namespace PlmCore.Cad

open PlmCore.Lib PlmCore.Psm

/-! ## The view -/

structure PsmNode where
  id : Uuid
  nodeTypeId : String
  logicalId : Option String
  externalId : Option String
  deriving DecidableEq, Repr

structure PsmLink where
  id : Uuid
  sourceNodeId : Uuid
  linkTypeId : String
  targetKey : String
  deriving DecidableEq, Repr

structure Psm where
  nodes : List PsmNode
  links : List PsmLink
  nextId : Uuid
  deriving DecidableEq, Repr

namespace Psm

/-- The ids of the nodes. -/
def nodeIds (p : Psm) : List Uuid := p.nodes.map (·.id)

/-- The node a link key names. -/
def nodeOfKey (p : Psm) (key : String) : Option Uuid :=
  (p.nodes.find? (·.logicalId = some key)).map (·.id)

/-- `SELECT id FROM node WHERE external_id = ?`, as `NodeService.findByExternalId` asks it: two
rows are an error, which the client answers with null. -/
def nodeOfExternalId (p : Psm) (externalId : String) : Option Uuid :=
  if isBlank externalId then none
  else
    match p.nodes.filter (·.externalId = some (trim externalId)) with
    | [n] => some n.id
    | _ => none

end Psm

/-! ## The calls -/

/-- How a call fails for another reason than its arguments: before PSM did anything, or after,
with the answer lost. -/
inductive Fault
  | refused (message : String)
  | lost (message : String)

/-- A call that PSM answers by `run`, with or without a fault. -/
def exchange {α : Type} (fault : Option Fault) (run : Psm → Except String (α × Psm)) (p : Psm) :
    Except String α × Psm :=
  match fault, run p with
  | none, .ok (a, p') => (.ok a, p')
  | none, .error m => (.error m, p)
  | some (.lost m), .ok (_, p') => (.error m, p')
  | some (.lost m), .error _ => (.error m, p)
  | some (.refused m), _ => (.error m, p)

/-- `findByExternalId`: a failure of the call is answered with null too. -/
def findByExternalId (fails : Bool) (cadId : String) (p : Psm) : Option Uuid :=
  if fails then none else p.nodeOfExternalId cadId

/-- The row of a new node. -/
def newPsmNode (id : Uuid) (nodeTypeId logicalId : String) (externalId : Option String) : PsmNode where
  id := id
  nodeTypeId := nodeTypeId
  logicalId := some logicalId
  externalId := if nullOrBlank externalId then none else externalId.map trim

/-- What PSM does on `create_node`. -/
def insertPsmNode (nodeTypeId : String) (logicalId externalId : Option String) (p : Psm) :
    Except String (Uuid × Psm) :=
  let trimmed := trim (nvl logicalId)
  if trimmed = "" then .error "'Identifier' is required"
  else if (p.nodeOfKey trimmed).isSome then
    .error ("A node with Identifier '" ++ trimmed ++ "' already exists")
  else .ok (p.nextId,
    { p with
      nodes := p.nodes ++ [newPsmNode p.nextId nodeTypeId trimmed externalId]
      nextId := p.nextId + 1 })

/-- `createNode`. -/
def createNode (fault : Option Fault) (nodeTypeId : String) (logicalId externalId : Option String)
    (p : Psm) : Except String Uuid × Psm :=
  exchange fault (insertPsmNode nodeTypeId logicalId externalId) p

/-- What PSM does on `update_node`. -/
def writePsmNode (nodeId : Uuid) (p : Psm) : Except String (Unit × Psm) :=
  if nodeId ∈ p.nodeIds then .ok ((), p) else .error ("Node not found: " ++ toString nodeId)

/-- `updateNode`. -/
def updateNode (fault : Option Fault) (nodeId : Uuid) (p : Psm) : Except String Unit × Psm :=
  exchange fault (writePsmNode nodeId) p

/-- What PSM does on `create_link`: the key has to name a node. -/
def insertPsmLink (sourceNodeId : Uuid) (targetKey linkTypeId : String) (p : Psm) :
    Except String (Uuid × Psm) :=
  if (p.nodeOfKey targetKey).isSome then
    .ok (p.nextId,
      { p with
        links := p.links ++ [⟨p.nextId, sourceNodeId, linkTypeId, targetKey⟩]
        nextId := p.nextId + 1 })
  else .error ("Node not found: " ++ targetKey)

/-- `createLink`. -/
def createLink (fault : Option Fault) (sourceNodeId : Uuid) (targetLogicalId linkTypeId : String)
    (p : Psm) : Except String Uuid × Psm :=
  exchange fault (insertPsmLink sourceNodeId targetLogicalId linkTypeId) p

/-- `updateLinkAttributes`. -/
def updateLinkAttributes (fault : Option Fault) (p : Psm) : Except String Unit × Psm :=
  exchange fault (fun p => .ok ((), p)) p

/-! ## What a call does -/

section Calls

variable {α : Type} {fault : Option Fault} {run : Psm → Except String (α × Psm)} {p p' : Psm}

/-- A call that is answered did what PSM does. -/
theorem exchange_ok {a : α} (h : exchange fault run p = (.ok a, p')) :
    fault = none ∧ run p = .ok (a, p') := by
  unfold exchange at h
  split at h
  · cases h
    exact ⟨rfl, by assumption⟩
  · cases h
  · cases h
  · cases h
  · cases h

/-- Whatever a call ends with, PSM did what it does or nothing. -/
theorem exchange_psm (P : Psm → Prop) (hkeep : P p) (hrun : ∀ a q, run p = .ok (a, q) → P q) :
    P (exchange fault run p).2 := by
  unfold exchange
  split
  · exact hrun _ _ (by assumption)
  · exact hkeep
  · exact hrun _ _ (by assumption)
  · exact hkeep
  · exact hkeep

/-- Without a fault the call is answered as PSM answers it. -/
theorem exchange_none {a : α} (h : run p = .ok (a, p')) : exchange none run p = (.ok a, p') := by
  simp [exchange, h]

end Calls

/-- A node is inserted exactly when its trimmed logical id is not empty and not taken. -/
theorem insertPsmNode_ok {nodeTypeId : String} {logicalId externalId : Option String} {p p' : Psm}
    {id : Uuid} : insertPsmNode nodeTypeId logicalId externalId p = .ok (id, p') ↔
      trim (nvl logicalId) ≠ "" ∧ p.nodeOfKey (trim (nvl logicalId)) = none ∧ id = p.nextId
      ∧ p' = { p with
          nodes := p.nodes ++ [newPsmNode p.nextId nodeTypeId (trim (nvl logicalId)) externalId]
          nextId := p.nextId + 1 } := by
  simp only [insertPsmNode]
  split
  · simp [*]
  · split
    · rename_i hsome
      obtain ⟨n, hn⟩ := Option.isSome_iff_exists.mp hsome
      simp [hn]
    · rename_i hne hnone
      simp only [Option.not_isSome_iff_eq_none] at hnone
      simp only [Except.ok.injEq, Prod.mk.injEq, ne_eq, hne, not_false_eq_true, hnone, true_and]
      rw [eq_comm, eq_comm (a := p')]

theorem insertPsmLink_ok {sourceNodeId : Uuid} {targetKey linkTypeId : String} {p p' : Psm}
    {id : Uuid} : insertPsmLink sourceNodeId targetKey linkTypeId p = .ok (id, p') ↔
      (p.nodeOfKey targetKey).isSome = true ∧ id = p.nextId
      ∧ p' = { p with
          links := p.links ++ [⟨p.nextId, sourceNodeId, linkTypeId, targetKey⟩]
          nextId := p.nextId + 1 } := by
  unfold insertPsmLink
  split
  · rename_i hsome
    simp only [Except.ok.injEq, Prod.mk.injEq, hsome, true_and]
    rw [eq_comm, eq_comm (a := p')]
  · rename_i hnone
    simp [hnone]

theorem writePsmNode_ok {nodeId : Uuid} {p p' : Psm} {u : Unit} :
    writePsmNode nodeId p = .ok (u, p') ↔ nodeId ∈ p.nodeIds ∧ p' = p := by
  unfold writePsmNode
  split
  · rename_i hmem
    simp [hmem, eq_comm]
  · rename_i hmem
    simp [hmem]

/-! ## What the calls are in PSM -/

/-- A row of the node table in the view. -/
def viewNode (n : NodeRow) : PsmNode := ⟨n.id, n.nodeTypeId, n.logicalId, n.externalId⟩

section View

variable {env : Env} {ctx : Caller} {s s' : Db} {nodeId : Uuid}

/-- A lock is not part of the view. -/
theorem viewNodes_tryLock (h : Returns (tryLock ctx nodeId) s () s') :
    s'.nodes.map viewNode = s.nodes.map viewNode := by
  obtain ⟨n, -, ⟨-, rfl⟩ | ⟨-, hs'⟩⟩ := tryLock_ok h
  · rfl
  · have hnodes : s'.nodes = s.nodes.map fun n => if n.id = nodeId then
        { n with lockedBy := some ctx.userId, lockedAt := some ctx.now } else n := by
      rw [hs']
      rfl
    rw [hnodes, List.map_map]
    refine List.map_congr_left fun m _ => ?_
    simp only [Function.comp_apply]
    split
    · rfl
    · rfl

theorem viewNodes_findOrOpenTransaction {x : Uuid} (h : Returns (findOrOpenTransaction ctx) s x s') :
    s'.nodes = s.nodes := by
  obtain ⟨rfl, -⟩ | ⟨-, hopen⟩ := findOrOpenTransaction_ok h
  · rfl
  · rw [(openTransaction_ok hopen).2]
    rfl

/-- **`NodeService.createNode` inserts the node of the view**, and only under a logical id that no
node has. -/
theorem createNode_view {projectSpaceId logicalId externalId : Option String} {nodeTypeId : String}
    (h : Returns (PlmCore.Psm.createNode env ctx projectSpaceId nodeTypeId logicalId externalId) s nodeId
      s') :
    s.nodesByLogicalId (trim (nvl logicalId)) = []
      ∧ s'.nodes.map viewNode = s.nodes.map viewNode
        ++ [newPsmNode nodeId nodeTypeId (trim (nvl logicalId)) externalId] := by
  obtain ⟨x, s₁, s₂, s₃, row, es, hdup, -, hins, hlock, htx, -, hs'⟩ := createNode_ok h
  refine ⟨hdup, ?_⟩
  have hnodes : s'.nodes = s₃.nodes := by
    rw [hs']
    rfl
  rw [hnodes, viewNodes_findOrOpenTransaction htx, viewNodes_tryLock hlock, hins]
  change (s.nodes ++ [_]).map viewNode = _
  rw [List.map_append]
  rfl

/-- **`NodeService.modifyNode` leaves the view of the nodes as it is.** -/
theorem modifyNode_view {x vid : Uuid} {attributes : List (String × Option String)}
    {description : Option String} {strategy : Option VersionStrategy}
    (h : Returns (modifyNode env ctx nodeId x attributes description strategy) s vid s') :
    s'.nodes.map viewNode = s.nodes.map viewNode := by
  obtain ⟨s₁, s₂, es, hlock, hs', h⟩ := modifyNode_ok h
  have hs₂ : s₂.nodes = s₁.nodes := by
    obtain ⟨v, values, -, -, hs₂⟩ | ⟨-, strategy, hcreate⟩ := h
    · rw [hs₂]
      exact (((SameFrame.of_rowsWritten (.replaceAttributes vid values _)).describe vid
        description).refresh env nodeId v).nodes
    · obtain ⟨-, hnodes, -⟩ := createVersion_keys hcreate
      exact hnodes
  rw [hs']
  change s₂.nodes.map viewNode = _
  rw [hs₂, viewNodes_tryLock hlock]

end View

end PlmCore.Cad
