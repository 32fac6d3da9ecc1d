/-
`ImportJobProcessor.process` of cad-api, from the parsed structure to the summary of the job.

A node gets a decision (`gather`), the decisions are carried out in order (`executeNode`), and then
the occurrences become links (`linkOccurrence`). The two maps `cadIdToNodeId` and
`cadIdToLogicalId` are what the last phase knows of the one before. The normal and the split mode
differ in how a node is enriched before its decision and in the order of the nodes. The files of
the nodes (DST uploads, `lt-part-data` links, GLB conversion) are left out.
-/
import PlmCore.Cad.PsmCalls

set_option autoImplicit false

namespace PlmCore.Cad

open PlmCore.Lib PlmCore.Psm

/-! ## Parsed structures -/

/-- `CadOccurrence`. The sixteen numbers of the matrix are their texts. -/
structure CadOccurrence where
  parentCadId : String
  positionMatrix : Option (List String)
  deriving DecidableEq, Repr

/-- `CadNodeData`. -/
structure CadNodeData where
  cadId : String
  name : String
  cadType : String
  attributes : List (String × String)
  occurrences : List CadOccurrence
  depth : Nat
  deriving DecidableEq, Repr

def CadNodeData.hasOccurrences (node : CadNodeData) : Bool := ¬ node.occurrences = []

/-! ## Decisions -/

/-- `ImportDecision`, as its factory methods make it. The target of an update is a text that has to
be a UUID. -/
inductive ImportDecision
  | create (nodeTypeId : String) (logicalId : Option String) (attributes : List (String × String))
  | update (targetNodeId : Option Uuid) (attributes : List (String × String))
  | skip
  | reject (rejectReason : Option String)
  deriving DecidableEq, Repr

/-- The component `logicalId` of the record: only `create` sets it. -/
def ImportDecision.logicalId : ImportDecision → Option String
  | .create _ logicalId _ => logicalId
  | _ => none

/-- `ImportLinkDecision`. -/
structure ImportLinkDecision where
  linkTypeId : String
  attributes : List (String × String)

/-- The default `evaluateLink`: `ImportLinkDecision.composedOf`. -/
def composedOf (_child : CadNodeData) (occurrence : CadOccurrence) : ImportLinkDecision :=
  match occurrence.positionMatrix with
  | some m =>
    if m.length = 16 then ⟨"lt-composed-of", [("position", ",".intercalate m)]⟩
    else ⟨"lt-composed-of", []⟩
  | none => ⟨"lt-composed-of", []⟩

/-- `PsmValidationClient.ValidationResult`. -/
structure ValidationResult where
  valid : Bool
  rejectReason : Option String
  suggestedNodeTypeId : Option String
  enrichedAttributes : Option (List (String × String))

/-! ## The default algorithm -/

/-- The UTF-16 code units of a character. -/
def utf16 (c : Char) : List UInt32 :=
  if c.val < 0x10000 then [c.val]
  else
    let rest : UInt32 := c.val - 0x10000
    [(0xD800 : UInt32) + (rest >>> 10), (0xDC00 : UInt32) + (rest &&& 0x3FF)]

/-- `String.hashCode`. -/
def hashCode (s : String) : UInt32 :=
  (s.toList.flatMap utf16).foldl (fun h unit => 31 * h + unit) 0

/-- `Objects.hash` of two strings. -/
def objectsHash (a b : String) : UInt32 := 31 * (31 + hashCode a) + hashCode b

/-- `%06d` of a number below a million. -/
def sixDigits (n : Nat) : String :=
  let digits := toString n
  String.ofList (List.replicate (6 - digits.length) '0') ++ digits

/-- The logical id of a CAD node: a hash, reduced to six digits. -/
def derivedLogicalId (cadId cadType : String) : String :=
  "P-" ++ sixDigits ((objectsHash cadId cadType >>> 1).toNat % 1000000)

/-- `DefaultImportContextAlgorithm.evaluate`. -/
def defaultEvaluate (node : CadNodeData) : ImportDecision :=
  let type := node.cadType.toLower
  if type ≠ "part" ∧ type ≠ "assembly" then .skip
  else
    let partNumber := (node.attributes.lookup "partNumber").getD ""
    let description := (node.attributes.lookup "description").getD ""
    .create ("nt-" ++ type) (some (derivedLogicalId node.cadId node.cadType))
      (("ad-part-name", if isBlank partNumber then node.name else partNumber)
        :: if isBlank description then [] else [("ad-part-desc", description)])

/-! ## Jobs -/

/-- What an import job is run with: the validation of PSM, the algorithm of the import context, and
the fields of `ImportJobContext` the process reads. -/
structure ImportContext where
  validate : CadNodeData → ValidationResult
  evaluate : CadNodeData → ImportDecision
  evaluateLink : CadNodeData → CadOccurrence → ImportLinkDecision
  rootNodeId : Option Uuid
  splitMode : Bool

/-- Which calls fail, by the position of the node in the parsed structure and of the occurrence in
the node. `evaluateLink` may throw as well; it is called inside the same `try`. -/
structure Faults where
  findByExternalId : Nat → Bool
  createNode : Nat → Option Fault
  updateNode : Nat → Option Fault
  evaluateLink : Nat → Nat → Option String
  createLink : Nat → Nat → Option Fault
  updateLinkAttributes : Nat → Nat → Option Fault
  createRootLink : Nat → Option Fault

/-- No call fails. -/
def noFaults : Faults where
  findByExternalId _ := false
  createNode _ := none
  updateNode _ := none
  evaluateLink _ _ := none
  createLink _ _ := none
  updateLinkAttributes _ _ := none
  createRootLink _ := none

/-- A job with the default algorithm, on nodes PSM accepts as they are. -/
def defaultContext : ImportContext where
  validate node := ⟨true, none, some node.cadType, some node.attributes⟩
  evaluate := defaultEvaluate
  evaluateLink := composedOf
  rootNodeId := none
  splitMode := false

/-! ## Gathering the decisions -/

namespace ImportContext

/-- The node as the algorithm gets it. -/
def enrich (ctx : ImportContext) (node : CadNodeData) : CadNodeData :=
  let validation := ctx.validate node
  if ctx.splitMode then
    { node with
      cadType := validation.suggestedNodeTypeId.getD node.cadType
      attributes := validation.enrichedAttributes.getD node.attributes
      depth := 0 }
  else if validation.enrichedAttributes = some node.attributes then node
  else
    { node with
      cadType := validation.suggestedNodeTypeId.getD node.cadType
      attributes := validation.enrichedAttributes.getD [] }

/-- The decision of the algorithm on a valid node. -/
def evaluateValid (ctx : ImportContext) (node : CadNodeData) : ImportDecision :=
  if (ctx.validate node).valid then ctx.evaluate (ctx.enrich node)
  else .reject (ctx.validate node).rejectReason

end ImportContext

/-- A CREATE becomes an UPDATE when PSM has a node with the external id. -/
def switchToUpdate (fails : Bool) (cadId : String) (p : Psm) : ImportDecision → ImportDecision
  | .create nodeTypeId logicalId attributes =>
    match findByExternalId fails cadId p with
    | some existing => .update (some existing) attributes
    | none => .create nodeTypeId logicalId attributes
  | decision => decision

/-- A node with its place in the parsed structure and its decision. -/
structure NodeDecision where
  pos : Nat
  node : CadNodeData
  decision : ImportDecision

/-- The decision of one node. -/
def decideNode (ctx : ImportContext) (faults : Faults) (p : Psm) (pos : Nat) (node : CadNodeData) :
    NodeDecision :=
  ⟨pos, node, switchToUpdate (faults.findByExternalId pos) node.cadId p (ctx.evaluateValid node)⟩

/-- The decisions, in the order they are carried out: in the normal mode the deepest nodes first. -/
def gather (ctx : ImportContext) (faults : Faults) (p : Psm) (nodes : List CadNodeData) :
    List NodeDecision :=
  let planned := nodes.mapIdx (decideNode ctx faults p)
  if ctx.splitMode then planned
  else planned.mergeSort fun a b => b.node.depth ≤ a.node.depth

/-! ## Carrying them out -/

/-- The `action` of an `ImportJobResult`. -/
inductive ResultAction
  | CREATED
  | UPDATED
  | SKIPPED
  | REJECTED
  deriving DecidableEq, Repr

/-- `ImportJobResult`. -/
structure ImportJobResult where
  cadNodeId : String
  cadNodeName : String
  cadNodeType : String
  action : ResultAction
  psmNodeId : Option Uuid
  errorMessage : Option String
  deriving DecidableEq, Repr

/-- The result of a node. -/
def CadNodeData.result (node : CadNodeData) (action : ResultAction) (psmNodeId : Option Uuid)
    (errorMessage : Option String) : ImportJobResult :=
  ⟨node.cadId, node.name, node.cadType, action, psmNodeId, errorMessage⟩

/-- The attributes of a node just created; none are sent when there are none. -/
def writeCreated (faults : Faults) (pos : Nat) (nodeId : Uuid) (attributes : List (String × String))
    (p : Psm) : Except String Unit × Psm :=
  if attributes = [] then (.ok (), p) else updateNode (faults.updateNode pos) nodeId p

/-- `ImportJobProcessor.processNode`. -/
def processNode (faults : Faults) (nd : NodeDecision) (p : Psm) : ImportJobResult × Psm :=
  match nd.decision with
  | .create nodeTypeId logicalId attributes =>
    match createNode (faults.createNode nd.pos) nodeTypeId logicalId (some nd.node.cadId) p with
    | (.error m, p₁) => (nd.node.result .REJECTED none (some m), p₁)
    | (.ok nodeId, p₁) =>
      match writeCreated faults nd.pos nodeId attributes p₁ with
      | (.error m, p₂) => (nd.node.result .REJECTED (some nodeId) (some m), p₂)
      | (.ok _, p₂) => (nd.node.result .CREATED (some nodeId) none, p₂)
  | .update none _ => (nd.node.result .REJECTED none (some "Invalid UUID string"), p)
  | .update (some targetId) _ =>
    match updateNode (faults.updateNode nd.pos) targetId p with
    | (.error m, p₁) => (nd.node.result .REJECTED none (some m), p₁)
    | (.ok _, p₁) => (nd.node.result .UPDATED (some targetId) none, p₁)
  | .skip => (nd.node.result .SKIPPED none none, p)
  | .reject rejectReason => (nd.node.result .REJECTED none rejectReason, p)

/-- The entries of `warnings`. -/
inductive Warning
  | nodeRejected (name : String) (message : Option String)
  | bomLinkFailed (parentPsmId : Uuid) (cadId message : String)
  | rootLinkFailed (rootPsmId childPsmId : Uuid) (message : String)
  deriving DecidableEq, Repr

/-- The text of a warning. -/
def Warning.text : Warning → String
  | .nodeRejected name message => "Node rejected [" ++ name ++ "]: " ++ message.getD "null"
  | .bomLinkFailed parentPsmId cadId message =>
    "BOM link failed [" ++ toString parentPsmId ++ " -> " ++ cadId ++ "]: " ++ message
  | .rootLinkFailed rootPsmId childPsmId message =>
    "root BOM link failed [" ++ toString rootPsmId ++ " -> " ++ toString childPsmId ++ "]: " ++ message

/-- What the process holds while it runs, with PSM. A map is the list of its puts, the last one
first. -/
structure ImportState where
  psm : Psm
  cadIdToNodeId : List (String × Uuid)
  cadIdToLogicalId : List (String × String)
  warnings : List Warning
  results : List ImportJobResult

/-- The state before the first node. -/
def ImportState.init (p : Psm) : ImportState := ⟨p, [], [], [], []⟩

namespace ImportState

/-- `cadIdToNodeId.put`, when there is a node. -/
def putNodeId (st : ImportState) (cadId : String) : Option Uuid → List (String × Uuid)
  | some nodeId => (cadId, nodeId) :: st.cadIdToNodeId
  | none => st.cadIdToNodeId

/-- `cadIdToLogicalId.put`, when there is a node and the decision has a logical id. -/
def putLogicalId (st : ImportState) (cadId : String) : Option Uuid → Option String → List (String × String)
  | some _, some logicalId => (cadId, logicalId) :: st.cadIdToLogicalId
  | _, _ => st.cadIdToLogicalId

/-- The warning of a rejected node. -/
def warnRejected (st : ImportState) (result : ImportJobResult) : List Warning :=
  if result.action = .REJECTED then
    st.warnings ++ [.nodeRejected result.cadNodeName result.errorMessage]
  else st.warnings

end ImportState

/-- One round of the execution phase. -/
def executeNode (faults : Faults) (st : ImportState) (nd : NodeDecision) : ImportState :=
  let (result, psm) := processNode faults nd st.psm
  { psm := psm
    cadIdToNodeId := st.putNodeId nd.node.cadId result.psmNodeId
    cadIdToLogicalId := st.putLogicalId nd.node.cadId result.psmNodeId nd.decision.logicalId
    warnings := st.warnRejected result
    results := st.results ++ [result] }

/-! ## Links -/

/-- The body of the `try` for one occurrence: `evaluateLink`, `createLink`, and the attributes of the
link unless there are none. -/
def callLink (ctx : ImportContext) (faults : Faults) (nd : NodeDecision) (k : Nat)
    (occurrence : CadOccurrence) (parentPsmId : Uuid) (childLogicalId : String) (p : Psm) :
    Except String Unit × Psm :=
  match faults.evaluateLink nd.pos k with
  | some m => (.error m, p)
  | none =>
    let linkDecision := ctx.evaluateLink nd.node occurrence
    match createLink (faults.createLink nd.pos k) parentPsmId childLogicalId linkDecision.linkTypeId p with
    | (.error m, p₁) => (.error m, p₁)
    | (.ok _, p₁) =>
      if linkDecision.attributes = [] then (.ok (), p₁)
      else updateLinkAttributes (faults.updateLinkAttributes nd.pos k) p₁

/-- The end of the `try`: a failure is a warning. -/
def ImportState.finish (st : ImportState) (warn : String → Warning) :
    Except String Unit × Psm → ImportState
  | (.ok _, psm) => { st with psm := psm }
  | (.error m, psm) => { st with psm := psm, warnings := st.warnings ++ [warn m] }

/-- One occurrence of a node. -/
def linkOccurrence (ctx : ImportContext) (faults : Faults) (nd : NodeDecision) (st : ImportState)
    (occ : CadOccurrence × Nat) : ImportState :=
  match st.cadIdToNodeId.lookup occ.1.parentCadId, st.cadIdToLogicalId.lookup nd.node.cadId with
  | some parentPsmId, some childLogicalId =>
    st.finish (.bomLinkFailed parentPsmId nd.node.cadId)
      (callLink ctx faults nd occ.2 occ.1 parentPsmId childLogicalId st.psm)
  | _, _ => st

/-- The occurrences of a node. -/
def linkNode (ctx : ImportContext) (faults : Faults) (st : ImportState) (nd : NodeDecision) :
    ImportState :=
  nd.node.occurrences.zipIdx.foldl (linkOccurrence ctx faults nd) st

/-- The link from the root node of the job to a node that occurs nowhere. -/
def linkToRoot (faults : Faults) (rootPsmId : Uuid) (st : ImportState) (nd : NodeDecision) :
    ImportState :=
  if nd.node.hasOccurrences then st
  else
    match st.cadIdToNodeId.lookup nd.node.cadId, st.cadIdToLogicalId.lookup nd.node.cadId with
    | some childPsmId, some childLogicalId =>
      let (answer, psm) :=
        createLink (faults.createRootLink nd.pos) rootPsmId childLogicalId "lt-composed-of" st.psm
      st.finish (.rootLinkFailed rootPsmId childPsmId) (answer.map fun _ => (), psm)
    | _, _ => st

/-- The links to the root node, when the job has one. -/
def linkRoots (ctx : ImportContext) (faults : Faults) (planned : List NodeDecision)
    (st : ImportState) : ImportState :=
  match ctx.rootNodeId with
  | some rootPsmId => planned.foldl (linkToRoot faults rootPsmId) st
  | none => st

/-- The execution phase. -/
def executeAll (faults : Faults) (planned : List NodeDecision) (p : Psm) : ImportState :=
  planned.foldl (executeNode faults) (ImportState.init p)

/-- `ImportJobProcessor.process` of a parsed structure, up to the status DONE. -/
def process (ctx : ImportContext) (faults : Faults) (nodes : List CadNodeData) (p : Psm) :
    ImportState :=
  let planned := gather ctx faults p nodes
  linkRoots ctx faults planned
    (planned.foldl (linkNode ctx faults) (executeAll faults planned p))

end PlmCore.Cad
