/-
The WebDAV view of the graph, `tree.go` and `webdav.go` of webdav-go.

A tree is shown: the project spaces of the user, in each the directory nodes without parents, and below a
node the directory nodes and files it is linked to. PROPFIND lists a resource and its children with an
href each, and a request for a path walks the tree by names. Go's maps are iterated in an order that is
not fixed, so the order of the directory types is an argument wherever the code ranges over them.

What the other services answer is given; a failed call has no answer. Strings are bytes.
-/
import PlmCore.Lib.PercentCoding
import PlmCore.Lib.Utf8
import Mathlib.Data.List.DropRight
import Mathlib.Data.List.Perm.Basic

set_option autoImplicit false

namespace PlmCore.WebDav

open Lib

abbrev Bytes := List UInt8

/-- `/`. -/
def slash : UInt8 := 0x2F

/-! ## What the services answer

The fields as `mstr` reads them: one that is missing is empty. -/

/-- A project space of pno. -/
structure SpaceJson where
  id : Bytes
  name : Bytes

/-- A node of psm. -/
structure NodeJson where
  id : Bytes
  logicalId : Bytes
  createdAt : Bytes

/-- `targetDetails`. -/
structure DetailsJson where
  sizeBytes : Option Int
  contentType : Bytes

/-- A child link of psm. -/
structure LinkJson where
  targetSourceCode : Bytes
  linkTypeId : Bytes
  targetType : Bytes
  targetNodeType : Bytes
  targetNodeId : Bytes
  targetLogicalId : Bytes
  targetKey : Bytes
  displayKey : Bytes
  targetDetails : Option DetailsJson

/-- The data of pno and psm and the configuration: the spaces of a user, the nodes of a type without
parents and the child links of a node, each in a project space, `EntityMetadata` and the names of the node
types. -/
structure Services where
  projectSpaces : Bytes → Option (List SpaceJson)
  rootNodes : Bytes → Bytes → Option (List NodeJson)
  childLinks : Bytes → Bytes → Option (List LinkJson)
  entityMetadata : List (Bytes × Bytes)
  nodeTypeName : Bytes → Option Bytes

/-- What the request is bound to. -/
structure RequestContext where
  userID : Bytes
  projectSpace : Bytes

/-! ## Resources -/

/-- `Resource`. -/
inductive Resource
  | rootRes
  | spaceDir (spaceID name : Bytes)
  | nodeDir (nodeID name createdAt : Bytes)
  | fileEntry (dataID name : Bytes) (sizeBytes : Option Int) (contentType : Bytes)
  deriving DecidableEq

namespace Resource

def name : Resource → Bytes
  | rootRes => []
  | spaceDir _ name => name
  | nodeDir _ name _ => name
  | fileEntry _ name _ _ => name

def isCollection : Resource → Bool
  | fileEntry .. => false
  | _ => true

end Resource

/-! ## Flags of the metamodel -/

/-- The id in the key of a flag that is set. -/
def flaggedID (targetType metaKey : Bytes) (entry : Bytes × Bytes) : Option Bytes :=
  let front := targetType ++ asciiBytes ":"
  let back := asciiBytes ":" ++ metaKey
  if entry.1.length > front.length + back.length ∧ front <+: entry.1 ∧ back <:+ entry.1 ∧
      entry.2 = asciiBytes "true" then
    some ((entry.1.drop front.length).take (entry.1.length - back.length - front.length))
  else none

namespace Services

variable (d : Services)

/-- `metadataFlaggedIDs`. -/
def metadataFlaggedIDs (targetType metaKey : Bytes) : List Bytes :=
  d.entityMetadata.filterMap (flaggedID targetType metaKey)

def directoryNodeTypeIDs : List Bytes := d.metadataFlaggedIDs (asciiBytes "NODE_TYPE") (asciiBytes "webdav.directory")

def fileLinkTypeIDs : List Bytes := d.metadataFlaggedIDs (asciiBytes "LINK_TYPE") (asciiBytes "webdav.file")

def directoryNodeTypeNames : List Bytes :=
  (d.directoryNodeTypeIDs.filterMap d.nodeTypeName).filter (· ≠ [])

/-- An order in which the directory types come up in a range over them. -/
abbrev RangeOrder := { order : List Bytes // order.Perm d.directoryNodeTypeIDs }

/-! ## The tree -/

/-- `listSpaces`. -/
def listSpaces (userID : Bytes) : List Resource :=
  ((d.projectSpaces userID).getD []).filterMap fun s =>
    if s.name = [] then none else some (.spaceDir s.id s.name)

/-- `listSpaceRoots`. -/
def listSpaceRoots (order : d.RangeOrder) (projectSpace : Bytes) : List Resource :=
  order.val.flatMap fun typeID =>
    ((d.rootNodes projectSpace typeID).getD []).filterMap fun item =>
      if item.logicalId = [] then none else some (.nodeDir item.id item.logicalId item.createdAt)

/-- `fileEntryFromLink`. -/
def fileEntryFromLink (link : LinkJson) : Option Resource :=
  if link.targetKey = [] then none
  else
    some (.fileEntry link.targetKey (if link.displayKey = [] then link.targetKey else link.displayKey)
      (link.targetDetails.bind DetailsJson.sizeBytes)
      (link.targetDetails.elim [] DetailsJson.contentType))

def selfSource : Bytes := asciiBytes "SELF"

/-- `fileEntryOf`: the first file link of a node. -/
def fileEntryOf (projectSpace nodeID : Bytes) : Option Resource :=
  (((d.childLinks projectSpace nodeID).getD []).find? fun link =>
    link.targetSourceCode ≠ selfSource ∧ link.linkTypeId ∈ d.fileLinkTypeIDs).bind fileEntryFromLink

/-- What a child link is shown as. -/
def childOfLink (projectSpace : Bytes) (link : LinkJson) : Option Resource :=
  if link.targetSourceCode = selfSource then
    if link.targetNodeId = [] then none
    else if link.targetType ∈ d.directoryNodeTypeIDs ∨ link.targetNodeType ∈ d.directoryNodeTypeNames then
      some (.nodeDir link.targetNodeId
        (if link.targetLogicalId = [] then link.targetNodeId else link.targetLogicalId) [])
    else d.fileEntryOf projectSpace link.targetNodeId
  else if link.linkTypeId ∈ d.fileLinkTypeIDs then fileEntryFromLink link
  else none

/-- `listNodeChildren`. -/
def listNodeChildren (projectSpace nodeID : Bytes) : List Resource :=
  ((d.childLinks projectSpace nodeID).getD []).filterMap (d.childOfLink projectSpace)

/-- `Children`. -/
def children (order : d.RangeOrder) (rc : RequestContext) : Resource → List Resource
  | .rootRes => d.listSpaces rc.userID
  | .spaceDir .. => d.listSpaceRoots order rc.projectSpace
  | .nodeDir nodeID .. => d.listNodeChildren rc.projectSpace nodeID
  | .fileEntry .. => []

end Services

/-- `rc.ProjectSpace = sd.spaceID`, when the resource is a space. -/
def RequestContext.enter (rc : RequestContext) : Resource → RequestContext
  | .spaceDir spaceID _ => { rc with projectSpace := spaceID }
  | _ => rc

/-- The loop of `Resolve`, and the context it leaves; the first order is for the first segment. -/
def Services.resolveFrom (d : Services) :
    (Nat → d.RangeOrder) → RequestContext → Resource → List Bytes → Option (RequestContext × Resource)
  | _, rc, current, [] => some (rc, current)
  | orders, rc, current, segment :: segments =>
    match (d.children (orders 0) rc current).find? (·.name = segment) with
    | none => none
    | some next => d.resolveFrom (fun k => orders (k + 1)) (rc.enter next) next segments

/-- `Resolve`. -/
def Services.resolve (d : Services) (orders : Nat → d.RangeOrder) (rc : RequestContext)
    (segments : List Bytes) : Option (RequestContext × Resource) :=
  d.resolveFrom orders rc .rootRes segments

/-! ## Paths -/

/-- The bytes `url.PathEscape` keeps. -/
def isPathByte (b : UInt8) : Bool :=
  (0x61 ≤ b && b ≤ 0x7A) || (0x41 ≤ b && b ≤ 0x5A) || (0x30 ≤ b && b ≤ 0x39) || b ∈ asciiBytes "-_.~$&+:=@"

/-- `url.PathEscape`. -/
def pathEscape (s : Bytes) : Bytes := percentEncode isPathByte s

/-- `url.PathUnescape`, which is also how the server reads the path of a request. -/
def pathUnescape (s : Bytes) : Option Bytes := percentDecode s

/-- `segments`. -/
def segments (path : Bytes) : List Bytes :=
  ((path.splitOn slash).filter (· ≠ [])).map fun raw => (pathUnescape raw).getD raw

def hrefBase : Bytes := asciiBytes "/api/dav"

/-- `href`. -/
def href (base : Bytes) (segments : List Bytes) (collection : Bool) : Bytes :=
  base ++ segments.flatMap (fun segment => slash :: pathEscape segment) ++
    (if collection = true ∨ segments = [] then [slash] else [])

/-- The path of a request for an href: the gateway takes the base off, the server decodes. -/
def requestPath (href : Bytes) : Option Bytes := pathUnescape (href.drop hrefBase.length)

/-! ## PROPFIND -/

/-- `msEntry`. -/
structure MsEntry where
  href : Bytes
  displayName : Bytes
  collection : Bool
  contentLength : Option Int
  contentType : Bytes
  lastModifiedHTTP : Bytes
  deriving DecidableEq

/-- `entryFor`. -/
def entryFor (httpDate : Bytes → Bytes) (resource : Resource) (segments : List Bytes) : MsEntry where
  href := href hrefBase segments resource.isCollection
  displayName := if segments = [] then [slash] else resource.name
  collection := resource.isCollection
  contentLength :=
    match resource with
    | .fileEntry _ _ sizeBytes _ => sizeBytes
    | _ => none
  contentType :=
    match resource with
    | .fileEntry _ _ _ contentType => contentType
    | _ => []
  lastModifiedHTTP :=
    match resource with
    | .nodeDir _ _ createdAt => httpDate createdAt
    | _ => []

/-- Go's `unicode.IsSpace`. -/
def isGoSpace (c : Char) : Bool :=
  c ∈ ['\t', '\n', '\x0b', '\x0c', '\r', ' ', '\u0085', '\u00a0', '\u1680', '\u2028', '\u2029', '\u202f',
    '\u205f', '\u3000'] || (0x2000 ≤ c.toNat && c.toNat ≤ 0x200a)

/-- `strings.TrimSpace`. -/
def trimSpace (s : List Char) : List Char := (s.dropWhile isGoSpace).rdropWhile isGoSpace

/-- The depth of a request; infinity, which stands for no header as well, is refused. -/
def depthOf (depthHeader : List Char) : Option Nat :=
  if depthHeader = [] ∨ depthHeader.map Char.toLower = "infinity".toList then none
  else some (if trimSpace depthHeader = ['1'] then 1 else 0)

/-- The resources PROPFIND has entries for, with their segments. -/
def Services.propfindResources (d : Services) (orders : Nat → d.RangeOrder) (rc : RequestContext)
    (depth : Nat) (segments : List Bytes) : Option (List (Resource × List Bytes)) :=
  (d.resolve orders rc segments).map fun (rc, resource) =>
    (resource, segments) ::
      if depth = 1 ∧ resource.isCollection = true then
        (d.children (orders segments.length) rc resource).map fun child => (child, segments ++ [child.name])
      else []

inductive Response
  | forbidden
  | notFound
  | multiStatus (entries : List MsEntry)

/-- `handlePropfind`. -/
def Services.handlePropfind (d : Services) (httpDate : Bytes → Bytes) (orders : Nat → d.RangeOrder)
    (rc : RequestContext) (depthHeader : List Char) (path : Bytes) : Response :=
  match depthOf depthHeader with
  | none => .forbidden
  | some depth =>
    match d.propfindResources orders rc depth (segments path) with
    | none => .notFound
    | some resources => .multiStatus (resources.map fun q => entryFor httpDate q.1 q.2)

end PlmCore.WebDav
