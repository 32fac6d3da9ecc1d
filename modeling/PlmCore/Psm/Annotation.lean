/-
`SignatureService.sign` and `CommentService.addComment`: records attached to a version that
exists, with the digest of what the author saw.

Neither opens a transaction or takes a lock, and neither looks at the transaction of the
version it writes to: a signature goes to the last committed version of the node, a comment
to whatever version of the node the request names.
-/
import PlmCore.Psm.Fingerprint

set_option autoImplicit false

namespace PlmCore.Psm

open PlmCore.Lib

/-- `INSERT INTO node_signature`. -/
def Tables.insertSignature (g : SignatureRow) (t : Tables) : Tables :=
  { t with signatures := t.signatures ++ [g] }

/-- `INSERT INTO node_version_comment`. -/
def Tables.insertComment (c : CommentRow) (t : Tables) : Tables :=
  { t with comments := t.comments ++ [c] }

/-- `SignatureService.sign`. -/
def sign (env : Env) (ctx : Caller) (nodeId : Uuid) (meaning comment : Option String) : Plm Uuid := do
  require (nullOrBlank meaning = false)
    (.illegalArgument "meaning is required (APPROVED or REJECTED)")
  let row ← query (·.getLastCommittedVersion nodeId)
  let current ← orElseThrow row (.illegalState ("Node has no version: " ++ toString nodeId))
  let alreadySigned ← query fun s => s.signatures.any fun g =>
    g.nodeId = nodeId ∧ g.signedBy = ctx.userId ∧ g.nodeVersionId = current.id
  require (alreadySigned = false) (.illegalState ("User " ++ ctx.userId ++ " already signed "
    ++ toString nodeId ++ " on this version"))
  let fingerprint ← compute env nodeId current.id
  let sigId ← randomUUID
  execute (Tables.insertSignature ⟨sigId, nodeId, current.id, ctx.userId, ctx.now, nvl meaning,
    comment, some fingerprint⟩)
  enqueue (.signed nodeId ctx.userId (nvl meaning))
  pure sigId

/-- The parent of a reply must be a comment on the same node. -/
def checkParentComment (nodeId : Uuid) (parentCommentId : Option Uuid) : Plm Unit :=
  match parentCommentId with
  | none => pure ()
  | some parent => do
    let found ← query fun s => s.comments.any fun c => c.id = parent ∧ c.nodeId = nodeId
    require (found = true) (.illegalArgument "Parent comment not found on this node")

/-- `CommentService.addComment`. -/
def addComment (env : Env) (ctx : Caller) (nodeId nodeVersionId : Uuid) (text : Option String)
    (parentCommentId : Option Uuid) (attributeName : Option String) : Plm Uuid := do
  require (nullOrBlank text = false) (.illegalArgument "Comment text is required")
  let found ← query fun s => s.versions.any fun v => v.id = nodeVersionId ∧ v.nodeId = nodeId
  require (found = true) (.illegalArgument ("Version " ++ toString nodeVersionId
    ++ " not found on node " ++ toString nodeId))
  checkParentComment nodeId parentCommentId
  let fp ← compute env nodeId nodeVersionId
  let id ← randomUUID
  execute (Tables.insertComment ⟨id, nodeId, nodeVersionId, ctx.userId, ctx.now, nvl text, some fp,
    parentCommentId, attributeName⟩)
  enqueue (.commentAdded nodeId id nodeVersionId ctx.userId)
  pure id

end PlmCore.Psm
