/-
`CollapseHistoryAction`: the state action that removes the iterations of a revision when a
version enters a release state.

It deletes the committed versions of the node that have the revision of the entering
version, except those a baseline entry or a link names by `logicalId@number`, with
everything they own. Signatures of the newest deleted version and comments of all of them
move to the entering version, whose iteration becomes 0.
-/
import PlmCore.Psm.Transaction

set_option autoImplicit false

namespace PlmCore.Psm

open PlmCore.Lib

/-- `StateActionContext`: what `collapse_history` reads of it. -/
structure StateActionContext where
  nodeId : Uuid
  toStateId : String
  versionId : Uuid
  revision : String
  parameters : List (String × String)

namespace Tables

variable (t : Tables)

/-- `logical_id + "@" + version_number`; a null logical id is the text `null`. -/
def pinnedKey (v : VersionRow) : String :=
  ((t.node? v.nodeId).bind (·.logicalId)).getD "null" ++ "@" ++ toString v.versionNumber

/-- A baseline entry or a SELF link names the version by its pinned key. -/
def isPinned (v : VersionRow) : Bool :=
  t.baselineEntries.any (·.resolvedKey = t.pinnedKey v)
    ∨ t.links.any fun l => l.targetSourceId = "SELF" ∧ l.targetKey = t.pinnedKey v

/-- The versions the collapse deletes. -/
def toDelete (nodeId : Uuid) (revision : String) (currentVersionId : Uuid) : List VersionRow :=
  t.versions.filter fun v => v.nodeId = nodeId ∧ v.revision = revision ∧ v.id ≠ currentVersionId
    ∧ t.isCommitted v.txId ∧ ¬ t.isPinned v

end Tables

/-- `UPDATE node_signature SET node_version_id = ? WHERE node_version_id = ?`. -/
def Tables.moveSignatures (fromVersionId toVersionId : Uuid) (t : Tables) : Tables :=
  { t with signatures := t.signatures.map fun g =>
      if g.nodeVersionId = fromVersionId then { g with nodeVersionId := toVersionId } else g }

/-- `UPDATE node_version_comment SET node_version_id = ? WHERE node_version_id IN (…)`. -/
def Tables.moveComments (fromVersionIds : List Uuid) (toVersionId : Uuid) (t : Tables) : Tables :=
  { t with comments := t.comments.map fun c =>
      if c.nodeVersionId ∈ fromVersionIds then { c with nodeVersionId := toVersionId } else c }

/-- `UPDATE node_version SET previous_version_id = NULL WHERE previous_version_id IN (…)`. -/
def Tables.clearPrevious (versionIds : List Uuid) (t : Tables) : Tables :=
  { t with versions := t.versions.map fun v =>
      if ∃ p ∈ v.previousVersionId, p ∈ versionIds then { v with previousVersionId := none } else v }

/-- Moves the signatures of the newest version to delete. -/
def moveLastSignatures (versions : List VersionRow) (currentVersionId : Uuid) : Plm Unit :=
  match Tables.latest versions with
  | none => pure ()
  | some last => execute (Tables.moveSignatures last.id currentVersionId)

/-- The statements that delete the versions `ids` into the version `currentVersionId`. -/
def deleteInto (versions : List VersionRow) (currentVersionId : Uuid) : Plm Unit := do
  let ids := versions.map (·.id)
  moveLastSignatures versions currentVersionId
  execute (Tables.deleteSignatures (·.id ∈ ids))
  execute (Tables.moveComments ids currentVersionId)
  execute (Tables.deleteLinks (·.id ∈ ids))
  execute (Tables.deleteAttributes (·.id ∈ ids))
  execute (Tables.clearPrevious ids)
  execute (Tables.deleteVersions (·.id ∈ ids))

/-- `CollapseHistoryAction.collapseRevisionHistory`. -/
def collapseRevisionHistory (nodeId : Uuid) (revision : String) (currentVersionId : Uuid) :
    Plm Unit := do
  let versions ← query (·.toDelete nodeId revision currentVersionId)
  if versions = [] then pure () else deleteInto versions currentVersionId

/-- The metadata key that marks a release state. -/
def StateActionContext.metaKey (ctx : StateActionContext) : String :=
  (ctx.parameters.lookup "meta_key").getD "released"

/-- `CollapseHistoryAction.execute`. -/
def collapseHistory (env : Env) (ctx : StateActionContext) : Plm Unit :=
  if env.isTrue "LIFECYCLE_STATE" ctx.toStateId ctx.metaKey = false then pure ()
  else do
    collapseRevisionHistory ctx.nodeId ctx.revision ctx.versionId
    execute (Tables.updateVersion ctx.versionId fun v => { v with iteration := 0 })

end PlmCore.Psm
