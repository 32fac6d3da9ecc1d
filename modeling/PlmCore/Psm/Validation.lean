/-
`ValidationService`: which attributes may be written, and what is wrong with their values.

`assertWritable` refuses attributes that are not part of the model. Everything else is collected by
`collectViolations`; it looks at whether an attribute may be edited only when it is told the state
the node is in and the keys that are changed, and `collectVersionViolations`, which a commit asks,
tells it neither.
-/
import PlmCore.Psm.AttributeValidators

set_option autoImplicit false

namespace PlmCore.Psm

open PlmCore.Lib

/-- `ResolvedAttribute`, with the columns that are validated. -/
structure DataAttribute extends ResolvedAttribute where
  label : Option String
  dataType : Option String
  allowedValues : Option String

/-- What the validation of attributes reads of the configuration, and the parsers of the platform. -/
structure ValidationModel extends ValidatorConfig where
  /-- `NodeTypeConfig.attributes`, own and inherited. -/
  nodeTypeAttributes : String → List DataAttribute
  /-- `configCache.getDomainAttributes`. -/
  domainAttributes : String → List DataAttribute
  /-- `Double.parseDouble` accepts the text. -/
  parsesDouble : String → Bool
  /-- `Long.parseLong` accepts the text. -/
  parsesLong : String → Bool
  /-- `LocalDate.parse` accepts the text. -/
  parsesDate : String → Bool
  /-- `LocalDateTime.parse` accepts the text. -/
  parsesDateTime : String → Bool

/-- `displayLabel`. -/
def displayLabel (a : DataAttribute) : String :=
  if nullOrBlank a.label then a.id else nvl a.label

namespace ValidationModel

variable (m : ValidationModel) (env : Env) (t : Tables)

/-- The attributes of a node type that `metaModelCache` knows. -/
def resolvedType (nodeTypeId : Option String) : List DataAttribute :=
  match nodeTypeId with
  | none => []
  | some id => if (env.getNodeType id).isSome then m.nodeTypeAttributes id else []

/-! ## What may be written -/

/-- `resolveWritableScope`: the attributes of the type, and those of the domains of any version of
the node. -/
def resolveWritableScope (nodeTypeId : Option String) (nodeId : Uuid) : List DataAttribute :=
  let domainIds := (t.domains.filter fun d => t.versions.any fun v =>
    v.id = d.nodeVersionId ∧ v.nodeId = nodeId).map (·.domainId)
  m.resolvedType env nodeTypeId ++ domainIds.dedup.flatMap m.domainAttributes

/-- `lookupAttributeLabelGlobally`. -/
def lookupAttributeLabelGlobally (attrCode : String) : Option String :=
  let all := env.nodeTypes.flatMap (fun nt => m.nodeTypeAttributes nt.id) ++
    env.domains.flatMap fun d => m.domainAttributes d.id
  ((all.find? (·.id = attrCode)).bind (·.label)).filter fun label => ¬ isBlank label

/-- `assertWritable`: a violation for each key that is not part of the model. -/
def assertWritable (nodeTypeId : Option String) (submitted : List (String × Option String))
    (nodeId : Uuid) : List Violation :=
  submitted.filterMap fun e =>
    if (m.resolveWritableScope env t nodeTypeId nodeId).any (·.id = e.1) then none
    else
      let globalLabel := m.lookupAttributeLabelGlobally env e.1
      some ⟨"UNKNOWN_ATTRIBUTE", some e.1, globalLabel,
        "Attribute '" ++ globalLabel.getD e.1 ++ "' is not part of the data model"⟩

/-! ## What is wrong with the values -/

/-- `checkValueShape`. -/
def checkValueShape (dataType : Option String) (value : String) : Option String :=
  let refused (accepted : Bool) (message : String) := if accepted then none else some message
  match dataType with
  | some "NUMBER" | some "DOUBLE" | some "DECIMAL" => refused (m.parsesDouble value) "must be a number"
  | some "INTEGER" | some "LONG" => refused (m.parsesLong value) "must be an integer"
  | some "BOOLEAN" =>
    refused (ValidatorConfig.equalsIgnoreCase "true" value || ValidatorConfig.equalsIgnoreCase "false" value)
      "must be a boolean (true/false)"
  | some "DATE" => refused (m.parsesDate value) "must be an ISO date (YYYY-MM-DD)"
  | some "DATETIME" | some "TIMESTAMP" => refused (m.parsesDateTime value) "must be an ISO date-time"
  | _ => none

/-- `resolveAttributes`: the attributes of the type and of the domains of the version. -/
def resolveAttributes (nodeTypeId : String) (currentVersionId : Option Uuid) : List DataAttribute :=
  m.resolvedType env (some nodeTypeId) ++ (currentVersionId.toList.flatMap fun versionId =>
    (t.domainsOf versionId).flatMap fun d => m.domainAttributes d.domainId)

/-- The violation of the logical id's pattern. -/
def logicalIdViolations (nodeTypeId : String) (logicalId : Option String) : List Violation :=
  match env.getNodeType nodeTypeId, logicalId with
  | some nt, some logicalId =>
    let label := if nullOrBlank nt.logicalIdLabel then "Identifier" else nvl nt.logicalIdLabel
    match nt.logicalIdPattern with
    | some pattern =>
      if isBlank logicalId ∨ isBlank pattern ∨ env.regexMatches logicalId pattern then []
      else [⟨"LOGICAL_ID_PATTERN", none, some label, "'" ++ label ++ "' value '" ++ logicalId
        ++ "' does not match pattern: " ++ pattern⟩]
    | none => []
  | _, _ => []

/-- `String.contains`, of a text that is not empty. -/
def containsText (text part : String) : Bool := (splitOnce part.toList text.toList).isSome

/-- A value that is none of those the attribute allows. -/
def enumViolations (attr : DataAttribute) (value : String) : List Violation :=
  match attr.dataType, attr.allowedValues with
  | some "ENUM", some allowed =>
    if containsText allowed ("\"" ++ value ++ "\"") then []
    else [⟨"ENUM_NOT_ALLOWED", some attr.id, some (displayLabel attr),
      "Attribute '" ++ displayLabel attr ++ "' value '" ++ value ++ "' is not allowed"⟩]
  | _, _ => []

/-- The attribute is changed in a state in which it is locked. -/
def isLockedChange (nodeTypeId : String) (req : ValidationRequest) (attrCode : String) : Bool :=
  req.currentStateId.isSome ∧ (req.changedKeys.any (·.contains attrCode)) ∧
    m.isEditable env (some nodeTypeId) req.currentStateId attrCode = false

/-- The violations of the validators of an attribute. -/
def validatorViolations (nodeTypeId : String) (req : ValidationRequest) (attr : DataAttribute)
    (value : Option String) : List Violation :=
  (m.validate env (some nodeTypeId) req.targetStateId attr.id value req.values none).map fun gv =>
    ⟨gv.code, some attr.id, some (displayLabel attr), gv.message⟩

/-- One round of `collectViolations`. -/
def attributeViolations (nodeTypeId : String) (req : ValidationRequest) (attr : DataAttribute) :
    List Violation :=
  let label := displayLabel attr
  let value := (getKey req.values attr.id).join
  if m.isHidden req.targetStateId attr.id then []
  else if m.isLockedChange env nodeTypeId req attr.id then
    [⟨"NOT_EDITABLE", some attr.id, some label, "Attribute '" ++ label ++ "' is not editable in current state"⟩]
  else
    match value.filter fun v => ¬ isBlank v with
    | none => m.validatorViolations env nodeTypeId req attr value
    | some v =>
      match m.checkValueShape attr.dataType v with
      | some shapeError =>
        [⟨"INVALID_VALUE_TYPE", some attr.id, some label, "Attribute '" ++ label ++ "' " ++ shapeError⟩]
      | none => enumViolations attr v ++ m.validatorViolations env nodeTypeId req attr value

/-- `collectViolations`. -/
def collectViolations (req : ValidationRequest) : List Violation :=
  match req.nodeTypeId with
  | none => []
  | some nodeTypeId =>
    logicalIdViolations env nodeTypeId req.logicalId ++
      (m.resolveAttributes env t nodeTypeId req.currentVersionId).flatMap
        (m.attributeViolations env nodeTypeId req)

end ValidationModel

/-- The configuration whose attributes are those of the model, validated by it. -/
def ValidationModel.configure (m : ValidationModel) (base : Env) : Env :=
  { base with
    typeAttributes := fun id => (m.nodeTypeAttributes id).map (·.toResolvedAttribute)
    domains := base.domains.map fun d =>
      { d with attributes := (m.domainAttributes d.id).map (·.toResolvedAttribute) }
    hardViolations := fun t nodeTypeId submitted nodeId => m.assertWritable base t nodeTypeId submitted nodeId
    collectViolations := fun t req => m.collectViolations base t req }

end PlmCore.Psm
