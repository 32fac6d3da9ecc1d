/-
`AttributeValidatorService`: the validators attached to attributes, and the hints they give.

An attachment is an entry of the configuration's metadata whose key names a node type, an attribute, a
lifecycle state or all of them, and an algorithm instance. The cache of attachments is rebuilt from
the metadata on every snapshot. Whether an attribute is editable in a state is a hint of the
validators that apply there.
-/
import PlmCore.Psm.Config

set_option autoImplicit false

namespace PlmCore.Psm

open PlmCore.Lib

/-! ## Validators -/

/-- A value of the hint map. -/
inductive HintValue
  | flag (b : Bool)
  | text (s : String)
  deriving DecidableEq

/-- `String.valueOf` of a hint. -/
def HintValue.print : HintValue → String
  | flag b => toString b
  | text s => s

/-- `AttributeValidationContext`, and `AttributeHintContext`, which has the same columns. -/
structure AttributeContext where
  nodeId : Option Uuid
  nodeTypeId : Option String
  stateId : Option String
  attributeCode : String
  value : Option String
  allValues : List (String × Option String)
  parameters : List (String × String)
  attributeMetadata : List (String × String)

/-- `AttributeValidator`. -/
structure AttributeValidator where
  validate : AttributeContext → List GuardViolation
  hint : AttributeContext → List (String × HintValue)

/-- `Map.get`. -/
def getKey {α : Type} (m : List (String × α)) (key : String) : Option α :=
  (m.find? (·.1 = key)).map (·.2)

/-- `EditableAttributeValidator`. -/
def editableAttributeValidator : AttributeValidator where
  validate _ := []
  hint _ := [("editable", .flag false), ("description", .text "Not editable in this state")]

/-- `RequiredAttributeValidator`. -/
def requiredAttributeValidator : AttributeValidator where
  validate ctx :=
    if nullOrBlank ctx.value then
      [⟨"REQUIRED", "Attribute '" ++ ctx.attributeCode ++ "' is required", true⟩]
    else []
  hint _ := [("required", .flag true), ("description", .text "Value is required")]

/-- The pattern `RegexAttributeValidator` reads from the metadata of the attribute. -/
def attributePattern (ctx : AttributeContext) : Option String :=
  (getKey ctx.attributeMetadata ((getKey ctx.parameters "metadataKey").getD "validation.regex")).filter
    fun regex => ¬ isBlank regex

/-- `RegexAttributeValidator`. -/
def regexAttributeValidator (matchesRegex : String → String → Bool) : AttributeValidator where
  validate ctx :=
    match ctx.value, attributePattern ctx with
    | some value, some regex =>
      if isBlank value ∨ matchesRegex value regex then []
      else [⟨"NAMING_REGEX", "Attribute '" ++ ctx.attributeCode ++ "' does not match rule: " ++ regex, true⟩]
    | _, _ => []
  hint ctx :=
    match attributePattern ctx with
    | some regex => [("regex", .text regex), ("description", .text ("Must match pattern: " ++ regex))]
    | none => []

/-- The beans of this package by their code. -/
def builtInValidators (matchesRegex : String → String → Bool) (code : String) : Option AttributeValidator :=
  if code = "editable_attribute_validator" then some editableAttributeValidator
  else if code = "required_attribute_validator" then some requiredAttributeValidator
  else if code = "regex_attribute_validator" then some (regexAttributeValidator matchesRegex)
  else none

/-! ## The configuration -/

/-- `AlgorithmInstanceConfig`, without the display columns. -/
structure AlgorithmInstanceConfig where
  id : String
  paramValues : List (String × String)

/-- `AlgorithmConfig`, without the display columns. -/
structure AlgorithmConfig where
  code : String
  instances : List AlgorithmInstanceConfig

/-- What `AttributeValidatorService` reads: the metadata in the order of its map, the algorithms, and
the beans that are attribute validators. -/
structure ValidatorConfig where
  entityMetadata : List (String × String)
  algorithms : List AlgorithmConfig
  beans : String → Option AttributeValidator

/-- `AttributeValidatorService.ResolvedValidator`, without the effect, which nothing reads. -/
structure ResolvedValidator where
  stateId : String
  bean : AttributeValidator
  params : List (String × String)

/-- What stands before and after the first occurrence of the separator. -/
def splitOnce (separator : List Char) : List Char → Option (List Char × List Char)
  | [] => none
  | c :: cs =>
    if separator <+: c :: cs then some ([], (c :: cs).drop separator.length)
    else (splitOnce separator cs).map fun parts => (c :: parts.1, parts.2)

/-- The text behind a prefix, when it has the prefix. -/
def textAfter (start text : String) : Option (List Char) :=
  if start.toList <+: text.toList then some (text.toList.drop start.toList.length) else none

/-- The parts of an `ATTR_VALIDATOR` key: node type, attribute, state and instance. A key that is
malformed is skipped. -/
def parseValidatorKey (key : String) : Option (String × String × String × String) := do
  let rest ← textAfter "ATTR_VALIDATOR:" key
  let (targetId, metaKey) ← splitOnce [':'] rest
  let (nodeTypeId, attrDefId) ← splitOnce ['_', '_'] targetId
  let (stateId, instanceId) ← splitOnce ['_', '_'] metaKey
  pure (String.ofList nodeTypeId, String.ofList attrDefId, String.ofList stateId, String.ofList instanceId)

/-- The key of the cache. -/
def validatorKey (nodeTypeId attrDefId : String) : String := nodeTypeId ++ ":" ++ attrDefId

namespace ValidatorConfig

variable (m : ValidatorConfig)

/-- `resolveAlgorithmCode`: the algorithm that has the instance. -/
def resolveAlgorithmCode (instanceId : String) : Option String :=
  (m.algorithms.find? fun algorithm => algorithm.instances.any (·.id = instanceId)).map (·.code)

/-- `configCache.getInstance(instanceId).paramValues()`. -/
def paramValues (instanceId : String) : List (String × String) :=
  (((m.algorithms.flatMap (·.instances)).find? (·.id = instanceId)).map (·.paramValues)).getD []

/-- One round of `rebuildCache`. -/
def cacheEntry (key : String) : Option (String × ResolvedValidator) := do
  let (nodeTypeId, attrDefId, stateId, instanceId) ← parseValidatorKey key
  let code ← m.resolveAlgorithmCode instanceId
  let bean ← m.beans code
  pure (validatorKey nodeTypeId attrDefId, ⟨stateId, bean, m.paramValues instanceId⟩)

/-- `rebuildCache`: the attachments with the keys they are cached under. -/
def validatorCache : List (String × ResolvedValidator) := m.entityMetadata.filterMap fun e => m.cacheEntry e.1

/-- `sliceMetadata`. -/
def sliceMetadata (attrDefId : String) : List (String × String) :=
  m.entityMetadata.filterMap fun e =>
    (textAfter ("ATTRIBUTE_DEFINITION:" ++ attrDefId ++ ":") e.1).map fun key => (String.ofList key, e.2)

/-- `nodeTypeChain`: the type and its ancestors. -/
def nodeTypeChain (env : Env) (nodeTypeId : Option String) : List String :=
  match nodeTypeId with
  | none => []
  | some id =>
    match (env.getNodeType id).map (·.ancestorChain) with
    | none | some [] => [id]
    | some chain => chain

/-- `lookup`: the rules of the type, of its ancestors, and of any type. -/
def lookup (env : Env) (nodeTypeId : Option String) (attrCode : String) : List ResolvedValidator :=
  (nodeTypeChain env nodeTypeId ++ ["*"]).flatMap fun typeId =>
    (m.validatorCache.filter (·.1 = validatorKey typeId attrCode)).map (·.2)

/-- `appliesToState`. -/
def appliesToState (rv : ResolvedValidator) (stateId : Option String) : Bool :=
  rv.stateId = "*" ∨ some rv.stateId = stateId

/-- The validators that apply in a state. -/
def applicable (env : Env) (nodeTypeId stateId : Option String) (attrCode : String) :
    List ResolvedValidator :=
  (m.lookup env nodeTypeId attrCode).filter (appliesToState · stateId)

/-- `out.putIfAbsent(gv.code(), gv)`. -/
def putIfAbsent (out : List GuardViolation) (gv : GuardViolation) : List GuardViolation :=
  if out.any (·.code = gv.code) then out else out ++ [gv]

/-- `validate`: the violations of the validators that apply, one for each code. -/
def validate (env : Env) (nodeTypeId stateId : Option String) (attrCode : String) (value : Option String)
    (allValues : List (String × Option String)) (nodeId : Option Uuid) : List GuardViolation :=
  ((m.applicable env nodeTypeId stateId attrCode).flatMap fun rv =>
    rv.bean.validate ⟨nodeId, nodeTypeId, stateId, attrCode, value, allValues, rv.params,
      m.sliceMetadata attrCode⟩).foldl putIfAbsent []

/-- `merged.put`, except that descriptions are joined. -/
def putHint (merged : List (String × HintValue)) (h : String × HintValue) : List (String × HintValue) :=
  match getKey merged h.1 with
  | none => merged ++ [h]
  | some old =>
    merged.map fun e =>
      if e.1 = h.1 then
        (e.1, if h.1 = "description" then .text (old.print ++ "; " ++ h.2.print) else h.2)
      else e

/-- `hints` without the context of a node. -/
def hints (env : Env) (nodeTypeId stateId : Option String) (attrCode : String) :
    List (String × HintValue) :=
  ((m.applicable env nodeTypeId stateId attrCode).flatMap fun rv =>
    rv.bean.hint ⟨none, nodeTypeId, stateId, attrCode, none, [], rv.params, m.sliceMetadata attrCode⟩).foldl
      putHint []

/-- `isEditable`: true unless a hint says otherwise. -/
def isEditable (env : Env) (nodeTypeId stateId : Option String) (attrCode : String) : Bool :=
  getKey (m.hints env nodeTypeId stateId attrCode) "editable" ≠ some (.flag false)

/-- A character without its case, as `equalsIgnoreCase` compares it with an ASCII letter. -/
def foldCase (c : Char) : Char :=
  if c = 'ſ' then 's' else if c = 'K' then 'k' else c.toLower

/-- `equalsIgnoreCase` with a word in lower case. -/
def equalsIgnoreCase (word text : String) : Bool := text.toList.map foldCase = word.toList

/-- `isHidden`. -/
def isHidden (stateId : Option String) (attrCode : String) : Bool :=
  stateId.any fun stateId =>
    (getKey (m.sliceMetadata attrCode) ("visibility.hidden." ++ stateId)).any (equalsIgnoreCase "true")

end ValidatorConfig

end PlmCore.Psm
