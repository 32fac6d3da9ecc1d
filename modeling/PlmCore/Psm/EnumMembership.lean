/-
Which values of an enumeration the validation lets pass.

`ConfigCacheAdapter.resolveAllowedValues` writes the values of the enumeration, and their labels, as
JSON, with a backslash before a quotation mark. `collectViolations` does not read the JSON: it looks
for the submitted value between two quotation marks in the text. What stands between two quotation
marks there is more than the values, and a value with a quotation mark does not stand there.
-/
import PlmCore.Lib.Cuts
import PlmCore.Psm.Validation

set_option autoImplicit false

namespace PlmCore.Psm

open PlmCore.Lib

/-! ## The cached configuration -/

/-- `EnumValueConfig`, with the columns that are read. -/
structure EnumValueConfig where
  value : String
  label : Option String

/-- `EnumDefinitionConfig`. -/
structure EnumDefinitionConfig where
  id : String
  values : Option (List EnumValueConfig)

/-- `AttributeConfig`, with the columns that are validated. -/
structure AttributeConfig where
  id : String
  name : String
  label : Option String
  dataType : Option String
  defaultValue : Option String
  allowedValues : Option String
  enumDefinitionId : Option String

/-- What `ConfigCacheAdapter` and the validators read of `ConfigCache`, and the parsers of the
platform. -/
structure ConfigCache where
  entityMetadata : List (String × String)
  algorithms : List AlgorithmConfig
  nodeTypeAttributes : String → List AttributeConfig
  getDomainAttributes : String → List AttributeConfig
  getEnumDefinition : String → Option EnumDefinitionConfig
  matchesRegex : String → String → Bool
  parsesDouble : String → Bool
  parsesLong : String → Bool
  parsesDate : String → Bool
  parsesDateTime : String → Bool

/-! ## `ConfigCacheAdapter` -/

/-- `escape`. -/
def escape (s : String) : String :=
  String.ofList (s.toList.flatMap fun c => if c = '"' then ['\\', '"'] else [c])

/-- The label of a value, when it has one. -/
def EnumValueConfig.shownLabel (v : EnumValueConfig) : Option String :=
  v.label.filter fun label => ¬ isBlank label

/-- One round of the loop of `resolveAllowedValues`. -/
def EnumValueConfig.json (v : EnumValueConfig) : String :=
  "\x7b\"value\":\"" ++ escape v.value ++ "\""
    ++ (match v.shownLabel with
      | some label => ",\"label\":\"" ++ escape label ++ "\""
      | none => "")
    ++ "\x7d"

/-- The text `resolveAllowedValues` builds. -/
def allowedValuesJson (values : List EnumValueConfig) : String :=
  "[" ++ String.intercalate "," (values.map (·.json)) ++ "]"

/-- The definition's values; no list counts as an empty one. -/
def EnumDefinitionConfig.listed (d : EnumDefinitionConfig) : List EnumValueConfig := d.values.getD []

namespace ConfigCache

variable (c : ConfigCache)

/-- The enumeration of an attribute. -/
def enumOf (attr : AttributeConfig) : Option EnumDefinitionConfig :=
  if nullOrBlank attr.enumDefinitionId then none else c.getEnumDefinition (nvl attr.enumDefinitionId)

/-- `resolveAllowedValues`. -/
def resolveAllowedValues (attr : AttributeConfig) : Option String :=
  match c.enumOf attr with
  | none => attr.allowedValues
  | some d => if d.listed = [] then attr.allowedValues else some (allowedValuesJson d.listed)

/-- `toResolvedAttribute`. -/
def toResolvedAttribute (attr : AttributeConfig) : DataAttribute where
  id := attr.id
  name := attr.name
  defaultValue := attr.defaultValue
  label := attr.label
  dataType := attr.dataType
  allowedValues := c.resolveAllowedValues attr

/-- What the validation reads through the adapter; the beans are those of this package. -/
def adapter : ValidationModel where
  entityMetadata := c.entityMetadata
  algorithms := c.algorithms
  beans := builtInValidators c.matchesRegex
  nodeTypeAttributes := fun id => (c.nodeTypeAttributes id).map c.toResolvedAttribute
  domainAttributes := fun id => (c.getDomainAttributes id).map c.toResolvedAttribute
  parsesDouble := c.parsesDouble
  parsesLong := c.parsesLong
  parsesDate := c.parsesDate
  parsesDateTime := c.parsesDateTime

end ConfigCache

/-! ## The text between quotation marks -/

/-- Pieces of a text with a backslash at the end of each but the last one. -/
def escapePieces : List (List Char) → List (List Char)
  | [] => []
  | [piece] => [piece]
  | piece :: next :: pieces => (piece ++ ['\\']) :: escapePieces (next :: pieces)

/-- What an escaped text is cut into by its quotation marks. -/
def escapedPieces (s : String) : List (List Char) := escapePieces (s.toList.splitOn '"')

/-- The texts between the quotation marks around a value, and those of its label. -/
def EnumValueConfig.quoted (v : EnumValueConfig) : List (List Char) :=
  "value".toList :: ":".toList :: (escapedPieces v.value ++
    match v.shownLabel with
    | some label => ",".toList :: "label".toList :: ":".toList :: escapedPieces label
    | none => [])

/-- The texts between the quotation marks of `allowedValuesJson`. -/
def quotedTexts (values : List EnumValueConfig) : List (List Char) :=
  List.intercalate ["\x7d,\x7b".toList] (values.map (·.quoted))

theorem escapePieces_modifyHead (c : Char) (pieces : List (List Char)) :
    escapePieces (pieces.modifyHead (List.cons c)) = (escapePieces pieces).modifyHead (List.cons c) := by
  match pieces with
  | [] => rfl
  | [_] => rfl
  | _ :: _ :: _ => rfl

theorem splitOn_escape (s : String) : (escape s).toList.splitOn '"' = escapedPieces s := by
  rw [escape, String.toList_ofList, escapedPieces]
  induction s.toList with
  | nil => rfl
  | cons c cs ih =>
    obtain ⟨piece, pieces, hcs⟩ := List.exists_cons_of_ne_nil (List.splitOn_ne_nil '"' cs)
    by_cases hc : c = '"'
    · rw [List.flatMap_cons, if_pos hc, hc, List.splitOn_cons_eq_if_modifyHead '"' cs]
      have hmark : (['\\', '"'] ++ cs.flatMap fun c => if c = '"' then ['\\', '"'] else [c]) =
          ['\\'] ++ '"' :: cs.flatMap fun c => if c = '"' then ['\\', '"'] else [c] := rfl
      rw [hmark, List.splitOn_append_cons_self_of_not_mem (by decide), ih, hcs]
      rfl
    · have hne : (c == '"') = false := beq_eq_false_iff_ne.mpr hc
      rw [List.flatMap_cons, if_neg hc, List.singleton_append, List.splitOn_cons_eq_if_modifyHead,
        List.splitOn_cons_eq_if_modifyHead c cs, hne, ih]
      exact (escapePieces_modifyHead c _).symm

/-- What is cut off behind a value: its label, up to the brace that closes it. -/
theorem splitOn_json (v : EnumValueConfig) {before rest : List Char} (hbefore : '"' ∉ before) :
    (before ++ (v.json.toList ++ rest)).splitOn '"' =
      (before ++ ['\x7b']) :: (v.quoted ++ ('\x7d' :: rest).splitOn '"') := by
  have hopen : '"' ∉ before ++ ['\x7b'] := by simpa using hbefore
  have htext : before ++ (v.json.toList ++ rest) = (before ++ ['\x7b']) ++ '"' :: ("value".toList ++ '"' ::
      (":".toList ++ '"' :: ((escape v.value).toList ++ '"' :: ((match v.shownLabel with
        | some label => ",".toList ++ '"' :: ("label".toList ++ '"' :: (":".toList ++ '"' ::
          ((escape label).toList ++ ['"'])))
        | none => []) ++ '\x7d' :: rest)))) := by
    unfold EnumValueConfig.json
    cases v.shownLabel with
    | none => simp
    | some label => simp
  rw [htext, List.splitOn_append_cons_self_of_not_mem hopen,
    List.splitOn_append_cons_self_of_not_mem (by decide),
    List.splitOn_append_cons_self_of_not_mem (by decide), List.splitOn_append_cons_self, splitOn_escape]
  unfold EnumValueConfig.quoted
  cases v.shownLabel with
  | none => simp
  | some label =>
    have hlabel : ",".toList ++ '"' :: ("label".toList ++ '"' :: (":".toList ++ '"' ::
        ((escape label).toList ++ ['"']))) ++ '\x7d' :: rest = ",".toList ++ '"' :: ("label".toList ++ '"' ::
          (":".toList ++ '"' :: ((escape label).toList ++ '"' :: ('\x7d' :: rest)))) := by simp
    dsimp only
    rw [hlabel, List.splitOn_append_cons_self_of_not_mem (by decide),
      List.splitOn_append_cons_self_of_not_mem (by decide),
      List.splitOn_append_cons_self_of_not_mem (by decide), List.splitOn_append_cons_self, splitOn_escape]
    simp

/-- **The quotation marks cut the JSON** into an opening, the texts between them, and a closing. -/
theorem splitOn_allowedValuesJson {values : List EnumValueConfig} (hne : values ≠ []) :
    (allowedValuesJson values).toList.splitOn '"' =
      "[\x7b".toList :: (quotedTexts values ++ ["\x7d]".toList]) := by
  have hjoined : (allowedValuesJson values).toList =
      "[".toList ++ (",".toList.intercalate (values.map (·.json.toList)) ++ "]".toList) := by
    rw [allowedValuesJson, String.toList_append, String.toList_append, String.toList_intercalate,
      List.map_map, List.append_assoc]
    rfl
  rw [hjoined]
  -- by induction on the values, with what stands before the next brace
  suffices hgo : ∀ before : List Char, '"' ∉ before →
      (before ++ (",".toList.intercalate (values.map (·.json.toList)) ++ "]".toList)).splitOn '"' =
        (before ++ ['\x7b']) :: (quotedTexts values ++ ["\x7d]".toList]) from
    hgo "[".toList (by decide)
  clear hjoined
  induction values with
  | nil => exact absurd rfl hne
  | cons v values ih =>
    intro before hbefore
    cases values with
    | nil =>
      rw [List.map_singleton, List.intercalate_singleton, splitOn_json v hbefore]
      have hlast : ('\x7d' :: "]".toList).splitOn '"' = ["\x7d]".toList] := by decide
      rw [hlast, quotedTexts, List.map_singleton, List.intercalate_singleton]
    | cons w values =>
      have hnext := ih (List.cons_ne_nil _ _) "\x7d,".toList (by decide)
      rw [List.map_cons, List.map_cons, List.intercalate_cons_cons, List.append_assoc, List.append_assoc,
        splitOn_json v hbefore]
      rw [List.map_cons] at hnext
      have hbetween : '\x7d' :: (",".toList ++ (",".toList.intercalate
          (w.json.toList :: values.map (·.json.toList)) ++ "]".toList)) = "\x7d,".toList ++
            (",".toList.intercalate (w.json.toList :: values.map (·.json.toList)) ++ "]".toList) := rfl
      rw [hbetween, hnext]
      simp only [quotedTexts, List.map_cons, List.intercalate_cons_cons]
      simp

/-! ## What the check accepts -/

theorem splitOnce_isSome_iff {separator cs : List Char} (hne : separator ≠ []) :
    (splitOnce separator cs).isSome = true ↔ separator <:+: cs := by
  induction cs with
  | nil => simp [splitOnce, hne]
  | cons c cs ih =>
    rw [splitOnce, List.infix_cons_iff]
    by_cases hprefix : separator <+: c :: cs
    · rw [if_pos hprefix]
      exact iff_of_true rfl (.inl hprefix)
    · rw [if_neg hprefix, Option.isSome_map, ih]
      exact ⟨.inr, fun h => h.resolve_left hprefix⟩

/-- **The check finds a value** exactly when its pieces stand in a row between the quotation marks of
the JSON. -/
theorem containsText_allowedValuesJson {values : List EnumValueConfig} (hne : values ≠ []) (v : String) :
    ValidationModel.containsText (allowedValuesJson values) ("\"" ++ v ++ "\"") = true ↔
      v.toList.splitOn '"' <:+: quotedTexts values := by
  have hpart : ("\"" ++ v ++ "\"").toList = '"' :: (v.toList ++ ['"']) := by simp
  rw [ValidationModel.containsText, hpart, splitOnce_isSome_iff (List.cons_ne_nil _ _),
    between_infix_iff (splitOn_allowedValuesJson hne)]

/-- The check of an attribute accepts the value: it finds it in the JSON of the enumeration, or, for
want of values, in the explicit text. -/
def EnumDefinitionConfig.Accepts (d : EnumDefinitionConfig) (attr : AttributeConfig) (v : String) :
    Prop :=
  if d.listed = [] then
    ∀ text ∈ attr.allowedValues, ValidationModel.containsText text ("\"" ++ v ++ "\"") = true
  else v.toList.splitOn '"' <:+: quotedTexts d.listed

/-- The values of the definition. -/
def EnumDefinitionConfig.defined (d : EnumDefinitionConfig) : List String := d.listed.map (·.value)

theorem mem_quotedTexts {values : List EnumValueConfig} {v : EnumValueConfig} (hv : v ∈ values) :
    v.quoted <:+: quotedTexts values := by
  induction values with
  | nil => cases hv
  | cons w values ih =>
    unfold quotedTexts
    cases values with
    | nil =>
      rw [List.mem_singleton.mp hv, List.map_singleton, List.intercalate_singleton]
    | cons w' values =>
      rw [List.map_cons, List.map_cons, List.intercalate_cons_cons, ← List.map_cons]
      obtain rfl | hlater := List.mem_cons.mp hv
      · exact ((List.prefix_append _ _).trans (List.prefix_append _ _)).isInfix
      · exact (ih hlater).trans (List.suffix_append _ _).isInfix

/-- **No false alarm**: a value of the definition that holds no quotation mark is accepted. -/
theorem accepts_of_defined {d : EnumDefinitionConfig} {attr : AttributeConfig} {v : String}
    (hv : v ∈ d.defined) (hquote : '"' ∉ v.toList) : d.Accepts attr v := by
  obtain ⟨w, hw, rfl⟩ := List.mem_map.mp hv
  rw [EnumDefinitionConfig.Accepts, if_neg (List.ne_nil_of_mem hw)]
  refine List.IsInfix.trans ?_ (mem_quotedTexts hw)
  rw [EnumValueConfig.quoted, escapedPieces, List.splitOn_eq_singleton hquote]
  exact ⟨["value".toList, ":".toList], _, List.append_assoc ..⟩

/-! ## Where violations come from -/

section Violations

variable {m : ValidationModel} {env : Env} {t : Tables} {nodeTypeId : String} {req : ValidationRequest}

theorem mem_foldl_putIfAbsent {gvs out : List GuardViolation} {gv : GuardViolation}
    (h : gv ∈ gvs.foldl ValidatorConfig.putIfAbsent out) : gv ∈ out ∨ gv ∈ gvs := by
  induction gvs generalizing out with
  | nil => exact .inl h
  | cons g gvs ih =>
    obtain hout | hlater := ih h
    · unfold ValidatorConfig.putIfAbsent at hout
      split at hout
      · exact .inl hout
      · obtain hout | hnew := List.mem_append.mp hout
        · exact .inl hout
        · exact .inr (List.mem_singleton.mp hnew ▸ List.mem_cons_self)
    · exact .inr (List.mem_cons_of_mem _ hlater)

/-- The codes of the beans of this package. -/
theorem code_of_builtIn {matchesRegex : String → String → Bool} {code : String} {bean : AttributeValidator}
    (hbean : builtInValidators matchesRegex code = some bean) {ctx : AttributeContext}
    {gv : GuardViolation} (hgv : gv ∈ bean.validate ctx) : gv.code = "REQUIRED" ∨ gv.code = "NAMING_REGEX" := by
  unfold builtInValidators at hbean
  split at hbean
  · obtain rfl := Option.some.inj hbean
    cases hgv
  · split at hbean
    · obtain rfl := Option.some.inj hbean
      simp only [requiredAttributeValidator] at hgv
      split at hgv
      · exact .inl (by rw [List.mem_singleton.mp hgv])
      · cases hgv
    · split at hbean
      · obtain rfl := Option.some.inj hbean
        simp only [regexAttributeValidator] at hgv
        split at hgv
        · split at hgv
          · cases hgv
          · exact .inr (by rw [List.mem_singleton.mp hgv])
        · cases hgv
      · cases hbean

/-- No attached validator reports an enumeration. -/
theorem code_of_validator {matchesRegex : String → String → Bool}
    (hbeans : m.beans = builtInValidators matchesRegex) {attr : DataAttribute} {value : Option String}
    {viol : Violation} (h : viol ∈ m.validatorViolations env nodeTypeId req attr value) :
    viol.code ≠ "ENUM_NOT_ALLOWED" := by
  obtain ⟨gv, hgv, rfl⟩ := List.mem_map.mp h
  obtain hnone | hgv := mem_foldl_putIfAbsent hgv
  · cases hnone
  obtain ⟨rv, hrv, hreported⟩ := List.mem_flatMap.mp hgv
  obtain ⟨typeId, -, hrv⟩ := List.mem_flatMap.mp (List.mem_of_mem_filter hrv)
  obtain ⟨entry, hentry, rfl⟩ := List.mem_map.mp hrv
  obtain ⟨e, -, he⟩ := List.mem_filterMap.mp (List.mem_of_mem_filter hentry)
  simp only [ValidatorConfig.cacheEntry, Option.bind_eq_bind, Option.bind_eq_some_iff, Option.pure_def,
    Option.some.injEq] at he
  obtain ⟨parts, hparts, code, hcode, bean, hbean, rfl⟩ := he
  rw [hbeans] at hbean
  obtain hcode | hcode := code_of_builtIn hbean hreported
  · simp [hcode]
  · simp [hcode]

/-- Each violation of a round names the attribute of the round. -/
theorem attrCode_of_violation {attr : DataAttribute} {viol : Violation}
    (h : viol ∈ m.attributeViolations env nodeTypeId req attr) : viol.attrCode = some attr.id := by
  have hvalidators : ∀ value, viol ∈ m.validatorViolations env nodeTypeId req attr value →
      viol.attrCode = some attr.id := by
    intro value hviol
    obtain ⟨gv, -, rfl⟩ := List.mem_map.mp hviol
    rfl
  simp only [ValidationModel.attributeViolations] at h
  split at h
  · cases h
  · split at h
    · rw [List.mem_singleton.mp h]
    · split at h
      · exact hvalidators _ h
      · split at h
        · rw [List.mem_singleton.mp h]
        · obtain henum | hother := List.mem_append.mp h
          · unfold ValidationModel.enumViolations at henum
            split at henum
            · split at henum
              · cases henum
              · rw [List.mem_singleton.mp henum]
            · cases henum
          · exact hvalidators _ hother

/-- The violation of the logical id names no attribute. -/
theorem attrCode_of_logicalId {logicalId : Option String} {viol : Violation}
    (h : viol ∈ ValidationModel.logicalIdViolations env nodeTypeId logicalId) : viol.attrCode = none := by
  simp only [ValidationModel.logicalIdViolations] at h
  split at h
  · split at h
    · split at h
      · cases h
      · rw [List.mem_singleton.mp h]
    · cases h
  · cases h

end Violations

/-! ## Membership -/

namespace ConfigCache

variable (c : ConfigCache) (env : Env) (t : Tables) (req : ValidationRequest)

/-- `collectViolations` reports the value of the attribute as none of its enumeration. -/
def ReportsEnum (attr : AttributeConfig) : Prop :=
  ∃ viol ∈ c.adapter.collectViolations env t req,
    viol.code = "ENUM_NOT_ALLOWED" ∧ viol.attrCode = some attr.id

/-- The value is looked at: the attribute is neither hidden nor changed while it is locked, and the
value is not blank. -/
def IsChecked (nodeTypeId : String) (attr : AttributeConfig) (v : String) : Prop :=
  c.adapter.isHidden req.targetStateId attr.id = false ∧
    c.adapter.isLockedChange env nodeTypeId req attr.id = false ∧ isBlank v = false

/-- A request that submits a value for an attribute of an enumeration. -/
structure Submits (nodeTypeId : String) (attr : AttributeConfig) (d : EnumDefinitionConfig) (v : String) :
    Prop where
  nodeType : req.nodeTypeId = some nodeTypeId
  isEnum : attr.dataType = some "ENUM"
  enumOf : c.enumOf attr = some d
  resolved : c.toResolvedAttribute attr ∈ c.adapter.resolveAttributes env t nodeTypeId req.currentVersionId
  unique : ∀ b ∈ c.adapter.resolveAttributes env t nodeTypeId req.currentVersionId,
    b.id = attr.id → b = c.toResolvedAttribute attr
  value : (getKey req.values attr.id).join = some v

variable {c env t req} {nodeTypeId : String} {attr : AttributeConfig} {d : EnumDefinitionConfig} {v : String}

/-- The check looks at the text `resolveAllowedValues` gives, if it gives one. -/
theorem accepts_iff (henum : c.enumOf attr = some d) :
    d.Accepts attr v ↔ ∀ text ∈ c.resolveAllowedValues attr,
      ValidationModel.containsText text ("\"" ++ v ++ "\"") = true := by
  unfold EnumDefinitionConfig.Accepts resolveAllowedValues
  rw [henum]
  dsimp only
  by_cases hnone : d.listed = []
  · rw [if_pos hnone, if_pos hnone]
  · rw [if_neg hnone, if_neg hnone, ← containsText_allowedValuesJson hnone]
    simp

/-- The check of a value of an enumeration. -/
theorem enumViolations_iff (hisEnum : attr.dataType = some "ENUM") (henum : c.enumOf attr = some d) :
    (∃ viol ∈ ValidationModel.enumViolations (c.toResolvedAttribute attr) v,
      viol.code = "ENUM_NOT_ALLOWED") ↔ ¬ d.Accepts attr v := by
  rw [accepts_iff henum]
  have htype : (c.toResolvedAttribute attr).dataType = some "ENUM" := hisEnum
  have hallowed : (c.toResolvedAttribute attr).allowedValues = c.resolveAllowedValues attr := rfl
  rw [ValidationModel.enumViolations, htype, hallowed]
  cases c.resolveAllowedValues attr with
  | none => simp
  | some text =>
    by_cases hcontains : ValidationModel.containsText text ("\"" ++ v ++ "\"") = true
    · simp [hcontains]
    · simp [hcontains]

/-- A round reports an enumeration exactly when its value is looked at and fails the check. -/
theorem attributeViolations_iff (h : c.Submits env t req nodeTypeId attr d v) :
    (∃ viol ∈ c.adapter.attributeViolations env nodeTypeId req (c.toResolvedAttribute attr),
      viol.code = "ENUM_NOT_ALLOWED") ↔
    c.IsChecked env req nodeTypeId attr v ∧
      ∃ viol ∈ ValidationModel.enumViolations (c.toResolvedAttribute attr) v,
        viol.code = "ENUM_NOT_ALLOWED" := by
  have hid : (c.toResolvedAttribute attr).id = attr.id := rfl
  have hshape : c.adapter.checkValueShape (c.toResolvedAttribute attr).dataType v = none := by
    have htype : (c.toResolvedAttribute attr).dataType = some "ENUM" := h.isEnum
    rw [htype]
    rfl
  have hvalidators : ∀ value, ¬ ∃ viol ∈ c.adapter.validatorViolations env nodeTypeId req
      (c.toResolvedAttribute attr) value, viol.code = "ENUM_NOT_ALLOWED" := by
    rintro value ⟨viol, hviol, hcode⟩
    exact code_of_validator rfl hviol hcode
  unfold IsChecked ValidationModel.attributeViolations
  simp only [hid, h.value]
  cases hhidden : c.adapter.isHidden req.targetStateId attr.id with
  | true => simp
  | false =>
    cases hlocked : c.adapter.isLockedChange env nodeTypeId req attr.id with
    | true => simp
    | false =>
      cases hblank : isBlank v with
      | true =>
        simpa [Option.filter_some, hblank] using hvalidators (some v)
      | false =>
        have hleft : (some v).filter (fun v => ¬ isBlank v) = some v := by simp [Option.filter_some, hblank]
        simp only [hleft, hshape, Bool.false_eq_true, if_false, true_and, List.mem_append]
        constructor
        · rintro ⟨viol, henum | hother, hcode⟩
          · exact ⟨viol, henum, hcode⟩
          · exact absurd ⟨viol, hother, hcode⟩ (hvalidators _)
        · rintro ⟨viol, henum, hcode⟩
          exact ⟨viol, .inl henum, hcode⟩

/-- **What is reported**: a value that is looked at and not accepted. -/
theorem reportsEnum_iff (h : c.Submits env t req nodeTypeId attr d v) :
    c.ReportsEnum env t req attr ↔ c.IsChecked env req nodeTypeId attr v ∧ ¬ d.Accepts attr v := by
  rw [← enumViolations_iff h.isEnum h.enumOf, ← attributeViolations_iff h]
  unfold ReportsEnum ValidationModel.collectViolations
  rw [h.nodeType]
  constructor
  · rintro ⟨viol, hviol, hcode, hattr⟩
    obtain hlogical | hround := List.mem_append.mp hviol
    · rw [attrCode_of_logicalId hlogical] at hattr
      cases hattr
    · -- the round is the one of this attribute, since its violations name it
      obtain ⟨b, hb, hviol⟩ := List.mem_flatMap.mp hround
      rw [attrCode_of_violation hviol] at hattr
      obtain rfl := h.unique b hb (Option.some.inj hattr)
      exact ⟨viol, hviol, hcode⟩
  · rintro ⟨viol, hviol, hcode⟩
    exact ⟨viol, List.mem_append_right _ (List.mem_flatMap.mpr ⟨_, h.resolved, hviol⟩), hcode,
      attrCode_of_violation hviol⟩

/-- **Membership is exact** for a defined value exactly when it is accepted, if it is looked at, and
for any other value when it is looked at and not accepted. -/
theorem enum_membership_exact_iff (h : c.Submits env t req nodeTypeId attr d v) :
    (c.ReportsEnum env t req attr ↔ v ∉ d.defined) ↔
      (v ∈ d.defined ∧ (c.IsChecked env req nodeTypeId attr v → d.Accepts attr v)) ∨
        (v ∉ d.defined ∧ c.IsChecked env req nodeTypeId attr v ∧ ¬ d.Accepts attr v) := by
  rw [reportsEnum_iff h]
  by_cases hv : v ∈ d.defined
  · simp [hv]
  · simp [hv]

/-! ## Sizes in inches -/

/-- Two sizes, one of them with a label. -/
def inchSizes : EnumDefinitionConfig :=
  ⟨"enum-size", some [⟨"3/4\"", some "19 mm"⟩, ⟨"1/2\"", none⟩]⟩

/-- An attribute of that enumeration. -/
def sizeAttribute : AttributeConfig :=
  ⟨"size", "size", some "Size", some "ENUM", none, none, some "enum-size"⟩

/-- A configuration whose parts have the attribute. -/
def sizeCache : ConfigCache where
  entityMetadata := []
  algorithms := []
  nodeTypeAttributes := fun _ => [sizeAttribute]
  getDomainAttributes := fun _ => []
  getEnumDefinition := fun _ => some inchSizes
  matchesRegex := fun _ _ => true
  parsesDouble := fun _ => true
  parsesLong := fun _ => true
  parsesDate := fun _ => true
  parsesDateTime := fun _ => true

/-- The validation of a part with a size. -/
def sizeRequest (v : String) : ValidationRequest :=
  ⟨some "nt-part", none, [("size", some v)], none, none, none, none⟩

theorem submits_size (v : String) :
    sizeCache.Submits partsEnv Tables.empty (sizeRequest v) "nt-part" sizeAttribute inchSizes v where
  nodeType := rfl
  isEnum := rfl
  enumOf := rfl
  resolved := List.mem_singleton_self _
  unique _ hb _ := List.mem_singleton.mp hb
  value := rfl

/-- A size in metres is reported, and it is none of the defined ones. -/
theorem enum_membership_exact_metre :
    sizeCache.ReportsEnum partsEnv Tables.empty (sizeRequest "2 m") sizeAttribute ↔
      "2 m" ∉ inchSizes.defined := by
  refine (enum_membership_exact_iff (submits_size "2 m")).mpr (.inr ⟨by decide, ⟨rfl, rfl, by decide⟩, ?_⟩)
  unfold EnumDefinitionConfig.Accepts
  decide +kernel

/-- **A size is reported although it is defined**, since it ends with a quotation mark; a label passes
although it is no value, and so does the key of the JSON. -/
theorem inch_size_is_reported :
    sizeCache.ReportsEnum partsEnv Tables.empty (sizeRequest "3/4\"") sizeAttribute ∧
      "3/4\"" ∈ inchSizes.defined ∧
      ∀ v ∈ ["19 mm", "value"],
        ¬ sizeCache.ReportsEnum partsEnv Tables.empty (sizeRequest v) sizeAttribute ∧
          v ∉ inchSizes.defined := by
  unfold ReportsEnum
  decide +kernel

end ConfigCache

end PlmCore.Psm
