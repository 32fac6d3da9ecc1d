/-
The validators attached to attributes, from the table of the rules to the cache they are looked up in.

`ConfigSnapshotBuilder.buildEntityMetadata` writes one text key for each rule into the metadata that is
pushed, and `AttributeValidatorService.rebuildCache` reads the keys back. Kebab-case ids hold none of
the separators, so a rule comes back as it was attached. An instance that no algorithm bean stands for
is passed over, and metadata rows whose own key reads like that of a rule count as rules.
-/
import PlmCore.Lib.Rows
import PlmCore.Lib.Separated
import PlmCore.Platform.DerivedCaches
import PlmCore.Psa.AttributeMerge

set_option autoImplicit false

namespace PlmCore.Psa

open PlmCore.Lib PlmCore.Platform

/-! ## Writing the keys -/

/-- The key of a generic row. -/
def genericKey (m : EntityMetadataRow) : String := m.targetType ++ ":" ++ m.targetId ++ ":" ++ m.metaKey

/-- The key of a metadata row of an attribute. -/
def attributeMetadataKey (m : AttributeMetadataRow) : String :=
  "ATTRIBUTE_DEFINITION:" ++ m.attributeDefinitionId ++ ":" ++ m.metaKey

/-- The key of a validation rule: no node type means any, no state means all. -/
def ruleKey (r : AttributeValidationRuleRow) : String :=
  "ATTR_VALIDATOR:" ++ r.nodeTypeId.getD "*" ++ "__" ++ r.attributeDefinitionId
    ++ ":" ++ r.lifecycleStateId.getD "*" ++ "__" ++ r.algorithmInstanceId

/-- `buildEntityMetadata`: each `put` replaces the value of a key that is there. -/
def buildEntityMetadata (t : Tables) : List (String × Option String) :=
  upsertAll Prod.fst [] (t.entityMetadata.map (fun m => (genericKey m, m.metaValue))
    ++ t.attributeMetadata.map (fun m => (attributeMetadataKey m, m.metaValue))
    ++ t.validationRules.map fun r => (ruleKey r, some r.effect))

/-- The content of the snapshot that is pushed. A value that is null reads as an empty one, which is
no effect either. -/
def withEntityMetadata (content : ConfigContent) (t : Tables) : ConfigContent :=
  { content with entityMetadata := (buildEntityMetadata t).map fun e => (e.1, e.2.getD "") }

/-! ## Looking validators up -/

/-- `nodeTypeChain`: the type and those above it. -/
def nodeTypeChain (nodeTypes : List NodeTypeConfig) : Option String → List String
  | none => []
  | some id =>
    match nodeTypes.find? (·.row.id = id) with
    | none => [id]
    | some nt => if nt.ancestorChain.isEmpty then [id] else nt.ancestorChain

/-- `lookup`. -/
def lookup (validatorCache : List (String × ResolvedValidator)) (nodeTypes : List NodeTypeConfig)
    (nodeTypeId : Option String) (attrCode : String) : List ResolvedValidator :=
  (nodeTypeChain nodeTypes nodeTypeId ++ ["*"]).flatMap fun typeId =>
    (validatorCache.filter (·.1 = typeId ++ ":" ++ attrCode)).map (·.2)

/-- `appliesToState`. -/
def appliesToState (rv : ResolvedValidator) (stateId : Option String) : Bool :=
  rv.stateId = "*" ∨ some rv.stateId = stateId

/-- The instances whose validators run for an attribute in a state. -/
def instancesFor (registry : AlgorithmRegistry) (c : ConfigCache ConfigContent)
    (nodeTypes : List NodeTypeConfig) (nodeTypeId stateId : Option String) (attrCode : String) :
    List String :=
  ((lookup (AttributeValidatorService.rebuildCache registry c) nodeTypes nodeTypeId attrCode).filter
    (appliesToState · stateId)).map (·.instanceId)

/-- An instance of an algorithm that has a bean which is an attribute validator. -/
def IsValidator (registry : AlgorithmRegistry) (content : ConfigContent) (instanceId : String) : Prop :=
  ∃ code, codeOfInstance content instanceId = some code ∧ registry.hasBean code = true ∧
    registry.resolves code .AttributeValidator = true

/-! ## Splitting -/

theorem colon_toList : ":".toList = [':'] := by decide

theorem underscores_toList : "__".toList = ['_', '_'] := by decide

section Splitting

variable {c : Char} {x y l : List Char}

theorem splitFirst_colon (h : ':' ∉ x) : splitFirst [':'] (x ++ ':' :: y) = some (x, y) := by
  induction x with
  | nil => rfl
  | cons a x ih =>
    obtain ⟨ha, hx⟩ := List.ne_and_not_mem_of_not_mem_cons h
    have hne : [':'].isPrefixOf (a :: (x ++ ':' :: y)) = false := by
      simp [List.isPrefixOf, ha]
    rw [List.cons_append, splitFirst, hne, ih hx]
    rfl

theorem splitFirst_underscores (h : '_' ∉ x) :
    splitFirst ['_', '_'] (x ++ '_' :: '_' :: y) = some (x, y) := by
  induction x with
  | nil => rfl
  | cons a x ih =>
    obtain ⟨ha, hx⟩ := List.ne_and_not_mem_of_not_mem_cons h
    have hne : ['_', '_'].isPrefixOf (a :: (x ++ '_' :: '_' :: y)) = false := by
      simp [List.isPrefixOf, ha]
    rw [List.cons_append, splitFirst, hne, ih hx]
    rfl

/-- What a text is split into is in the text. -/
theorem eq_of_splitFirst {sep : List Char} (h : splitFirst sep l = some (x, y)) : l = x ++ sep ++ y := by
  induction l generalizing x with
  | nil => cases h
  | cons a l ih =>
    rw [splitFirst] at h
    split at h
    · rename_i hsep
      obtain ⟨rest, hrest⟩ := List.isPrefixOf_iff_prefix.mp hsep
      obtain ⟨rfl, rfl⟩ := Prod.mk.inj (Option.some.inj h)
      rw [← hrest, List.drop_left, List.nil_append]
    · obtain ⟨⟨x', y'⟩, hsplit, heq⟩ := Option.map_eq_some_iff.mp h
      obtain ⟨rfl, rfl⟩ := Prod.mk.inj heq
      rw [ih hsplit, List.cons_append, List.cons_append]

/-- What stands before the first colon has none. -/
theorem not_mem_of_splitFirst (h : splitFirst [':'] l = some (x, y)) : ':' ∉ x := by
  induction l generalizing x with
  | nil => cases h
  | cons a l ih =>
    rw [splitFirst] at h
    split at h
    · obtain ⟨rfl, rfl⟩ := Prod.mk.inj (Option.some.inj h)
      exact List.not_mem_nil
    · rename_i hsep
      obtain ⟨⟨x', y'⟩, hsplit, heq⟩ := Option.map_eq_some_iff.mp h
      obtain ⟨rfl, rfl⟩ := Prod.mk.inj heq
      refine List.not_mem_cons_of_ne_of_not_mem ?_ (ih hsplit)
      rintro rfl
      exact hsep (by simp)

end Splitting

/-! ## Reading the keys -/

section Keys

variable {r : AttributeValidationRuleRow} {nodeTypeId attrDefId stateId instanceId key : String}

/-- A rule whose ids are in kebab case. -/
structure KebabRule (r : AttributeValidationRuleRow) : Prop where
  node_type : ∀ id, r.nodeTypeId = some id → isKebab id = true
  attr : isKebab r.attributeDefinitionId = true
  state : ∀ id, r.lifecycleStateId = some id → isKebab id = true

/-- A kebab-case id has no separator and is no wildcard. -/
theorem plain_of_isKebab {id : String} (h : isKebab id = true) :
    '_' ∉ id.toList ∧ ':' ∉ id.toList ∧ '*' ∉ id.toList := by
  have hall : ∀ c ∈ id.toList, c ≠ '_' ∧ c ≠ ':' ∧ c ≠ '*' := by
    unfold isKebab at h
    split at h
    · cases h
    · rename_i c cs hid
      simp only [Bool.and_eq_true, List.all_eq_true] at h
      rw [hid, List.forall_mem_cons]
      refine ⟨⟨?_, ?_, ?_⟩, fun d hd => ⟨?_, ?_, ?_⟩⟩
      · rintro rfl
        exact absurd h.1 (by decide)
      · rintro rfl
        exact absurd h.1 (by decide)
      · rintro rfl
        exact absurd h.1 (by decide)
      · rintro rfl
        exact absurd (h.2 _ hd) (by decide)
      · rintro rfl
        exact absurd (h.2 _ hd) (by decide)
      · rintro rfl
        exact absurd (h.2 _ hd) (by decide)
  exact ⟨fun hc => (hall _ hc).1 rfl, fun hc => (hall _ hc).2.1 rfl, fun hc => (hall _ hc).2.2 rfl⟩

/-- The text of an id, or the wildcard. -/
theorem plain_getD {o : Option String} (h : ∀ id, o = some id → isKebab id = true) :
    '_' ∉ (o.getD "*").toList ∧ ':' ∉ (o.getD "*").toList := by
  cases o with
  | none => exact ⟨by decide, by decide⟩
  | some id => exact ⟨(plain_of_isKebab (h id rfl)).1, (plain_of_isKebab (h id rfl)).2.1⟩

/-- **A rule is read back** as it was attached. -/
theorem validatorKey_ruleKey (h : KebabRule r) : validatorKey (ruleKey r) =
    some (r.nodeTypeId.getD "*", r.attributeDefinitionId, r.lifecycleStateId.getD "*",
      r.algorithmInstanceId) := by
  obtain ⟨hnt, hnt'⟩ := plain_getD h.node_type
  obtain ⟨hst, -⟩ := plain_getD h.state
  have hattr := (plain_of_isKebab h.attr).2.1
  have hmark : "ATTR_VALIDATOR:".toList = "ATTR_VALIDATOR".toList ++ [':'] := by decide
  have htext : (ruleKey r).toList = "ATTR_VALIDATOR".toList ++ ':' ::
      (((r.nodeTypeId.getD "*").toList ++ '_' :: '_' :: r.attributeDefinitionId.toList) ++ ':' ::
        ((r.lifecycleStateId.getD "*").toList ++ '_' :: '_' :: r.algorithmInstanceId.toList)) := by
    unfold ruleKey
    simp only [String.toList_append]
    rw [hmark, colon_toList, underscores_toList]
    simp only [List.append_assoc]
    rfl
  have htarget : ':' ∉ (r.nodeTypeId.getD "*").toList ++ '_' :: '_' :: r.attributeDefinitionId.toList := by
    simp [hnt', hattr]
  have hprefix : "ATTR_VALIDATOR:".toList.isPrefixOf (ruleKey r).toList = true := by
    rw [htext, hmark, List.isPrefixOf_iff_prefix, List.append_cons]
    exact List.prefix_append _ _
  have hcolon : ':' ∉ "ATTR_VALIDATOR".toList := by decide
  rw [validatorKey, hprefix, htext, splitFirst_colon hcolon]
  simp only [Bool.not_true, Bool.false_eq_true, if_false, Option.bind_eq_bind, Option.bind_some]
  rw [splitFirst_colon htarget]
  simp only [Option.bind_some]
  rw [splitFirst_underscores hnt, splitFirst_underscores hst]
  simp only [Option.bind_some, String.ofList_toList]
  rfl

/-- The metadata of attributes is not read as rules. -/
theorem validatorKey_attributeMetadataKey (m : AttributeMetadataRow) :
    validatorKey (attributeMetadataKey m) = none := by
  have htext : (attributeMetadataKey m).toList =
      "ATTRIBUTE_DEFINITION:".toList ++ (m.attributeDefinitionId.toList ++ ':' :: m.metaKey.toList) := by
    unfold attributeMetadataKey
    simp only [String.toList_append]
    rw [colon_toList]
    simp only [List.append_assoc]
    rfl
  have hmark : "ATTR_VALIDATOR:".toList = ['A', 'T', 'T', 'R', '_'] ++ "VALIDATOR:".toList := by decide
  have hword : "ATTRIBUTE_DEFINITION:".toList = ['A', 'T', 'T', 'R', 'I'] ++ "BUTE_DEFINITION:".toList := by
    decide
  have hprefix : "ATTR_VALIDATOR:".toList.isPrefixOf (attributeMetadataKey m).toList = false := by
    rw [htext, hmark, hword]
    simp [List.isPrefixOf]
  rw [validatorKey, hprefix]
  rfl

/-- The node type and the attribute that are read from a key have no colon. -/
theorem not_colon_of_validatorKey
    (h : validatorKey key = some (nodeTypeId, attrDefId, stateId, instanceId)) :
    ':' ∉ nodeTypeId.toList ∧ ':' ∉ attrDefId.toList := by
  unfold validatorKey at h
  split at h
  · cases h
  · simp only [Option.bind_eq_bind, Option.pure_def, Option.bind_eq_some_iff, Prod.exists,
      Option.some.injEq, Prod.mk.injEq] at h
    obtain ⟨-, rest, -, target, metaKey, hrest, nt, attr, htarget, st, inst, -, rfl, rfl, -⟩ := h
    have hfree := not_mem_of_splitFirst hrest
    rw [eq_of_splitFirst htarget] at hfree
    simp only [List.mem_append, not_or] at hfree
    rw [String.toList_ofList, String.toList_ofList]
    exact ⟨hfree.1.1, hfree.2⟩

/-- Under texts without a colon one pair is cached. -/
theorem cacheKey_inj {nodeTypeId' attrDefId' : String} (hnt : ':' ∉ nodeTypeId.toList)
    (hattr : ':' ∉ attrDefId.toList) :
    nodeTypeId ++ ":" ++ attrDefId = nodeTypeId' ++ ":" ++ attrDefId' ↔
      nodeTypeId = nodeTypeId' ∧ attrDefId = attrDefId' := by
  constructor
  · intro h
    have htext : nodeTypeId.toList ++ ':' :: attrDefId.toList =
        nodeTypeId'.toList ++ ':' :: attrDefId'.toList := by
      simpa using congrArg String.toList h
    -- one colon on the left, so one on the right
    have hcount := congrArg (List.count ':') htext
    simp only [List.count_append, List.count_cons_self, List.count_eq_zero.mpr hnt,
      List.count_eq_zero.mpr hattr] at hcount
    have hnt' : ':' ∉ nodeTypeId'.toList := List.count_eq_zero.mp (by omega)
    have hfree : ∀ {x : List Char}, ':' ∉ x → ∀ a ∈ x, a ∉ ({':'} : Set Char) := by
      rintro x hx a ha rfl
      exact hx ha
    obtain ⟨hleft, -, hright⟩ := fields_split (hfree hnt) (hfree hnt') rfl rfl htext
    exact ⟨String.toList_inj.mp hleft, String.toList_inj.mp hright⟩
  · rintro ⟨rfl, rfl⟩
    rfl

end Keys

/-! ## What comes back -/

section Lookup

variable {registry : AlgorithmRegistry} {content : ConfigContent} {version : Nat}
  {nodeTypes : List NodeTypeConfig} {nodeTypeId stateId : Option String} {attrCode instanceId : String}

/-- A validator is cached for each key that is read as a rule, if its instance is one of a validator. -/
theorem mem_rebuildCache {c : ConfigCache ConfigContent} {e : String × ResolvedValidator} :
    e ∈ AttributeValidatorService.rebuildCache registry c ↔
      ∃ entry ∈ c.content.entityMetadata, resolveValidator registry c entry = some e :=
  List.mem_filterMap

/-- **An entry is cached** when its key is read as a rule and the instance is one of a validator. -/
theorem resolveValidator_eq_some {c : ConfigCache ConfigContent} {entry : String × String}
    {e : String × ResolvedValidator} (h : resolveValidator registry c entry = some e) :
    ∃ typeId attrDefId, validatorKey entry.1 = some (typeId, attrDefId, e.2.stateId, e.2.instanceId) ∧
      e.1 = typeId ++ ":" ++ attrDefId ∧ IsValidator registry c.content e.2.instanceId := by
  unfold resolveValidator at h
  simp only [Option.bind_eq_bind, Option.pure_def, Option.bind_eq_some_iff, Prod.exists] at h
  obtain ⟨typeId, attrDefId, state, inst, hkey, code, hcode, hbean⟩ := h
  split at hbean
  · rename_i hvalidator
    obtain rfl := Option.some.inj hbean
    exact ⟨typeId, attrDefId, hkey, rfl, code, hcode, hvalidator⟩
  · cases hbean

theorem exists_resolveValidator {c : ConfigCache ConfigContent} {entry : String × String}
    {typeId attrDefId state : String}
    (hkey : validatorKey entry.1 = some (typeId, attrDefId, state, instanceId))
    (hvalidator : IsValidator registry c.content instanceId) :
    ∃ rv : ResolvedValidator, resolveValidator registry c entry = some (typeId ++ ":" ++ attrDefId, rv) ∧
      rv.stateId = state ∧ rv.instanceId = instanceId := by
  obtain ⟨code, hcode, hbean⟩ := hvalidator
  refine ⟨⟨state, instanceId, code, (GuardEffect.valueOf entry.2).getD .BLOCK, paramsOfInstance c instanceId⟩,
    ?_, rfl, rfl⟩
  unfold resolveValidator
  rw [hkey]
  simp only [Option.bind_eq_bind, Option.bind_some, hcode, if_pos hbean]
  rfl

/-- **The instances that run** are those of the keys that are read as rules for the attribute. -/
theorem mem_instancesFor {c : ConfigCache ConfigContent} :
    instanceId ∈ instancesFor registry c nodeTypes nodeTypeId stateId attrCode ↔
      IsValidator registry c.content instanceId ∧
        ∃ key ∈ c.content.entityMetadata.map Prod.fst, ∃ typeId state,
          validatorKey key = some (typeId, attrCode, state, instanceId) ∧
          typeId ∈ nodeTypeChain nodeTypes nodeTypeId ++ ["*"] ∧ (state = "*" ∨ some state = stateId) := by
  simp only [instancesFor, lookup, List.mem_map, List.mem_filter, List.mem_flatMap, mem_rebuildCache,
    appliesToState, decide_eq_true_eq]
  constructor
  · rintro ⟨rv, ⟨⟨typeId, htype, e, ⟨⟨entry, hentry, hres⟩, hcached⟩, rfl⟩, hstate⟩, rfl⟩
    obtain ⟨typeId', attrDefId, hkey, hcache, hvalidator⟩ := resolveValidator_eq_some hres
    obtain ⟨hnt, hattr⟩ := not_colon_of_validatorKey hkey
    obtain ⟨rfl, rfl⟩ := (cacheKey_inj hnt hattr).mp (hcache.symm.trans hcached)
    exact ⟨hvalidator, entry.1, ⟨entry, hentry, rfl⟩, typeId', e.2.stateId, hkey, htype, hstate⟩
  · rintro ⟨hvalidator, -, ⟨entry, hentry, rfl⟩, typeId, state, hkey, htype, hstate⟩
    obtain ⟨rv, hres, rfl, rfl⟩ := exists_resolveValidator hkey hvalidator
    exact ⟨rv, ⟨⟨typeId, htype, _, ⟨⟨entry, hentry, hres⟩, rfl⟩, rfl⟩, hstate⟩, rfl⟩

/-- The keys of the pushed metadata. -/
theorem mem_keys_withEntityMetadata {t : Tables} {key : String} :
    key ∈ (withEntityMetadata content t).entityMetadata.map Prod.fst ↔
      (∃ m ∈ t.entityMetadata, genericKey m = key) ∨
        (∃ m ∈ t.attributeMetadata, attributeMetadataKey m = key) ∨
          ∃ r ∈ t.validationRules, ruleKey r = key := by
  have hkeys : (withEntityMetadata content t).entityMetadata.map Prod.fst =
      (buildEntityMetadata t).map Prod.fst := by
    simp only [withEntityMetadata, List.map_map]
    rfl
  rw [hkeys, buildEntityMetadata, mem_map_upsertAll]
  simp

/-- A rule is attached for a type of a chain, or for every type. -/
theorem getD_mem_chain_iff {o : Option String} {chain : List String}
    (h : ∀ id, o = some id → isKebab id = true) :
    o.getD "*" ∈ chain ++ ["*"] ↔ o = none ∨ ∃ typeId ∈ chain, o = some typeId := by
  cases o with
  | none => simp
  | some id =>
    have hne : id ≠ "*" := by
      rintro rfl
      exact absurd (h _ rfl) (by decide)
    simp [hne]

/-- A rule is attached for one state, or for all. -/
theorem getD_state_iff {o : Option String} (h : ∀ id, o = some id → isKebab id = true) :
    (o.getD "*" = "*" ∨ some (o.getD "*") = stateId) ↔ o = none ∨ o = stateId := by
  cases o with
  | none => simp
  | some id =>
    have hne : id ≠ "*" := by
      rintro rfl
      exact absurd (h _ rfl) (by decide)
    simp [hne]

/-- A rule attaches an instance to an attribute: for the type or one above it or for every type, and in
the state or in all states. -/
def Attached (t : Tables) (nodeTypes : List NodeTypeConfig) (nodeTypeId stateId : Option String)
    (attrCode instanceId : String) : Prop :=
  ∃ r ∈ t.validationRules, r.algorithmInstanceId = instanceId ∧ r.attributeDefinitionId = attrCode ∧
    (r.nodeTypeId = none ∨ ∃ typeId ∈ nodeTypeChain nodeTypes nodeTypeId, r.nodeTypeId = some typeId) ∧
    (r.lifecycleStateId = none ∨ r.lifecycleStateId = stateId)

/-- A generic row whose own key reads like that of such a rule. -/
def AttachedByKey (t : Tables) (nodeTypes : List NodeTypeConfig) (nodeTypeId stateId : Option String)
    (attrCode instanceId : String) : Prop :=
  ∃ m ∈ t.entityMetadata, ∃ typeId state,
    validatorKey (genericKey m) = some (typeId, attrCode, state, instanceId) ∧
    typeId ∈ nodeTypeChain nodeTypes nodeTypeId ++ ["*"] ∧ (state = "*" ∨ some state = stateId)

/-- **Validators come back as they were attached.** The instances that run for an attribute in a state
are those that a rule attaches to it, or a generic row whose key reads like that of a rule, as far as
they are instances of a validator. -/
theorem attached_validators_come_back (registry : AlgorithmRegistry) (content : ConfigContent) (version : Nat)
    (t : Tables) (nodeTypes : List NodeTypeConfig) (nodeTypeId stateId : Option String)
    (attrCode instanceId : String) (hkebab : ∀ r ∈ t.validationRules, KebabRule r) :
    instanceId ∈ instancesFor registry ⟨some ⟨version, withEntityMetadata content t⟩⟩ nodeTypes nodeTypeId
        stateId attrCode ↔
      IsValidator registry content instanceId ∧
        (Attached t nodeTypes nodeTypeId stateId attrCode instanceId ∨
          AttachedByKey t nodeTypes nodeTypeId stateId attrCode instanceId) := by
  rw [mem_instancesFor]
  refine and_congr_right fun _ => ?_
  constructor
  · rintro ⟨key, hkey, typeId, state, hreads, htype, hstate⟩
    obtain ⟨m, hm, rfl⟩ | ⟨m, -, rfl⟩ | ⟨r, hr, rfl⟩ := mem_keys_withEntityMetadata.mp hkey
    · exact .inr ⟨m, hm, typeId, state, hreads, htype, hstate⟩
    · rw [validatorKey_attributeMetadataKey] at hreads
      cases hreads
    · rw [validatorKey_ruleKey (hkebab r hr)] at hreads
      obtain ⟨rfl, rfl, rfl, rfl⟩ : r.nodeTypeId.getD "*" = typeId ∧ r.attributeDefinitionId = attrCode ∧
          r.lifecycleStateId.getD "*" = state ∧ r.algorithmInstanceId = instanceId := by
        simpa using hreads
      exact .inl ⟨r, hr, rfl, rfl, (getD_mem_chain_iff (hkebab r hr).node_type).mp htype,
        (getD_state_iff (hkebab r hr).state).mp hstate⟩
  · rintro (⟨r, hr, rfl, rfl, htype, hstate⟩ | ⟨m, hm, hrest⟩)
    · exact ⟨ruleKey r, mem_keys_withEntityMetadata.mpr (.inr (.inr ⟨r, hr, rfl⟩)), _, _,
        validatorKey_ruleKey (hkebab r hr), (getD_mem_chain_iff (hkebab r hr).node_type).mpr htype,
        (getD_state_iff (hkebab r hr).state).mpr hstate⟩
    · exact ⟨genericKey m, mem_keys_withEntityMetadata.mpr (.inl ⟨m, hm, rfl⟩), hrest⟩

end Lookup

/-! ## Two configurations -/

/-- The algorithm behind the rules for required attributes. -/
def requiredContent : ConfigContent where
  lifecycles := []
  actions := []
  permissions := []
  algorithms := [⟨"algo-required", "required_attribute_validator", [⟨"ainst-required", "algo-required", []⟩]⟩]
  stateActions := []
  entityMetadata := []

/-- The registry with the bean behind it. -/
def requiredRegistry : AlgorithmRegistry := [("required_attribute_validator", [.AttributeValidator])]

/-- A part with a weight, and a rule that attaches an instance to the weight. -/
def weightRule (instanceId : String) : Tables :=
  { Tables.empty with
    nodeTypes := [typeRow "part" none]
    attributeDefinitions := [textAttribute "weight" "part" "weight"]
    validationRules := [⟨some "part", "weight", none, instanceId, "BLOCK"⟩] }

theorem kebab_weightRule (instanceId : String) : ∀ r ∈ (weightRule instanceId).validationRules, KebabRule r := by
  refine List.forall_mem_singleton.mpr ⟨?_, (by decide : isKebab "weight" = true), nofun⟩
  intro id hid
  obtain rfl : "part" = id := Option.some.inj hid
  decide

theorem attached_required_validator_comes_back :
    "ainst-required" ∈ instancesFor requiredRegistry
      ⟨some ⟨1, withEntityMetadata requiredContent (weightRule "ainst-required")⟩⟩ [] (some "part")
      (some "released") "weight" :=
  (attached_validators_come_back requiredRegistry requiredContent 1 (weightRule "ainst-required") []
    (some "part") (some "released") "weight" "ainst-required" (kebab_weightRule "ainst-required")).mpr
    ⟨⟨"required_attribute_validator", by decide, by decide, by decide⟩,
      .inl ⟨_, List.mem_cons_self, rfl, rfl, .inr ⟨"part", by decide, rfl⟩, .inl rfl⟩⟩

/-- A generic row whose key reads like that of a rule. -/
def weightMetadata : Tables :=
  { Tables.empty with
    entityMetadata := [⟨"ATTR_VALIDATOR", "part__weight", "*__ainst-required", some "BLOCK"⟩] }

/-- An attached instance of no algorithm does not come back, and a generic row brings back an instance
that no rule attaches. -/
theorem attached_validators_are_not_exact :
    (¬ ∀ (registry : AlgorithmRegistry) (content : ConfigContent) (version : Nat) (s : Db)
      (nodeTypes : List NodeTypeConfig) (nodeTypeId stateId : Option String) (attrCode instanceId : String),
      (∀ r ∈ s.validationRules, KebabRule r) →
      Attached s.toTables nodeTypes nodeTypeId stateId attrCode instanceId →
      instanceId ∈ instancesFor registry ⟨some ⟨version, withEntityMetadata content s.toTables⟩⟩ nodeTypes
        nodeTypeId stateId attrCode) ∧
    ¬ ∀ (registry : AlgorithmRegistry) (content : ConfigContent) (version : Nat) (s : Db)
      (nodeTypes : List NodeTypeConfig) (nodeTypeId stateId : Option String) (attrCode instanceId : String),
      (∀ r ∈ s.validationRules, KebabRule r) →
      instanceId ∈ instancesFor registry ⟨some ⟨version, withEntityMetadata content s.toTables⟩⟩ nodeTypes
        nodeTypeId stateId attrCode →
      Attached s.toTables nodeTypes nodeTypeId stateId attrCode instanceId := by
  constructor
  · intro hall
    have hback := hall requiredRegistry requiredContent 1 ⟨weightRule "ainst-gone", by decide⟩ []
      (some "part") none "weight" "ainst-gone" (kebab_weightRule "ainst-gone")
      ⟨_, List.mem_cons_self, rfl, rfl, .inr ⟨"part", by decide, rfl⟩, .inl rfl⟩
    obtain ⟨code, hcode, -⟩ := (mem_instancesFor.mp hback).1
    exact absurd hcode (by simp [codeOfInstance, withEntityMetadata, requiredContent, ConfigCache.content])
  · intro hall
    obtain ⟨r, hr, -⟩ := hall requiredRegistry requiredContent 1 ⟨weightMetadata, by decide⟩ []
      (some "part") none "weight" "ainst-required" nofun (by decide)
    exact absurd hr List.not_mem_nil

end PlmCore.Psa
