/-
The attributes of a node type, merged twice from the same tables.

`MetaModelService.getAttributeDefinitions` answers the admin screen, `ConfigSnapshotBuilder.buildNodeTypes`
fills the configuration that is pushed. Both go up the hierarchy and let the nearest definition of a
name count. The first goes up fifty types at most, so the two agree for a type exactly when every name
that is defined fifty types or more above it is defined nearer as well.
-/
import PlmCore.Lib.Overlay
import PlmCore.Psa.NodeTypes

set_option autoImplicit false

namespace PlmCore.Psa

open PlmCore.Lib

/-! ## Queries -/

/-- How a query for attribute definitions orders its rows. -/
abbrev AttributeOrder := FetchOrder AttributeDefinitionRow.displayOrder

namespace Tables

variable (t : Tables)

/-- `SELECT * FROM attribute_definition WHERE node_type_id = ? ORDER BY display_order`. -/
def definitionsOf (o : AttributeOrder) (nodeTypeId : String) : List AttributeDefinitionRow :=
  o.order (t.attributeDefinitions.filter (·.nodeTypeId = some nodeTypeId))

/-- `SELECT name FROM node_type WHERE id = ?`. -/
def nodeTypeName (id : String) : Option String := (t.nodeType? id).map (·.name)

/-- `AttributeValidatorAdminService.isRequiredGlobal`. -/
def isRequiredGlobal (attrDefId : String) : Bool :=
  t.validationRules.any fun r => r.attributeDefinitionId = attrDefId
    ∧ r.algorithmInstanceId = "ainst-psm-c-required-attribute-validator" ∧ r.lifecycleStateId = none

/-- `AttributeValidatorAdminService.getRegex`. -/
def getRegex (attrDefId : String) : Option String :=
  (t.attributeMetadata.find? fun m => m.attributeDefinitionId = attrDefId
    ∧ m.metaKey = "validation.regex").bind (·.metaValue)

end Tables

/-! ## The admin screen -/

/-- `val.replace("\"", "\\\"")`. -/
def escapeQuotes (s : String) : String :=
  String.ofList (s.toList.flatMap fun c => if c = '"' then ['\\', '"'] else [c])

/-- One value of `enumAllowedJson`. -/
def enumValueJson (v : EnumValueRow) : String :=
  "\x7b\"value\":\"" ++ escapeQuotes v.value ++ "\""
    ++ (match notBlank v.label with
      | some label => ",\"label\":\"" ++ escapeQuotes label ++ "\""
      | none => "")
    ++ "\x7d"

/-- `enumAllowedJson`. -/
def enumAllowedJson (t : Tables) (enumDefId : Option String) : Option String :=
  (notBlank enumDefId).bind fun id =>
    match (t.enumValues.filter (·.enumDefinitionId = id)).mergeSort
      (fun a b => a.displayOrder ≤ b.displayOrder) with
    | [] => none
    | rows => some ("[" ++ String.intercalate "," (rows.map enumValueJson) ++ "]")

/-- The map of an attribute: the columns of its row, and the keys that are put beside them. -/
structure AttributeMap where
  row : AttributeDefinitionRow
  inherited : Bool
  inheritedFrom : Option String
  required : Bool
  namingRegex : Option String
  allowedValues : Option String

/-- A row as `enrichAttributeMap` completes it. -/
def enrichAttributeMap (t : Tables) (row : AttributeDefinitionRow) (inherited : Bool)
    (inheritedFrom : Option String) : AttributeMap :=
  ⟨row, inherited, inheritedFrom, t.isRequiredGlobal row.id, t.getRegex row.id,
    enumAllowedJson t row.enumDefinitionId⟩

/-- `buildNodeTypeAncestorChain`. -/
def buildNodeTypeAncestorChain (t : Tables) (nodeTypeId : String) : List String :=
  climb t.parentOf 50 [] (some nodeTypeId)

/-- `getAttributeDefinitions`: the own attributes, then those of the other types of the chain whose
names have not been seen. -/
def getAttributeDefinitions (o : AttributeOrder) (t : Tables) (nodeTypeId : String) : List AttributeMap :=
  let ownAttrs := t.definitionsOf o nodeTypeId
  let ancestors := (buildNodeTypeAncestorChain t nodeTypeId).filter (· ≠ nodeTypeId)
  ownAttrs.map (enrichAttributeMap t · false none) ++
    (keepFirst (·.2.name) (ownAttrs.map (·.name))
      (ancestors.flatMap fun a => (t.definitionsOf o a).map fun ad => (a, ad))).map
      fun e => enrichAttributeMap t e.2 true (t.nodeTypeName e.1)

/-! ## The configuration -/

/-- `AttributeConfig`. -/
structure AttributeConfig where
  id : String
  name : String
  label : String
  dataType : String
  widgetType : Option String
  required : Bool
  defaultValue : Option String
  namingRegex : Option String
  allowedValues : Option String
  enumDefinitionId : Option String
  displayOrder : Int
  displaySection : Option String
  tooltip : Option String
  asName : Bool
  inherited : Bool
  inheritedFrom : Option String
  ownerNodeTypeId : Option String
  sourceDomainId : Option String
  sourceDomainName : Option String
  deriving DecidableEq

/-- `NodeTypeConfig`, without its link types, which are built elsewhere. -/
structure NodeTypeConfig where
  row : NodeTypeRow
  ancestorChain : List String
  attributes : List AttributeConfig

/-- The configuration of an attribute of a type: what validators and enum tables say of it is pushed
elsewhere. -/
def attributeConfig (row : AttributeDefinitionRow) (inherited : Bool)
    (inheritedFrom ownerNodeTypeId : Option String) : AttributeConfig where
  id := row.id
  name := row.name
  label := row.label
  dataType := row.dataType
  widgetType := row.widgetType
  required := false
  defaultValue := row.defaultValue
  namingRegex := none
  allowedValues := none
  enumDefinitionId := row.enumDefinitionId
  displayOrder := row.displayOrder
  displaySection := row.displaySection
  tooltip := row.tooltip
  asName := row.asName = 1
  inherited := inherited
  inheritedFrom := inheritedFrom
  ownerNodeTypeId := ownerNodeTypeId
  sourceDomainId := none
  sourceDomainName := none

/-- `buildAncestorChain`. It meets each type once at most, so it has steps enough. -/
def buildAncestorChain (t : Tables) (typeId : String) : List String :=
  climb t.parentOf (t.nodeTypes.length + 1) [] (some typeId)

/-- The rows that `buildNodeTypes` has grouped for a type, in the order of its one query. -/
def attrsByType (o : AttributeOrder) (t : Tables) (typeId : String) : List AttributeDefinitionRow :=
  (o.order (t.attributeDefinitions.filter (·.nodeTypeId.isSome))).filter (·.nodeTypeId = some typeId)

/-- The merged attributes of a type. A type of the chain without a row is skipped. -/
def mergedAttrs (o : AttributeOrder) (t : Tables) (typeId : String) : List AttributeConfig :=
  (keepFirst (·.2.name) [] (((buildAncestorChain t typeId).filterMap t.nodeType?).flatMap fun ancestor =>
    (attrsByType o t ancestor.id).map fun a => (ancestor, a))).map fun e =>
      let isOwn := e.1.id = typeId
      attributeConfig e.2 (¬ isOwn) (if isOwn then none else some e.1.name) (some e.1.id)

/-- `buildNodeTypes`. -/
def buildNodeTypes (o : AttributeOrder) (t : Tables) : List NodeTypeConfig :=
  t.nodeTypes.map fun type => ⟨type, buildAncestorChain t type.id, mergedAttrs o t type.id⟩

/-- What the admin screen shows, as a configuration. -/
def AttributeMap.toConfig (m : AttributeMap) : AttributeConfig :=
  attributeConfig m.row m.inherited m.inheritedFrom m.row.nodeTypeId

/-! ## Both merges in levels -/

section Merges

variable {o o' : AttributeOrder} {s : Db} {id a : String}

/-- The definitions of the types at the levels of a chain, nearest first. -/
def levels (definitions : String → List AttributeDefinitionRow) (chain : List String) :
    List (List (String × AttributeDefinitionRow)) :=
  chain.map fun a => (definitions a).map fun d => (a, d)

/-- The configuration of a definition that a type has from the type it belongs to. -/
def configFrom (t : Tables) (id : String) (e : String × AttributeDefinitionRow) : AttributeConfig :=
  attributeConfig e.2 (¬ e.1 = id) (if e.1 = id then none else t.nodeTypeName e.1) (some e.1)

theorem levels_cons {definitions : String → List AttributeDefinitionRow} {chain : List String} :
    levels definitions (a :: chain) =
      ((definitions a).map fun d => (a, d)) :: levels definitions chain := rfl

theorem mem_definitionsOf {t : Tables} {d : AttributeDefinitionRow} :
    d ∈ t.definitionsOf o a ↔ d ∈ t.attributeDefinitions ∧ d.nodeTypeId = some a := by
  simp [Tables.definitionsOf, (o.perm _).mem_iff]

theorem definitionsOf_perm (o : AttributeOrder) (t : Tables) (a : String) :
    (t.definitionsOf o a).Perm (t.attributeDefinitions.filter (·.nodeTypeId = some a)) := o.perm _

theorem attrsByType_perm (o : AttributeOrder) (t : Tables) (a : String) :
    (attrsByType o t a).Perm (t.attributeDefinitions.filter (·.nodeTypeId = some a)) := by
  have h := (o.perm (t.attributeDefinitions.filter (·.nodeTypeId.isSome))).filter
    (·.nodeTypeId = some a)
  rw [List.filter_filter] at h
  refine h.trans (List.Perm.of_eq (List.filter_congr fun d _ => ?_))
  by_cases hd : d.nodeTypeId = some a
  · simp [hd]
  · simp [hd]

/-- No type has two attributes of one name. -/
theorem names_nodup (s : Db) (a : String) :
    ((s.attributeDefinitions.filter (·.nodeTypeId = some a)).map (·.name)).Nodup := by
  by_cases ha : a ∈ s.nodeTypeIds
  · exact s.valid.uq_attr_def_nodetype_name a ha
  · have hnone : s.attributeDefinitions.filter (·.nodeTypeId = some a) = [] := by
      refine List.filter_eq_nil_iff.mpr fun d hd => ?_
      rw [decide_eq_true_eq]
      exact fun hid => ha (s.valid.fk_attribute_node_type d hd a hid)
    rw [hnone]
    exact List.nodup_nil

theorem names_nodup_levels {definitions : String → List AttributeDefinitionRow} {chain : List String}
    (h : ∀ a, (definitions a).Perm (s.attributeDefinitions.filter (·.nodeTypeId = some a))) :
    ∀ l ∈ levels definitions chain, (l.map (·.2.name)).Nodup := by
  intro l hl
  obtain ⟨a, -, rfl⟩ := List.mem_map.mp hl
  rw [List.map_map]
  exact (((h a).map _).nodup_iff).mpr (names_nodup s a)

theorem mem_levels {definitions : String → List AttributeDefinitionRow} {chain : List String}
    {e : String × AttributeDefinitionRow} :
    e ∈ (levels definitions chain).flatten ↔ e.1 ∈ chain ∧ e.2 ∈ definitions e.1 := by
  simp only [levels, ← List.flatMap_def, List.mem_flatMap, List.mem_map]
  constructor
  · rintro ⟨a, ha, d, hd, rfl⟩
    exact ⟨ha, hd⟩
  · exact fun h => ⟨e.1, h.1, e.2, h.2, rfl⟩

/-- What the admin screen shows of a definition of another type. -/
theorem toConfig_enrichAttributeMap {t : Tables} {e : String × AttributeDefinitionRow}
    (he : e.1 ≠ id) (hrow : e.2.nodeTypeId = some e.1) :
    (enrichAttributeMap t e.2 true (t.nodeTypeName e.1)).toConfig = configFrom t id e := by
  simp [AttributeMap.toConfig, enrichAttributeMap, configFrom, he, hrow]

/-- **The admin screen** shows the first fifty levels. -/
theorem getAttributeDefinitions_eq (hs : Acyclic s.parentOf) :
    (getAttributeDefinitions o s.toTables id).map AttributeMap.toConfig =
      (keepFirst (·.2.name) [] (levels (s.definitionsOf o) (places s.parentOf 50 id)).flatten).map
        (configFrom s.toTables id) := by
  have hchain : buildNodeTypeAncestorChain s.toTables id = places s.parentOf 50 id :=
    climb_eq_places hs nofun
  obtain ⟨rest, hrest⟩ : ∃ rest, places s.parentOf 50 id = id :: rest := ⟨_, rfl⟩
  have hnotin : id ∉ rest := by
    have hnodup := nodup_places hs (a := id) 50
    rw [hrest] at hnodup
    exact (List.nodup_cons.mp hnodup).1
  have hfilter : (id :: rest).filter (· ≠ id) = rest := by
    rw [List.filter_cons_of_neg (by simp), List.filter_eq_self]
    intro a ha
    simp only [decide_eq_true_eq]
    rintro rfl
    exact hnotin ha
  have hown : (((s.definitionsOf o id).map fun d => (id, d)).map (·.2.name)).Nodup := by
    rw [List.map_map]
    exact (((definitionsOf_perm o s.toTables id).map _).nodup_iff).mpr (names_nodup s id)
  rw [getAttributeDefinitions, hchain, hrest, hfilter, levels_cons, List.flatten_cons,
    keepFirst_append, keepFirst_of_nodup hown, List.map_append, List.map_append]
  congr 1
  · simp only [List.not_mem_nil, not_false_eq_true, decide_true, List.filter_true, List.map_map]
    refine List.map_congr_left fun d hd => ?_
    simp [AttributeMap.toConfig, enrichAttributeMap, configFrom, (mem_definitionsOf.mp hd).2]
  · rw [List.map_map, List.map_map, List.append_nil, List.flatMap_def]
    refine List.map_congr_left fun e he => ?_
    have hmem := keepFirst_sublist.mem he
    obtain ⟨ha, hd⟩ := mem_levels.mp hmem
    refine toConfig_enrichAttributeMap ?_ (mem_definitionsOf.mp hd).2
    rintro rfl
    exact hnotin ha

theorem nodeType?_id {t : Tables} {row : NodeTypeRow} (h : t.nodeType? a = some row) : row.id = a := by
  simpa using List.find?_some h

/-- Every type of a chain is stored. -/
theorem mem_nodeTypeIds_of_mem_places (hid : id ∈ s.nodeTypeIds) {n : Nat}
    (ha : a ∈ places s.parentOf n id) : a ∈ s.nodeTypeIds := by
  obtain ⟨m, -, hm⟩ := mem_places.mp ha
  obtain rfl | hup := comesTo_iff.mp (comesTo_iff_placeAfter.mpr ⟨m, hm⟩)
  · exact hid
  · obtain ⟨x, -, hx⟩ := Relation.TransGen.tail'_iff.mp hup
    exact (s.valid.parentOf_mem hx).2

/-- The way up is no longer than there are types. -/
theorem lt_types_of_placeAfter (hs : Acyclic s.parentOf) (hid : id ∈ s.nodeTypeIds) {n : Nat}
    (hn : placeAfter s.parentOf n id = some a) : n < s.nodeTypes.length := by
  have hup : ∀ x, ComesTo s.parentOf id x → x ∈ s.nodeTypeIds := by
    intro x hx
    obtain ⟨m, hm⟩ := comesTo_iff_placeAfter.mp hx
    exact mem_nodeTypeIds_of_mem_places hid (mem_places.mpr ⟨m, m.lt_succ_self, hm⟩)
  have hlt := lt_of_placeAfter hs hup hn
  rwa [Tables.nodeTypeIds, List.length_map] at hlt

/-- The chain ends within as many steps as there are types. -/
theorem places_stops (hs : Acyclic s.parentOf) (hid : id ∈ s.nodeTypeIds) (n : Nat) :
    places s.parentOf (s.nodeTypes.length + 1 + n) id = places s.parentOf (s.nodeTypes.length + 1) id := by
  have hend : placeAfter s.parentOf (s.nodeTypes.length + 1) id = none := by
    rw [Option.eq_none_iff_forall_ne_some]
    intro x hx
    have hlt := lt_types_of_placeAfter hs hid hx
    omega
  rw [places_add, hend, Option.elim_none, List.append_nil]

/-- **The configuration** has every level. -/
theorem mergedAttrs_eq (hs : Acyclic s.parentOf) (hid : id ∈ s.nodeTypeIds) (n : Nat) :
    mergedAttrs o s.toTables id = (keepFirst (·.2.name) []
      (levels (attrsByType o s.toTables) (places s.parentOf (s.nodeTypes.length + 1 + n) id)).flatten).map
        (configFrom s.toTables id) := by
  have hchain : buildAncestorChain s.toTables id = places s.parentOf (s.nodeTypes.length + 1) id :=
    climb_eq_places hs nofun
  -- each type of the chain by its row, and back
  have hlevels : ∀ chain : List String, (∀ a ∈ chain, a ∈ s.nodeTypeIds) →
      (((chain.filterMap s.nodeType?).flatMap fun ancestor =>
        (attrsByType o s.toTables ancestor.id).map fun d => (ancestor, d)).map fun e => (e.1.id, e.2)) =
      (levels (attrsByType o s.toTables) chain).flatten := by
    intro chain hmem
    induction chain with
    | nil => rfl
    | cons a chain ih =>
      obtain ⟨row, hrow⟩ := Option.isSome_iff_exists.mp
        (Tables.mem_nodeTypeIds_iff.mp (hmem a List.mem_cons_self))
      rw [List.filterMap_cons_some hrow, List.flatMap_cons, List.map_append,
        ih fun b hb => hmem b (List.mem_cons_of_mem a hb), levels_cons, List.flatten_cons]
      congr 1
      rw [List.map_map, nodeType?_id hrow]
      refine List.map_congr_left fun d _ => ?_
      rw [Function.comp_apply, nodeType?_id hrow]
  rw [places_stops hs hid, mergedAttrs, hchain,
    ← hlevels _ fun a ha => mem_nodeTypeIds_of_mem_places hid ha, ← keepFirst_map, List.map_map]
  refine List.map_congr_left fun e he => ?_
  obtain ⟨ancestor, hancestor, hd⟩ := List.mem_flatMap.mp (keepFirst_sublist.mem he)
  obtain ⟨a, -, hrow⟩ := List.mem_filterMap.mp hancestor
  obtain ⟨d, -, rfl⟩ := List.mem_map.mp hd
  have hname : s.nodeType? ancestor.id = some ancestor := by rw [nodeType?_id hrow, hrow]
  simp [configFrom, Tables.nodeTypeName, hname]

/-! ## When they agree -/

/-- Every name that is defined fifty types or more above a type is defined nearer as well. -/
def Tables.NamesNear (t : Tables) (id : String) : Prop :=
  ∀ n, 50 ≤ n → ∀ a, placeAfter t.parentOf n id = some a → ∀ d ∈ t.attributeDefinitions,
    d.nodeTypeId = some a → ∃ m < 50, ∃ b, placeAfter t.parentOf m id = some b ∧
      ∃ d' ∈ t.attributeDefinitions, d'.nodeTypeId = some b ∧ d'.name = d.name

/-- The types fifty steps or more above a type. -/
def farTypes (t : Tables) (id : String) : List String :=
  (placeAfter t.parentOf 50 id).elim [] (places t.parentOf (t.nodeTypes.length + 1))

theorem mem_farTypes (hs : Acyclic s.parentOf) (hid : id ∈ s.nodeTypeIds) :
    a ∈ farTypes s.toTables id ↔ ∃ n, 50 ≤ n ∧ placeAfter s.parentOf n id = some a := by
  constructor
  · intro ha
    cases hfar : placeAfter s.parentOf 50 id with
    | none =>
      rw [farTypes, hfar] at ha
      exact absurd ha List.not_mem_nil
    | some b =>
      rw [farTypes, hfar] at ha
      obtain ⟨m, -, hm⟩ := mem_places.mp ha
      refine ⟨50 + m, by omega, ?_⟩
      rw [placeAfter_add, hfar, Option.bind_some, hm]
  · rintro ⟨n, hn, ha⟩
    obtain ⟨m, rfl⟩ := Nat.exists_eq_add_of_le hn
    rw [placeAfter_add] at ha
    obtain ⟨b, hb, hm⟩ := Option.bind_eq_some_iff.mp ha
    rw [farTypes, hb, Option.elim_some]
    refine mem_places.mpr ⟨m, ?_, hm⟩
    -- the way up from there is no longer than the whole hierarchy
    have hmem : b ∈ s.nodeTypeIds :=
      mem_nodeTypeIds_of_mem_places hid (mem_places.mpr ⟨50, Nat.lt_succ_self 50, hb⟩)
    exact Nat.lt_succ_of_lt (lt_types_of_placeAfter hs hmem hm)

/-- What a merge keeps of the nearer levels, and of the far ones. -/
theorem mergedAttrs_eq_append (hs : Acyclic s.parentOf) (hid : id ∈ s.nodeTypeIds) :
    mergedAttrs o s.toTables id =
      ((keepFirst (·.2.name) [] (levels (attrsByType o s.toTables) (places s.parentOf 50 id)).flatten) ++
        keepFirst (·.2.name)
          ((levels (attrsByType o s.toTables) (places s.parentOf 50 id)).flatten.map (·.2.name))
          (levels (attrsByType o s.toTables) (farTypes s.toTables id)).flatten).map
        (configFrom s.toTables id) := by
  have hplaces : places s.parentOf (s.nodeTypes.length + 1 + 50) id =
      places s.parentOf 50 id ++ farTypes s.toTables id := by
    rw [Nat.add_comm, places_add, farTypes]
  rw [mergedAttrs_eq hs hid 50, hplaces, levels, List.map_append, List.flatten_append,
    keepFirst_append, List.append_nil]
  rfl

/-- **Nothing is kept of the far levels** exactly when their names are near. -/
theorem keepFirst_far_eq_nil_iff (hs : Acyclic s.parentOf) (hid : id ∈ s.nodeTypeIds) :
    keepFirst (·.2.name)
        ((levels (attrsByType o s.toTables) (places s.parentOf 50 id)).flatten.map (·.2.name))
        (levels (attrsByType o s.toTables) (farTypes s.toTables id)).flatten = [] ↔
      s.NamesNear id := by
  have hmem : ∀ a d, d ∈ attrsByType o s.toTables a ↔ d ∈ s.attributeDefinitions ∧ d.nodeTypeId = some a := by
    intro a d
    rw [(attrsByType_perm o s.toTables a).mem_iff, List.mem_filter, decide_eq_true_eq]
  rw [keepFirst_eq_nil_iff]
  constructor
  · intro h n hn a ha d hd hda
    have hfar : (a, d) ∈ (levels (attrsByType o s.toTables) (farTypes s.toTables id)).flatten :=
      mem_levels.mpr ⟨(mem_farTypes hs hid).mpr ⟨n, hn, ha⟩, (hmem a d).mpr ⟨hd, hda⟩⟩
    obtain ⟨e, he, hname⟩ := List.mem_map.mp (h _ hfar)
    obtain ⟨hnear, hdef⟩ := mem_levels.mp he
    obtain ⟨m, hm, hb⟩ := mem_places.mp hnear
    obtain ⟨hd', hown⟩ := (hmem e.1 e.2).mp hdef
    exact ⟨m, hm, e.1, hb, e.2, hd', hown, hname⟩
  · intro h e he
    obtain ⟨hfar, hdef⟩ := mem_levels.mp he
    obtain ⟨n, hn, ha⟩ := (mem_farTypes hs hid).mp hfar
    obtain ⟨hd, hown⟩ := (hmem e.1 e.2).mp hdef
    obtain ⟨m, hm, b, hb, d', hd', hown', hname⟩ := h n hn e.1 ha e.2 hd hown
    refine List.mem_map.mpr ⟨(b, d'), mem_levels.mpr ⟨mem_places.mpr ⟨m, hm, hb⟩, ?_⟩, hname⟩
    exact (hmem b d').mpr ⟨hd', hown'⟩

/-- **The two merges have the same definitions** exactly when the far names are near. -/
theorem mergedAttrs_perm_iff (o o' : AttributeOrder) (hs : Acyclic s.parentOf) (hid : id ∈ s.nodeTypeIds) :
    (mergedAttrs o' s.toTables id).Perm
      ((getAttributeDefinitions o s.toTables id).map AttributeMap.toConfig) ↔ s.NamesNear id := by
  have hnear : (keepFirst (·.2.name) []
        (levels (attrsByType o' s.toTables) (places s.parentOf 50 id)).flatten).Perm
      (keepFirst (·.2.name) [] (levels (s.definitionsOf o) (places s.parentOf 50 id)).flatten) := by
    refine keepFirst_flatten_perm ?_ (names_nodup_levels (attrsByType_perm o' s.toTables))
    refine List.forall₂_map_left_iff.mpr (List.forall₂_map_right_iff.mpr (List.forall₂_same.mpr ?_))
    exact fun a _ => ((attrsByType_perm o' s.toTables a).trans (definitionsOf_perm o s.toTables a).symm).map _
  rw [getAttributeDefinitions_eq hs, mergedAttrs_eq_append hs hid, ← keepFirst_far_eq_nil_iff (o := o') hs hid]
  constructor
  · intro h
    have hlen := h.length_eq
    simp only [List.map_append, List.length_append, List.length_map, hnear.length_eq] at hlen
    exact List.length_eq_zero_iff.mp (by omega)
  · intro h
    rw [h, List.append_nil]
    exact hnear.map _

/-- Where no type has two definitions with one display order, the two queries answer in one order. -/
theorem attrsByType_eq_definitionsOf {t : Tables} (o o' : AttributeOrder)
    (h : ∀ d ∈ t.attributeDefinitions, ∀ d' ∈ t.attributeDefinitions, d.nodeTypeId = d'.nodeTypeId →
      d.displayOrder = d'.displayOrder → d = d') (a : String) :
    attrsByType o' t a = t.definitionsOf o a := by
  have hperm := (attrsByType_perm o' t a).trans (definitionsOf_perm o t a).symm
  refine hperm.eq_of_pairwise ?_ ((o'.sorted _).filter _) (o.sorted _)
  intro d d' hd hd' hle hle'
  obtain ⟨hd, hown⟩ := mem_definitionsOf.mp (hperm.mem_iff.mp hd)
  obtain ⟨hd', hown'⟩ := mem_definitionsOf.mp hd'
  exact h d hd d' hd' (hown.trans hown'.symm) (by omega)

/-- **The attributes of a type** are the same definitions in the configuration as on the admin screen
exactly when every name defined fifty types or more above it is defined nearer as well. Then they also
come in the same order, where no type has two definitions with one display order. -/
theorem attribute_merges_agree_iff (o o' : AttributeOrder) (s : Db) (hs : Acyclic s.parentOf)
    (nt : NodeTypeConfig) (hnt : nt ∈ buildNodeTypes o' s.toTables) :
    (nt.attributes.Perm ((getAttributeDefinitions o s.toTables nt.row.id).map AttributeMap.toConfig) ↔
      s.NamesNear nt.row.id) ∧
    (s.NamesNear nt.row.id →
      (∀ d ∈ s.attributeDefinitions, ∀ d' ∈ s.attributeDefinitions, d.nodeTypeId = d'.nodeTypeId →
        d.displayOrder = d'.displayOrder → d = d') →
      nt.attributes = (getAttributeDefinitions o s.toTables nt.row.id).map AttributeMap.toConfig) := by
  obtain ⟨type, htype, rfl⟩ := List.mem_map.mp hnt
  have hid : type.id ∈ s.nodeTypeIds := List.mem_map_of_mem htype
  refine ⟨mergedAttrs_perm_iff o o' hs hid, fun hnear hties => ?_⟩
  have hqueries : attrsByType o' s.toTables = s.definitionsOf o :=
    funext (attrsByType_eq_definitionsOf o o' hties)
  change mergedAttrs o' s.toTables type.id = _
  rw [mergedAttrs_eq_append hs hid, (keepFirst_far_eq_nil_iff hs hid).mpr hnear, List.append_nil,
    getAttributeDefinitions_eq hs, hqueries]

end Merges

/-! ## A deep hierarchy -/

/-- A type with a parent. -/
def typeRow (id : String) (parent : Option String) : NodeTypeRow :=
  ⟨id, id, none, none, some "Identifier", none, "ALPHA_NUMERIC", "ITERATE", none, none, false, parent⟩

/-- A text attribute of a type. -/
def textAttribute (id nodeTypeId name : String) : AttributeDefinitionRow :=
  ⟨id, some nodeTypeId, none, name, name, "STRING", none, some "TEXT", 0, none, none, 0, none⟩

/-- A hierarchy with one attribute, which belongs to the last of the given types. Each type is the parent
of the one before it. -/
def chainOf (ids : List String) (owner : String) : Tables :=
  { Tables.empty with
    nodeTypes := (ids.zip (ids.tail.map some ++ [none])).map fun e => typeRow e.1 e.2
    attributeDefinitions := [textAttribute "material" owner "material"] }

/-- A part below an assembly that has an attribute. -/
def partBelowAssembly : Db := ⟨chainOf ["part", "assembly"] "assembly", by decide⟩

/-- Fifty types below the one that has an attribute. -/
def fiftyBelow : Db := ⟨chainOf ((List.range 51).map toString) "50", by decide +kernel⟩

/-- Whether each type stands before its parent. -/
def Tables.Listed (t : Tables) : Prop :=
  ∀ n ∈ t.nodeTypes, ∀ p ∈ n.parentNodeTypeId, t.nodeTypeIds.idxOf n.id < t.nodeTypeIds.idxOf p

instance (t : Tables) : Decidable t.Listed :=
  inferInstanceAs (Decidable (∀ n ∈ t.nodeTypes, ∀ p ∈ n.parentNodeTypeId,
    t.nodeTypeIds.idxOf n.id < t.nodeTypeIds.idxOf p))

theorem Tables.Listed.acyclic {t : Tables} (h : t.Listed) : Acyclic t.parentOf := by
  refine acyclic_of_rank t.nodeTypeIds.idxOf fun x y hxy => ?_
  obtain ⟨n, hn, hp⟩ := Option.bind_eq_some_iff.mp hxy
  have hlt := h n (List.mem_of_find?_eq_some hn) y hp
  rwa [nodeType?_id hn] at hlt

theorem attribute_merges_agree_for_part :
    mergedAttrs (.stored _) partBelowAssembly.toTables "part" =
      (getAttributeDefinitions (.stored _) partBelowAssembly.toTables "part").map
        AttributeMap.toConfig := by
  have hacyclic : Acyclic partBelowAssembly.parentOf := Tables.Listed.acyclic (by decide)
  have hpart : ∃ type ∈ partBelowAssembly.nodeTypes, type.id = "part" := by decide
  obtain ⟨type, htype, hid⟩ := hpart
  have hmem : type.id ∈ partBelowAssembly.nodeTypeIds := List.mem_map_of_mem htype
  have hnt := List.mem_map_of_mem (f := fun type : NodeTypeRow => NodeTypeConfig.mk type
    (buildAncestorChain partBelowAssembly.toTables type.id)
    (mergedAttrs (.stored _) partBelowAssembly.toTables type.id)) htype
  rw [← hid]
  refine (attribute_merges_agree_iff (.stored _) (.stored _) partBelowAssembly hacyclic _ hnt).2 ?_ ?_
  · intro n hn a ha
    have hlt := lt_types_of_placeAfter hacyclic hmem ha
    exact absurd (hn.trans_lt hlt) (by decide)
  · intro d hd d' hd' _ _
    obtain rfl : d = _ := List.mem_singleton.mp hd
    exact (List.mem_singleton.mp hd').symm

/-- The attribute of a type fifty steps above another is in the configuration of that type, and the
admin screen does not show it. -/
theorem attribute_merges_differ : ¬ ∀ (o o' : AttributeOrder) (s : Db), Acyclic s.parentOf →
    ∀ nt ∈ buildNodeTypes o' s.toTables,
      nt.attributes.Perm ((getAttributeDefinitions o s.toTables nt.row.id).map AttributeMap.toConfig) := by
  intro hall
  have hacyclic : Acyclic fiftyBelow.parentOf := Tables.Listed.acyclic (by decide +kernel)
  have hid : "0" ∈ fiftyBelow.nodeTypeIds := by decide +kernel
  obtain ⟨type, htype, hzero⟩ := List.mem_map.mp hid
  have hperm := hall (.stored _) (.stored _) fiftyBelow hacyclic _ (List.mem_map_of_mem htype)
  have hnear := (mergedAttrs_perm_iff (.stored _) (.stored _) hacyclic (List.mem_map_of_mem htype)).mp hperm
  rw [hzero] at hnear
  obtain ⟨m, hm, b, hb, d, hd, hown, -⟩ := hnear 50 (by omega) "50" (by decide +kernel) _
    List.mem_cons_self rfl
  obtain rfl : d = _ := List.mem_singleton.mp hd
  obtain rfl : "50" = b := Option.some.inj hown
  exact absurd hb ((by decide +kernel : ∀ m < 50, placeAfter fiftyBelow.parentOf m "0" ≠ some "50") m hm)

end PlmCore.Psa
