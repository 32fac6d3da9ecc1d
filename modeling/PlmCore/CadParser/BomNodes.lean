/-
The nodes of an assembly: `parseBOM` and the part metadata of `splitStepFromFile` in `app.js`.

Both make a node of each product, with its occurrences in other products. They differ in when they call a
product an assembly: `parseBOM` asks whether a node has an occurrence in it, the splitter whether the structure
names an occurrence in it at all, also one of a product that has no record. Ids are given out by `randomUUID`.
-/
import PlmCore.CadParser.NauoMatrix

set_option autoImplicit false

namespace PlmCore.CadParser

open PlmCore.Lib

attribute [local instance] instLawfulBEqId

/-- `str`: what is between apostrophes, and else the trimmed text. -/
def str (s : Option Text) : Text :=
  match s with
  | none => []
  | some s => if s.head? = some '\'' ∧ s.getLast? = some '\'' ∧ 2 ≤ s.length then (s.drop 1).dropLast else jsTrim s

structure Product where
  partNumber : Text
  name : Text
  description : Text

def productOf (args : Text) : Product :=
  let p := splitArgs args
  ⟨str p[0]?, str p[1]?, str (some (p[2]?.getD []))⟩

structure Occurrence where
  parentProductId : Id
  nauoId : Id

inductive CadType
  | PART
  | ASSEMBLY
  deriving DecidableEq

/-- A node, with the parents it occurs in and its position there. -/
structure BomNode (F U : Type) where
  id : U
  name : Text
  type : CadType
  occurrences : List (U × Option (List F))
  attributes : List (String × Text)
  deriving DecidableEq

section Tables

variable (types : String → JsObject Text)

def products : JsObject Product := (types "PRODUCT").mapEntries fun _ args => some (productOf args)

/-- One turn of the loop over `nauoEntities`. -/
def addOccurrence (t : JsObject (List Occurrence)) (e : Id × Text) : JsObject (List Occurrence) :=
  (nauoProducts types e.2).elim t fun pc => pushTo t pc.2 ⟨pc.1, e.1⟩

def occurrencesOf : JsObject (List Occurrence) := (nauoEntities types).entries.foldl (addOccurrence types) .empty

end Tables

section Nodes

variable {F U : Type} (types : String → JsObject Text) (getMatrix : Id → Option (List F)) (uuid : Nat → U)

/-- `idMap[stepId]`: the products get their ids in turn. -/
def idMap (stepId : Id) : Option U := ((products types).keys.findIdx? (· = stepId)).map uuid

/-- `prod.name || prod.partNumber || …`. -/
def nodeName (stepId : Id) (prod : Product) : Text :=
  if prod.name ≠ [] then prod.name
  else if prod.partNumber ≠ [] then prod.partNumber
  else "Part-".toList ++ stepId

def nodeAttributes (prod : Product) : List (String × Text) :=
  [("partNumber", prod.partNumber), ("description", prod.description)].filter fun a => a.2 ≠ []

/-- The occurrences of a product in products that have a record. -/
def nodeOccurrences (stepId : Id) : List (U × Option (List F)) :=
  (((occurrencesOf types).get stepId).getD []).filterMap fun occ =>
    (idMap types uuid occ.parentProductId).map fun parentId => (parentId, getMatrix occ.nauoId)

/-- The nodes in the order of the products, with a type that is still to be told. -/
def productNodes (type : Id → U → CadType) : List (BomNode F U) :=
  (products types).entries.zipIdx.map fun e =>
    ⟨uuid e.2, nodeName e.1.1 e.1.2, type e.1.1 (uuid e.2), nodeOccurrences types getMatrix uuid e.1.1,
      nodeAttributes e.1.2⟩

/-- The message of `parseBOM` and of the splitter. -/
def noProducts : String := "No PRODUCT entities found — may not be an assembly STEP file"

variable [DecidableEq U]

/-- The parents that the nodes have. -/
def parentIds : List U :=
  (products types).keys.flatMap fun stepId => (nodeOccurrences types getMatrix uuid stepId).map Prod.fst

/-- `parseBOM`, where positions are told by `getMatrix`. -/
def parseBOM : Except String (List (BomNode F U)) :=
  if (products types).keys = [] then .error noProducts
  else .ok (productNodes types getMatrix uuid fun _ id =>
    if id ∈ parentIds types getMatrix uuid then .ASSEMBLY else .PART)

/-- The metadata of `splitStepFromFile`. -/
def splitNodes : Except String (List (BomNode F U)) :=
  if (products types).keys = [] then .error noProducts
  else .ok (productNodes types getMatrix uuid fun stepId _ =>
    if stepId ∈ (occurrencesOf types).values.flatten.map Occurrence.parentProductId then .ASSEMBLY else .PART)

end Nodes

/-! ## The occurrences of a product -/

theorem get_pushTo {V : Type} (o : JsObject (List V)) (key key' : Text) (v : V) :
    ((pushTo o key v).get key').getD [] = (o.get key').getD [] ++ if key' = key then [v] else [] := by
  rw [pushTo, JsObject.get_put]
  by_cases h : key' = key
  · rw [if_pos h, if_pos h, h]
    rfl
  · rw [if_neg h, if_neg h, List.append_nil]

variable {types : String → JsObject Text} {F U : Type} {getMatrix : Id → Option (List F)} {uuid : Nat → U}

/-- An occurrence of a child, from an entry. -/
def occurrenceIn (types : String → JsObject Text) (child : Id) (e : Id × Text) : Option Occurrence :=
  (nauoProducts types e.2).bind fun pc => if child = pc.2 then some ⟨pc.1, e.1⟩ else none

/-- **The occurrences of a product** are those that name it as the child, in the order of the entries. -/
theorem get_occurrencesOf (child : Id) : ((occurrencesOf types).get child).getD [] =
    (nauoEntities types).entries.filterMap (occurrenceIn types child) := by
  have hfold : ∀ (es : List (Id × Text)) (t : JsObject (List Occurrence)),
      ((es.foldl (addOccurrence types) t).get child).getD [] =
        (t.get child).getD [] ++ es.filterMap (occurrenceIn types child) := by
    intro es
    induction es with
    | nil => exact fun t => (List.append_nil _).symm
    | cons e es ih =>
      intro t
      rw [List.foldl_cons, ih, List.filterMap_cons]
      cases hpc : nauoProducts types e.2 with
      | none => simp only [addOccurrence, occurrenceIn, hpc, Option.elim_none, Option.bind_none]
      | some pc =>
        simp only [addOccurrence, occurrenceIn, hpc, Option.elim_some, Option.bind_some, get_pushTo]
        by_cases hchild : child = pc.2
        · rw [if_pos hchild, if_pos hchild, List.append_assoc, List.singleton_append]
        · rw [if_neg hchild, if_neg hchild, List.append_nil]
  exact hfold _ _

/-- The structure names an occurrence of the child in the parent. -/
def Occurs (types : String → JsObject Text) (parent child : Id) : Prop :=
  ∃ nauoId args, (nauoEntities types).get nauoId = some args ∧ nauoProducts types args = some (parent, child)

theorem occurs_iff {parent child : Id} : Occurs types parent child ↔
    ∃ occ ∈ ((occurrencesOf types).get child).getD [], occ.parentProductId = parent := by
  rw [get_occurrencesOf]
  constructor
  · rintro ⟨nauoId, args, hget, hpc⟩
    refine ⟨⟨parent, nauoId⟩, List.mem_filterMap.mpr ⟨(nauoId, args), JsObject.mem_entries.mpr hget, ?_⟩, rfl⟩
    simp only [occurrenceIn, hpc, Option.bind_some, if_true]
  · rintro ⟨occ, hocc, rfl⟩
    obtain ⟨e, he, hmake⟩ := List.mem_filterMap.mp hocc
    obtain ⟨pc, hpc, hif⟩ := Option.bind_eq_some_iff.mp hmake
    split at hif
    case isFalse => cases hif
    case isTrue hchild =>
      cases hif
      exact ⟨e.1, e.2, JsObject.mem_entries.mp he, hpc.trans (congrArg some (Prod.ext rfl hchild.symm))⟩

/-! ## Assemblies -/

theorem idMap_eq_some_iff {stepId : Id} {id : U} : idMap types uuid stepId = some id ↔
    ∃ i, (products types).keys[i]? = some stepId ∧ uuid i = id := by
  rw [idMap, Option.map_eq_some_iff]
  refine exists_congr fun i => and_congr_left fun _ => ?_
  rw [List.findIdx?_eq_some_iff_getElem]
  constructor
  · rintro ⟨hi, hkey, -⟩
    rw [List.getElem?_eq_getElem hi, of_decide_eq_true hkey]
  · intro hkey
    obtain ⟨hi, hkey⟩ := List.getElem?_eq_some_iff.mp hkey
    refine ⟨hi, decide_eq_true hkey, fun j hj => ?_⟩
    rw [Bool.not_eq_true, decide_eq_false_iff_not]
    intro hsame
    exact absurd ((JsObject.nodup_keys _).getElem_inj_iff.mp (hsame.trans hkey.symm)) (Nat.ne_of_lt hj)

/-- The parents a product has as a node are the products with a record it occurs in. -/
theorem mem_nodeOccurrences {stepId : Id} {parentId : U} :
    parentId ∈ (nodeOccurrences types getMatrix uuid stepId).map Prod.fst ↔
      ∃ parent, Occurs types parent stepId ∧ idMap types uuid parent = some parentId := by
  simp only [nodeOccurrences, List.mem_map, List.mem_filterMap, Option.map_eq_some_iff, occurs_iff]
  constructor
  · rintro ⟨o, ⟨occ, hocc, id, hid, rfl⟩, rfl⟩
    exact ⟨occ.parentProductId, ⟨occ, hocc, rfl⟩, hid⟩
  · rintro ⟨parent, ⟨occ, hocc, rfl⟩, hid⟩
    exact ⟨(parentId, getMatrix occ.nauoId), ⟨occ, hocc, parentId, hid, rfl⟩, rfl⟩

/-- What the splitter asks of an assembly. -/
theorem mem_splitParents {stepId : Id} :
    stepId ∈ (occurrencesOf types).values.flatten.map Occurrence.parentProductId ↔
      ∃ child, Occurs types stepId child := by
  simp only [List.mem_map, List.mem_flatten, JsObject.mem_values, occurs_iff]
  constructor
  · rintro ⟨occ, ⟨occs, ⟨child, hchild⟩, hocc⟩, rfl⟩
    exact ⟨child, occ, by rw [hchild]; exact hocc, rfl⟩
  · rintro ⟨child, occ, hocc, rfl⟩
    cases hchild : (occurrencesOf types).get child with
    | none =>
      rw [hchild] at hocc
      exact absurd hocc List.not_mem_nil
    | some occs =>
      rw [hchild] at hocc
      exact ⟨occ, ⟨occs, ⟨child, hchild⟩, hocc⟩, rfl⟩

/-- What `parseBOM` asks of an assembly. -/
theorem mem_parentIds (huuid : Function.Injective uuid) {i : Nat} {stepId : Id}
    (hi : (products types).keys[i]? = some stepId) :
    uuid i ∈ parentIds types getMatrix uuid ↔ ∃ child ∈ (products types).keys, Occurs types stepId child := by
  rw [parentIds, List.mem_flatMap]
  refine exists_congr fun child => and_congr_right fun _ => ?_
  rw [mem_nodeOccurrences]
  constructor
  · rintro ⟨parent, hoccurs, hid⟩
    obtain ⟨j, hj, hij⟩ := idMap_eq_some_iff.mp hid
    rw [huuid hij] at hj
    exact Option.some.inj (hj.symm.trans hi) ▸ hoccurs
  · exact fun hoccurs => ⟨stepId, hoccurs, idMap_eq_some_iff.mpr ⟨i, hi, rfl⟩⟩

/-! ## An assembly of two products -/

/-- A bolt in a frame. -/
def frameRecords : String :=
  "#1=PRODUCT('F1','Frame','',(#9));#2=PRODUCT('B1','','A bolt',(#9));" ++
  "#3=PRODUCT_DEFINITION_FORMATION('','',#1);#4=PRODUCT_DEFINITION_FORMATION('','',#2);" ++
  "#5=PRODUCT_DEFINITION('design','',#3,#9);#6=PRODUCT_DEFINITION('design','',#4,#9);" ++
  "#7=NEXT_ASSEMBLY_USAGE_OCCURRENCE('1','','',#5,#6,$);"

def frameTypes : String → JsObject Text := byType (typeTable frameRecords.toList)

def frameNodes : List (BomNode Unit Nat) :=
  [⟨0, "Frame".toList, .ASSEMBLY, [], [("partNumber", "F1".toList)]⟩,
    ⟨1, "B1".toList, .PART, [(0, none)], [("partNumber", "B1".toList), ("description", "A bolt".toList)]⟩]

/-- The bolt is the part of the frame. -/
theorem parseBOM_frame : parseBOM frameTypes (fun _ => none) id = .ok frameNodes := by
  unfold frameTypes frameRecords
  -- the pieces are read one by one: the kernel takes longer over one long text
  simp only [String.toList_append]
  decide +kernel

/-! ## The nodes -/

theorem length_keys {V : Type} (o : JsObject V) : o.keys.length = o.entries.length := List.length_map _

theorem getElem?_keys {V : Type} {o : JsObject V} {i : Nat} {e : Text × V} (h : o.entries[i]? = some e) :
    o.keys[i]? = some e.1 := by
  rw [JsObject.keys, List.getElem?_map, h, Option.map_some]

theorem getElem?_productNodes (type : Id → U → CadType) (i : Nat) :
    (productNodes types getMatrix uuid type)[i]? = ((products types).entries[i]?).map fun e =>
      ⟨uuid i, nodeName e.1 e.2, type e.1 (uuid i), nodeOccurrences types getMatrix uuid e.1,
        nodeAttributes e.2⟩ := by
  rw [productNodes, List.getElem?_map, List.getElem?_zipIdx, Option.map_map, Nat.zero_add]
  rfl

/-- Nodes with other types are other nodes. -/
theorem productNodes_eq_iff (type type' : Id → U → CadType) :
    productNodes types getMatrix uuid type = productNodes types getMatrix uuid type' ↔
      ∀ i stepId, (products types).keys[i]? = some stepId → type stepId (uuid i) = type' stepId (uuid i) := by
  constructor
  · intro h i stepId hi
    rw [JsObject.keys, List.getElem?_map, Option.map_eq_some_iff] at hi
    obtain ⟨e, he, rfl⟩ := hi
    have hnode := congrArg (fun nodes => nodes[i]?) h
    simp only [getElem?_productNodes, he, Option.map_some] at hnode
    exact congrArg BomNode.type (Option.some.inj hnode)
  · intro h
    refine List.ext_getElem? fun i => ?_
    rw [getElem?_productNodes, getElem?_productNodes]
    cases he : (products types).entries[i]? with
    | none => rfl
    | some e => rw [Option.map_some, Option.map_some, h i e.1 (getElem?_keys he)]

variable [DecidableEq U]

/-- **Main result.** From the same records the parser and the splitter make the same nodes, or fail in the
same way, exactly when every product that the structure names as a parent is also the parent of a product that
has a record. -/
theorem parseBOM_eq_splitNodes_iff (types : String → JsObject Text) (getMatrix : Id → Option (List F))
    {uuid : Nat → U} (huuid : Function.Injective uuid) :
    parseBOM types getMatrix uuid = splitNodes types getMatrix uuid ↔
      ∀ parent ∈ (products types).keys, (∃ child, Occurs types parent child) →
        ∃ child ∈ (products types).keys, Occurs types parent child := by
  unfold parseBOM splitNodes
  by_cases hnone : (products types).keys = []
  · rw [if_pos hnone, if_pos hnone, hnone]
    exact iff_of_true rfl fun parent hparent => absurd hparent List.not_mem_nil
  · rw [if_neg hnone, if_neg hnone, Except.ok.injEq, productNodes_eq_iff]
    constructor
    · intro h parent hparent hsplit
      obtain ⟨i, hi⟩ := List.getElem?_of_mem hparent
      have htype := h i parent hi
      rw [if_pos (mem_splitParents.mpr hsplit)] at htype
      by_contra hnot
      rw [if_neg fun hmem => hnot ((mem_parentIds huuid hi).mp hmem)] at htype
      cases htype
    · intro h i stepId hi
      have hboth : uuid i ∈ parentIds types getMatrix uuid ↔
          stepId ∈ (occurrencesOf types).values.flatten.map Occurrence.parentProductId := by
        rw [mem_parentIds huuid hi, mem_splitParents]
        constructor
        · rintro ⟨child, -, hoccurs⟩
          exact ⟨child, hoccurs⟩
        · exact h stepId (List.mem_of_getElem? hi)
      simp only [hboth]

theorem parseBOM_eq_splitNodes_iff_frame :
    parseBOM frameTypes (fun _ => none : Id → Option (List Unit)) (id : Nat → Nat) =
        splitNodes frameTypes (fun _ => none) id ↔
      ∀ parent ∈ (products frameTypes).keys, (∃ child, Occurs frameTypes parent child) →
        ∃ child ∈ (products frameTypes).keys, Occurs frameTypes parent child :=
  parseBOM_eq_splitNodes_iff frameTypes _ Function.injective_id

/-- The entry of an occurrence whose parent and child have a record, as an occurrence of the child. -/
def placedIn (types : String → JsObject Text) (getMatrix : Id → Option (List F)) (uuid : Nat → U) (child : Id)
    (e : Id × Text) : Option (U × Option (List F)) := do
  let pc ← nauoProducts types e.2
  let parentId ← idMap types uuid pc.1
  if child = pc.2 then return (parentId, getMatrix e.1) else none

omit [DecidableEq U] in
theorem nodeOccurrences_eq (stepId : Id) : nodeOccurrences types getMatrix uuid stepId =
    (nauoEntities types).entries.filterMap (placedIn types getMatrix uuid stepId) := by
  rw [nodeOccurrences, get_occurrencesOf, List.filterMap_filterMap]
  refine List.filterMap_congr fun e _ => ?_
  unfold occurrenceIn placedIn
  cases nauoProducts types e.2 with
  | none => rfl
  | some pc =>
    by_cases hchild : stepId = pc.2
    · simp only [Option.bind_some, Option.bind_eq_bind, if_pos hchild]
      cases idMap types uuid pc.1 with
      | none => rfl
      | some id => rfl
    · simp only [Option.bind_some, Option.bind_eq_bind, if_neg hchild, Option.bind_none]
      cases idMap types uuid pc.1 with
      | none => rfl
      | some id => rfl

omit [DecidableEq U] in
theorem mem_productNodes {type : Id → U → CadType} {node : BomNode F U} :
    node ∈ productNodes types getMatrix uuid type ↔ ∃ i e, (products types).entries[i]? = some e ∧
      node = ⟨uuid i, nodeName e.1 e.2, type e.1 (uuid i), nodeOccurrences types getMatrix uuid e.1,
        nodeAttributes e.2⟩ := by
  rw [List.mem_iff_getElem?]
  refine exists_congr fun i => ?_
  rw [getElem?_productNodes, Option.map_eq_some_iff]
  exact exists_congr fun e => and_congr_right fun _ => eq_comm

/-- **Main result.** The nodes of `parseBOM` are one for each product record in the order of the records. The
occurrences of a node are the occurrence records that name it as child and a product with a record as parent,
each once and in order, with the position told for it. No two nodes have one id, and the nodes that others
occur in are exactly those that are called assemblies. -/
theorem parseBOM_nodes (huuid : Function.Injective uuid) {nodes : List (BomNode F U)}
    (h : parseBOM types getMatrix uuid = .ok nodes) :
    nodes.length = (products types).keys.length ∧ (nodes.map BomNode.id).Nodup ∧
      (∀ (i : Nat) (stepId : Id), (products types).keys[i]? = some stepId → (nodes[i]?).map BomNode.occurrences =
        some ((nauoEntities types).entries.filterMap (placedIn types getMatrix uuid stepId))) ∧
      ∀ id, (∃ node ∈ nodes, node.id = id ∧ node.type = .ASSEMBLY) ↔
        ∃ node ∈ nodes, id ∈ node.occurrences.map Prod.fst := by
  unfold parseBOM at h
  split at h
  case isTrue => cases h
  case isFalse =>
    obtain rfl := Except.ok.inj h
    refine ⟨?_, ?_, ?_, fun id => ?_⟩
    · rw [productNodes, List.length_map, List.length_zipIdx, length_keys]
    · have hids : (productNodes types getMatrix uuid fun _ id =>
          if id ∈ parentIds types getMatrix uuid then .ASSEMBLY else .PART).map BomNode.id =
            ((products types).entries.zipIdx.map Prod.snd).map uuid := by
        rw [productNodes, List.map_map, List.map_map]
        rfl
      rw [hids, List.zipIdx_map_snd]
      exact List.Nodup.map huuid List.nodup_range'
    · intro i stepId hi
      rw [JsObject.keys, List.getElem?_map, Option.map_eq_some_iff] at hi
      obtain ⟨e, he, rfl⟩ := hi
      rw [getElem?_productNodes, he, Option.map_some, Option.map_some, nodeOccurrences_eq]
    · have hparents : id ∈ parentIds types getMatrix uuid ↔
          ∃ stepId ∈ (products types).keys, id ∈ (nodeOccurrences types getMatrix uuid stepId).map Prod.fst :=
        List.mem_flatMap
      constructor
      · rintro ⟨node, hnode, rfl, htype⟩
        obtain ⟨i, e, -, rfl⟩ := mem_productNodes.mp hnode
        split at htype
        case isFalse => cases htype
        case isTrue hmem =>
          obtain ⟨child, hchild, hin⟩ := List.mem_flatMap.mp hmem
          obtain ⟨j, hj⟩ := List.getElem?_of_mem hchild
          rw [JsObject.keys, List.getElem?_map, Option.map_eq_some_iff] at hj
          obtain ⟨e', he', rfl⟩ := hj
          exact ⟨_, mem_productNodes.mpr ⟨j, e', he', rfl⟩, hin⟩
      · rintro ⟨node, hnode, hin⟩
        obtain ⟨j, e', he', rfl⟩ := mem_productNodes.mp hnode
        have hmem : id ∈ parentIds types getMatrix uuid :=
          hparents.mpr ⟨e'.1, List.mem_of_getElem? (getElem?_keys he'), hin⟩
        obtain ⟨parent, -, hid⟩ := mem_nodeOccurrences.mp hin
        obtain ⟨i, hi, rfl⟩ := idMap_eq_some_iff.mp hid
        rw [JsObject.keys, List.getElem?_map, Option.map_eq_some_iff] at hi
        obtain ⟨e, he, rfl⟩ := hi
        exact ⟨_, mem_productNodes.mpr ⟨i, e, he, rfl⟩, rfl, if_pos hmem⟩

theorem parseBOM_nodes_frame :
    frameNodes.length = (products frameTypes).keys.length ∧ (frameNodes.map BomNode.id).Nodup ∧
      (∀ (i : Nat) (stepId : Id), (products frameTypes).keys[i]? = some stepId →
        (frameNodes[i]?).map BomNode.occurrences =
          some ((nauoEntities frameTypes).entries.filterMap (placedIn frameTypes (fun _ => none) id stepId))) ∧
      ∀ id, (∃ node ∈ frameNodes, node.id = id ∧ node.type = .ASSEMBLY) ↔
        ∃ node ∈ frameNodes, id ∈ node.occurrences.map Prod.fst :=
  parseBOM_nodes Function.injective_id parseBOM_frame

end PlmCore.CadParser
