/-
The positions of the occurrences of an assembly: `precomputeNauoData` and `buildNauoExtractor` of `step-lib.js`.

An occurrence has its position by one of four ways through the records: its relationship of representations,
the transformation of a compound relationship, its own shape representation, or the mapped item of the
representation of its parent. Every way ends at a placement, whose point and directions make the matrix.

Numbers are a type `F` with the operations that the matrix is made of.
-/
import PlmCore.CadParser.SplitClosure
import PlmCore.CadParser.StepArguments
import PlmCore.Lib.JsObject

set_option autoImplicit false

namespace PlmCore.CadParser

open PlmCore.Lib

attribute [local instance] instLawfulBEqId

/-! ## Arguments of records -/

abbrev Text := List Char

/-- `ref`: `/^#(\d+)$/` on the trimmed text. -/
def ref (s : Option Text) : Option Id :=
  s.bind fun s =>
    match jsTrim s with
    | '#' :: digits => if digits ≠ [] ∧ digits.all Char.isDigit then some digits else none
    | _ => none

/-- The index of `buildTypeIndex`, with the order of its keys. -/
abbrev TypeTable := JsObject (JsObject Text)

/-- `(idx[m[2]] ??= {})[m[1]] = m[3]`. -/
def putMatch (idx : TypeTable) (m : RecordMatch) : TypeTable :=
  idx.put m.type (((idx.get m.type).getD .empty).put m.id m.args)

def typeTable (data : Text) : TypeTable := (recordMatches 0 data).foldl putMatch .empty

/-- `typeIdx[typeName] ?? {}`. -/
def byType (idx : TypeTable) (typeName : String) : JsObject Text := (idx.get typeName.toList).getD .empty

/-! ## Matrices -/

/-- What matrices use of the numbers of JavaScript. -/
structure Floats (F : Type) where
  /-- `Number(text)`, nothing for `NaN`. -/
  number : Text → Option F
  zero : F
  one : F
  add : F → F → F
  sub : F → F → F
  mul : F → F → F
  div : F → F → F
  square : F → F
  sqrt : F → F
  positive : F → Bool

section Matrix

variable {F : Type} (fl : Floats F)

/-- The first three numbers of a list. -/
abbrev Vec (F : Type) := F × F × F

def normalize (v : Vec F) : Vec F :=
  let len := fl.sqrt (fl.add (fl.add (fl.square v.1) (fl.square v.2.1)) (fl.square v.2.2))
  if fl.positive len then (fl.div v.1 len, fl.div v.2.1 len, fl.div v.2.2 len) else (fl.zero, fl.zero, fl.zero)

def cross (a b : Vec F) : Vec F :=
  (fl.sub (fl.mul a.2.1 b.2.2) (fl.mul a.2.2 b.2.1), fl.sub (fl.mul a.2.2 b.1) (fl.mul a.1 b.2.2),
    fl.sub (fl.mul a.1 b.2.1) (fl.mul a.2.1 b.1))

def buildMatrix4x4 (origin : Vec F) (dirX dirZ : Option (Vec F)) : List F :=
  let z := normalize fl (dirZ.getD (fl.zero, fl.zero, fl.one))
  let x := normalize fl (dirX.getD (fl.one, fl.zero, fl.zero))
  let y := normalize fl (cross fl z x)
  [x.1, y.1, z.1, origin.1, x.2.1, y.2.1, z.2.1, origin.2.1, x.2.2, y.2.2, z.2.2, origin.2.2,
    fl.zero, fl.zero, fl.zero, fl.one]

/-- `(p[1] ?? '').replace(/[()]/g, '').split(',').map(Number)`, when there are three numbers at least and all
are numbers. Those behind the third are never used. -/
def coordinates (args : Text) : Option (Vec F) :=
  let part := ((splitArgs args)[1]?).getD []
  match ((part.filter fun c => c ≠ '(' ∧ c ≠ ')').splitOn ',').map fl.number with
  | some x :: some y :: some z :: rest => if rest.all Option.isSome then some (x, y, z) else none
  | _ => none

end Matrix

/-! ## The tables of the structure -/

/-- The ids in `axis2p3d`. -/
structure Axis2Placement where
  originId : Option Id
  dirZId : Option Id
  dirXId : Option Id

def axis2Placement (args : Text) : Axis2Placement :=
  let p := splitArgs args
  ⟨ref p[1]?, ref p[2]?, ref p[3]?⟩

/-- A word behind white space, and what follows it. -/
def skipWord (word : String) (cs : Text) : Option Text :=
  let cs := cs.dropWhile isJsSpace
  if word.toList <+: cs then some (cs.drop word.toList.length) else none

/-- The expression of `compoundSrrToIdt` at the beginning of a text: its groups, and what follows the match. -/
def matchCompound (cs : Text) : Option ((Id × Id) × Text) := do
  let (id, cs) ← matchId cs
  let cs ← skipWord "(" cs
  let cs ← skipWord "REPRESENTATION_RELATIONSHIP" cs
  let cs ← skipWord "(" cs
  let cs ← skipWord ")" (cs.dropWhile (· ≠ ')'))
  let cs ← skipWord "REPRESENTATION_RELATIONSHIP_WITH_TRANSFORMATION" cs
  let cs ← skipWord "(" cs
  let cs ← skipWord "#" cs
  let idt := cs.takeWhile Char.isDigit
  if idt = [] then none
  else
    let cs ← skipWord ")" (cs.dropWhile Char.isDigit)
    return ((id, idt), cs)

/-- Its matches one after the other, after `skip` characters of the last one. -/
def compoundMatches : Nat → Text → List (Id × Id)
  | _, [] => []
  | skip + 1, _ :: cs => compoundMatches skip cs
  | 0, c :: cs =>
    match matchCompound (c :: cs) with
    | some (m, rest) => m :: compoundMatches (cs.length - rest.length) cs
    | none => compoundMatches 0 cs

structure MappedItem where
  reprMapId : Id
  targetId : Id

/-- The tables of `precomputeNauoData` other than those of the geometry. -/
structure NauoTables where
  nauoToPds : JsObject Id
  pdsToCdsr : JsObject Id
  srrMap : JsObject (Id × Id)
  compoundSrrToIdt : JsObject Id
  idtToA2p3d : JsObject Id
  itemToSr : JsObject Id
  srItems : JsObject (List Id)
  pdsToPsr : JsObject Id
  /-- `parentProduct` and `childProduct`. -/
  nauoInfo : JsObject (Id × Id)
  productToSr : JsObject Id
  reprMapToSr : JsObject Id
  srToMappedItems : JsObject (List MappedItem)
  nauosByPairKey : JsObject (List Id)

/-- `(o[key] ??= []).push(v)`. -/
def pushTo {V : Type} (o : JsObject (List V)) (key : Text) (v : V) : JsObject (List V) :=
  o.put key ((o.get key).getD [] ++ [v])

/-- What the entries put under keys of their own choice. -/
def putEach {V W : Type} (entries : List (Text × V)) (make : Text → V → Option (Text × W)) : JsObject W :=
  entries.foldl (fun t e => (make e.1 e.2).elim t fun kw => t.put kw.1 kw.2) .empty

/-- The key of a parent and a child. -/
def pairKey (info : Id × Id) : Text := info.1 ++ ':' :: info.2

section Tables

variable (types : String → JsObject Text)

/-- Formations by id, with the product they refer to. -/
def formationProducts : JsObject Id :=
  ((types "PRODUCT_DEFINITION_FORMATION").assign
    (types "PRODUCT_DEFINITION_FORMATION_WITH_SPECIFIED_SOURCE")).mapEntries fun _ args => ref (splitArgs args)[2]?

/-- `prodDefs`, and `_pdefs`: product definitions by id, with their product. -/
def prodDefs : JsObject Id :=
  (types "PRODUCT_DEFINITION").mapEntries fun _ args =>
    (ref (splitArgs args)[2]?).bind (formationProducts types).get

/-- `nauoEntities`. -/
def nauoEntities : JsObject Text :=
  (types "NEXT_ASSEMBLY_USAGE_OCCURRENCE").assign (types "ASSEMBLY_COMPONENT_USAGE")

/-- The parent and the child of an occurrence, when both are products. -/
def nauoProducts (args : Text) : Option (Id × Id) := do
  let p := splitArgs args
  let par ← ref p[3]?
  let chi ← ref p[4]?
  let parent ← (prodDefs types).get par
  let child ← (prodDefs types).get chi
  return (parent, child)

def shapeRepresentations : JsObject Text :=
  ((types "SHAPE_REPRESENTATION").assign (types "ADVANCED_BREP_SHAPE_REPRESENTATION")).assign
    (types "GEOMETRICALLY_BOUNDED_WIREFRAME_SHAPE_REPRESENTATION")

/-- The references of the items of a representation. -/
def itemRefs (args : Text) : List Id := references (((splitArgs args)[1]?).getD [])

def itemToSr : JsObject Id :=
  (shapeRepresentations types).entries.foldl
    (fun t e => (itemRefs e.2).foldl (fun t item => t.put item e.1) t) .empty

def srItems : JsObject (List Id) := (shapeRepresentations types).mapEntries fun _ args => some (itemRefs args)

/-- A record that names a shape and a representation, when the shape is among those that count. -/
def shapeDefinitions (key : Id → Option Text) : JsObject Id :=
  putEach (types "SHAPE_DEFINITION_REPRESENTATION").entries fun _ args => do
    let p := splitArgs args
    let pdsId ← ref p[0]?
    let srId ← ref p[1]?
    return (← key pdsId, srId)

def srToMappedItems : JsObject (List MappedItem) :=
  (types "MAPPED_ITEM").entries.foldl (fun t e =>
    let p := splitArgs e.2
    match ref p[1]?, ref p[2]?, (itemToSr types).get e.1 with
    | some reprMapId, some targetId, some parentSrId => pushTo t parentSrId ⟨reprMapId, targetId⟩
    | _, _, _ => t) .empty

/-- The tables of the structure. -/
def nauoTables (nauoIdSet : List Id) (data : Text) : NauoTables :=
  let nauoToPds := putEach (types "PRODUCT_DEFINITION_SHAPE").entries fun pdsId args => do
    let defRef ← ref (splitArgs args)[2]?
    if defRef ∈ nauoIdSet then return (defRef, pdsId) else none
  let nauoInfo := (nauoEntities types).mapEntries fun nauoId args =>
    if nauoId ∈ nauoIdSet then nauoProducts types args else none
  let productOfPds := (types "PRODUCT_DEFINITION_SHAPE").mapEntries fun _ args =>
    (ref (splitArgs args)[2]?).bind (prodDefs types).get
  { nauoToPds
    pdsToCdsr := putEach (types "CONTEXT_DEPENDENT_SHAPE_REPRESENTATION").entries fun _ args => do
      let p := splitArgs args
      let srrId ← ref p[0]?
      let pdsId ← ref p[1]?
      return (pdsId, srrId)
    srrMap := (types "SHAPE_REPRESENTATION_RELATIONSHIP").mapEntries fun _ args => do
      let p := splitArgs args
      return (← ref p[2]?, ← ref p[3]?)
    compoundSrrToIdt := (compoundMatches 0 data).foldl (fun t m => t.put m.1 m.2) .empty
    idtToA2p3d := (types "ITEM_DEFINED_TRANSFORMATION").mapEntries fun _ args => ref (splitArgs args)[2]?
    itemToSr := itemToSr types
    srItems := srItems types
    pdsToPsr := shapeDefinitions types fun pdsId => if pdsId ∈ nauoToPds.values then some pdsId else none
    nauoInfo
    productToSr := shapeDefinitions types productOfPds.get
    reprMapToSr := (types "REPRESENTATION_MAP").mapEntries fun _ args => ref (splitArgs args)[1]?
    srToMappedItems := srToMappedItems types
    nauosByPairKey := nauoInfo.entries.foldl (fun t e => pushTo t (pairKey e.2) e.1) .empty }

end Tables

/-! ## The position of an occurrence -/

/-- The tables of `precomputeNauoData`. -/
structure NauoData (F : Type) extends NauoTables where
  cartPoints : JsObject (Vec F)
  directions : JsObject (Vec F)
  axis2p3d : JsObject Axis2Placement

variable {F : Type} (fl : Floats F)

/-- `precomputeNauoData`. -/
def precomputeNauoData (nauoIdSet : List Id) (typeIdx : TypeTable) (data : Text) : NauoData F where
  toNauoTables := nauoTables (byType typeIdx) nauoIdSet data
  cartPoints := (byType typeIdx "CARTESIAN_POINT").mapEntries fun _ args => coordinates fl args
  directions := (byType typeIdx "DIRECTION").mapEntries fun _ args => coordinates fl args
  axis2p3d := (byType typeIdx "AXIS2_PLACEMENT_3D").mapEntries fun _ args => some (axis2Placement args)

section Extractor

variable (d : NauoData F)

/-- `cartPoints[a2p.originId] ?? [0, 0, 0]`. -/
def origin (a2p : Axis2Placement) : Vec F :=
  (a2p.originId.bind d.cartPoints.get).getD (fl.zero, fl.zero, fl.zero)

def dirZ (a2p : Axis2Placement) : Option (Vec F) := a2p.dirZId.bind d.directions.get

def dirX (a2p : Axis2Placement) : Option (Vec F) := a2p.dirXId.bind d.directions.get

/-- `buildMatrix4x4(origin, dirZ, dirX)`: three of the ways give the Z axis where the X axis is asked for. -/
def swappedMatrix (a2p : Axis2Placement) : List F :=
  buildMatrix4x4 fl (origin fl d a2p) (dirZ d a2p) (dirX d a2p)

/-- The matrix of the first item that is a placement. -/
def firstPlacement (items : List Id) : Option (List F) := (items.findSome? d.axis2p3d.get).map (swappedMatrix fl d)

/-- By the relationship of representations. -/
def viaRelationship (srrId : Id) : Option (List F) :=
  (d.srrMap.get srrId).bind fun srs =>
    [srs.1, srs.2].findSome? fun srId => firstPlacement fl d ((d.srItems.get srId).getD [])

/-- By the transformation of a compound relationship. -/
def viaTransformation (srrId : Id) : Option (List F) := do
  let idt ← d.compoundSrrToIdt.get srrId
  let a2pId ← d.idtToA2p3d.get idt
  let a2p ← d.axis2p3d.get a2pId
  return buildMatrix4x4 fl (origin fl d a2p) (dirX d a2p) (dirZ d a2p)

/-- By the mapped item of the representation of the parent. Occurrences of one child in one parent take the
mapped items in turn, and all behind the last one take the last one. -/
def viaMappedItem (nauoId : Id) : Option (List F) := do
  let info ← d.nauoInfo.get nauoId
  let parentSrId ← d.productToSr.get info.1
  let childSrId ← d.productToSr.get info.2
  let candidates := ((d.srToMappedItems.get parentSrId).getD []).filter fun mi =>
    d.reprMapToSr.get mi.reprMapId = some childSrId
  let siblings := (d.nauosByPairKey.get (pairKey info)).getD [nauoId]
  let idx := if nauoId ∈ siblings then siblings.idxOf nauoId else 0
  let mi ← candidates[min idx (candidates.length - 1)]?
  let a2p ← d.axis2p3d.get mi.targetId
  return swappedMatrix fl d a2p

/-- `getMatrixForNauo`. -/
def getMatrixForNauo (nauoId : Id) : Option (List F) :=
  let direct := (d.nauoToPds.get nauoId).bind fun pdsId =>
    let bySrr := ((d.pdsToCdsr.get pdsId).or (d.pdsToCdsr.get nauoId)).bind fun srrId =>
      (viaRelationship fl d srrId).or (viaTransformation fl d srrId)
    bySrr.or ((d.pdsToPsr.get pdsId).bind fun srId => firstPlacement fl d ((d.srItems.get srId).getD []))
  direct.or (viaMappedItem fl d nauoId)

end Extractor

end PlmCore.CadParser
