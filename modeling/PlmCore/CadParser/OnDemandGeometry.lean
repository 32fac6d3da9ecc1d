/-
Geometry on demand: `parseStepFromFile` and `resolveAssemblyGeometry` of `app.js`.

The parser keeps the text of the records of the structure and only the places of the geometry. Then it fetches
the geometry that the structure refers to, what that refers to, and so on. The rest of the file, by far the most
of it, is never read again.

The positions of the occurrences are what they would be had all geometry been fetched: a way through the tables
comes to a placement, a point or a direction only by a reference in a text that was kept or fetched.
-/
import PlmCore.CadParser.BomNodes
import PlmCore.CadParser.PartFile
import PlmCore.CadParser.RecordTexts
import PlmCore.Lib.Waves

set_option autoImplicit false

namespace PlmCore.CadParser

open PlmCore.Lib

attribute [local instance] instLawfulBEqId

/-! ## The code -/

def keepStruct : List String :=
  ["PRODUCT", "PRODUCT_DEFINITION_FORMATION", "PRODUCT_DEFINITION_FORMATION_WITH_SPECIFIED_SOURCE",
    "PRODUCT_DEFINITION", "PRODUCT_DEFINITION_SHAPE", "NEXT_ASSEMBLY_USAGE_OCCURRENCE",
    "ASSEMBLY_COMPONENT_USAGE", "CONTEXT_DEPENDENT_SHAPE_REPRESENTATION", "SHAPE_DEFINITION_REPRESENTATION",
    "SHAPE_REPRESENTATION_RELATIONSHIP", "SHAPE_REPRESENTATION", "ADVANCED_BREP_SHAPE_REPRESENTATION",
    "GEOMETRICALLY_BOUNDED_WIREFRAME_SHAPE_REPRESENTATION", "ITEM_DEFINED_TRANSFORMATION", "REPRESENTATION_MAP",
    "MAPPED_ITEM"]

def keepGeom : List String := ["CARTESIAN_POINT", "DIRECTION", "AXIS2_PLACEMENT_3D"]

/-- What `.` of an expression does not match. -/
def isLineTerminator (c : Char) : Bool := c = '\n' || c = '\r' || c.toNat = 0x2028 || c.toNat = 0x2029

/-- `/^#\d+\s*=\s*\(.*REPRESENTATION_RELATIONSHIP_WITH_TRANSFORMATION/`. -/
def isCompoundRelationship (text : Text) : Bool :=
  match matchId text with
  | none => false
  | some (_, rest) =>
    match rest.dropWhile isJsSpace with
    | '(' :: body =>
      "REPRESENTATION_RELATIONSHIP_WITH_TRANSFORMATION".toList <:+: body.takeWhile fun c => !isLineTerminator c
    | _ => false

/-- `structMap` and `geomOffsets`. -/
structure ScanTables where
  structMap : JsObject Text
  geomOffsets : JsObject ByteRange

/-- `onEntity` of `parseStepFromFile`. -/
def onEntity (s : ScanTables) (e : ScannedEntity) : ScanTables :=
  match e.id, e.type with
  | some id, some type =>
    if type ∈ keepGeom.map String.toList then { s with geomOffsets := s.geomOffsets.put id ⟨e.offset, e.length⟩ }
    else if type ∈ keepStruct.map String.toList then { s with structMap := s.structMap.put id (e.text ++ [';']) }
    else if type = "_COMPOUND_".toList ∧ isCompoundRelationship e.text then
      { s with structMap := s.structMap.put id (e.text ++ [';']) }
    else s
  | _, _ => s

def scanTables (es : List ScannedEntity) : ScanTables := es.foldl onEntity ⟨.empty, .empty⟩

/-- `replace(/\/\*[\s\S]*?\*\//g, '')`, after `skip` characters of a comment. -/
def removeComments : Nat → Text → Text
  | _, [] => []
  | skip + 1, _ :: cs => removeComments skip cs
  | 0, c :: cs =>
    if c = '/' ∧ cs.head? = some '*' then
      match indexOf ['*', '/'] cs 1 with
      | some stop => removeComments (stop + 2) cs
      | none => c :: removeComments 0 cs
    else c :: removeComments 0 cs

/-- The text of a record, read at its place. -/
def readText (file : List UInt8) (r : ByteRange) : Text :=
  jsTrim (replaceNewlines (removeComments 0 (decodeUtf8 (subarray file r.offset (r.offset + r.length))))).dropLast

/-- `Array.join('\n')`. -/
def joinLines (texts : List Text) : Text := ['\n'].intercalate texts

section Resolve

variable (file : List UInt8) (geomOffsets : JsObject ByteRange)

/-- `collectRefs`: `needed` and `wave`. -/
def collectRefs (s : Frontier Id) (texts : List Text) : Frontier Id :=
  s.addAll (fun id => (geomOffsets.get id).isSome) (texts.flatMap references)

/-- The texts of a wave, in the order of their places. -/
def waveTexts (wave : List Id) : List Text :=
  ((wave.filterMap geomOffsets.get).insertionSort fun a b => a.offset ≤ b.offset).map (readText file)

/-- The loop of `resolveAssemblyGeometry`, for a number of rounds: the texts it fetches. -/
def fetchLoop : Nat → Frontier Id → List Text → Option (List Text)
  | _, ⟨_, []⟩, fetched => some fetched
  | 0, ⟨_, _ :: _⟩, _ => none
  | rounds + 1, ⟨needed, id :: wave⟩, fetched =>
    let texts := waveTexts file geomOffsets (id :: wave)
    fetchLoop rounds (collectRefs geomOffsets ⟨needed, []⟩ texts) (fetched ++ texts)

/-- `if (geomIdx[type]) typeIdx[type] = Object.assign(typeIdx[type] ?? {}, geomIdx[type])`. -/
def mergeType (geomIdx typeIdx : TypeTable) (type : String) : TypeTable :=
  (geomIdx.get type.toList).elim typeIdx fun entries =>
    typeIdx.put type.toList ((byType typeIdx type).assign entries)

/-- The index with the records of the texts that were fetched. -/
def mergeGeometry (typeIdx : TypeTable) (texts : List Text) : TypeTable :=
  keepGeom.foldl (mergeType (typeTable (joinLines (texts.map (· ++ [';']))))) typeIdx

/-- `resolveAssemblyGeometry`. -/
def resolveAssemblyGeometry (structMap : JsObject Text) (typeIdx : TypeTable) (rounds : Nat) : Option TypeTable :=
  (fetchLoop file geomOffsets rounds (collectRefs geomOffsets ⟨[], []⟩ structMap.values) []).map (mergeGeometry typeIdx)

end Resolve

section Parse

variable {F U : Type} [DecidableEq U] (fl : Floats F) (uuid : Nat → U)

/-- `parseBOM(typeIdx, data)`. -/
def parseIndexed (typeIdx : TypeTable) (data : Text) : Except String (List (BomNode F U)) :=
  let nauoData := precomputeNauoData fl (nauoEntities (byType typeIdx)).keys typeIdx data
  parseBOM (byType typeIdx) (getMatrixForNauo fl nauoData) uuid

/-- `parseStepFromFile`, with the records that `scanStep` delivers. -/
def parseStepFromFile (file : List UInt8) (es : List ScannedEntity) (rounds : Nat) :
    Option (Except String (List (BomNode F U))) :=
  let s := scanTables es
  let structData := joinLines s.structMap.values
  (resolveAssemblyGeometry file s.geomOffsets s.structMap (typeTable structData) rounds).map fun typeIdx =>
    parseIndexed fl uuid typeIdx structData

/-- What is compared with: the same with all geometry of the file fetched. -/
def parseWithAllGeometry (file : List UInt8) (es : List ScannedEntity) : Except String (List (BomNode F U)) :=
  let s := scanTables es
  let structData := joinLines s.structMap.values
  parseIndexed fl uuid (mergeGeometry (typeTable structData) (s.geomOffsets.values.map (readText file))) structData

end Parse

/-! ## What is fetched -/

section Fetch

variable (file : List UInt8) (geomOffsets : JsObject ByteRange)

/-- The text that is read for an id. -/
def geomText (id : Id) : Option Text := (geomOffsets.get id).map (readText file)

/-- The ids in the text that is read for an id. -/
def textRefs (id : Id) : List Id := ((geomText file geomOffsets id).map references).getD []

def isGeometry (id : Id) : Bool := (geomOffsets.get id).isSome

/-- The geometry that texts refer to, at any remove. -/
def Needed (texts : List Text) : Id → Prop :=
  Reach (keptNext (isGeometry geomOffsets) (textRefs file geomOffsets))
    ((texts.flatMap references).filter (isGeometry geomOffsets))

variable {file geomOffsets}

theorem waveTexts_perm (wave : List Id) :
    (waveTexts file geomOffsets wave).Perm (wave.filterMap (geomText file geomOffsets)) := by
  have hsort := List.perm_insertionSort (fun a b : ByteRange => a.offset ≤ b.offset) (wave.filterMap geomOffsets.get)
  have hmap := hsort.map (readText file)
  rw [List.map_filterMap] at hmap
  exact hmap

/-- What a wave refers to. -/
theorem mem_waveRefs (wave : List Id) (b : Id) : b ∈ (waveTexts file geomOffsets wave).flatMap references ↔
    ∃ a ∈ wave, b ∈ textRefs file geomOffsets a := by
  simp only [List.mem_flatMap, (waveTexts_perm wave).mem_iff, List.mem_filterMap]
  constructor
  · rintro ⟨text, ⟨a, ha, htext⟩, hb⟩
    refine ⟨a, ha, ?_⟩
    rw [textRefs, htext]
    exact hb
  · rintro ⟨a, ha, hb⟩
    cases htext : geomText file geomOffsets a with
    | none =>
      rw [textRefs, htext] at hb
      exact absurd hb List.not_mem_nil
    | some text =>
      rw [textRefs, htext] at hb
      exact ⟨text, ⟨a, ha, htext⟩, hb⟩

/-- The loop fetches the waves. -/
theorem fetchLoop_eq (rounds : Nat) (s : Frontier Id) (fetched : List Text) :
    fetchLoop file geomOffsets rounds s fetched =
      (waves (isGeometry geomOffsets) (fun wave => (waveTexts file geomOffsets wave).flatMap references) rounds s).map
        fun ws => fetched ++ ws.flatMap (waveTexts file geomOffsets) := by
  induction rounds generalizing s fetched with
  | zero =>
    obtain ⟨seen, wave⟩ := s
    cases wave with
    | nil => simp [fetchLoop, waves]
    | cons id wave => rfl
  | succ rounds ih =>
    obtain ⟨seen, wave⟩ := s
    cases wave with
    | nil => simp [fetchLoop, waves]
    | cons id wave =>
      rw [fetchLoop, waves, ih, Option.map_map]
      refine congrArg (fun f => Option.map f _) (funext fun ws => ?_)
      simp only [Function.comp_apply, List.flatMap_cons, List.append_assoc]

theorem flatMap_waveTexts_perm (ws : List (List Id)) :
    (ws.flatMap (waveTexts file geomOffsets)).Perm (ws.flatten.filterMap (geomText file geomOffsets)) := by
  induction ws with
  | nil => exact List.Perm.nil
  | cons wave ws ih =>
    rw [List.flatMap_cons, List.flatten_cons, List.filterMap_append]
    exact (waveTexts_perm wave).append ih

/-- **Main result.** The loop ends, after at most as many rounds as there is geometry in the file. It has
then read exactly the geometry that the structure refers to, at any remove, and each record of it once. -/
theorem fetchLoop_reads_needed (file : List UInt8) (geomOffsets : JsObject ByteRange) (texts : List Text) :
    ∃ (ids : List Id) (fetched : List Text), ids.Nodup ∧ (∀ id, id ∈ ids ↔ Needed file geomOffsets texts id) ∧
      fetched.Perm (ids.filterMap (geomText file geomOffsets)) ∧
      ∀ rounds, geomOffsets.keys.length ≤ rounds →
        fetchLoop file geomOffsets rounds (collectRefs geomOffsets ⟨[], []⟩ texts) [] = some fetched := by
  have hkeys : ∀ id, isGeometry geomOffsets id = true → id ∈ geomOffsets.keys := fun id hid =>
    JsObject.mem_keys.mpr (Option.isSome_iff_exists.mp hid)
  obtain ⟨ws, hws, hnodup, hmem⟩ := waves_spec (@mem_waveRefs file geomOffsets) hkeys (texts.flatMap references)
    (le_refl geomOffsets.keys.length)
  refine ⟨ws.flatten, ws.flatMap (waveTexts file geomOffsets), hnodup, hmem, flatMap_waveTexts_perm ws, ?_⟩
  intro rounds hrounds
  have hmore := waves_mono hws hrounds
  rw [fetchLoop_eq]
  refine (congrArg (Option.map _) hmore).trans ?_
  rw [Option.map_some, List.nil_append]

end Fetch

/-! ## The merged index -/

section Merge

variable {geomIdx idx : TypeTable} {type type' : String}

theorem byType_mergeType_of_ne (h : type'.toList ≠ type.toList) :
    byType (mergeType geomIdx idx type) type' = byType idx type' := by
  unfold mergeType
  cases geomIdx.get type.toList with
  | none => rfl
  | some entries =>
    rw [Option.elim_some, byType, JsObject.get_put, if_neg h]
    rfl

theorem get_mergeType (id : Id) : (byType (mergeType geomIdx idx type) type).get id =
    (typeArgs geomIdx type.toList id).or ((byType idx type).get id) := by
  unfold mergeType typeArgs
  cases geomIdx.get type.toList with
  | none => rfl
  | some entries =>
    rw [Option.elim_some, byType, JsObject.get_put, if_pos rfl, Option.getD_some, JsObject.get_assign]
    rfl

/-- Types other than those of the geometry stay. -/
theorem byType_mergeGeometry (h : ∀ name ∈ keepGeom, type.toList ≠ name.toList) (texts : List Text) :
    byType (mergeGeometry idx texts) type = byType idx type := by
  unfold mergeGeometry
  simp only [keepGeom, List.foldl_cons, List.foldl_nil, List.forall_mem_cons] at h ⊢
  rw [byType_mergeType_of_ne h.2.2.1, byType_mergeType_of_ne h.2.1, byType_mergeType_of_ne h.1]

/-- **What stands for a type of the geometry**: what was fetched, and else what stood there. -/
theorem get_mergeGeometry (h : type ∈ keepGeom) (texts : List Text) (id : Id) :
    (byType (mergeGeometry idx texts) type).get id =
      (buildTypeIndex (joinLines (texts.map (· ++ [';']))) type.toList id).or ((byType idx type).get id) := by
  rw [← typeArgs_typeTable, mergeGeometry]
  simp only [keepGeom, List.foldl_cons, List.foldl_nil, List.mem_cons, List.not_mem_nil, or_false] at h ⊢
  obtain rfl | rfl | rfl := h
  · rw [byType_mergeType_of_ne (by decide), byType_mergeType_of_ne (by decide), get_mergeType]
  · rw [byType_mergeType_of_ne (by decide), get_mergeType, byType_mergeType_of_ne (by decide)]
  · rw [get_mergeType, byType_mergeType_of_ne (by decide), byType_mergeType_of_ne (by decide)]

end Merge

/-! ## Fetched texts in the index -/

section Fetched

variable {file : List UInt8} {geomOffsets : JsObject ByteRange}

/-- What is read at the place of a record of the geometry is a record with its id. -/
def ReadsOwnRecords (file : List UInt8) (geomOffsets : JsObject ByteRange) : Prop :=
  ∀ id text, geomText file geomOffsets id = some text → ∀ m ∈ recordMatches 0 (text ++ [';']), m.id = id

/-- The records of texts of other ids. -/
theorem foldl_put_of_others (hown : ReadsOwnRecords file geomOffsets) {ids : List Id} {id : Id} (hid : id ∉ ids)
    (texts : List Text) (hsub : ∀ text ∈ texts, text ∈ ids.filterMap (geomText file geomOffsets)) (idx : TypeIndex)
    (type : Text) :
    (texts.flatMap fun text => recordMatches 0 (text ++ [';'])).foldl TypeIndex.put idx type id = idx type id := by
  refine foldl_put_of_ne (fun m hm heq => ?_) idx
  obtain ⟨text, htext, hm⟩ := List.mem_flatMap.mp hm
  obtain ⟨id', hid', hread⟩ := List.mem_filterMap.mp (hsub text htext)
  rw [heq, hown id' text hread m hm] at hid
  exact hid hid'

/-- **The index of fetched texts**, whatever their order: an id that was fetched has the arguments in its own
text, and others have none. -/
theorem buildTypeIndex_fetched (hown : ReadsOwnRecords file geomOffsets) {ids : List Id} (hnodup : ids.Nodup)
    {texts : List Text} (hperm : texts.Perm (ids.filterMap (geomText file geomOffsets))) (type : Text) (id : Id) :
    buildTypeIndex (joinLines (texts.map (· ++ [';']))) type id =
      if id ∈ ids then (geomText file geomOffsets id).bind fun text => buildTypeIndex (text ++ [';']) type id
      else none := by
  rw [buildTypeIndex, joinLines, recordMatches_joined]
  by_cases hid : id ∈ ids
  · rw [if_pos hid]
    obtain ⟨front, back, rfl⟩ := List.append_of_mem hid
    have hothers : id ∉ front ++ back := by
      have hcons := List.perm_middle.nodup_iff.mp hnodup
      exact (List.nodup_cons.mp hcons).1
    rw [List.filterMap_append, List.filterMap_cons] at hperm
    cases hread : geomText file geomOffsets id with
    | none =>
      rw [hread, ← List.filterMap_append] at hperm
      exact foldl_put_of_others hown hothers _ (fun text htext => hperm.mem_iff.mp htext) _ type
    | some text =>
      rw [hread] at hperm
      have hmem : text ∈ texts := hperm.mem_iff.mpr (List.mem_append_right _ List.mem_cons_self)
      obtain ⟨before, after, rfl⟩ := List.append_of_mem hmem
      -- the texts other than that of the id are those of the other ids
      have hrest := ((List.perm_middle.symm.trans hperm).trans List.perm_middle).cons_inv
      rw [← List.filterMap_append] at hrest
      have hbefore := foldl_put_of_others hown hothers before
        fun text htext => hrest.mem_iff.mp (List.mem_append_left _ htext)
      have hafter := foldl_put_of_others hown hothers after
        fun text htext => hrest.mem_iff.mp (List.mem_append_right _ htext)
      rw [List.flatMap_append, List.flatMap_cons, List.foldl_append, List.foldl_append, hafter, Option.bind_some]
      exact foldl_put_congr _ (hbefore _ type)
  · rw [if_neg hid]
    exact foldl_put_of_others hown hid _ (fun text htext => hperm.mem_iff.mp htext) _ type

end Fetched

/-! ## Positions by the geometry that is needed -/

section Positions

variable {F : Type} {fl : Floats F} {S : Id → Prop} {d d' : NauoData F}

/-- The tables of the structure lead to geometry only in `S`. -/
structure LeadsInto (S : Id → Prop) (t : NauoTables) : Prop where
  items : ∀ srId items, t.srItems.get srId = some items → ∀ item ∈ items, S item
  transformations : ∀ idt a2pId, t.idtToA2p3d.get idt = some a2pId → S a2pId
  mappedItems : ∀ srId mis, t.srToMappedItems.get srId = some mis → ∀ mi ∈ mis, S mi.targetId

/-- The tables of the geometry agree on `S`, and placements in `S` lead to geometry in `S`. -/
structure AgreeOn (S : Id → Prop) (d d' : NauoData F) : Prop where
  tables : d.toNauoTables = d'.toNauoTables
  points : ∀ id, S id → d.cartPoints.get id = d'.cartPoints.get id
  directions : ∀ id, S id → d.directions.get id = d'.directions.get id
  placements : ∀ id, S id → d.axis2p3d.get id = d'.axis2p3d.get id
  closed : ∀ id a2p, S id → d.axis2p3d.get id = some a2p →
    (∀ r ∈ a2p.originId, S r) ∧ (∀ r ∈ a2p.dirZId, S r) ∧ ∀ r ∈ a2p.dirXId, S r

theorem bind_get_congr {V : Type} {o o' : JsObject V} (h : ∀ id, S id → o.get id = o'.get id) {r : Option Id}
    (hr : ∀ id ∈ r, S id) : r.bind o.get = r.bind o'.get := by
  cases r with
  | none => rfl
  | some id => exact h id (hr id rfl)

/-- A placement in `S` has one matrix by both tables, in both orders of the axes. -/
theorem AgreeOn.matrix (h : AgreeOn S d d') {id : Id} {a2p : Axis2Placement} (hid : S id)
    (ha2p : d.axis2p3d.get id = some a2p) : swappedMatrix fl d a2p = swappedMatrix fl d' a2p ∧
      buildMatrix4x4 fl (origin fl d a2p) (dirX d a2p) (dirZ d a2p) =
        buildMatrix4x4 fl (origin fl d' a2p) (dirX d' a2p) (dirZ d' a2p) := by
  obtain ⟨horigin, hdirZ, hdirX⟩ := h.closed id a2p hid ha2p
  have heqOrigin : origin fl d a2p = origin fl d' a2p := by
    rw [origin, origin, bind_get_congr h.points horigin]
  have heqZ : dirZ d a2p = dirZ d' a2p := bind_get_congr h.directions hdirZ
  have heqX : dirX d a2p = dirX d' a2p := bind_get_congr h.directions hdirX
  rw [swappedMatrix, swappedMatrix, heqOrigin, heqZ, heqX]
  exact ⟨rfl, rfl⟩

theorem AgreeOn.firstPlacement (h : AgreeOn S d d') {items : List Id} (hitems : ∀ item ∈ items, S item) :
    firstPlacement fl d items = firstPlacement fl d' items := by
  unfold CadParser.firstPlacement
  induction items with
  | nil => rfl
  | cons item items ih =>
    have hitem := hitems item List.mem_cons_self
    rw [List.findSome?_cons, List.findSome?_cons, ← h.placements item hitem]
    cases ha2p : d.axis2p3d.get item with
    | none => exact ih fun i hi => hitems i (List.mem_cons_of_mem _ hi)
    | some a2p => exact congrArg some (h.matrix hitem ha2p).1

theorem AgreeOn.itemsPlacement (h : AgreeOn S d d') (hin : LeadsInto S d.toNauoTables) (srId : Id) :
    CadParser.firstPlacement fl d ((d.srItems.get srId).getD []) =
      CadParser.firstPlacement fl d' ((d'.srItems.get srId).getD []) := by
  rw [← h.tables]
  refine h.firstPlacement ?_
  cases hitems : d.srItems.get srId with
  | none => exact fun _ h => absurd h List.not_mem_nil
  | some items => exact hin.items srId items hitems

theorem AgreeOn.viaRelationship (h : AgreeOn S d d') (hin : LeadsInto S d.toNauoTables) (srrId : Id) :
    viaRelationship fl d srrId = viaRelationship fl d' srrId := by
  unfold CadParser.viaRelationship
  simp only [h.itemsPlacement hin]
  rw [h.tables]

theorem AgreeOn.viaTransformation (h : AgreeOn S d d') (hin : LeadsInto S d.toNauoTables) (srrId : Id) :
    viaTransformation fl d srrId = viaTransformation fl d' srrId := by
  unfold CadParser.viaTransformation
  rw [← h.tables]
  refine Option.bind_congr fun idt _ => Option.bind_congr fun a2pId ha2pId => ?_
  have hid := hin.transformations idt a2pId ha2pId
  rw [← h.placements a2pId hid]
  exact Option.bind_congr fun a2p ha2p => congrArg some (h.matrix hid ha2p).2

theorem AgreeOn.viaMappedItem (h : AgreeOn S d d') (hin : LeadsInto S d.toNauoTables) (nauoId : Id) :
    viaMappedItem fl d nauoId = viaMappedItem fl d' nauoId := by
  unfold CadParser.viaMappedItem
  rw [← h.tables]
  refine Option.bind_congr fun info _ => Option.bind_congr fun parentSrId _ => Option.bind_congr fun childSrId _ =>
    Option.bind_congr fun mi hmi => ?_
  have hmem := (List.mem_filter.mp (List.mem_of_getElem? hmi)).1
  have hid : S mi.targetId := by
    cases hmis : d.srToMappedItems.get parentSrId with
    | none =>
      rw [hmis] at hmem
      exact absurd hmem List.not_mem_nil
    | some mis =>
      rw [hmis] at hmem
      exact hin.mappedItems parentSrId mis hmis mi hmem
  rw [← h.placements mi.targetId hid]
  exact Option.bind_congr fun a2p ha2p => congrArg some (h.matrix hid ha2p).1

/-- **Positions depend only on the geometry the tables lead to.** -/
theorem AgreeOn.getMatrixForNauo (h : AgreeOn S d d') (hin : LeadsInto S d.toNauoTables) (nauoId : Id) :
    getMatrixForNauo fl d nauoId = getMatrixForNauo fl d' nauoId := by
  unfold CadParser.getMatrixForNauo
  simp only [h.viaRelationship hin, h.viaTransformation hin, h.viaMappedItem hin, h.itemsPlacement hin]
  rw [h.tables]

end Positions

/-! ## The structure does not depend on the geometry -/

section Structure

variable {types types' : String → JsObject Text} (h : ∀ type ∈ keepStruct, types type = types' type)

include h

theorem prodDefs_congr : prodDefs types = prodDefs types' := by
  unfold prodDefs formationProducts
  rw [h "PRODUCT_DEFINITION" (by decide), h "PRODUCT_DEFINITION_FORMATION" (by decide),
    h "PRODUCT_DEFINITION_FORMATION_WITH_SPECIFIED_SOURCE" (by decide)]

theorem nauoEntities_congr : nauoEntities types = nauoEntities types' := by
  unfold nauoEntities
  rw [h "NEXT_ASSEMBLY_USAGE_OCCURRENCE" (by decide), h "ASSEMBLY_COMPONENT_USAGE" (by decide)]

theorem nauoProducts_congr : nauoProducts types = nauoProducts types' := by
  unfold nauoProducts
  rw [prodDefs_congr h]

theorem shapeRepresentations_congr : shapeRepresentations types = shapeRepresentations types' := by
  unfold shapeRepresentations
  rw [h "SHAPE_REPRESENTATION" (by decide), h "ADVANCED_BREP_SHAPE_REPRESENTATION" (by decide),
    h "GEOMETRICALLY_BOUNDED_WIREFRAME_SHAPE_REPRESENTATION" (by decide)]

theorem itemToSr_congr : itemToSr types = itemToSr types' := by
  unfold itemToSr
  rw [shapeRepresentations_congr h]

theorem nauoTables_congr (nauoIdSet : List Id) (data : Text) :
    nauoTables types nauoIdSet data = nauoTables types' nauoIdSet data := by
  unfold nauoTables shapeDefinitions srToMappedItems srItems
  rw [h "PRODUCT_DEFINITION_SHAPE" (by decide), h "CONTEXT_DEPENDENT_SHAPE_REPRESENTATION" (by decide),
    h "SHAPE_REPRESENTATION_RELATIONSHIP" (by decide), h "ITEM_DEFINED_TRANSFORMATION" (by decide),
    h "SHAPE_DEFINITION_REPRESENTATION" (by decide), h "REPRESENTATION_MAP" (by decide),
    h "MAPPED_ITEM" (by decide), prodDefs_congr h, nauoEntities_congr h, nauoProducts_congr h,
    shapeRepresentations_congr h, itemToSr_congr h]

theorem parseBOM_congr {F U : Type} [DecidableEq U] {getMatrix getMatrix' : Id → Option (List F)}
    (hmatrix : ∀ nauoId, getMatrix nauoId = getMatrix' nauoId) (uuid : Nat → U) :
    parseBOM types getMatrix uuid = parseBOM types' getMatrix' uuid := by
  have hproducts : products types = products types' := by
    unfold products
    rw [h "PRODUCT" (by decide)]
  have hoccurrences : occurrencesOf types = occurrencesOf types' := by
    unfold occurrencesOf addOccurrence
    rw [nauoEntities_congr h, nauoProducts_congr h]
  unfold parseBOM productNodes parentIds nodeOccurrences idMap
  rw [hproducts, hoccurrences, funext hmatrix]

end Structure

/-! ## What the tables lead to -/

section LeadsInto

variable {types : String → JsObject Text} {S : Id → Prop}

/-- The records of the structure refer to geometry in `S` only. -/
def RefersInto (S : Id → Prop) (types : String → JsObject Text) : Prop :=
  ∀ type ∈ keepStruct, ∀ id args, (types type).get id = some args → ∀ r ∈ references args, S r

theorem RefersInto.shapeRepresentations (h : RefersInto S types) {id : Id} {args : Text}
    (hget : (shapeRepresentations types).get id = some args) : ∀ r ∈ references args, S r := by
  unfold CadParser.shapeRepresentations at hget
  rw [JsObject.get_assign, JsObject.get_assign, Option.or_eq_some_iff, Option.or_eq_some_iff] at hget
  obtain hget | ⟨-, hget | ⟨-, hget⟩⟩ := hget
  · exact h _ (by decide) id args hget
  · exact h _ (by decide) id args hget
  · exact h _ (by decide) id args hget

/-- The mapped items that were pushed lead into `S`. -/
theorem RefersInto.mappedItems (h : RefersInto S types) {srId : Id} {mis : List MappedItem}
    (hget : (srToMappedItems types).get srId = some mis) : ∀ mi ∈ mis, S mi.targetId := by
  have hentries : ∀ e ∈ (types "MAPPED_ITEM").entries, ∀ r ∈ references e.2, S r := fun e he =>
    h _ (by decide) e.1 e.2 (JsObject.mem_entries.mp he)
  have hall : ∀ mi ∈ ((srToMappedItems types).get srId).getD [], S mi.targetId := by
    unfold srToMappedItems
    refine List.foldlRecOn (motive := fun t : JsObject (List MappedItem) =>
      ∀ mi ∈ (t.get srId).getD [], S mi.targetId) _ _ ?_ ?_
    · exact fun mi hmi => absurd hmi List.not_mem_nil
    · intro t ht e he
      dsimp only
      split
      case h_1 reprMapId targetId parentSrId _ htarget _ =>
        intro mi hmi
        rw [get_pushTo, List.mem_append] at hmi
        obtain hmi | hmi := hmi
        · exact ht mi hmi
        · split at hmi
          case isTrue =>
            obtain rfl := List.mem_singleton.mp hmi
            exact hentries e he targetId (mem_references_of_ref htarget)
          case isFalse => exact absurd hmi List.not_mem_nil
      case h_2 => exact ht
  rw [hget] at hall
  exact hall

theorem RefersInto.leadsInto (h : RefersInto S types) (nauoIdSet : List Id) (data : Text) :
    LeadsInto S (nauoTables types nauoIdSet data) where
  items srId items hget item hitem := by
    have hitems : ((CadParser.shapeRepresentations types).get srId).bind (fun args => some (itemRefs args)) =
        some items := (JsObject.get_mapEntries _ _ _).symm.trans hget
    obtain ⟨args, hargs, heq⟩ := Option.bind_eq_some_iff.mp hitems
    obtain rfl := Option.some.inj heq
    exact h.shapeRepresentations hargs item (itemRefs_subset args hitem)
  transformations idt a2pId hget := by
    have hid : ((types "ITEM_DEFINED_TRANSFORMATION").get idt).bind (fun args => ref (splitArgs args)[2]?) =
        some a2pId := (JsObject.get_mapEntries _ _ _).symm.trans hget
    obtain ⟨args, hargs, href⟩ := Option.bind_eq_some_iff.mp hid
    exact h _ (by decide) idt args hargs a2pId (mem_references_of_ref href)
  mappedItems srId mis hget := h.mappedItems hget

end LeadsInto

/-! ## The two indices agree where they are read -/

section Agreement

variable {file : List UInt8} {geomOffsets : JsObject ByteRange} {texts fetched : List Text} {ids : List Id}

/-- What is referred to by the structure, or by geometry that is needed. -/
def Referred (file : List UInt8) (geomOffsets : JsObject ByteRange) (texts : List Text) (id : Id) : Prop :=
  id ∈ texts.flatMap references ∨ ∃ a, Needed file geomOffsets texts a ∧ id ∈ textRefs file geomOffsets a

/-- Geometry that is referred to is needed, and nothing else. -/
theorem needed_iff (id : Id) (h : Referred file geomOffsets texts id) :
    Needed file geomOffsets texts id ↔ isGeometry geomOffsets id = true := by
  constructor
  · intro hneeded
    refine hneeded.mem_of_closed (S := fun a => isGeometry geomOffsets a = true) ?_ ?_
    · exact fun a ha => (List.mem_filter.mp ha).2
    · exact fun a _ b hb => (mem_keptNext.mp hb).2
  · intro hgeometry
    obtain hstart | ⟨a, ha, hmem⟩ := h
    · exact .start (List.mem_filter.mpr ⟨hstart, hgeometry⟩)
    · exact ha.tail (mem_keptNext.mpr ⟨hmem, hgeometry⟩)

theorem references_append_semicolon (s : Text) : references (s ++ [';']) ⊆ references s := by
  intro r hr
  obtain ⟨before, rest, heq, rfl, hne⟩ := mem_references.mp hr
  cases rest using List.reverseRecOn with
  | nil => exact absurd rfl hne
  | append_singleton rest c =>
    rw [← List.cons_append, ← List.append_assoc] at heq
    obtain ⟨hs, hc⟩ := List.append_inj' heq rfl
    have hdigit : ∀ d ∈ [c].head?, d.isDigit = false := by
      rintro d ⟨⟩
      rw [← (List.cons.inj hc).1]
      decide
    have hstop := takeWhile_append_stop rest hdigit
    rw [hstop] at hne ⊢
    exact mem_references.mpr ⟨before, rest, hs, rfl, hne⟩

/-- The arguments of a fetched record refer to what is referred to. -/
theorem referred_of_fetched {id type args : Text} (hid : Needed file geomOffsets texts id)
    (h : ((geomText file geomOffsets id).bind fun text => buildTypeIndex (text ++ [';']) type id) = some args) :
    ∀ r ∈ references args, Referred file geomOffsets texts r := by
  intro r hr
  obtain ⟨text, htext, hargs⟩ := Option.bind_eq_some_iff.mp h
  refine .inr ⟨id, hid, ?_⟩
  rw [textRefs, htext]
  exact references_append_semicolon text (references_of_buildTypeIndex hargs hr)

/-- The arguments of a record of the structure refer to what is referred to. -/
theorem referred_of_structure {type : String} {id args : Text}
    (h : (byType (typeTable (joinLines texts)) type).get id = some args) :
    ∀ r ∈ references args, Referred file geomOffsets texts r := by
  intro r hr
  have hindex : buildTypeIndex (joinLines texts) type.toList id = some args := by
    rw [← typeArgs_typeTable]
    exact h
  obtain ⟨text, htext, hmem⟩ := mem_references_joined (references_of_buildTypeIndex hindex hr)
  exact .inl (List.mem_flatMap.mpr ⟨text, htext, hmem⟩)

/-- What is fetched on demand, and what is fetched of the whole file. -/
structure BothFetched (file : List UInt8) (geomOffsets : JsObject ByteRange)
    (texts fetched all : List Text) : Prop where
  own : ReadsOwnRecords file geomOffsets
  needed : ∃ ids : List Id, ids.Nodup ∧ (∀ id, id ∈ ids ↔ Needed file geomOffsets texts id) ∧
    fetched.Perm (ids.filterMap (geomText file geomOffsets))
  all : all.Perm (geomOffsets.keys.filterMap (geomText file geomOffsets))

variable {all : List Text}

/-- **The indices agree** on what is referred to, and what they have there refers to nothing else. -/
theorem BothFetched.get (h : BothFetched file geomOffsets texts fetched all) {type : String} (htype : type ∈ keepGeom)
    {id : Id} (hid : Referred file geomOffsets texts id) :
    (byType (mergeGeometry (typeTable (joinLines texts)) fetched) type).get id =
        (byType (mergeGeometry (typeTable (joinLines texts)) all) type).get id ∧
      ∀ args, (byType (mergeGeometry (typeTable (joinLines texts)) fetched) type).get id = some args →
        ∀ r ∈ references args, Referred file geomOffsets texts r := by
  obtain ⟨ids, hnodup, hmem, hfetched⟩ := h.needed
  rw [get_mergeGeometry htype, get_mergeGeometry htype, buildTypeIndex_fetched h.own hnodup hfetched,
    buildTypeIndex_fetched h.own (JsObject.nodup_keys geomOffsets) h.all]
  have hkeys : id ∈ geomOffsets.keys ↔ isGeometry geomOffsets id = true :=
    JsObject.mem_keys.trans Option.isSome_iff_exists.symm
  have hiff : id ∈ ids ↔ id ∈ geomOffsets.keys := by
    rw [hmem, hkeys]
    exact needed_iff id hid
  refine ⟨by simp only [hiff], fun args hargs => ?_⟩
  rw [Option.or_eq_some_iff] at hargs
  obtain hargs | ⟨-, hargs⟩ := hargs
  · split at hargs
    case isTrue hin => exact referred_of_fetched ((hmem id).mp hin) hargs
    case isFalse => cases hargs
  · exact referred_of_structure hargs

variable {F : Type} (fl : Floats F)

theorem keepStruct_ne_keepGeom : ∀ type ∈ keepStruct, ∀ name ∈ keepGeom, type.toList ≠ name.toList := by decide

theorem BothFetched.agreeOn (h : BothFetched file geomOffsets texts fetched all) (nauoIdSet : List Id) (data : Text) :
    AgreeOn (Referred file geomOffsets texts)
      (precomputeNauoData fl nauoIdSet (mergeGeometry (typeTable (joinLines texts)) fetched) data)
      (precomputeNauoData fl nauoIdSet (mergeGeometry (typeTable (joinLines texts)) all) data) where
  tables := nauoTables_congr (fun type htype => by
    rw [byType_mergeGeometry (keepStruct_ne_keepGeom type htype),
      byType_mergeGeometry (keepStruct_ne_keepGeom type htype)]) nauoIdSet data
  points id hid := by
    simp only [precomputeNauoData, JsObject.get_mapEntries]
    rw [(h.get (by decide) hid).1]
  directions id hid := by
    simp only [precomputeNauoData, JsObject.get_mapEntries]
    rw [(h.get (by decide) hid).1]
  placements id hid := by
    simp only [precomputeNauoData, JsObject.get_mapEntries]
    rw [(h.get (by decide) hid).1]
  closed id a2p hid ha2p := by
    simp only [precomputeNauoData, JsObject.get_mapEntries] at ha2p
    obtain ⟨args, hargs, heq⟩ := Option.bind_eq_some_iff.mp ha2p
    obtain rfl := Option.some.inj heq
    have hrefs := (h.get (by decide) hid).2 args hargs
    exact ⟨fun r hr => hrefs r (mem_references_of_ref hr), fun r hr => hrefs r (mem_references_of_ref hr),
      fun r hr => hrefs r (mem_references_of_ref hr)⟩

theorem BothFetched.parseIndexed (h : BothFetched file geomOffsets texts fetched all) {U : Type} [DecidableEq U]
    (uuid : Nat → U) (data : Text) :
    parseIndexed fl uuid (mergeGeometry (typeTable (joinLines texts)) fetched) data =
      parseIndexed fl uuid (mergeGeometry (typeTable (joinLines texts)) all) data := by
  have hstructure : ∀ type ∈ keepStruct, byType (mergeGeometry (typeTable (joinLines texts)) fetched) type =
      byType (mergeGeometry (typeTable (joinLines texts)) all) type := by
    intro type htype
    rw [byType_mergeGeometry (keepStruct_ne_keepGeom type htype),
      byType_mergeGeometry (keepStruct_ne_keepGeom type htype)]
  have hrefers : RefersInto (Referred file geomOffsets texts)
      (byType (mergeGeometry (typeTable (joinLines texts)) fetched)) := by
    intro type htype id args hget
    rw [byType_mergeGeometry (keepStruct_ne_keepGeom type htype)] at hget
    exact referred_of_structure hget
  unfold CadParser.parseIndexed
  dsimp only
  refine parseBOM_congr hstructure (fun nauoId => ?_) uuid
  rw [← nauoEntities_congr hstructure]
  exact (h.agreeOn fl _ data).getMatrixForNauo (hrefers.leadsInto _ data) nauoId

end Agreement

/-! ## A bolt with a place in its frame -/

/-- Integers, right for axes along the coordinates. -/
def integers : Floats Int where
  number text :=
    if text = "0.".toList then some 0 else if text = "1.".toList then some 1 else if text = "5.".toList then some 5
    else none
  zero := 0
  one := 1
  add a b := a + b
  sub a b := a - b
  mul a b := a * b
  div a b := a / b
  square a := a * a
  sqrt a := a
  positive a := 0 < a

/-- Records with their ids, types and bodies. Of the geometry the last point is needed for nothing. -/
def placedRecords : List (String × String × String) :=
  [("1", "PRODUCT", "('F1','Frame','',(#9))"), ("2", "PRODUCT", "('B1','Bolt','',(#9))"),
    ("3", "PRODUCT_DEFINITION_FORMATION", "('','',#1)"), ("4", "PRODUCT_DEFINITION_FORMATION", "('','',#2)"),
    ("5", "PRODUCT_DEFINITION", "('design','',#3,#9)"), ("6", "PRODUCT_DEFINITION", "('design','',#4,#9)"),
    ("7", "NEXT_ASSEMBLY_USAGE_OCCURRENCE", "('1','','',#5,#6,$)"), ("8", "PRODUCT_DEFINITION_SHAPE", "('','',#7)"),
    ("10", "CONTEXT_DEPENDENT_SHAPE_REPRESENTATION", "(#11,#8)"),
    ("11", "SHAPE_REPRESENTATION_RELATIONSHIP", "('','',#12,#13)"), ("12", "SHAPE_REPRESENTATION", "('',(#14),#9)"),
    ("14", "AXIS2_PLACEMENT_3D", "('',#15,#16,#17)"), ("15", "CARTESIAN_POINT", "('',(5.,0.,0.))"),
    ("16", "DIRECTION", "('',(0.,0.,1.))"), ("17", "DIRECTION", "('',(1.,0.,0.))"),
    ("18", "CARTESIAN_POINT", "('',(1.,1.,1.))")]

/-- The records one behind the other, from a place on: what the scanner delivers, and the bytes. -/
def laidOut : Nat → List (String × String × String) → List ScannedEntity × List UInt8
  | _, [] => ([], [])
  | place, (id, type, body) :: records =>
    let text := '#' :: id.toList ++ '=' :: type.toList ++ body.toList
    let bytes := (text ++ [';']).map fun c => UInt8.ofNat c.toNat
    let rest := laidOut (place + bytes.length) records
    (⟨some id.toList, some type.toList, text, place, bytes.length⟩ :: rest.1, bytes ++ rest.2)

def placedEntities : List ScannedEntity := (laidOut 0 placedRecords).1

def placedFile : List UInt8 := (laidOut 0 placedRecords).2

theorem readsOwnRecords_of_all {file : List UInt8} {geomOffsets : JsObject ByteRange}
    (h : geomOffsets.keys.all (fun id => (geomText file geomOffsets id).all fun text =>
      (recordMatches 0 (text ++ [';'])).all fun m => m.id = id) = true) : ReadsOwnRecords file geomOffsets := by
  intro id text htext m hm
  obtain ⟨r, hr, -⟩ := Option.map_eq_some_iff.mp htext
  have hid := List.all_eq_true.mp h id (JsObject.mem_keys.mpr ⟨r, hr⟩)
  rw [htext, Option.all_some] at hid
  exact of_decide_eq_true (List.all_eq_true.mp hid m hm)

end PlmCore.CadParser
