/-
The node index of search-api, `LuceneNodeStore.java`: the document an upsert writes, the query that
a request stands for, the hits, and the facets of a set of ids.

Lucene itself is asked through `Lucene`, arbitrary functions here. A filter clause is on the terms of
a document, and these are modelled: every clause of a query has to be met, and the scope of a facet
count is a clause on the field `_id`.
-/
import Mathlib.Data.Finset.Card
import Mathlib.Data.Finset.Dedup
import PlmCore.Lib.JavaText

set_option autoImplicit false

namespace PlmCore.Search

open PlmCore.Lib

/-! ## Documents -/

/-- The values of a `DynamicField`, by its `valueType`. -/
inductive FieldValues
  | string (values : List String)
  | enum (values : List String)
  | number (values : List Float)
  | date (values : List Int)
  | boolean (values : List String)
  | other

/-- `DynamicField`. -/
structure DynamicField where
  name : String
  values : FieldValues

/-- What `upsert` is called with. -/
structure Node where
  id : String
  serviceCode : Option String
  itemCode : Option String
  type : Option String
  projectSpaceId : Option String
  sourceJson : Option String
  fields : List DynamicField

/-- The fields of a Lucene document that are searched or read back. A point is kept as the number
its bytes are sorted by. -/
inductive IndexableField
  | stringField (name value : String)
  | textField (name value : String)
  | point (name : String) (value : Int)
  | storedString (name value : String)
  | storedDouble (name : String) (value : Float)

abbrev Document := List IndexableField

/-- A clause of a query. -/
inductive Clause (Text : Type)
  | text (t : Text)
  | term (field value : String)
  | termInSet (field : String) (values : Finset String)
  | pointRange (field : String) (lo hi : Float)

/-- What is asked of Lucene. -/
structure Lucene (Text : Type) where
  /-- The query parser, over the field `_all` and with AND as default. -/
  parse : String → Option Text
  escape : String → String
  matchesText : Text → Document → Bool
  /-- The terms of a text, by the standard analyzer. -/
  tokens : String → List String
  /-- `NumericUtils.doubleToSortableLong`. -/
  sortable : Float → Int
  score : List (Clause Text) → List Document → Document → Float
  totalHits : List (Clause Text) → List Document → Nat
  /-- Queries of too many clauses are refused. -/
  accepts : List (Clause Text) → Bool
  accepts_nil : accepts [] = true

variable {Text : Type} (lucene : Lucene Text)

/-- The fields of a dynamic field. -/
def DynamicField.indexed (field : DynamicField) : Document :=
  let luceneName := "dyn." ++ field.name
  match field.values with
  | .string values => values.flatMap fun s =>
      [.textField luceneName s, .stringField (luceneName ++ ".kw") s, .textField "_all" s]
  | .enum values => values.flatMap fun s =>
      [.textField luceneName s, .stringField (luceneName ++ ".kw") s, .textField "_all" s,
        .stringField "_enum_fields" field.name]
  | .number values => values.flatMap fun d =>
      [.point luceneName (lucene.sortable d), .storedDouble (luceneName ++ ".stored") d,
        .stringField "_range_fields" field.name]
  | .date values => values.map fun epoch => .point luceneName epoch
  | .boolean values => values.map fun bv => .stringField (luceneName ++ ".kw") bv
  | .other => []

/-- The document of `upsert`. -/
def Node.document (node : Node) : Document :=
  [.stringField "_id" node.id, .stringField "_serviceCode" (nvl node.serviceCode),
    .stringField "_itemCode" (nvl node.itemCode), .stringField "_type" (nvl node.type),
    .stringField "_projectSpaceId" (nvl node.projectSpaceId),
    .storedString "_source" (node.sourceJson.getD "{}")]
    ++ node.fields.flatMap (DynamicField.indexed lucene)

namespace Document

variable (d : Document)

/-- `Document.getValues`. -/
def getValues (name : String) : List String :=
  d.filterMap fun
    | .stringField n v | .storedString n v => if n = name then some v else none
    | _ => none

/-- `Document.get`. -/
def get (name : String) : Option String := (d.getValues name).head?

/-- `Document.getField`, for the numbers. -/
def getDouble (name : String) : Option Float :=
  d.findSome? fun
    | .storedDouble n v => if n = name then some v else none
    | _ => none

/-- The terms of a field. -/
def terms (field : String) : List String :=
  d.flatMap fun
    | .stringField n v => if n = field then [v] else []
    | .textField n v => if n = field then lucene.tokens v else []
    | _ => []

/-- The points of a field. -/
def points (field : String) : List Int :=
  d.filterMap fun
    | .point n v => if n = field then some v else none
    | _ => none

end Document

/-! ## Requests -/

/-- `ConfigContext`. -/
structure ConfigContext where
  country : Option String
  profile : Option String
  asOfEpochMs : Option Int

def ConfigContext.empty : ConfigContext := ⟨none, none, none⟩

/-- `SearchRequest`, once its constructor has put the defaults in. -/
structure SearchRequest where
  query : Option String
  type : Option String
  projectSpaceId : Option String
  scopeRootId : Option String
  maxHops : Option Int
  structuralOnly : Bool
  context : ConfigContext
  filters : List (String × Option String)
  filterTerms : List (String × Option (List (Option String)))
  rangeFilters : List (String × Option (List Float))
  facetOn : List String
  size : Nat
  size_pos : 0 < size

/-- `if (size <= 0) size = 50`. -/
def defaultSize (size : Int) : Nat := if size ≤ 0 then 50 else size.toNat

theorem defaultSize_pos (size : Int) : 0 < defaultSize size := by
  unfold defaultSize
  split <;> omega

/-- The constructor of `SearchRequest`, from the fields of a body. -/
def SearchRequest.new (query type projectSpaceId scopeRootId : Option String)
    (maxHops : Option Int) (structuralOnly : Bool) (context : Option ConfigContext)
    (filters : Option (List (String × Option String)))
    (filterTerms : Option (List (String × Option (List (Option String)))))
    (rangeFilters : Option (List (String × Option (List Float))))
    (facetOn : Option (List String)) (size : Int) : SearchRequest where
  query := query
  type := type
  projectSpaceId := projectSpaceId
  scopeRootId := scopeRootId
  maxHops := maxHops
  structuralOnly := structuralOnly
  context := context.getD .empty
  filters := filters.getD []
  filterTerms := filterTerms.getD []
  rangeFilters := rangeFilters.getD []
  facetOn := facetOn.getD []
  size := defaultSize size
  size_pos := defaultSize_pos size

/-! ## Queries -/

/-- `toFilterField`. -/
def toFilterField (dim : String) : String :=
  if dim = "_type" then "_type"
  else if dim = "_projectSpaceId" then "_projectSpaceId"
  else if dim = "_serviceCode" then "_serviceCode"
  else "dyn." ++ dim ++ ".kw"

/-- `new TermQuery(new Term(field, value))`, if the value is not blank. -/
def valueClause (field : String) (value : Option String) : List (Clause Text) :=
  match value with
  | some v => if isBlank v then [] else [.term field v]
  | none => []

/-- The clause of the text of a request. -/
def textClause (query : Option String) : Option (List (Clause Text)) :=
  match query with
  | none => some []
  | some query =>
    if isBlank query then some []
    else
      let raw := trim query
      if raw = "*" ∨ raw = "*:*" then some []
      else ((lucene.parse raw).or (lucene.parse (lucene.escape raw))).map fun t => [.text t]

/-- The clause of an entry of `filters`; a null value is an exception. -/
def filterClause (e : String × Option String) : Option (Clause Text) :=
  e.2.map fun v => .term (toFilterField e.1) v

/-- The clauses of an entry of `filterTerms`. -/
def filterTermClause (e : String × Option (List (Option String))) : Option (List (Clause Text)) :=
  match e.2 with
  | none => none
  | some vals => (vals.mapM id).map fun
    | [] => []
    | [v] => [.term (toFilterField e.1) v]
    | vs => [.termInSet (toFilterField e.1) vs.toFinset]

/-- The clauses of an entry of `rangeFilters`. -/
def rangeClause (e : String × Option (List Float)) : List (Clause Text) :=
  match e.2 with
  | some (lo :: hi :: _) =>
    if lo.isNaN || hi.isNaN then []
    else if hi < lo then [.pointRange ("dyn." ++ e.1) hi lo]
    else [.pointRange ("dyn." ++ e.1) lo hi]
  | _ => []

/-- `buildMainQuery`; a request without clauses matches every document. -/
def buildMainQuery (req : SearchRequest) : Option (List (Clause Text)) := do
  let text ← textClause lucene req.query
  let filters ← req.filters.mapM filterClause
  let filterTerms ← req.filterTerms.mapM filterTermClause
  let clauses := text ++ valueClause "_type" req.type ++ valueClause "_projectSpaceId" req.projectSpaceId
    ++ filters ++ filterTerms.flatten ++ req.rangeFilters.flatMap rangeClause
  if lucene.accepts clauses then some clauses else none

/-- `buildScopeQuery`. -/
def buildScopeQuery (ids : Finset String) : Clause Text := .termInSet "_id" ids

/-- The document meets the clause. -/
def Clause.meets (c : Clause Text) (d : Document) : Bool :=
  match c with
  | .text t => lucene.matchesText t d
  | .term field value => (d.terms lucene field).contains value
  | .termInSet field values => (d.terms lucene field).any (· ∈ values)
  | .pointRange field lo hi =>
    (d.points field).any fun v => lucene.sortable lo ≤ v ∧ v ≤ lucene.sortable hi

/-- The document meets every clause. -/
def matchesAll (clauses : List (Clause Text)) (d : Document) : Bool :=
  clauses.all (·.meets lucene d)

/-! ## The index -/

/-- The index: its documents in the order of their numbers, one for an id. -/
structure NodeIndex where
  nodes : List Node
  ids_nodup : (nodes.map (·.id)).Nodup

def NodeIndex.documents (index : NodeIndex) : List Document :=
  index.nodes.map (·.document lucene)

/-- `delete`. -/
def NodeIndex.delete (index : NodeIndex) (id : String) : NodeIndex where
  nodes := index.nodes.filter (·.id ≠ id)
  ids_nodup := index.ids_nodup.sublist (List.filter_sublist.map _)

/-- `upsert`: `updateDocument` deletes the document of the id and adds the new one. -/
def NodeIndex.upsert (index : NodeIndex) (node : Node) : NodeIndex where
  nodes := index.nodes.filter (·.id ≠ node.id) ++ [node]
  ids_nodup := by
    rw [List.map_append]
    refine (index.ids_nodup.sublist (List.filter_sublist.map _)).append (by simp) ?_
    intro id hold hnew
    obtain ⟨node', hnode', rfl⟩ := List.mem_map.mp hold
    have hne := (List.mem_filter.mp hnode').2
    simp only [List.map_cons, List.map_nil, List.mem_singleton] at hnew
    simp [hnew] at hne

/-! ## Searching -/

/-- `SearchResult.Hit`. -/
structure Hit where
  id : Option String
  serviceCode : Option String
  itemCode : Option String
  type : Option String
  projectSpaceId : Option String
  sourceJson : Option String
  score : Float
  hopLevel : Nat

abbrev Facets := List (String × List (String × Nat))

abbrev RangeFacets := List (String × Float × Float)

/-- `SearchResult`. -/
structure SearchResult where
  hits : List Hit
  facets : Facets
  rangeFacets : RangeFacets
  totalHits : Nat
  hopLevel : Nat

def SearchResult.empty : SearchResult := ⟨[], [], [], 0, 0⟩

/-- The documents of `IndexSearcher.search`: the best `n` that match. -/
def topDocs (index : NodeIndex) (clauses : List (Clause Text)) (n : Nat) : List Document :=
  let score := lucene.score clauses (index.documents lucene)
  (((index.documents lucene).filter (matchesAll lucene clauses)).mergeSort fun a b =>
    score b ≤ score a).take n

/-- `executeSearch`. -/
def executeSearch (index : NodeIndex) (clauses : List (Clause Text)) (req : SearchRequest)
    (hop : Nat) : SearchResult :=
  let hits := (topDocs lucene index clauses req.size).map fun d =>
    Hit.mk (d.get "_id") (d.get "_serviceCode") (d.get "_itemCode") (d.get "_type")
      (d.get "_projectSpaceId") (d.get "_source")
      (lucene.score clauses (index.documents lucene) d) hop
  ⟨hits, [], [], min (lucene.totalHits clauses (index.documents lucene)) 2147483647, hop⟩

/-- `searchGlobal`. -/
def searchGlobal (index : NodeIndex) (req : SearchRequest) : Option SearchResult :=
  (buildMainQuery lucene req).map fun clauses => executeSearch lucene index clauses req 0

/-- `searchInScope`. -/
def searchInScope (index : NodeIndex) (scopeIds : Finset String) (req : SearchRequest) (hop : Nat) :
    Option SearchResult :=
  if scopeIds = ∅ then some .empty
  else (buildMainQuery lucene req).map fun clauses =>
    executeSearch lucene index (clauses ++ [buildScopeQuery scopeIds]) req hop

/-! ## Facets -/

/-- The documents a facet is computed from. The scope has one score, so that they come in their
order. -/
def scopeDocs (index : NodeIndex) (ids : Finset String) : List Document :=
  ((index.documents lucene).filter ((buildScopeQuery ids).meets lucene)).take (ids.card + 1)

/-- `counts.merge(v, 1, Integer::sum)`. -/
def countOne (counts : List (String × Nat)) (v : String) : List (String × Nat) :=
  if counts.any (·.1 = v) then counts.map fun c => if c.1 = v then (v, c.2 + 1) else c
  else counts ++ [(v, 1)]

/-- `result.put(dim, value)`. -/
def putDim {α : Type} (result : List (String × α)) (dim : String) (value : α) : List (String × α) :=
  if result.any (·.1 = dim) then result.map fun r => if r.1 = dim then (dim, value) else r
  else result ++ [(dim, value)]

/-- What one document adds to a dimension. -/
def dimValues (dim : String) (d : Document) : List String :=
  if dim = "_type" then (d.get "_type").toList
  else if dim = "_projectSpaceId" then ((d.get "_projectSpaceId").filter (!isBlank ·)).toList
  else if dim = "_serviceCode" then ((d.get "_serviceCode").filter (!isBlank ·)).toList
  else d.getValues ("dyn." ++ dim ++ ".kw")

def FACET_EXCLUDE_DIMS : List String := ["logical_id"]

/-- The dimensions, with "*" expanded to the enum-typed fields. -/
def effectiveDims (docs : List Document) (dims : List String) : List String :=
  let named := dims.filter (· ≠ "*")
  if dims.contains "*" then
    let found := (docs.flatMap (·.getValues "_enum_fields")).filter fun name =>
      !FACET_EXCLUDE_DIMS.contains name && !named.contains name
    named ++ found.eraseDups
  else named

/-- The counts of a dimension, the first `topN` by count. -/
def facetCounts (docs : List Document) (dim : String) : List (String × Nat) :=
  (docs.flatMap (dimValues dim)).foldl countOne []

/-- `computeFacets`. -/
def computeFacets (topN : Nat) (index : NodeIndex) (ids : Finset String) (dims : List String) :
    Facets :=
  if ids = ∅ ∨ dims = [] then []
  else
    let docs := scopeDocs lucene index ids
    (effectiveDims docs dims).foldl (fun result dim =>
      let counts := facetCounts docs dim
      if counts = [] then result
      else putDim result dim ((counts.mergeSort fun a b => b.2 ≤ a.2).take topN)) []

/-- `Double.MAX_VALUE`. -/
def doubleMax : Float := Float.ofBits 0x7FEFFFFFFFFFFFFF

/-- `computeRangeFacets`. -/
def computeRangeFacets (index : NodeIndex) (ids : Finset String) : RangeFacets :=
  if ids = ∅ then []
  else
    let docs := scopeDocs lucene index ids
    let rangeDims := (docs.flatMap (·.getValues "_range_fields")).eraseDups
    rangeDims.filterMap fun dim =>
      let values := docs.filterMap (·.getDouble ("dyn." ++ dim ++ ".stored"))
      let bounds := values.foldl (fun b v =>
        (if v < b.1 then v else b.1, if b.2 < v then v else b.2)) (doubleMax, -doubleMax)
      if bounds.1 ≤ bounds.2 then some (dim, bounds) else none

end PlmCore.Search
