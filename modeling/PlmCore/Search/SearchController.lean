/-
The search endpoints, `SearchController.java`, with the walk over the edge index they search along:
`GraphTraversalService.java` and `resolveHop` of `LuceneEdgeStore.java`.
-/
import Mathlib.Data.Finset.Lattice.Basic
import PlmCore.Search.NodeStore

set_option autoImplicit false

namespace PlmCore.Search

open PlmCore.Lib

/-! ## The edge index -/

/-- A document of the edge index. -/
structure Edge where
  srcId : String
  relType : String
  dstId : String
  structural : Bool
  countries : List String
  profiles : List String
  validFrom : Option Int
  validTo : Option Int

/-- A constraint of an edge that is absent is met by everything. -/
def optionalConstraint (values : List String) (asked : Option String) : Bool :=
  asked.all fun v => values = [] || values.contains v

/-- The query of `resolveHop` takes the edge. -/
def Edge.leads (e : Edge) (frontier : Finset String) (ctx : ConfigContext) (structuralOnly : Bool)
    (clock : Int) : Bool :=
  let now := ctx.asOfEpochMs.getD clock
  e.srcId ∈ frontier && (!structuralOnly || e.structural) && e.validFrom.all (· ≤ now)
    && e.validTo.all (now ≤ ·) && optionalConstraint e.countries ctx.country
    && optionalConstraint e.profiles ctx.profile

/-- `resolveHop`. -/
def resolveHop (edges : List Edge) (frontier : Finset String) (ctx : ConfigContext)
    (structuralOnly : Bool) (clock : Int) : Finset String :=
  ((edges.filter (·.leads frontier ctx structuralOnly clock)).map (·.dstId)).toFinset

/-- `BfsLevel`. -/
structure BfsLevel where
  hop : Nat
  ids : Finset String

/-- The levels behind `hop`, as many as `left`. -/
def hops (edges : List Edge) (ctx : ConfigContext) (structuralOnly : Bool) (clock : Nat → Int) :
    (left hop : Nat) → (frontier visited : Finset String) → List BfsLevel
  | 0, _, _, _ => []
  | left + 1, hop, frontier, visited =>
    let raw := resolveHop edges frontier ctx structuralOnly (clock hop) \ visited
    if raw = ∅ then []
    else ⟨hop + 1, raw⟩ :: hops edges ctx structuralOnly clock left (hop + 1) raw (visited ∪ raw)

/-- `traverse`: the root, and the levels of the walk from it. The clock is read at every hop. -/
def traverse (edges : List Edge) (rootId : String) (ctx : ConfigContext) (structuralOnly : Bool)
    (maxHops : Int) (clock : Nat → Int) : List BfsLevel :=
  ⟨0, {rootId}⟩ :: hops edges ctx structuralOnly clock maxHops.toNat 0 {rootId} {rootId}

/-! ## The endpoints -/

/-- An event of the stream; the text of an exception is left out. -/
inductive StreamEvent
  | hit (h : Hit)
  | facets (f : Facets)
  | done (totalNodes : Nat)
  | error (message : Option String)

/-- What an endpoint answers. -/
inductive Response
  | result (r : SearchResult)
  | hits (hs : List Hit)
  | events (es : List StreamEvent)
  | failed (status : Nat)

/-- `withProjectSpace`. -/
def withProjectSpace (req : SearchRequest) (psHeader : Option String) : SearchRequest :=
  if nullOrBlank psHeader then req
  else if !nullOrBlank req.projectSpaceId then req
  else { req with projectSpaceId := psHeader }

variable {Text : Type} (lucene : Lucene Text) (topN : Nat)

/-- The ids of the hits. -/
def SearchResult.ids (r : SearchResult) : Finset String := (r.hits.filterMap (·.id)).toFinset

/-- `search`. -/
def search (index : NodeIndex) (body : SearchRequest) (psHeader : Option String) : Response :=
  let req := withProjectSpace body psHeader
  match searchGlobal lucene index req with
  | none => .failed 500
  | some result =>
    if req.facetOn ≠ [] ∧ result.hits.length ≠ 0 then
      .result { result with
        facets := computeFacets lucene topN index result.ids req.facetOn
        rangeFacets :=
          if req.facetOn.contains "*" then computeRangeFacets lucene index result.ids else [] }
    else .result result

/-- The levels a request walks over. -/
def SearchRequest.levels (req : SearchRequest) (edges : List Edge) (clock : Nat → Int)
    (rootId : String) : List BfsLevel :=
  traverse edges rootId req.context req.structuralOnly (req.maxHops.getD 5) clock

/-- `allIds`, at the end of a walk. -/
def allIds (rootId : String) (levels : List BfsLevel) : Finset String :=
  levels.foldl (fun ids level => ids ∪ level.ids) {rootId}

/-- `graphSearch`. -/
def graphSearch (index : NodeIndex) (edges : List Edge) (clock : Nat → Int) (body : SearchRequest)
    (psHeader : Option String) : Response :=
  let req := withProjectSpace body psHeader
  match req.scopeRootId with
  | none => .failed 400
  | some rootId =>
    if isBlank rootId then .failed 400
    else
      let levels := req.levels edges clock rootId
      match levels.mapM fun level => searchInScope lucene index level.ids req level.hop with
      | none => .failed 500
      | some batches =>
        let allHits := batches.flatMap (·.hits)
        let ids := allIds rootId levels
        .result ⟨allHits, if req.facetOn = [] then [] else computeFacets lucene topN index ids req.facetOn,
          if req.facetOn.contains "*" then computeRangeFacets lucene index ids else [],
          allHits.length, 0⟩

/-- The hits of the levels as they are written, and whether every level could be searched. -/
def streamLevels (index : NodeIndex) (req : SearchRequest) : List BfsLevel → List StreamEvent × Bool
  | [] => ([], true)
  | level :: levels =>
    match searchInScope lucene index level.ids req level.hop with
    | none => ([], false)
    | some batch =>
      let later := streamLevels index req levels
      (batch.hits.map .hit ++ later.1, later.2)

/-- `stream`. -/
def stream (index : NodeIndex) (edges : List Edge) (clock : Nat → Int) (body : SearchRequest)
    (psHeader : Option String) : Response :=
  let req := withProjectSpace body psHeader
  match req.scopeRootId with
  | none => .events [.error (some "scopeRootId required")]
  | some rootId =>
    if isBlank rootId then .events [.error (some "scopeRootId required")]
    else
      let levels := req.levels edges clock rootId
      let written := streamLevels lucene index req levels
      let ids := allIds rootId levels
      let facets := if req.facetOn = [] then []
        else [StreamEvent.facets (computeFacets lucene topN index ids req.facetOn)]
      .events (written.1 ++ if written.2 then facets ++ [.done ids.card] else [.error none])

/-- The request `children` fetches the ids with. -/
def fetchReq (psHeader : Option String) : SearchRequest :=
  .new none none (psHeader.filter (!isBlank ·)) none none false (some .empty) (some []) (some [])
    (some []) (some []) 200

/-- The ids below a node. -/
def childIds (edges : List Edge) (clock : Int) (id : String) : Finset String :=
  resolveHop edges {id} .empty false clock

/-- `children`. -/
def children (index : NodeIndex) (edges : List Edge) (clock : Int) (id : String)
    (psHeader : Option String) : Response :=
  match searchInScope lucene index (childIds edges clock id) (fetchReq psHeader) 1 with
  | none => .failed 500
  | some result => .hits result.hits

/-- A request to one of the endpoints. -/
inductive Call
  | search (body : SearchRequest)
  | graph (body : SearchRequest)
  | stream (body : SearchRequest)
  | children (id : String)

/-- The answer to a request. -/
def answer (index : NodeIndex) (edges : List Edge) (clock : Nat → Int) (psHeader : Option String) :
    Call → Response
  | .search body => search lucene topN index body psHeader
  | .graph body => graphSearch lucene topN index edges clock body psHeader
  | .stream body => stream lucene topN index edges clock body psHeader
  | .children id => children lucene index edges (clock 0) id psHeader

/-- The ids the query or the walk of a request selects. -/
def selected (index : NodeIndex) (edges : List Edge) (clock : Nat → Int) (psHeader : Option String) :
    Call → Finset String
  | .search body =>
    ((searchGlobal lucene index (withProjectSpace body psHeader)).map (·.ids)).getD ∅
  | .graph body | .stream body =>
    let req := withProjectSpace body psHeader
    req.scopeRootId.elim ∅ fun rootId => allIds rootId (req.levels edges clock rootId)
  | .children id => childIds edges (clock 0) id

/-- The hits a client is sent. -/
def Response.allHits : Response → List Hit
  | .result r => r.hits
  | .hits hs => hs
  | .events es => es.filterMap fun | .hit h => some h | _ => none
  | .failed _ => []

/-- The facets a client is sent. -/
def Response.allFacets : Response → List Facets
  | .result r => [r.facets]
  | .events es => es.filterMap fun | .facets f => some f | _ => none
  | .hits _ | .failed _ => []

/-- The range bounds a client is sent. -/
def Response.allRangeFacets : Response → RangeFacets
  | .result r => r.rangeFacets
  | .hits _ | .events _ | .failed _ => []

end PlmCore.Search
