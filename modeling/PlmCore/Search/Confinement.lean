/-
Whether search stays in the project space of the caller's token.

The gateway strips the project space header of a request and puts the space into the forward token,
and the search endpoints read the header and the body. So the clauses of a query are those the
client names, the facets of a walk are computed from every node on it, and `children` has no
clause at all: `search_confined_iff` says which requests are confined then.
-/
import PlmCore.Search.Scope
import PlmCore.Search.SearchController
import PlmCore.Spe.Gate

set_option autoImplicit false

namespace PlmCore.Search

open PlmCore.Lib

/-! ## The request behind the gateway -/

/-- A request with a token for the space `A`, as the gateway sends it to search-api. -/
def Forwarded (g : Spe.Gateway) (A : String) (u : Spe.Upstream) : Prop :=
  ∃ ctx req, ctx.is_admin = false ∧ ctx.project_space_id = some A ∧ u.service_code = "search"
    ∧ Spe.forward_from_context g req (Spe.route g) ctx (Spe.Auth.extract_service_code req.path)
      = .sent u

/-- The header the endpoints read. -/
def psHeader (u : Spe.Upstream) : Option String := u.headers.get "x-plm-projectspace"

theorem get_remove_self (hs : Spe.Headers) (name : String) : (hs.remove name).get name = none := by
  unfold Spe.Headers.remove Spe.Headers.get
  rw [List.find?_filter, Option.map_eq_none_iff, List.find?_eq_none]
  simp

/-- The proxy leaves the header as it is. -/
theorem get_upstream (g : Spe.Gateway) (req : Spe.Request) (code : String)
    (i : Spe.ServiceInstanceInfo) :
    psHeader (g.upstream req code i) = req.headers.get "x-plm-projectspace" := by
  unfold psHeader Spe.Gateway.upstream
  by_cases hws : Spe.is_websocket_upgrade req.headers = true
  · simp only [hws, if_true]
    rw [Spe.Headers.get_insert_of_ne _ (by decide)]
    have hcons : Spe.Headers.get (("host", i.authority) :: Spe.FORWARD_HEADERS.filterMap fun name =>
        (req.headers.get name).map fun v => (name, v)) "x-plm-projectspace"
          = Spe.Headers.get (Spe.FORWARD_HEADERS.filterMap fun name =>
            (req.headers.get name).map fun v => (name, v)) "x-plm-projectspace" := by
      unfold Spe.Headers.get
      rw [List.find?_cons_of_neg]
      simp
    rw [hcons, Spe.Headers.get_filterMap, if_pos (by decide)]
  · simp only [hws]
    exact Spe.get_upstream_headers g req.headers code (by decide)

/-- The endpoints never see a project space header. -/
theorem Forwarded.psHeader_eq {g : Spe.Gateway} {A : String} {u : Spe.Upstream}
    (h : Forwarded g A u) : psHeader u = none := by
  obtain ⟨ctx, req, -, -, -, hsent⟩ := h
  obtain ⟨-, fwd, hsent⟩ := Spe.gated_sent hsent
  obtain ⟨code, i, -, rfl⟩ := Spe.route_sent_iff.mp hsent
  rw [get_upstream, Spe.Headers.get_insert_of_ne _ (by decide), get_remove_self]

/-! ## Confinement -/

variable {Text : Type} (lucene : Lucene Text) (topN : Nat)

/-- The answers to a request stay in the space `A`: every hit is a document of `A`, and two indexes
with the same documents of `A` give the same facets for the same selected ids. -/
structure Confined (A : String) (psHeader : Option String) (call : Call) : Prop where
  hits : ∀ index edges clock, ∀ h ∈ (answer lucene topN index edges clock psHeader call).allHits,
    h.projectSpaceId = some A
  facets : ∀ index index' edges edges' clock clock', SameScope A index index' →
    selected lucene index edges clock psHeader call
      = selected lucene index' edges' clock' psHeader call →
    (answer lucene topN index edges clock psHeader call).allFacets
        = (answer lucene topN index' edges' clock' psHeader call).allFacets
      ∧ (answer lucene topN index edges clock psHeader call).allRangeFacets
        = (answer lucene topN index' edges' clock' psHeader call).allRangeFacets

/-- The clauses of a walk take nodes of `A` alone where the walk can get to, and no facets are
asked for. -/
def SearchRequest.WalkStaysIn (req : SearchRequest) (A : String) : Prop :=
  ∀ rootId, req.scopeRootId = some rootId → isBlank rootId = false →
    (∀ node : Node, node.id = rootId ∨ 0 < req.maxHops.getD 5 → req.Admits lucene node →
      node.space = A)
    ∧ (req.facetOn = [] ∨ buildMainQuery lucene req = none)

/-- The clauses a client has put into its request keep it in the space `A`. -/
def Call.StaysIn (A : String) : Call → Prop
  | .search body => ∀ node : Node, body.Admits lucene node → node.space = A
  | .graph body | .stream body => body.WalkStaysIn lucene A
  | .children _ => False

variable {lucene topN} {A : String}

@[simp] theorem withProjectSpace_none (body : SearchRequest) : withProjectSpace body none = body :=
  if_pos rfl

/-- An index of one node. -/
def NodeIndex.single (node : Node) : NodeIndex := ⟨[node], List.nodup_singleton _⟩

/-- A node outside the space. -/
def stranger (A id dim : String) : Node where
  id := id
  serviceCode := some "psm"
  itemCode := none
  type := some "part"
  projectSpaceId := some ("x" ++ A)
  sourceJson := none
  fields := [⟨"status", .enum ["x"]⟩, ⟨dim, .string ["x"]⟩]

theorem space_stranger_ne (A id dim : String) : (stranger A id dim).space ≠ A := by
  intro h
  have hlength := congrArg String.length h
  rw [Node.space, stranger, nvl, Option.getD_some, String.length_append] at hlength
  have hone : "x".length = 1 := rfl
  omega

/-! ### The global search -/

theorem ids_single {index : NodeIndex} {req : SearchRequest} {result : SearchResult}
    (hstay : ∀ node : Node, req.Admits lucene node → node.space = A)
    (hresult : searchGlobal lucene index req = some result) : index.ScopedTo A result.ids := by
  intro node hnode hid
  obtain ⟨h, hh, hhid⟩ := List.mem_filterMap.mp (List.mem_toFinset.mp hid)
  obtain ⟨node', hnode', hadmits, hid', -⟩ := mem_searchGlobal hresult hh
  have hsame : node.id = node'.id := Option.some.inj (hhid.symm.trans hid')
  rw [List.inj_on_of_nodup_map index.ids_nodup hnode hnode' hsame]
  exact hstay node' hadmits

/-- A search has no hits when it selects no ids. -/
theorem ids_eq_empty_iff {index : NodeIndex} {req : SearchRequest} {result : SearchResult}
    (hresult : searchGlobal lucene index req = some result) :
    result.ids = ∅ ↔ result.hits.length = 0 := by
  rw [SearchResult.ids, List.toFinset_eq_empty_iff, List.filterMap_eq_nil_iff,
    List.length_eq_zero_iff]
  constructor
  · intro hnone
    apply List.eq_nil_iff_forall_not_mem.mpr
    intro h hmem
    obtain ⟨node, -, -, hid, -⟩ := mem_searchGlobal hresult hmem
    rw [hnone h hmem] at hid
    cases hid
  · intro hnil h hmem
    rw [hnil] at hmem
    cases hmem

theorem allHits_search {index : NodeIndex} {body : SearchRequest} :
    (search lucene topN index body none).allHits
      = ((searchGlobal lucene index body).map (·.hits)).getD [] := by
  simp only [search, withProjectSpace_none]
  cases hresult : searchGlobal lucene index body with
  | none => rfl
  | some result =>
    simp only
    split <;> rfl

/-- The facets of a search. -/
theorem allFacets_search {index : NodeIndex} {body : SearchRequest} {result : SearchResult}
    (hresult : searchGlobal lucene index body = some result) :
    (search lucene topN index body none).allFacets
        = [if result.ids = ∅ then [] else computeFacets lucene topN index result.ids body.facetOn]
      ∧ (search lucene topN index body none).allRangeFacets
        = if result.ids ≠ ∅ ∧ body.facetOn.contains "*" = true
          then computeRangeFacets lucene index result.ids else [] := by
  have hplain : result.facets = [] ∧ result.rangeFacets = [] := by
    obtain ⟨clauses, -, rfl⟩ := Option.map_eq_some_iff.mp hresult
    exact ⟨rfl, rfl⟩
  simp only [search, withProjectSpace_none, hresult, ne_eq, ← ids_eq_empty_iff hresult]
  by_cases hids : result.ids = ∅
  · simp [hids, Response.allFacets, Response.allRangeFacets, hplain]
  · by_cases hdims : body.facetOn = []
    · simp [hids, hdims, Response.allFacets, Response.allRangeFacets, hplain, computeFacets]
    · simp [hids, hdims, Response.allFacets, Response.allRangeFacets]

theorem search_failed {index : NodeIndex} {body : SearchRequest}
    (hrefused : buildMainQuery lucene body = none) :
    search lucene topN index body none = .failed 500 := by
  simp only [search, searchGlobal, withProjectSpace_none, hrefused, Option.map_none]

/-- The global search is confined by its clauses. -/
theorem confined_search_iff (body : SearchRequest) :
    Confined lucene topN A none (.search body) ↔ (Call.search body).StaysIn lucene A := by
  constructor
  · intro hconfined node hadmits
    obtain ⟨clauses, hclauses, hmatch⟩ := hadmits
    -- an index of this one node returns it, so its space has to be the caller's
    have hhit : ∃ h ∈ (executeSearch lucene (.single node) clauses body 0).hits,
        h.projectSpaceId = some node.space := executeSearch_singleton rfl hmatch
    obtain ⟨h, hmem, hspace⟩ := hhit
    have hall : h ∈ (search lucene topN (.single node) body none).allHits := by
      rw [allHits_search, searchGlobal, hclauses]
      exact hmem
    have hA := hconfined.hits (.single node) [] (fun _ => 0) h hall
    rw [hspace] at hA
    exact Option.some.inj hA
  · intro hstay
    constructor
    · intro index edges clock h hmem
      change h ∈ (search lucene topN index body none).allHits at hmem
      rw [allHits_search] at hmem
      -- every hit is admitted by the request, and so of the space
      cases hresult : searchGlobal lucene index body with
      | none =>
        rw [hresult] at hmem
        cases hmem
      | some result =>
        rw [hresult] at hmem
        obtain ⟨node, -, hadmits, -, hspace⟩ := mem_searchGlobal hresult hmem
        rw [hspace, hstay node hadmits]
    · intro index index' edges edges' clock clock' hsame hselected
      change (search lucene topN index body none).allFacets
          = (search lucene topN index' body none).allFacets
        ∧ (search lucene topN index body none).allRangeFacets
          = (search lucene topN index' body none).allRangeFacets
      cases hclauses : buildMainQuery lucene body with
      | none => rw [search_failed hclauses, search_failed hclauses]; exact ⟨rfl, rfl⟩
      | some clauses =>
        have hresult : ∀ index, searchGlobal lucene index body
            = some (executeSearch lucene index clauses body 0) := by
          intro index
          rw [searchGlobal, hclauses]
          rfl
        -- the facets are counted over the hits, and these are documents the two indexes share
        have hids : (executeSearch lucene index clauses body 0).ids
            = (executeSearch lucene index' clauses body 0).ids := by
          simpa [selected, hresult] using hselected
        have hscoped := ids_single hstay (hresult index)
        have hscoped' := ids_single hstay (hresult index')
        rw [← hids] at hscoped'
        rw [(allFacets_search (hresult index)).1, (allFacets_search (hresult index')).1,
          (allFacets_search (hresult index)).2, (allFacets_search (hresult index')).2, ← hids,
          hsame.computeFacets_eq hscoped hscoped', hsame.computeRangeFacets_eq hscoped hscoped']
        exact ⟨rfl, rfl⟩

/-! ### Facets of a stranger -/

theorem foldl_ne_nil {α β : Type} {f : List β → α → List β} {a : α} {l : List α}
    (hkeep : ∀ r b, r ≠ [] → f r b ≠ []) (hput : ∀ r, f r a ≠ []) (ha : a ∈ l) (r : List β) :
    l.foldl f r ≠ [] := by
  obtain ⟨before, after, rfl⟩ := List.append_of_mem ha
  rw [List.foldl_append, List.foldl_cons]
  generalize before.foldl f r = r
  have hstart := hput r
  revert hstart
  generalize f r a = r
  intro hstart
  clear ha
  induction after generalizing r with
  | nil => exact hstart
  | cons b after ih => exact ih _ (hkeep r b hstart)

theorem countOne_ne_nil (counts : List (String × Nat)) (v : String) : countOne counts v ≠ [] := by
  unfold countOne
  cases counts with
  | nil => simp
  | cons c counts => split <;> simp

theorem putDim_ne_nil {α : Type} (result : List (String × α)) (dim : String) (value : α) :
    putDim result dim value ≠ [] := by
  unfold putDim
  cases result with
  | nil => simp
  | cons r result => split <;> simp

/-- A dimension with a value has a count. -/
theorem facetCounts_ne_nil {docs : List Document} {dim : String} {d : Document} (hd : d ∈ docs)
    (hvalues : dimValues dim d ≠ []) : facetCounts docs dim ≠ [] := by
  obtain ⟨v, hv⟩ := List.exists_mem_of_ne_nil _ hvalues
  exact foldl_ne_nil (fun r b _ => countOne_ne_nil r b) (fun r => countOne_ne_nil r v)
    (List.mem_flatMap.mpr ⟨d, hd, hv⟩) []

theorem mem_getValues {d : Document} {name value : String} (h : .stringField name value ∈ d) :
    value ∈ d.getValues name :=
  List.mem_filterMap.mpr ⟨_, h, if_pos rfl⟩

/-- The value of an attribute is a value of its dimension. -/
theorem dimValues_stranger (id : String) {dim name : String} (hname : name = "status" ∨ name = dim) :
    dimValues name ((stranger A id dim).document lucene) ≠ [] := by
  have hvalue : .stringField ("dyn." ++ name ++ ".kw") "x" ∈ (stranger A id dim).document lucene := by
    apply List.mem_append_right
    obtain rfl | rfl := hname
    · exact List.mem_flatMap.mpr ⟨⟨"status", .enum ["x"]⟩, by simp [stranger],
        by simp [DynamicField.indexed]⟩
    · exact List.mem_flatMap.mpr ⟨⟨name, .string ["x"]⟩, by simp [stranger],
        by simp [DynamicField.indexed]⟩
  have hblank : isBlank ("x" ++ A) = false := by
    rw [isBlank, String.toList_append, List.all_append]
    rfl
  unfold dimValues
  split
  · rw [Document.get, Node.document, Document.getValues_append]
    simp [Document.getValues]
  split
  · simp [Node.space, stranger, nvl, hblank]
  split
  · rw [Document.get, Node.document, Document.getValues_append]
    simp [Document.getValues, stranger, nvl, isBlank, isWhitespace]
  exact List.ne_nil_of_mem (mem_getValues hvalue)

/-- Whatever facets are asked for, a stranger among the ids shows in them. -/
theorem computeFacets_stranger (id : String) {dim : String} {dims : List String}
    {ids : Finset String} (hid : id ∈ ids) :
    computeFacets lucene topN (.single (stranger A id dim)) ids (dim :: dims) ≠ [] := by
  have hdocs : scopeDocs lucene (.single (stranger A id dim)) ids
      = [(stranger A id dim).document lucene] := by
    rw [scopeDocs_eq, NodeIndex.single, List.filter_singleton]
    simp [stranger, hid]
  have hdim : ∃ name, (name = "status" ∨ name = dim)
      ∧ name ∈ effectiveDims [(stranger A id dim).document lucene] (dim :: dims) := by
    unfold effectiveDims
    by_cases hstar : dim = "*"
    · -- The wildcard finds the enum field, unless it is named as well.
      refine ⟨"status", .inl rfl, ?_⟩
      have henum : "status" ∈ ((stranger A id dim).document lucene).getValues "_enum_fields" := by
        apply mem_getValues
        apply List.mem_append_right
        exact List.mem_flatMap.mpr ⟨⟨"status", .enum ["x"]⟩, by simp [stranger],
          by simp [DynamicField.indexed]⟩
      rw [if_pos (by simp [hstar])]
      by_cases hnamed : "status" ∈ (dim :: dims).filter (· ≠ "*")
      · exact List.mem_append_left _ hnamed
      · apply List.mem_append_right
        rw [List.mem_eraseDups, List.mem_filter]
        refine ⟨List.mem_flatMap.mpr ⟨_, List.mem_singleton.mpr rfl, henum⟩, ?_⟩
        simpa [FACET_EXCLUDE_DIMS] using hnamed
    · have hnamed : dim ∈ (dim :: dims).filter (· ≠ "*") := by simp [hstar]
      refine ⟨dim, .inr rfl, ?_⟩
      split
      · exact List.mem_append_left _ hnamed
      · exact hnamed
  obtain ⟨name, hname, hmem⟩ := hdim
  have hvalues : dimValues name ((stranger A id dim).document lucene) ≠ [] :=
    dimValues_stranger id hname
  have hcounts := facetCounts_ne_nil (List.mem_singleton.mpr rfl) hvalues
  unfold computeFacets
  rw [if_neg (by simp [Finset.ne_empty_of_mem hid]), hdocs]
  refine foldl_ne_nil ?_ ?_ hmem []
  · intro r b hr
    dsimp only
    split
    · exact hr
    · exact putDim_ne_nil _ _ _
  · intro r
    dsimp only
    rw [if_neg hcounts]
    exact putDim_ne_nil _ _ _

/-! ### The walk -/

theorem mapM_eq_some_map {α β : Type} {f : α → Option β} {g : α → β} {l : List α}
    (h : ∀ a ∈ l, f a = some (g a)) : l.mapM f = some (l.map g) := by
  induction l with
  | nil => rfl
  | cons a l ih =>
    rw [List.mapM_cons, h a List.mem_cons_self, ih fun b hb => h b (List.mem_cons_of_mem a hb)]
    rfl

section Walk

variable {edges : List Edge} {clock : Nat → Int} {index : NodeIndex} {req body : SearchRequest}
  {rootId : String}

theorem ids_ne_empty_of_mem_hops {ctx : ConfigContext} {structuralOnly : Bool} {left hop : Nat}
    {frontier visited : Finset String} {level : BfsLevel}
    (h : level ∈ hops edges ctx structuralOnly clock left hop frontier visited) :
    level.ids ≠ ∅ := by
  induction left generalizing hop frontier visited with
  | zero => cases h
  | succ left ih =>
    unfold hops at h
    dsimp only at h
    split at h
    · cases h
    · rename_i hraw
      obtain rfl | h := List.mem_cons.mp h
      · exact hraw
      · exact ih h

/-- No level of a walk is empty. -/
theorem ids_ne_empty {level : BfsLevel} (h : level ∈ req.levels edges clock rootId) :
    level.ids ≠ ∅ := by
  obtain rfl | h := List.mem_cons.mp h
  · exact Finset.singleton_ne_empty rootId
  · exact ids_ne_empty_of_mem_hops h

/-- A walk without hops stays at its root. -/
theorem mem_ids_levels {level : BfsLevel} (h : level ∈ req.levels edges clock rootId) {id : String}
    (hid : id ∈ level.ids) : id = rootId ∨ 0 < req.maxHops.getD 5 := by
  obtain rfl | h := List.mem_cons.mp h
  · exact .inl (Finset.mem_singleton.mp hid)
  · by_cases hmax : 0 < req.maxHops.getD 5
    · exact .inr hmax
    · rw [Int.toNat_eq_zero.mpr (Int.not_lt.mp hmax)] at h
      cases h

/-- An edge from the root to a node. -/
def edgeTo (rootId id : String) : Edge := ⟨rootId, "has", id, true, [], [], none, none⟩

theorem leads_edgeTo (rootId id : String) (ctx : ConfigContext) (structuralOnly : Bool) (now : Int) :
    (edgeTo rootId id).leads {rootId} ctx structuralOnly now = true := by
  have hconstraint : ∀ asked, optionalConstraint [] asked = true := by
    intro asked
    cases asked <;> rfl
  unfold Edge.leads edgeTo
  simp [hconstraint]

theorem resolveHop_edgeTo (rootId id : String) (ctx : ConfigContext) (structuralOnly : Bool)
    (now : Int) : resolveHop [edgeTo rootId id] {rootId} ctx structuralOnly now = {id} := by
  unfold resolveHop
  rw [List.filter_singleton, leads_edgeTo, cond_true]
  rfl

/-- With a hop to spend, the walk gets to any node. -/
theorem exists_level {id : String} (h : id = rootId ∨ 0 < req.maxHops.getD 5) :
    ∃ level ∈ req.levels [edgeTo rootId id] clock rootId, id ∈ level.ids := by
  by_cases hroot : id = rootId
  · exact ⟨_, List.mem_cons_self, Finset.mem_singleton.mpr hroot⟩
  · have hmax := h.resolve_left hroot
    obtain ⟨left, hleft⟩ : ∃ left, (req.maxHops.getD 5).toNat = left + 1 :=
      ⟨(req.maxHops.getD 5).toNat - 1, by omega⟩
    have hraw : resolveHop [edgeTo rootId id] {rootId} req.context req.structuralOnly (clock 0)
        \ {rootId} = {id} := by
      rw [resolveHop_edgeTo]
      exact Finset.sdiff_eq_self_of_disjoint (by simpa using hroot)
    refine ⟨⟨1, {id}⟩, ?_, Finset.mem_singleton.mpr rfl⟩
    apply List.mem_cons_of_mem
    rw [hleft, hops]
    simp only [hraw, if_neg (Finset.singleton_ne_empty id)]
    exact List.mem_cons_self

/-- What a level adds, when the text of the request can be searched for. -/
def levelResult (lucene : Lucene Text) (index : NodeIndex) (req : SearchRequest)
    (clauses : List (Clause Text)) (level : BfsLevel) : SearchResult :=
  executeSearch lucene index (clauses ++ [buildScopeQuery level.ids]) req level.hop

theorem searchInScope_level {clauses : List (Clause Text)} {level : BfsLevel}
    (hclauses : buildMainQuery lucene req = some clauses) (hids : level.ids ≠ ∅) :
    searchInScope lucene index level.ids req level.hop
      = some (levelResult lucene index req clauses level) := by
  rw [searchInScope, if_neg hids, hclauses]
  rfl

variable (topN) (edges) (clock) (index)

/-- The answer of `graphSearch`, when the text can be searched for. -/
theorem graphSearch_eq {clauses : List (Clause Text)} (hroot : body.scopeRootId = some rootId)
    (hblank : isBlank rootId = false) (hclauses : buildMainQuery lucene body = some clauses) :
    (graphSearch lucene topN index edges clock body none).allHits
        = (body.levels edges clock rootId).flatMap
          (fun level => (levelResult lucene index body clauses level).hits)
      ∧ (graphSearch lucene topN index edges clock body none).allFacets
        = [if body.facetOn = [] then []
          else computeFacets lucene topN index (allIds rootId (body.levels edges clock rootId))
            body.facetOn]
      ∧ (graphSearch lucene topN index edges clock body none).allRangeFacets
        = if body.facetOn.contains "*" then
            computeRangeFacets lucene index (allIds rootId (body.levels edges clock rootId))
          else [] := by
  have hbatches : (body.levels edges clock rootId).mapM
      (fun level => searchInScope lucene index level.ids body level.hop)
        = some ((body.levels edges clock rootId).map (levelResult lucene index body clauses)) :=
    mapM_eq_some_map fun level hlevel => searchInScope_level hclauses (ids_ne_empty hlevel)
  simp only [graphSearch, withProjectSpace_none, hroot, hblank, hbatches, Bool.false_eq_true,
    if_false, Response.allHits, Response.allFacets, Response.allRangeFacets, List.flatMap_map,
    and_self]

theorem streamLevels_eq {clauses : List (Clause Text)} {levels : List BfsLevel}
    (hclauses : buildMainQuery lucene body = some clauses)
    (hids : ∀ level ∈ levels, level.ids ≠ ∅) :
    streamLevels lucene index body levels
      = ((levels.flatMap fun level => (levelResult lucene index body clauses level).hits).map .hit,
        true) := by
  induction levels with
  | nil => rfl
  | cons level levels ih =>
    rw [streamLevels, searchInScope_level hclauses (hids level List.mem_cons_self),
      ih fun level' h => hids level' (List.mem_cons_of_mem level h)]
    simp

/-- The answer of `stream`, when the text can be searched for. -/
theorem stream_eq {clauses : List (Clause Text)} (hroot : body.scopeRootId = some rootId)
    (hblank : isBlank rootId = false) (hclauses : buildMainQuery lucene body = some clauses) :
    (stream lucene topN index edges clock body none).allHits
        = (body.levels edges clock rootId).flatMap
          (fun level => (levelResult lucene index body clauses level).hits)
      ∧ (stream lucene topN index edges clock body none).allFacets
        = (if body.facetOn = [] then []
          else [computeFacets lucene topN index (allIds rootId (body.levels edges clock rootId))
            body.facetOn])
      ∧ (stream lucene topN index edges clock body none).allRangeFacets = [] := by
  have hids : ∀ level ∈ body.levels edges clock rootId, level.ids ≠ ∅ := fun _ => ids_ne_empty
  have hwritten := streamLevels_eq index hclauses hids
  simp only [stream, withProjectSpace_none, hroot, hblank, hwritten, Bool.false_eq_true, if_false,
    if_true, Response.allHits, Response.allFacets, Response.allRangeFacets, List.filterMap_append,
    and_true]
  split <;> simp

/-- What the two walks have in common. -/
structure WalkAnswers (lucene : Lucene Text) (topN : Nat) (body : SearchRequest) (call : Call) :
    Prop where
  /-- Without a root, or with a text that is refused, nothing is sent. -/
  idle : (∀ rootId, body.scopeRootId = some rootId → isBlank rootId = false →
      buildMainQuery lucene body = none) → ∀ index edges clock,
    (answer lucene topN index edges clock none call).allHits = []
      ∧ (answer lucene topN index edges clock none call).allFacets = []
      ∧ (answer lucene topN index edges clock none call).allRangeFacets = []
  hits : ∀ rootId clauses, body.scopeRootId = some rootId → isBlank rootId = false →
    buildMainQuery lucene body = some clauses → ∀ index edges clock,
    (answer lucene topN index edges clock none call).allHits
      = (body.levels edges clock rootId).flatMap fun level =>
        (levelResult lucene index body clauses level).hits
  unfaceted : ∀ rootId clauses, body.scopeRootId = some rootId → isBlank rootId = false →
    buildMainQuery lucene body = some clauses → body.facetOn = [] →
    ∃ facets, ∀ index edges clock,
      (answer lucene topN index edges clock none call).allFacets = facets
        ∧ (answer lucene topN index edges clock none call).allRangeFacets = []
  faceted : ∀ rootId clauses, body.scopeRootId = some rootId → isBlank rootId = false →
    buildMainQuery lucene body = some clauses → body.facetOn ≠ [] → ∀ index edges clock,
    (answer lucene topN index edges clock none call).allFacets
      = [computeFacets lucene topN index (allIds rootId (body.levels edges clock rootId))
        body.facetOn]
  selected_eq : ∀ index edges clock, selected lucene index edges clock none call
    = body.scopeRootId.elim ∅ fun rootId => allIds rootId (body.levels edges clock rootId)

/-- A refused text fails at the root. -/
theorem searchInScope_root (hclauses : buildMainQuery lucene body = none) :
    searchInScope lucene index {rootId} body 0 = none := by
  rw [searchInScope, if_neg (Finset.singleton_ne_empty rootId), hclauses]
  rfl

theorem graphSearch_idle (h : ∀ rootId, body.scopeRootId = some rootId → isBlank rootId = false →
    buildMainQuery lucene body = none) :
    ∃ status, graphSearch lucene topN index edges clock body none = .failed status := by
  simp only [graphSearch, withProjectSpace_none]
  cases hroot : body.scopeRootId with
  | none => exact ⟨400, rfl⟩
  | some rootId =>
    by_cases hblank : isBlank rootId = true
    · exact ⟨400, if_pos hblank⟩
    · have hrefused := h rootId hroot (by simpa using hblank)
      refine ⟨500, ?_⟩
      simp only [hblank, Bool.false_eq_true, if_false, SearchRequest.levels, traverse,
        List.mapM_cons, searchInScope_root index hrefused]
      rfl

theorem stream_idle (h : ∀ rootId, body.scopeRootId = some rootId → isBlank rootId = false →
    buildMainQuery lucene body = none) :
    ∃ message, stream lucene topN index edges clock body none = .events [.error message] := by
  simp only [stream, withProjectSpace_none]
  cases hroot : body.scopeRootId with
  | none => exact ⟨_, rfl⟩
  | some rootId =>
    by_cases hblank : isBlank rootId = true
    · exact ⟨_, if_pos hblank⟩
    · have hrefused := h rootId hroot (by simpa using hblank)
      refine ⟨none, ?_⟩
      simp only [hblank, Bool.false_eq_true, if_false, SearchRequest.levels, traverse,
        streamLevels, searchInScope_root index hrefused]
      rfl

variable (body)

theorem walkAnswers_graph :
    WalkAnswers lucene topN body (.graph body) where
  idle h index edges clock := by
    obtain ⟨status, hstatus⟩ := graphSearch_idle topN edges clock index h
    rw [answer, hstatus]
    exact ⟨rfl, rfl, rfl⟩
  hits rootId clauses hroot hblank hclauses index edges clock := by
    rw [answer]
    exact (graphSearch_eq topN edges clock index hroot hblank hclauses).1
  unfaceted rootId clauses hroot hblank hclauses hdims := by
    refine ⟨[[]], fun index edges clock => ?_⟩
    have hanswer := (graphSearch_eq topN edges clock index hroot hblank hclauses).2
    rw [answer, hanswer.1, hanswer.2, hdims]
    exact ⟨rfl, rfl⟩
  faceted rootId clauses hroot hblank hclauses hdims index edges clock := by
    rw [answer, (graphSearch_eq topN edges clock index hroot hblank hclauses).2.1, if_neg hdims]
  selected_eq index edges clock := by
    rw [selected, withProjectSpace_none]

theorem walkAnswers_stream :
    WalkAnswers lucene topN body (.stream body) where
  idle h index edges clock := by
    obtain ⟨message, hmessage⟩ := stream_idle topN edges clock index h
    rw [answer, hmessage]
    exact ⟨rfl, rfl, rfl⟩
  hits rootId clauses hroot hblank hclauses index edges clock := by
    rw [answer]
    exact (stream_eq topN edges clock index hroot hblank hclauses).1
  unfaceted rootId clauses hroot hblank hclauses hdims := by
    refine ⟨[], fun index edges clock => ?_⟩
    have hanswer := (stream_eq topN edges clock index hroot hblank hclauses).2
    rw [answer, hanswer.1, hanswer.2, if_pos hdims]
    exact ⟨rfl, rfl⟩
  faceted rootId clauses hroot hblank hclauses hdims index edges clock := by
    rw [answer, (stream_eq topN edges clock index hroot hblank hclauses).2.1, if_neg hdims]
  selected_eq index edges clock := by
    rw [selected, withProjectSpace_none]

end Walk

/-- The root is on its walk. -/
theorem root_mem_allIds (rootId : String) (levels : List BfsLevel) :
    rootId ∈ allIds rootId levels := by
  unfold allIds
  have hstart := Finset.mem_singleton_self rootId
  revert hstart
  generalize ({rootId} : Finset String) = ids
  intro hstart
  induction levels generalizing ids with
  | nil => exact hstart
  | cons level levels ih => exact ih _ (Finset.mem_union_left _ hstart)

theorem computeFacets_nil (index : NodeIndex) (hnodes : index.nodes = []) (ids : Finset String)
    (dims : List String) : computeFacets lucene topN index ids dims = [] := by
  have hdocs : scopeDocs lucene index ids = [] := by rw [scopeDocs_eq, hnodes]; rfl
  unfold computeFacets
  rw [hdocs]
  split
  · rfl
  · exact List.foldl_fixed' (fun _ => rfl) _

/-- A walk is confined by its clauses, and leaks what facets it is asked for. -/
theorem confined_walk_iff {body : SearchRequest} {call : Call}
    (hwalk : WalkAnswers lucene topN body call) :
    Confined lucene topN A none call ↔ body.WalkStaysIn lucene A := by
  constructor
  · intro hconfined rootId hroot hblank
    constructor
    · intro node hreach hadmits
      obtain ⟨clauses, hclauses, hmatch⟩ := hadmits
      have hlevels : ∃ level ∈ body.levels [edgeTo rootId node.id] (fun _ => 0) rootId,
          node.id ∈ level.ids := exists_level hreach
      obtain ⟨level, hlevel, hid⟩ := hlevels
      have hhit : ∃ h ∈ (levelResult lucene (.single node) body clauses level).hits,
          h.projectSpaceId = some node.space :=
        executeSearch_singleton rfl (matchesAll_scope.mpr ⟨hmatch, hid⟩)
      obtain ⟨h, hmem, hspace⟩ := hhit
      have hA := hconfined.hits (.single node) [edgeTo rootId node.id] (fun _ => 0) h
      rw [hwalk.hits rootId clauses hroot hblank hclauses] at hA
      have hA := hA (List.mem_flatMap.mpr ⟨level, hlevel, hmem⟩)
      rw [hspace] at hA
      exact Option.some.inj hA
    · -- A stranger at the root shows in any facet that is asked for.
      by_contra hasked
      rw [not_or] at hasked
      obtain ⟨clauses, hclauses⟩ := Option.ne_none_iff_exists'.mp hasked.2
      obtain ⟨dim, dims, hdims⟩ := List.exists_cons_of_ne_nil hasked.1
      have hsame : SameScope A (.single (stranger A rootId dim)) ⟨[], List.nodup_nil⟩ := by
        unfold SameScope NodeIndex.single
        rw [List.filter_cons_of_neg (by simpa using space_stranger_ne A rootId dim)]
      have hleak := (hconfined.facets _ _ [] [] (fun _ => 0) (fun _ => 0) hsame (by
        rw [hwalk.selected_eq, hwalk.selected_eq])).1
      rw [hwalk.faceted rootId clauses hroot hblank hclauses hasked.1,
        hwalk.faceted rootId clauses hroot hblank hclauses hasked.1,
        computeFacets_nil ⟨[], List.nodup_nil⟩ rfl,
        hdims] at hleak
      exact computeFacets_stranger rootId (root_mem_allIds rootId _) (List.cons.inj hleak).1
  · intro hstay
    by_cases hidle : ∀ rootId, body.scopeRootId = some rootId → isBlank rootId = false →
        buildMainQuery lucene body = none
    · constructor
      · intro index edges clock h hmem
        rw [(hwalk.idle hidle index edges clock).1] at hmem
        cases hmem
      · intro index index' edges edges' clock clock' _ _
        obtain ⟨-, hfacets, hranges⟩ := hwalk.idle hidle index edges clock
        obtain ⟨-, hfacets', hranges'⟩ := hwalk.idle hidle index' edges' clock'
        exact ⟨hfacets.trans hfacets'.symm, hranges.trans hranges'.symm⟩
    · simp only [not_forall] at hidle
      obtain ⟨rootId, hroot, hblank, hclauses⟩ := hidle
      obtain ⟨hadmitted, hdims⟩ := hstay rootId hroot hblank
      have hdims := hdims.resolve_right hclauses
      obtain ⟨clauses, hclauses⟩ := Option.ne_none_iff_exists'.mp hclauses
      constructor
      · intro index edges clock h hmem
        rw [hwalk.hits rootId clauses hroot hblank hclauses] at hmem
        obtain ⟨level, hlevel, hmem⟩ := List.mem_flatMap.mp hmem
        have hresult : searchInScope lucene index level.ids body level.hop
            = some (levelResult lucene index body clauses level) :=
          searchInScope_level hclauses (ids_ne_empty hlevel)
        obtain ⟨node, -, hadmits, hid, hspace⟩ := mem_searchInScope hresult hmem
        rw [hspace, hadmitted node (mem_ids_levels hlevel hid) hadmits]
      · intro index index' edges edges' clock clock' _ _
        obtain ⟨facets, hfacets⟩ := hwalk.unfaceted rootId clauses hroot hblank hclauses hdims
        rw [(hfacets index edges clock).1, (hfacets index edges clock).2,
          (hfacets index' edges' clock').1, (hfacets index' edges' clock').2]
        exact ⟨rfl, rfl⟩

/-! ### The children of a node -/

/-- Without a header `children` asks for every document. -/
theorem buildMainQuery_fetchReq : buildMainQuery lucene (fetchReq none) = some [] := by
  have hclauses : buildMainQuery lucene (fetchReq none)
      = if lucene.accepts [] then some [] else none := rfl
  rw [hclauses, lucene.accepts_nil]
  rfl

/-- The children of a node are sent whatever space they are of. -/
theorem not_confined_children (id : String) : ¬ Confined lucene topN A none (.children id) := by
  intro hconfined
  have hhit : ∃ result, searchInScope lucene (.single (stranger A id id)) {id} (fetchReq none) 1
      = some result ∧ ∃ h ∈ result.hits, h.projectSpaceId = some (stranger A id id).space :=
    searchInScope_singleton rfl ⟨[], buildMainQuery_fetchReq, rfl⟩ (Finset.mem_singleton_self id)
  obtain ⟨result, hresult, h, hmem, hspace⟩ := hhit
  have hids : childIds [edgeTo id id] 0 id = {id} := resolveHop_edgeTo id id .empty false 0
  have hall : h ∈ (answer lucene topN (.single (stranger A id id)) [edgeTo id id] (fun _ => 0) none
      (.children id)).allHits := by
    simp only [answer, children, hids, hresult]
    exact hmem
  have hA := hconfined.hits _ _ _ h hall
  rw [hspace] at hA
  exact space_stranger_ne A id id (Option.some.inj hA)

/-! ## The requests that are confined -/

/-- **Search is as confined as the client makes it.** The answers to a request stay in the space
of the token when the clauses of the request do: no document outside of it meets them, and a walk
asks for no facets. The children of a node are not confined at all. -/
theorem search_confined_iff {g : Spe.Gateway} {u : Spe.Upstream} (h : Forwarded g A u)
    (call : Call) : Confined lucene topN A (psHeader u) call ↔ call.StaysIn lucene A := by
  rw [h.psHeader_eq]
  cases call with
  | search body => exact confined_search_iff body
  | graph body => exact confined_walk_iff (walkAnswers_graph topN body)
  | stream body => exact confined_walk_iff (walkAnswers_stream topN body)
  | children nodeId => exact iff_of_false (not_confined_children nodeId) id

/-- A body that names the space keeps its clauses in it. -/
theorem SearchRequest.space_of_admits {body : SearchRequest} {node : Node} (hblank : isBlank A = false)
    (hspace : body.projectSpaceId = some A) (h : body.Admits lucene node) : node.space = A := by
  obtain ⟨clauses, hclauses, hmatch⟩ := h
  have hterm : Clause.term "_projectSpaceId" A ∈ clauses := by
    simp only [buildMainQuery, Option.bind_eq_bind, Option.bind_eq_some_iff] at hclauses
    obtain ⟨text, -, filters, -, filterTerms, -, hclauses⟩ := hclauses
    split at hclauses
    · cases hclauses
      simp [valueClause, hspace, hblank]
    · cases hclauses
  have hmeets := List.all_eq_true.mp hmatch _ hterm
  rw [Clause.meets, node.terms_projectSpaceId, List.contains_iff_mem, List.mem_singleton] at hmeets
  exact hmeets.symm

section Requests

/-- A Lucene that finds no document by its text. -/
def noText : Lucene String where
  parse := some
  escape := id
  matchesText _ _ := false
  tokens _ := []
  sortable _ := 0
  score _ _ _ := 0
  totalHits _ docs := docs.length
  accepts clauses := clauses.length ≤ 1024
  accepts_nil := rfl

/-- A gateway in front of one search service. -/
def searchGateway : Spe.Gateway where
  verify_session _ := none
  verify_forward _ := none
  mint_forward _ := some "fwd"
  pno_version := 0
  verify_token _ _ := false
  get_user_context _ _ := none
  get_tag_config _ := ⟨false, fun _ => []⟩
  instances _ := [⟨"search-1", "search-api:8088", none, true⟩]
  next_rr _ := 0
  base64 _ := none
  traceparent := ""

def member : Spe.UserContext := ⟨"alice", [], false, some "ps1", ["search"], [], none⟩

def searchRequest : Spe.Request where
  method := "POST"
  path := "/api/search".toList
  query := none
  headers := [("x-plm-projectspace", "ps1")]
  path_legal := by decide

/-- The request as it reaches the search service. -/
def searchUpstream : Spe.Upstream :=
  searchGateway.upstream
    { searchRequest with headers := [("authorization", "Bearer fwd")] } "search"
    ⟨"search-1", "search-api:8088", none, true⟩

theorem forwarded_search : Forwarded searchGateway "ps1" searchUpstream :=
  ⟨member, searchRequest, rfl, rfl, rfl, rfl⟩

/-- A body that names a space, and nothing else. -/
def bodyIn (space : Option String) : SearchRequest :=
  .new none none space none none false none none none none none 10

/-- A search that names its space is confined to it. -/
theorem search_confined_in_space :
    Confined noText 50 "ps1" (psHeader searchUpstream) (.search (bodyIn (some "ps1"))) :=
  (search_confined_iff forwarded_search _).mpr fun _ hadmits =>
    SearchRequest.space_of_admits (by decide) rfl hadmits

/-- A search that names no space returns a document of another one. -/
theorem search_leaves_space : Forwarded searchGateway "ps1" searchUpstream ∧
    ∃ h ∈ (answer noText 50 (.single (stranger "ps1" "n1" "status")) [] (fun _ => 0)
      (psHeader searchUpstream) (.search (bodyIn none))).allHits, h.projectSpaceId = some "xps1" := by
  have hhit : ∃ h ∈ (executeSearch noText (.single (stranger "ps1" "n1" "status")) []
      (bodyIn none) 0).hits, h.projectSpaceId = some (stranger "ps1" "n1" "status").space :=
    executeSearch_singleton rfl rfl
  obtain ⟨h, hmem, hspace⟩ := hhit
  refine ⟨forwarded_search, h, ?_, hspace⟩
  rw [forwarded_search.psHeader_eq, answer, allHits_search]
  exact hmem

end Requests

end PlmCore.Search
