/-
Documents of one project space.

The fields an upsert adds for the attributes of an item are named apart from those it writes itself,
so that the id and the space of a document are the ones it was written with. What is computed from
a set of ids is a function of the documents of these ids, and two indexes that have the same
documents of a space have the same facets for ids of that space.
-/
import PlmCore.Search.NodeStore

set_option autoImplicit false

namespace PlmCore.Search

open PlmCore.Lib

variable {Text : Type} (lucene : Lucene Text)

/-! ## The fields of a document -/

def IndexableField.name : IndexableField → String
  | .stringField n _ | .textField n _ | .point n _ | .storedString n _ | .storedDouble n _ => n

namespace Document

variable {d d' : Document} {name : String}

theorem getValues_append : getValues (d ++ d') name = getValues d name ++ getValues d' name :=
  List.filterMap_append

theorem terms_append :
    terms lucene (d ++ d') name = terms lucene d name ++ terms lucene d' name :=
  List.flatMap_append

theorem getValues_eq_nil (h : ∀ f ∈ d, f.name ≠ name) : d.getValues name = [] := by
  refine List.filterMap_eq_nil_iff.mpr fun f hf => ?_
  have hname := h f hf
  cases f with
  | stringField n v | storedString n v => exact if_neg hname
  | textField n v | point n v | storedDouble n v => rfl

theorem terms_eq_nil (h : ∀ f ∈ d, f.name ≠ name) : d.terms lucene name = [] := by
  refine List.flatMap_eq_nil_iff.mpr fun f hf => ?_
  have hname := h f hf
  cases f with
  | stringField n v | textField n v => exact if_neg hname
  | storedString n v | point n v | storedDouble n v => rfl

end Document

/-- The names of the fields of an attribute. -/
theorem DynamicField.name_indexed (field : DynamicField) :
    ∀ f ∈ field.indexed lucene, f.name ∈ ["_all", "_enum_fields", "_range_fields"]
      ∨ ∃ rest, f.name = "dyn." ++ rest := by
  intro f hf
  unfold DynamicField.indexed at hf
  -- one case for each type of value, with the fields it is indexed as
  cases hvalues : field.values with
  | string values =>
    rw [hvalues] at hf
    obtain ⟨s, -, hf⟩ := List.mem_flatMap.mp hf
    simp only [List.mem_cons, List.not_mem_nil, or_false] at hf
    obtain rfl | rfl | rfl := hf
    · exact .inr ⟨_, rfl⟩
    · exact .inr ⟨field.name ++ ".kw", String.append_assoc⟩
    · exact .inl (by simp [IndexableField.name])
  | enum values =>
    rw [hvalues] at hf
    obtain ⟨s, -, hf⟩ := List.mem_flatMap.mp hf
    simp only [List.mem_cons, List.not_mem_nil, or_false] at hf
    obtain rfl | rfl | rfl | rfl := hf
    · exact .inr ⟨_, rfl⟩
    · exact .inr ⟨field.name ++ ".kw", String.append_assoc⟩
    · exact .inl (by simp [IndexableField.name])
    · exact .inl (by simp [IndexableField.name])
  | number values =>
    rw [hvalues] at hf
    obtain ⟨v, -, hf⟩ := List.mem_flatMap.mp hf
    simp only [List.mem_cons, List.not_mem_nil, or_false] at hf
    obtain rfl | rfl | rfl := hf
    · exact .inr ⟨_, rfl⟩
    · exact .inr ⟨field.name ++ ".stored", String.append_assoc⟩
    · exact .inl (by simp [IndexableField.name])
  | date values =>
    rw [hvalues] at hf
    obtain ⟨epoch, -, rfl⟩ := List.mem_map.mp hf
    exact .inr ⟨_, rfl⟩
  | boolean values =>
    rw [hvalues] at hf
    obtain ⟨bv, -, rfl⟩ := List.mem_map.mp hf
    exact .inr ⟨field.name ++ ".kw", String.append_assoc⟩
  | other =>
    rw [hvalues] at hf
    cases hf

/-- The names of the fields every document has. -/
def systemFields : List String := ["_id", "_serviceCode", "_itemCode", "_type", "_projectSpaceId"]

theorem DynamicField.name_ne {name : String} (hname : name ∈ systemFields) (field : DynamicField) :
    ∀ f ∈ field.indexed lucene, f.name ≠ name := by
  rintro f hf rfl
  obtain hall | ⟨rest, hrest⟩ := field.name_indexed lucene f hf
  · revert hname
    simp only [List.mem_cons, List.not_mem_nil, or_false] at hall
    obtain h | h | h := hall <;> rw [h] <;> decide
  · have hhead : ∀ n ∈ systemFields, n.toList.head? ≠ some 'd' := by decide
    apply hhead _ hname
    rw [hrest, String.toList_append]
    rfl

namespace Node

variable (node : Node)

/-- The project space of the document of a node. -/
def space : String := nvl node.projectSpaceId

/-- The fields of the attributes of a node. -/
theorem name_fields_ne {name : String} (hname : name ∈ systemFields) :
    ∀ f ∈ node.fields.flatMap (DynamicField.indexed lucene), f.name ≠ name := by
  intro f hf
  obtain ⟨field, -, hf⟩ := List.mem_flatMap.mp hf
  exact field.name_ne lucene hname f hf

@[simp] theorem get_id : (node.document lucene).get "_id" = some node.id := by
  unfold Document.get document
  rw [Document.getValues_append, Document.getValues_eq_nil (node.name_fields_ne lucene (by decide))]
  rfl

@[simp] theorem get_projectSpaceId :
    (node.document lucene).get "_projectSpaceId" = some node.space := by
  unfold Document.get document
  rw [Document.getValues_append, Document.getValues_eq_nil (node.name_fields_ne lucene (by decide))]
  rfl

theorem terms_id : (node.document lucene).terms lucene "_id" = [node.id] := by
  unfold document
  rw [Document.terms_append, Document.terms_eq_nil lucene (node.name_fields_ne lucene (by decide))]
  rfl

theorem terms_projectSpaceId :
    (node.document lucene).terms lucene "_projectSpaceId" = [node.space] := by
  unfold document
  rw [Document.terms_append, Document.terms_eq_nil lucene (node.name_fields_ne lucene (by decide))]
  rfl

/-- The scope of a search is on the id. -/
theorem meets_scope (ids : Finset String) :
    (buildScopeQuery ids).meets lucene (node.document lucene) = decide (node.id ∈ ids) := by
  simp only [buildScopeQuery, Clause.meets, terms_id, List.any_cons, List.any_nil, Bool.or_false]

end Node

/-! ## The documents of a set of ids -/

/-- Nodes with ids in a set are no more than the set has. -/
theorem NodeIndex.length_filter_le (index : NodeIndex) (ids : Finset String) :
    (index.nodes.filter (·.id ∈ ids)).length ≤ ids.card := by
  have hnodup : ((index.nodes.filter (·.id ∈ ids)).map (·.id)).Nodup :=
    index.ids_nodup.sublist (List.filter_sublist.map _)
  have hsubset : ((index.nodes.filter (·.id ∈ ids)).map (·.id)).toFinset ⊆ ids := by
    intro id hid
    obtain ⟨node, hnode, rfl⟩ := List.mem_map.mp (List.mem_toFinset.mp hid)
    exact of_decide_eq_true (List.mem_filter.mp hnode).2
  have hcard := Finset.card_le_card hsubset
  rw [List.toFinset_card_of_nodup hnodup, List.length_map] at hcard
  exact hcard

/-- A facet is computed from the documents of its ids. -/
theorem scopeDocs_eq (index : NodeIndex) (ids : Finset String) :
    scopeDocs lucene index ids
      = (index.nodes.filter (·.id ∈ ids)).map (·.document lucene) := by
  have hfilter : (index.documents lucene).filter ((buildScopeQuery ids).meets lucene)
      = (index.nodes.filter (·.id ∈ ids)).map (·.document lucene) := by
    rw [NodeIndex.documents, List.filter_map]
    congr 1
    apply List.filter_congr
    intro node _
    exact node.meets_scope lucene ids
  rw [scopeDocs, hfilter]
  apply List.take_of_length_le
  have hle := index.length_filter_le ids
  rw [List.length_map]
  omega

/-- The two indexes have the same documents of the space, in the same order. -/
def SameScope (A : String) (index index' : NodeIndex) : Prop :=
  index.nodes.filter (·.space = A) = index'.nodes.filter (·.space = A)

/-- Every document with an id of the set is of the space. -/
def NodeIndex.ScopedTo (index : NodeIndex) (A : String) (ids : Finset String) : Prop :=
  ∀ node ∈ index.nodes, node.id ∈ ids → node.space = A

section SameScope

variable {lucene} {A : String} {index index' : NodeIndex} {ids : Finset String}

theorem SameScope.symm (h : SameScope A index index') : SameScope A index' index := Eq.symm h

/-- The documents of ids of a space come from the documents of the space. -/
theorem NodeIndex.ScopedTo.filter_eq (h : index.ScopedTo A ids) :
    index.nodes.filter (·.id ∈ ids) = (index.nodes.filter (·.space = A)).filter (·.id ∈ ids) := by
  rw [List.filter_filter]
  apply List.filter_congr
  intro node hnode
  by_cases hid : node.id ∈ ids
  · simp [hid, h node hnode hid]
  · simp [hid]

theorem SameScope.scopeDocs_eq (hsame : SameScope A index index') (h : index.ScopedTo A ids)
    (h' : index'.ScopedTo A ids) : scopeDocs lucene index ids = scopeDocs lucene index' ids := by
  rw [Search.scopeDocs_eq, Search.scopeDocs_eq, h.filter_eq, h'.filter_eq, hsame]

theorem SameScope.computeFacets_eq (hsame : SameScope A index index') (h : index.ScopedTo A ids)
    (h' : index'.ScopedTo A ids) (topN : Nat) (dims : List String) :
    computeFacets lucene topN index ids dims = computeFacets lucene topN index' ids dims := by
  unfold computeFacets
  rw [hsame.scopeDocs_eq h h']

theorem SameScope.computeRangeFacets_eq (hsame : SameScope A index index')
    (h : index.ScopedTo A ids) (h' : index'.ScopedTo A ids) :
    computeRangeFacets lucene index ids = computeRangeFacets lucene index' ids := by
  unfold computeRangeFacets
  rw [hsame.scopeDocs_eq h h']

/-- Deleting a document of another space. -/
theorem SameScope.delete (index : NodeIndex) {id : String}
    (h : ∀ node ∈ index.nodes, node.id = id → node.space ≠ A) :
    SameScope A index (index.delete id) := by
  unfold SameScope NodeIndex.delete
  rw [List.filter_filter]
  apply List.filter_congr
  intro node hnode
  by_cases hid : node.id = id
  · simp [hid, h node hnode hid]
  · simp [hid]

/-- Writing a document of another space, over none of this one. -/
theorem SameScope.upsert (index : NodeIndex) {node : Node} (hnode : node.space ≠ A)
    (h : ∀ old ∈ index.nodes, old.id = node.id → old.space ≠ A) :
    SameScope A index (index.upsert node) := by
  have hdelete := SameScope.delete index h
  unfold SameScope NodeIndex.delete at hdelete
  unfold SameScope NodeIndex.upsert
  rw [hdelete, List.filter_append, List.filter_cons_of_neg (by simpa using hnode),
    List.filter_nil, List.append_nil]

end SameScope

/-! ## Hits -/

/-- The clauses of a request take the document of the node. -/
def SearchRequest.Admits (req : SearchRequest) (node : Node) : Prop :=
  ∃ clauses, buildMainQuery lucene req = some clauses
    ∧ matchesAll lucene clauses (node.document lucene) = true

section Hits

variable {lucene} {index : NodeIndex} {clauses : List (Clause Text)} {req : SearchRequest}

theorem mem_topDocs {n : Nat} {d : Document} (h : d ∈ topDocs lucene index clauses n) :
    ∃ node ∈ index.nodes, matchesAll lucene clauses (node.document lucene) = true
      ∧ d = node.document lucene := by
  have hmem := List.mem_of_mem_take h
  rw [List.mem_mergeSort, List.mem_filter] at hmem
  obtain ⟨node, hnode, rfl⟩ := List.mem_map.mp hmem.1
  exact ⟨node, hnode, hmem.2, rfl⟩

/-- A hit is a document of the index that matches. -/
theorem mem_executeSearch {hop : Nat} {h : Hit}
    (hmem : h ∈ (executeSearch lucene index clauses req hop).hits) :
    ∃ node ∈ index.nodes, matchesAll lucene clauses (node.document lucene) = true
      ∧ h.id = some node.id ∧ h.projectSpaceId = some node.space := by
  obtain ⟨d, hd, rfl⟩ := List.mem_map.mp hmem
  obtain ⟨node, hnode, hmatch, rfl⟩ := mem_topDocs hd
  exact ⟨node, hnode, hmatch, node.get_id lucene, node.get_projectSpaceId lucene⟩

/-- The only document of an index is a hit when it matches. -/
theorem executeSearch_singleton {node : Node} {hop : Nat} (hnodes : index.nodes = [node])
    (hmatch : matchesAll lucene clauses (node.document lucene) = true) :
    ∃ h ∈ (executeSearch lucene index clauses req hop).hits, h.projectSpaceId = some node.space := by
  have htop : topDocs lucene index clauses req.size = [node.document lucene] := by
    unfold topDocs NodeIndex.documents
    rw [hnodes, List.map_singleton, List.filter_singleton, hmatch, cond_true]
    simp only [List.mergeSort_singleton]
    exact List.take_of_length_le req.size_pos
  unfold executeSearch
  rw [htop]
  exact ⟨_, List.mem_singleton.mpr rfl, node.get_projectSpaceId lucene⟩

/-- The scope of a search is one more clause. -/
theorem matchesAll_scope {ids : Finset String} {node : Node} :
    matchesAll lucene (clauses ++ [buildScopeQuery ids]) (node.document lucene) = true
      ↔ matchesAll lucene clauses (node.document lucene) = true ∧ node.id ∈ ids := by
  simp [matchesAll, List.all_append, Node.meets_scope]

theorem mem_searchGlobal {result : SearchResult} {h : Hit}
    (hresult : searchGlobal lucene index req = some result) (hmem : h ∈ result.hits) :
    ∃ node ∈ index.nodes, req.Admits lucene node ∧ h.id = some node.id
      ∧ h.projectSpaceId = some node.space := by
  obtain ⟨clauses, hclauses, rfl⟩ := Option.map_eq_some_iff.mp hresult
  obtain ⟨node, hnode, hmatch, hid, hspace⟩ := mem_executeSearch hmem
  exact ⟨node, hnode, ⟨clauses, hclauses, hmatch⟩, hid, hspace⟩

theorem mem_searchInScope {ids : Finset String} {hop : Nat} {result : SearchResult} {h : Hit}
    (hresult : searchInScope lucene index ids req hop = some result) (hmem : h ∈ result.hits) :
    ∃ node ∈ index.nodes, req.Admits lucene node ∧ node.id ∈ ids
      ∧ h.projectSpaceId = some node.space := by
  unfold searchInScope at hresult
  split at hresult
  · cases hresult
    cases hmem
  · obtain ⟨clauses, hclauses, rfl⟩ := Option.map_eq_some_iff.mp hresult
    obtain ⟨node, hnode, hmatch, -, hspace⟩ := mem_executeSearch hmem
    obtain ⟨hmatch, hid⟩ := matchesAll_scope.mp hmatch
    exact ⟨node, hnode, ⟨clauses, hclauses, hmatch⟩, hid, hspace⟩

/-- The only document of an index is a hit when it is admitted and in the scope. -/
theorem searchInScope_singleton {ids : Finset String} {hop : Nat} {node : Node}
    (hnodes : index.nodes = [node]) (hadmits : req.Admits lucene node) (hid : node.id ∈ ids) :
    ∃ result, searchInScope lucene index ids req hop = some result
      ∧ ∃ h ∈ result.hits, h.projectSpaceId = some node.space := by
  obtain ⟨clauses, hclauses, hmatch⟩ := hadmits
  have hne : ids ≠ ∅ := Finset.ne_empty_of_mem hid
  refine ⟨_, by rw [searchInScope, if_neg hne, hclauses]; rfl, ?_⟩
  exact executeSearch_singleton hnodes (matchesAll_scope.mpr ⟨hmatch, hid⟩)

end Hits

end PlmCore.Search
