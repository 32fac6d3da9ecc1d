/-
`MetaModelService`: the hierarchy of the node types.

A node type names its parent. `updateNodeTypeParent` refuses a parent that is the type itself or lies
above itself within fifty steps, and `createNodeType` asks the same of an id that no type has yet. So
the hierarchy stays a forest in the runs in which no new type is its own parent and no parent lies
fifty steps or more below the type it is given to.
-/
import PlmCore.Lib.Forest
import PlmCore.Lib.JavaText
import PlmCore.Lib.Run
import PlmCore.Psa.Schema

set_option autoImplicit false

namespace PlmCore.Psa

open PlmCore.Lib

/-! ## The hierarchy -/

namespace Tables

variable (t : Tables)

/-- The row of a node type. -/
def nodeType? (id : String) : Option NodeTypeRow := t.nodeTypes.find? (·.id = id)

/-- `SELECT parent_node_type_id FROM node_type WHERE id = ?`. -/
def parentOf (id : String) : Option String := (t.nodeType? id).bind (·.parentNodeTypeId)

/-- `INSERT INTO node_type`. -/
def insertNodeType (n : NodeTypeRow) : Tables := { t with nodeTypes := t.nodeTypes ++ [n] }

/-- `UPDATE node_type SET parent_node_type_id = ? WHERE id = ?`. -/
def setParent (id : String) (parent : Option String) : Tables :=
  { t with nodeTypes := t.nodeTypes.map fun n =>
      if n.id = id then { n with parentNodeTypeId := parent } else n }

end Tables

/-! ## The methods -/

/-- The text unless it is null or blank. -/
def notBlank (s : Option String) : Option String := s.filter fun s => ¬ isBlank s

/-- The loop of `assertNoCycle`, with the steps it has left: the type is not met on the way up. -/
def assertNoCycle.loop (t : Tables) (nodeTypeId : Option String) : Nat → Option String → PsaTxn Unit
  | 0, _ => pure ()
  | _ + 1, none => pure ()
  | depth + 1, some current => do
    require (some current ≠ nodeTypeId)
      (.illegalArgument "Setting this parent would create a circular inheritance chain")
    assertNoCycle.loop t nodeTypeId depth (t.parentOf current)

/-- `assertNoCycle`. A type that has no id yet is met nowhere. -/
def assertNoCycle (nodeTypeId : Option String) (parentNodeTypeId : String) : PsaTxn Unit := do
  let t ← query (·.toTables)
  assertNoCycle.loop t nodeTypeId 50 (some parentNodeTypeId)

/-- The arguments of `createNodeType`. -/
structure NodeTypeRequest where
  code : Option String
  name : Option String
  description : Option String
  lifecycleId : Option String
  numberingScheme : Option String
  versionPolicy : Option String
  color : Option String
  icon : Option String
  parentNodeTypeId : Option String

/-- The row `createNodeType` inserts. -/
def NodeTypeRequest.row (req : NodeTypeRequest) (code name : String) : NodeTypeRow where
  id := code
  name := name
  description := req.description
  lifecycleId := req.lifecycleId
  logicalIdLabel := some "Identifier"
  logicalIdPattern := none
  numberingScheme := (notBlank req.numberingScheme).getD "ALPHA_NUMERIC"
  versionPolicy := (notBlank req.versionPolicy).getD "ITERATE"
  color := notBlank req.color
  icon := notBlank req.icon
  collapseHistory := false
  parentNodeTypeId := notBlank req.parentNodeTypeId

/-- `createNodeType`. -/
def createNodeType (req : NodeTypeRequest) : PsaTxn String := do
  let code ← validateCode req.code
  (notBlank req.parentNodeTypeId).elim (pure ()) (assertNoCycle none)
  let name ← orElseThrow req.name .dataIntegrity
  execute fun t => t.insertNodeType (req.row code name)
  pure code

/-- `updateNodeTypeParent`. -/
def updateNodeTypeParent (nodeTypeId : String) (parentNodeTypeId : Option String) : PsaTxn Unit :=
  match notBlank parentNodeTypeId with
  | some parent => do
    require (parent ≠ nodeTypeId) (.illegalArgument "A node type cannot inherit from itself")
    assertNoCycle (some nodeTypeId) parent
    execute fun t => t.setParent nodeTypeId (some parent)
  | none => execute fun t => t.setParent nodeTypeId none

/-- A call of one of the two methods. -/
inductive NodeTypeCall
  | createNodeType (req : NodeTypeRequest)
  | updateNodeTypeParent (nodeTypeId : String) (parentNodeTypeId : Option String)

/-- The store after a call. -/
def NodeTypeCall.perform (s : Db) : NodeTypeCall → Db
  | .createNodeType req => afterCall (Psa.createNodeType req) s
  | .updateNodeTypeParent nodeTypeId parent => afterCall (Psa.updateNodeTypeParent nodeTypeId parent) s

/-! ## What the check tells -/

variable {t : Tables} {s s' : Db} {nodeTypeId parent : String}

theorem returns_assertNoCycle_loop {id : Option String} {depth : Nat} {current : Option String}
    {u : Unit} : Returns (assertNoCycle.loop t id depth current) s u s' ↔
      s' = s ∧ ∀ n < depth, ∀ x, current.bind (placeAfter t.parentOf n) = some x → some x ≠ id := by
  induction depth generalizing current s with
  | zero => simp [assertNoCycle.loop]
  | succ depth ih =>
    cases current with
    | none => simp [assertNoCycle.loop]
    | some current =>
      simp only [assertNoCycle.loop, returns_bind, returns_require, ih]
      constructor
      · rintro ⟨-, _, ⟨hne, rfl⟩, rfl, hrest⟩
        refine ⟨rfl, fun n hn x hx => ?_⟩
        cases n with
        | zero =>
          obtain rfl : current = x := Option.some.inj hx
          exact hne
        | succ n => exact hrest n (by omega) x hx
      · rintro ⟨rfl, hall⟩
        refine ⟨(), s', ⟨hall 0 (by omega) current rfl, rfl⟩, rfl, fun n hn x hx => ?_⟩
        exact hall (n + 1) (by omega) x hx

/-- **The check passes** exactly when the type is not met within fifty steps. -/
theorem returns_assertNoCycle {id : Option String} {u : Unit} :
    Returns (assertNoCycle id parent) s u s' ↔
      s' = s ∧ ∀ n < 50, ∀ x, placeAfter s.parentOf n parent = some x → some x ≠ id := by
  simp only [assertNoCycle, returns_bind, returns_query]
  constructor
  · rintro ⟨_, _, ⟨rfl, rfl⟩, h⟩
    exact returns_assertNoCycle_loop.mp h
  · intro h
    exact ⟨_, _, ⟨rfl, rfl⟩, returns_assertNoCycle_loop.mpr h⟩

/-! ## What a call does to the hierarchy -/

namespace Tables

variable {id code p x : String} {n : NodeTypeRow} {q : Option String}

theorem mem_nodeTypeIds_iff : x ∈ t.nodeTypeIds ↔ (t.nodeType? x).isSome := by
  simp [nodeTypeIds, nodeType?, List.find?_isSome]

/-- Only a stored type has a parent, and the parent is stored. -/
theorem Valid.parentOf_mem (h : t.Valid) (hx : t.parentOf x = some p) :
    x ∈ t.nodeTypeIds ∧ p ∈ t.nodeTypeIds := by
  obtain ⟨n, hn, hp⟩ := Option.bind_eq_some_iff.mp hx
  exact ⟨mem_nodeTypeIds_iff.mpr (Option.isSome_of_mem hn),
    h.fk_node_type_parent n (List.mem_of_find?_eq_some hn) p hp⟩

/-- The primary key refuses an id that is stored. -/
theorem Valid.not_mem_of_insertNodeType (h : (t.insertNodeType n).Valid) : n.id ∉ t.nodeTypeIds := by
  have hnodup : (t.nodeTypeIds ++ [n.id]).Nodup := by
    simpa [nodeTypeIds, insertNodeType] using h.pk_node_type
  intro hmem
  exact List.disjoint_of_nodup_append hnodup hmem (List.mem_singleton_self n.id)

theorem parentOf_insertNodeType (h : n.id ∉ t.nodeTypeIds) :
    (t.insertNodeType n).parentOf = Function.update t.parentOf n.id n.parentNodeTypeId := by
  funext x
  by_cases hx : x = n.id
  · have hnone : t.nodeTypes.find? (·.id = n.id) = none := by
      simpa [mem_nodeTypeIds_iff, nodeType?] using h
    rw [hx, Function.update_self, parentOf, nodeType?, insertNodeType, List.find?_append, hnone]
    simp
  · rw [Function.update_of_ne hx, parentOf, nodeType?, insertNodeType, List.find?_append]
    simp [Ne.symm hx, parentOf, nodeType?]

theorem parentOf_setParent (h : id ∈ t.nodeTypeIds) :
    (t.setParent id q).parentOf = Function.update t.parentOf id q := by
  funext x
  have hfind : (t.setParent id q).nodeType? x = (t.nodeType? x).map fun n =>
      if n.id = id then { n with parentNodeTypeId := q } else n := by
    rw [nodeType?, setParent, List.find?_map]
    congr 2
    funext n
    by_cases hn : n.id = id
    · simp [hn]
    · simp [hn]
  rw [parentOf, hfind]
  by_cases hx : x = id
  · obtain ⟨n, hn⟩ := Option.isSome_iff_exists.mp (mem_nodeTypeIds_iff.mp h)
    have hid : n.id = id := by simpa using List.find?_some hn
    rw [hx, Function.update_self, hn]
    simp [hid]
  · rw [Function.update_of_ne hx, parentOf]
    cases hn : t.nodeType? x with
    | none => rfl
    | some n =>
      have hid : n.id = x := by simpa using List.find?_some hn
      simp [hid, hx]

theorem setParent_of_not_mem (h : id ∉ t.nodeTypeIds) : t.setParent id q = t := by
  have hsame : (t.nodeTypes.map fun n =>
      if n.id = id then { n with parentNodeTypeId := q } else n) = t.nodeTypes := by
    rw [List.map_congr_left (g := fun n => n), List.map_id']
    intro n hn
    have hne : n.id ≠ id := by
      rintro rfl
      exact h (List.mem_map_of_mem hn)
    rw [if_neg hne]
  rw [setParent, hsame]

end Tables

/-! ## Runs -/

/-- A call that keeps the hierarchy a forest: no type is created as its own parent, and the type is
not met fifty steps or more above the parent it is given. -/
def NodeTypeCall.KeepsForest (s : Db) : NodeTypeCall → Prop
  | .createNodeType req => ∀ p, req.parentNodeTypeId = some p → req.code ≠ some p
  | .updateNodeTypeParent nodeTypeId parent => ∀ p, parent = some p →
    ∀ n, 50 ≤ n → placeAfter s.parentOf n p ≠ some nodeTypeId

theorem notBlank_eq_some {o : Option String} {x : String} :
    notBlank o = some x ↔ o = some x ∧ isBlank x = false := by
  simp [notBlank, Option.filter_eq_some_iff]

/-- What `createNodeType` has done when it returns. -/
theorem createNodeType_ok {req : NodeTypeRequest} {code : String}
    (h : Returns (createNodeType req) s code s') :
    req.code = some code ∧ ∃ name, s'.toTables = s.insertNodeType (req.row code name) := by
  rw [createNodeType, returns_bind] at h
  obtain ⟨_, s₀, hvalid, h⟩ := h
  obtain ⟨⟨hcode, -⟩, hs₀⟩ := returns_validateCode.mp hvalid
  rw [hs₀] at h
  obtain ⟨_, s₁, hcheck, h⟩ := returns_bind.mp h
  have hs₁ : s₁ = s := by
    cases hp : notBlank req.parentNodeTypeId with
    | none =>
      rw [hp] at hcheck
      exact (returns_pure.mp hcheck).2
    | some parent =>
      rw [hp] at hcheck
      exact (returns_assertNoCycle.mp hcheck).1
  rw [hs₁] at h
  simp only [returns_bind, returns_orElseThrow, returns_execute, returns_pure] at h
  obtain ⟨name, _, ⟨-, rfl⟩, _, _, hinsert, rfl, rfl⟩ := h
  exact ⟨hcode, name, hinsert⟩

theorem updateNodeTypeParent_ok {p : Option String} {u : Unit}
    (h : Returns (updateNodeTypeParent nodeTypeId p) s u s') :
    s'.toTables = s.setParent nodeTypeId (notBlank p) ∧ ∀ x, notBlank p = some x →
      ∀ n < 50, placeAfter s.parentOf n x ≠ some nodeTypeId := by
  unfold updateNodeTypeParent at h
  cases hp : notBlank p with
  | none =>
    rw [hp] at h
    exact ⟨returns_execute.mp h, fun x hx => nomatch hx⟩
  | some parent =>
    rw [hp] at h
    simp only [returns_bind, returns_require, returns_assertNoCycle, returns_execute] at h
    obtain ⟨-, _, ⟨-, rfl⟩, -, _, ⟨rfl, hcheck⟩, hset⟩ := h
    refine ⟨hset, fun x hx n hn hmet => ?_⟩
    obtain rfl := Option.some.inj hx
    exact hcheck n hn nodeTypeId hmet rfl

/-- **A call that keeps the forest** leaves no cycle behind. -/
theorem NodeTypeCall.acyclic_perform {call : NodeTypeCall} (hs : Acyclic s.parentOf)
    (hcall : call.KeepsForest s) : Acyclic (call.perform s).parentOf := by
  cases call with
  | createNodeType req =>
    obtain hsame | ⟨code, h⟩ := afterCall_cases (Psa.createNodeType req) s
    · rw [perform, hsame]
      exact hs
    · obtain ⟨hcode, name, hinsert⟩ := createNodeType_ok h
      have hfresh := Tables.Valid.not_mem_of_insertNodeType
        (hinsert ▸ (afterCall (Psa.createNodeType req) s).valid)
      rw [perform, hinsert, Tables.parentOf_insertNodeType hfresh, acyclic_update_iff hs]
      intro p hp hreach
      -- nothing stored has the new type as its parent
      obtain heq | hup := comesTo_iff.mp hreach
      · exact hcall p (notBlank_eq_some.mp hp).1 (hcode.trans (congrArg some heq.symm))
      · obtain ⟨x, -, hx⟩ := Relation.TransGen.tail'_iff.mp hup
        exact hfresh (s.valid.parentOf_mem hx).2
  | updateNodeTypeParent nodeTypeId parent =>
    obtain hsame | ⟨u, h⟩ := afterCall_cases (Psa.updateNodeTypeParent nodeTypeId parent) s
    · rw [perform, hsame]
      exact hs
    · obtain ⟨hset, hcheck⟩ := updateNodeTypeParent_ok h
      by_cases hid : nodeTypeId ∈ s.nodeTypeIds
      · rw [perform, hset, Tables.parentOf_setParent hid, acyclic_update_iff hs]
        intro p hp hreach
        obtain ⟨n, hn⟩ := comesTo_iff_placeAfter.mp hreach
        by_cases hlt : n < 50
        · exact hcheck p hp n hlt hn
        · exact hcall p (notBlank_eq_some.mp hp).1 n (by omega) hn
      · rw [perform, hset, Tables.setParent_of_not_mem hid]
        exact hs

/-- Where no type lies above itself every way up ends. -/
theorem exists_root (hs : Acyclic s.parentOf) (id : String) : ∃ root, EndsAt s.parentOf id root :=
  exists_endsAt hs s.nodeTypeIds.toFinset
    (fun _ _ hp => List.mem_toFinset.mpr (s.valid.parentOf_mem hp).1) id

/-- **The hierarchy of the node types** has no cycle, and every way up ends, in every state of a run
whose calls all keep the forest. -/
theorem node_type_hierarchy_stays_acyclic {calls : List NodeTypeCall} (hs : Acyclic s.parentOf)
    (h : Along NodeTypeCall.perform NodeTypeCall.KeepsForest s calls) :
    Acyclic (run NodeTypeCall.perform s calls).parentOf ∧
      ∀ id, ∃ root, EndsAt (run NodeTypeCall.perform s calls).parentOf id root := by
  have hstep : ∀ (s : Db) (call : NodeTypeCall), Acyclic s.parentOf → call.KeepsForest s →
      Acyclic (call.perform s).parentOf := fun _ _ => NodeTypeCall.acyclic_perform
  have hend : Acyclic (run NodeTypeCall.perform s calls).parentOf := Along.invariant hstep hs h
  exact ⟨hend, exists_root hend⟩

/-! ## Two runs -/

/-- The request for a type with a code, a name and a parent. -/
def typeRequest (code : String) (parent : Option String) : NodeTypeRequest :=
  ⟨some code, some code, none, none, none, none, none, none, parent⟩

theorem acyclic_empty : Acyclic Db.empty.parentOf := by
  intro id hup
  obtain ⟨p, hp, -⟩ := above_iff.mp hup
  cases hp

/-- Parts and assemblies, with the assemblies put below the parts. -/
def partsAndAssemblies : List NodeTypeCall :=
  [.createNodeType (typeRequest "part" none), .createNodeType (typeRequest "assembly" none),
    .updateNodeTypeParent "assembly" (some "part")]

theorem node_type_hierarchy_of_parts :
    Acyclic (run NodeTypeCall.perform Db.empty partsAndAssemblies).parentOf ∧
      ∀ id, ∃ root, EndsAt (run NodeTypeCall.perform Db.empty partsAndAssemblies).parentOf id root := by
  refine node_type_hierarchy_stays_acyclic acyclic_empty ⟨?_, ?_, ?_, trivial⟩
  · exact fun p hp => nomatch hp
  · exact fun p hp => nomatch hp
  · intro p hp n hn
    obtain rfl : "part" = p := Option.some.inj hp
    rw [placeAfter_of_end (by decide) (by omega)]
    exact nofun

/-- A type that is created as its own parent lies above itself. -/
theorem node_type_hierarchy_gets_a_cycle : ¬ ∀ calls : List NodeTypeCall,
    Acyclic (run NodeTypeCall.perform Db.empty calls).parentOf := by
  intro hall
  refine hall [.createNodeType (typeRequest "bolt" (some "bolt"))] "bolt"
    (Relation.TransGen.single ?_)
  decide

end PlmCore.Psa
