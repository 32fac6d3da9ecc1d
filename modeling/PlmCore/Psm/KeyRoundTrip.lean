/-
Target keys, written and read back.

The key of a link is the logical id of its target, and for a pinned link an `@` and the number of
the version behind it. The resolver splits at the first `@`, so the two are told apart as long as
the logical id has none; and a number leads to a version only once that is committed.
-/
import PlmCore.Psm.EdgeIndex
import PlmCore.Psm.KeyMeaning
import PlmCore.Psm.NodeIdentity

set_option autoImplicit false

namespace PlmCore.Psm

open PlmCore.Lib

/-- The key of a pinned link. -/
def pinnedKey (logicalId : String) (versionNumber : Nat) : String :=
  logicalId ++ "@" ++ toString versionNumber

/-! ## Parsing -/

theorem parseKey_unpinned {logicalId : String} (hat : hasAt logicalId = false) :
    parseKey logicalId = .ok ⟨logicalId, none⟩ := by
  rw [parseKey, if_pos hat]

theorem parseKey_pinned {logicalId : String} {k : Nat} (hat : hasAt logicalId = false)
    (hne : logicalId ≠ "") (hk : k < 2147483648) :
    parseKey (pinnedKey logicalId k) = .ok ⟨logicalId, some k⟩ := by
  have hafter : afterAt (pinnedKey logicalId k) = toString k := afterAt_withSuffix hat _
  have hbefore : beforeAt (pinnedKey logicalId k) = logicalId := by
    rw [pinnedKey, beforeAt_withSuffix, beforeAt_of_not_hasAt hat]
  have hdigits : toString k ≠ "" := by
    intro hempty
    have hparse := parseInt_toString hk
    rw [hempty] at hparse
    cases hparse
  unfold parseKey
  rw [hbefore, hafter, parseInt_toString hk, if_neg (by rw [pinnedKey, hasAt_withSuffix]; decide),
    if_neg (not_or.mpr ⟨hne, hdigits⟩)]

/-! ## Resolving -/

section Resolving

variable {env : Env} {s : Db} {n : NodeRow} {nodeTypeId logicalId type : String}

/-- The logical id leads to its node alone. -/
theorem nodesByLogicalId_of_identifies (hi : s.Identifies n.id nodeTypeId logicalId)
    (hn : n ∈ s.nodes) : s.nodesByLogicalId logicalId = [n] := by
  refine filter_eq_singleton (List.Nodup.of_map _ s.valid.pk_node) hn ?_ fun m hm hlogical => ?_
  · exact decide_eq_true (hi.same n hn rfl).1
  · have hid := hi.only (List.mem_map_of_mem hn) m hm (of_decide_eq_true hlogical)
    exact List.inj_on_of_nodup_map s.valid.pk_node hm hn hid

/-- The resolver finds it at every type its own type is or descends from. -/
theorem selfNode_of_identifies (hi : s.Identifies n.id nodeTypeId logicalId) (hn : n ∈ s.nodes)
    (htype : env.isTypeOrDescendant nodeTypeId type = true) :
    selfNode env s.nodes type logicalId = some n := by
  have hall : s.nodes.filter (·.logicalId = some logicalId) = [n] :=
    nodesByLogicalId_of_identifies hi hn
  have hexact : exactNodes s.nodes type logicalId = [n].filter (·.nodeTypeId = type) := by
    rw [← hall, List.filter_filter]
    refine List.filter_congr fun m _ => ?_
    rw [Bool.decide_and, Bool.and_comm]
  by_cases hsame : n.nodeTypeId = type
  · rw [selfNode, hexact, List.filter_cons_of_pos (by simpa using hsame)]
    rfl
  · rw [selfNode, hexact, List.filter_cons_of_neg (by simpa using hsame), List.filter_nil, if_pos rfl,
      hall]
    refine Option.filter_eq_some_iff.mpr ⟨rfl, ?_⟩
    rw [(hi.same n hn rfl).2]
    exact htype

/-- An unpinned key leads to the node. -/
theorem returns_selfResolve_unpinned (hat : hasAt logicalId = false)
    (hnode : selfNode env s.nodes type logicalId = some n) :
    Returns (selfResolve env type logicalId) s ⟨logicalId, n.nodeTypeId, none, n, none⟩ s := by
  simp only [selfResolve, returns_bind, returns_ofResult, returns_resolveNode]
  exact ⟨_, s, ⟨parseKey_unpinned hat, rfl⟩, n, s, ⟨rfl, hnode⟩, returns_pure.mpr ⟨rfl, rfl⟩⟩

/-- A pinned key is looked up among the versions of the node. -/
theorem returns_selfResolve_pinned {k : Nat} {r : ResolvedTarget} {s' : Db}
    (hat : hasAt logicalId = false) (hne : logicalId ≠ "") (hk : k < 2147483648)
    (hnode : selfNode env s.nodes type logicalId = some n) :
    Returns (selfResolve env type (pinnedKey logicalId k)) s r s' ↔
      Returns (resolveVersion n logicalId k) s r s' := by
  simp only [selfResolve, returns_bind, returns_ofResult, returns_resolveNode]
  constructor
  · rintro ⟨p, _, ⟨hp, rfl⟩, m, _, ⟨rfl, hm⟩, h⟩
    obtain rfl := Except.ok.inj ((parseKey_pinned hat hne hk).symm.trans hp)
    obtain rfl := Option.some.inj (hnode.symm.trans hm)
    exact h
  · intro h
    exact ⟨_, s, ⟨parseKey_pinned hat hne hk, rfl⟩, n, s, ⟨rfl, hnode⟩, h⟩

end Resolving

/-! ## The round trip -/

/-- A created node has a logical id. -/
theorem createNode_nonempty {env : Env} {ctx : Caller} {projectSpaceId : Option String}
    {nodeTypeId : String} {logicalId externalId : Option String} {nodeId : Uuid} {s s' : Db}
    (h : Returns (createNode env ctx projectSpaceId nodeTypeId logicalId externalId) s nodeId s') :
    trim (nvl logicalId) ≠ "" := by
  simp only [createNode, checkLogicalId, returns_bind, returns_orElseThrow, returns_query,
    returns_require, and_assoc, exists_and_left, exists_eq_left, exists_const] at h
  obtain ⟨nodeType, -, hne, -⟩ := h
  exact hne

/-- **Target keys round trip.** In every store that requests reach from the creation of a node under a
logical id without an `@`, as long as the node is stored, the logical id resolves to it, at each type
its own is or descends from; and the logical id with the number of one of its versions resolves, to
that version and by the same key, exactly when the version is committed. -/
theorem target_key_round_trip {env : Env} {ctx : Caller} {projectSpaceId : Option String}
    {nodeTypeId : String} {logicalId externalId : Option String} {nodeId : Uuid} {s created : Db}
    (hcreate : Returns (createNode env ctx projectSpaceId nodeTypeId logicalId externalId) s nodeId created)
    (hat : hasAt (trim (nvl logicalId)) = false) (later : List StoreRequest) {store : Db}
    (hstore : run (Db.step env) created later = store) {n : NodeRow} (hn : n ∈ store.nodes)
    (hid : n.id = nodeId) {type : String} (htype : env.isTypeOrDescendant nodeTypeId type = true) :
    Returns (selfResolve env type (trim (nvl logicalId))) store
        ⟨trim (nvl logicalId), nodeTypeId, none, n, none⟩ store ∧
      ∀ v ∈ store.versions, v.nodeId = nodeId → v.versionNumber < 2147483648 →
        (store.isCommitted v.txId = true →
          Returns (selfResolve env type (pinnedKey (trim (nvl logicalId)) v.versionNumber)) store
            ⟨pinnedKey (trim (nvl logicalId)) v.versionNumber, nodeTypeId,
              some (pinnedKey (trim (nvl logicalId)) v.versionNumber), n, some v⟩ store) ∧
        (store.isCommitted v.txId = false → ∀ r s', ¬ Returns (selfResolve env type
          (pinnedKey (trim (nvl logicalId)) v.versionNumber)) store r s') := by
  have hne := createNode_nonempty hcreate
  have hi : store.Identifies n.id nodeTypeId (trim (nvl logicalId)) := by
    rw [← hstore, hid]
    exact identifies_run (identifies_created hcreate) later
  have hnode := selfNode_of_identifies hi hn htype
  have htypeId : n.nodeTypeId = nodeTypeId := (hi.same n hn rfl).2
  refine ⟨htypeId ▸ returns_selfResolve_unpinned hat hnode, fun v hv hvnode hk => ⟨fun hcommitted => ?_,
    fun hopen r s' hresolved => ?_⟩⟩
  · rw [returns_selfResolve_pinned hat hne hk hnode, ← htypeId]
    exact returns_resolveVersion _ hv (hvnode.trans hid.symm) hcommitted
  · rw [returns_selfResolve_pinned hat hne hk hnode] at hresolved
    obtain ⟨w, hw, hwnode, hwnumber, hwcommitted⟩ := hasCommitted_iff.mp (resolveVersion_ok hresolved).2
    -- the number names one version of the node
    have hsame : w = v := by
      refine List.inj_on_of_nodup_map store.valid.uq_node_version hw hv ?_
      rw [Prod.mk.injEq, hwnode, hid, hvnode]
      exact ⟨rfl, by omega⟩
    rw [hsame, hopen] at hwcommitted
    cases hwcommitted

/-! ## A part -/

/-- A store with one new part. -/
def partCreated : Db := (createNode partsEnv engineer none "nt-part" (some " P-1 ") none Db.empty).2

theorem partCreated_returns :
    Returns (createNode partsEnv engineer none "nt-part" (some " P-1 ") none) Db.empty 0 partCreated :=
  Prod.ext (by decide +kernel) rfl

/-- Once its transaction is committed, the first version of the part is found by its key. -/
theorem target_key_round_trip_part : ∃ store : Db, ∃ n ∈ store.nodes, ∃ v ∈ store.versions,
    run (Db.step partsEnv) partCreated [.authoring engineer 1 1 (.commit (some "first") [])] = store ∧
      n.id = 0 ∧ v.versionNumber = 1 ∧
      Returns (selfResolve partsEnv "nt-part" "P-1@1") store
        ⟨"P-1@1", "nt-part", some "P-1@1", n, some v⟩ store := by
  have hstored : ∃ n ∈ (run (Db.step partsEnv) partCreated
      [.authoring engineer 1 1 (.commit (some "first") [])]).nodes, n.id = 0 := by decide +kernel
  have hversion : ∃ v ∈ (run (Db.step partsEnv) partCreated
      [.authoring engineer 1 1 (.commit (some "first") [])]).versions, v.nodeId = 0 ∧
        v.versionNumber = 1 ∧ (run (Db.step partsEnv) partCreated
          [.authoring engineer 1 1 (.commit (some "first") [])]).isCommitted v.txId = true := by
    decide +kernel
  obtain ⟨n, hn, hid⟩ := hstored
  obtain ⟨v, hv, hnode, hnumber, hcommitted⟩ := hversion
  have hfound := ((target_key_round_trip partCreated_returns (by decide) _ rfl hn hid
    (Env.isTypeOrDescendant_refl partsEnv "nt-part")).2 v hv hnode (by omega)).1 hcommitted
  have hkey : pinnedKey (trim (nvl (some " P-1 "))) v.versionNumber = "P-1@1" := by
    rw [hnumber]
    decide +kernel
  rw [hkey] at hfound
  exact ⟨_, n, hn, v, hv, rfl, hid, hnumber, hfound⟩

/-- Before that its key is refused, although the part is there and the key without a version leads to
it. -/
theorem key_of_open_version :
    Returns (createNode partsEnv engineer none "nt-part" (some " P-1 ") none) Db.empty 0 partCreated ∧
      (∃ v ∈ partCreated.versions, v.nodeId = 0 ∧ pinnedKey "P-1" v.versionNumber = "P-1@1") ∧
      (selfResolve partsEnv "nt-part" "P-1" partCreated).1.toOption.isSome = true ∧
      ∀ r s', ¬ Returns (selfResolve partsEnv "nt-part" "P-1@1") partCreated r s' := by
  have hrefused : (selfResolve partsEnv "nt-part" "P-1@1" partCreated).1 =
      .error (.illegalArgument "SELF: no committed version 1 for node P-1") := by decide +kernel
  refine ⟨partCreated_returns, by decide +kernel, by decide +kernel, fun r s' h => ?_⟩
  rw [show selfResolve partsEnv "nt-part" "P-1@1" partCreated = (.ok r, s') from h] at hrefused
  cases hrefused

end PlmCore.Psm
