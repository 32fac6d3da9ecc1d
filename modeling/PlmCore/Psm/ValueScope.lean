/-
Which attributes the stored values of a version belong to.

A version has the attributes of its node's type and those of the domains assigned to it. Assigning a
domain writes values of its own attributes only, and unassigning it takes all of them away, so
neither leaves a value behind that nothing of the version justifies. `modifyNode` asks
`resolveWritableScope`, which looks at the domains of every version of the node: a value may be
written of a domain that only an earlier version has.
-/
import PlmCore.Psm.Validation
import PlmCore.Psm.VersionChain

set_option autoImplicit false

namespace PlmCore.Psm

open PlmCore.Lib Relation

/-! ## Where a value belongs -/

namespace Tables

variable (env : Env) (t : Tables)

/-- The attribute is one of the node's type, own or inherited. -/
def OfType (nodeId : Uuid) (attr : String) : Prop :=
  ∃ n ∈ t.nodes, n.id = nodeId ∧ attr ∈ (env.typeAttributes n.nodeTypeId).map (·.id)

/-- The attribute is one of a domain assigned to the version. -/
def OfDomains (versionId : Uuid) (attr : String) : Prop :=
  ∃ d ∈ t.domains, d.nodeVersionId = versionId ∧
    attr ∈ (env.getDomainAttributes d.domainId).map (·.id)

/-- Every stored value is one of an attribute of the type or of a domain of its version, or one that
is excused on its node. -/
def ValuesBelong (excused : Uuid → String → Prop) : Prop :=
  ∀ a ∈ t.attributes, ∀ v ∈ t.versions, v.id = a.nodeVersionId →
    t.OfType env v.nodeId a.attributeDefId ∨ t.OfDomains env v.id a.attributeDefId ∨
      excused v.nodeId a.attributeDefId

/-- No stored value is one of an attribute that its version does not have. -/
def NoOrphans : Prop := t.ValuesBelong env fun _ _ => False

/-- What a version that is written in the transaction has: the attributes of the type, those of the
domains of the current version, and the excused ones. -/
def IsAdmitted (excused : Uuid → String → Prop) (nodeId x : Uuid) (attr : String) : Prop :=
  t.OfType env nodeId attr ∨
    (∃ v ∈ t.getCurrentVersionForTx nodeId x, t.OfDomains env v.id attr) ∨ excused nodeId attr

end Tables

/-! ## Steps that write no value -/

/-- No value comes, and what remains of the versions keeps its node, its type and its domains. -/
structure KeepsScope (s s' : Tables) : Prop where
  attributes : s'.attributes ⊆ s.attributes
  versions : ∀ v' ∈ s'.versions, ∃ v ∈ s.versions, v.id = v'.id ∧ v.nodeId = v'.nodeId
  domains : ∀ v' ∈ s'.versions, ∀ d ∈ s.domains, d.nodeVersionId = v'.id → d ∈ s'.domains
  nodes : ∀ v' ∈ s'.versions, ∀ n ∈ s.nodes, n.id = v'.nodeId →
    ∃ n' ∈ s'.nodes, n'.id = n.id ∧ n'.nodeTypeId = n.nodeTypeId

section Steps

variable {env : Env} {excused : Uuid → String → Prop} {s s' : Tables}

theorem Tables.ValuesBelong.keeps (h : s.ValuesBelong env excused) (hk : KeepsScope s s') :
    s'.ValuesBelong env excused := by
  intro a ha v' hv' hid
  obtain ⟨v, hv, hvid, hvnode⟩ := hk.versions v' hv'
  have hbelongs := h a (hk.attributes ha) v hv (hvid.trans hid)
  rw [hvid, hvnode] at hbelongs
  obtain ⟨n, hn, hnid, hattr⟩ | ⟨d, hd, hdid, hattr⟩ | hexcused := hbelongs
  · obtain ⟨n', hn', hn'id, htype⟩ := hk.nodes v' hv' n hn hnid
    exact .inl ⟨n', hn', hn'id.trans hnid, htype ▸ hattr⟩
  · exact .inr (.inl ⟨d, hk.domains v' hv' d hd hdid, hdid, hattr⟩)
  · exact .inr (.inr hexcused)

/-- What a version belongs to is found among the keys. -/
theorem version_of_key {t : Tables} {k : VersionKey} (h : k ∈ t.versionKeys) :
    ∃ v ∈ t.versions, v.id = k.id ∧ v.nodeId = k.nodeId := by
  obtain ⟨v, hv, rfl⟩ := List.mem_map.mp h
  exact ⟨v, hv, rfl, rfl⟩

/-- A node without its locks keeps its id and its type. -/
theorem node_of_unlocked {t : Tables} {n : NodeRow} (h : n.unlocked ∈ t.nodes.map NodeRow.unlocked) :
    ∃ n' ∈ t.nodes, n'.id = n.id ∧ n'.nodeTypeId = n.nodeTypeId := by
  obtain ⟨n', hn', hsame⟩ := List.mem_map.mp h
  have hid : n'.unlocked.id = n.unlocked.id := congrArg NodeRow.id hsame
  have htype : n'.unlocked.nodeTypeId = n.unlocked.nodeTypeId := congrArg NodeRow.nodeTypeId hsame
  exact ⟨n', hn', hid, htype⟩

/-- The step rewrites rows of versions and nodes in place, and may add nodes. -/
theorem KeepsScope.of_rows (hattributes : s'.attributes = s.attributes)
    (hdomains : s'.domains = s.domains) (hkeys : s'.versionKeys = s.versionKeys)
    (hnodes : s.nodes.map NodeRow.unlocked ⊆ s'.nodes.map NodeRow.unlocked) : KeepsScope s s' where
  attributes := by rw [hattributes]; exact List.Subset.refl _
  versions v' hv' := by
    have hkey : v'.key ∈ s'.versionKeys := List.mem_map_of_mem hv'
    exact version_of_key (hkeys ▸ hkey)
  domains _ _ d hd _ := hdomains ▸ hd
  nodes _ _ n hn _ := node_of_unlocked (hnodes (List.mem_map_of_mem hn))

/-- Versions go with all their rows, and with them nodes that have no other ones. -/
theorem KeepsScope.of_discards {p : VersionSelection} {gone : List Uuid} {s s' : Db}
    (h : Discards p gone s.toTables s'.toTables) : KeepsScope s.toTables s'.toTables := by
  have hleft : ∀ v' ∈ s'.versions, v' ∈ s.versions ∧ p v' = false := by
    intro v' hv'
    rw [h.versions] at hv'
    obtain ⟨hv', hp⟩ := List.mem_filter.mp hv'
    exact ⟨hv', by simpa using hp⟩
  constructor
  · rw [h.attributes]
    exact List.filter_subset_self _
  · exact fun v' hv' => ⟨v', (hleft v' hv').1, rfl, rfl⟩
  · -- a version that is left is not one of those selected by id
    intro v' hv' d hd hdid
    obtain ⟨hmem, hp⟩ := hleft v' hv'
    rw [h.domains]
    refine List.mem_filter.mpr ⟨hd, decide_eq_true fun hselected => ?_⟩
    obtain ⟨v, hv, hvid⟩ := List.mem_map.mp hselected
    obtain ⟨hv, hvp⟩ := List.mem_filter.mp hv
    rw [List.inj_on_of_nodup_map s.valid.pk_version hv hmem (hvid.trans hdid), hp] at hvp
    cases hvp
  · intro v' hv' n hn hnid
    obtain ⟨hmem, hp⟩ := hleft v' hv'
    have hstays : n.id ∉ gone := by
      intro hgone
      have hwhole := h.whole n.id hgone v' hmem hnid.symm
      rw [hp] at hwhole
      cases hwhole
    refine node_of_unlocked ?_
    rw [h.nodes]
    exact List.mem_map_of_mem (List.mem_filter.mpr ⟨hn, decide_eq_true hstays⟩)

/-- A collapse deletes versions with all their rows. -/
theorem KeepsScope.of_collapsed {a : StateActionContext} {s s' : Tables} (h : CollapsedTo a s s') :
    KeepsScope s s' := by
  have hleft : ∀ v' ∈ s'.versions, ∃ v ∈ s.versions, v.id ∉ s.collapsedIds a ∧ v.id = v'.id ∧
      v.nodeId = v'.nodeId := by
    intro v' hv'
    rw [h.versions] at hv'
    obtain ⟨v, hv, rfl⟩ := List.mem_map.mp hv'
    obtain ⟨hv, hkept⟩ := List.mem_filter.mp hv
    exact ⟨v, hv, of_decide_eq_true hkept, rfl, rfl⟩
  constructor
  · rw [h.attributes]
    exact List.filter_subset_self _
  · intro v' hv'
    obtain ⟨v, hv, -, hsame⟩ := hleft v' hv'
    exact ⟨v, hv, hsame⟩
  · intro v' hv' d hd hdid
    obtain ⟨v, -, hkept, hvid, -⟩ := hleft v' hv'
    rw [h.domains]
    refine List.mem_filter.mpr ⟨hd, decide_eq_true ?_⟩
    rw [hdid, ← hvid]
    exact hkept
  · intro v' hv' n hn hnid
    exact ⟨n, h.nodes ▸ hn, rfl, rfl⟩

/-- A commit moves versions to another transaction. -/
theorem KeepsScope.of_commits {x y : Uuid} {deferred : List Uuid} {s s' : Tables}
    (h : Commits x y deferred s s') : KeepsScope s s' where
  attributes := by rw [h.attributes]; exact List.Subset.refl _
  versions v' hv' := by
    rw [h.versions] at hv'
    obtain ⟨v, hv, rfl⟩ := List.mem_map.mp hv'
    refine ⟨v, hv, ?_⟩
    unfold VersionRow.deferTo
    split <;> exact ⟨rfl, rfl⟩
  domains _ _ d hd _ := h.domains ▸ hd
  nodes _ _ n hn _ := by
    refine node_of_unlocked ?_
    rw [h.nodes]
    exact List.mem_map_of_mem hn

end Steps

/-! ## Steps that write values -/

section Writes

variable {env : Env} {ctx : Caller} {excused : Uuid → String → Prop} {nodeId x : Uuid} {s s' : Db}

/-- The rows of one version are rewritten, and its values belong again. -/
theorem Tables.ValuesBelong.rows {vid : Uuid} {s t : Tables} (h : s.ValuesBelong env excused)
    (hrows : RowsWritten vid s t)
    (hvid : ∀ v ∈ s.versions, v.id = vid → ∀ a ∈ t.attributesOf vid,
      s.OfType env v.nodeId a.attributeDefId ∨ t.OfDomains env vid a.attributeDefId ∨
        excused v.nodeId a.attributeDefId) : t.ValuesBelong env excused := by
  have hversions : t.versions = s.versions := by rw [hrows.tables]
  have hnodes : t.nodes = s.nodes := by rw [hrows.tables]
  have htype (nodeId : Uuid) (attr : String) (ht : s.OfType env nodeId attr) :
      t.OfType env nodeId attr := by
    rw [Tables.OfType, hnodes]
    exact ht
  intro a ha v hv hid
  rw [hversions] at hv
  have hmem : a ∈ t.attributesOf v.id := List.mem_filter.mpr ⟨ha, decide_eq_true hid.symm⟩
  by_cases hne : v.id = vid
  · rw [hne] at hmem ⊢
    exact (hvid v hv hne a hmem).imp_left (htype _ _)
  · -- the other versions have the rows they had
    rw [hrows.attributesOf hne] at hmem
    refine (h a (List.mem_of_mem_filter hmem) v hv hid).imp (htype _ _) (Or.imp_left ?_)
    rintro ⟨d, hd, hdid, hattr⟩
    have hdmem : d ∈ s.domainsOf v.id := List.mem_filter.mpr ⟨hd, decide_eq_true hdid⟩
    rw [← hrows.domainsOf hne] at hdmem
    exact ⟨d, List.mem_of_mem_filter hdmem, hdid, hattr⟩

theorem mem_putAll {base new : List (String × Option String)} {e : String × Option String}
    (h : e ∈ putAll base new) : e ∈ new ∨ e ∈ base := by
  obtain hbase | hnew := List.mem_append.mp h
  · exact .inr (List.mem_of_mem_filter hbase)
  · exact .inl hnew

/-- A key of the map of a version is the attribute of a stored value of it. -/
theorem mem_attributeMap {t : Tables} {vid : Uuid} {e : String × Option String}
    (h : e ∈ t.attributeMap vid) :
    ∃ a ∈ t.attributes, a.nodeVersionId = vid ∧ a.attributeDefId = e.1 := by
  obtain ⟨a, ha, rfl⟩ := List.mem_map.mp h
  obtain ⟨ha, hvid⟩ := List.mem_filter.mp ha
  exact ⟨a, ha, of_decide_eq_true hvid, rfl⟩

/-- **A new version** has the domains of the current one, so the values it takes over from there
belong to it, and so do submitted ones that are admitted. -/
theorem valuesBelong_createVersion {vid : Uuid} {ct : ChangeType} {strategy : Option VersionStrategy}
    {st : Option String} {attrs : List (String × Option String)} {desc : Option String}
    (h : s.ValuesBelong env excused) (hattrs : ∀ e ∈ attrs, s.IsAdmitted env excused nodeId x e.1)
    (hr : Returns (createVersion env ctx nodeId x ct strategy st attrs desc) s vid s') :
    s'.ValuesBelong env excused := by
  obtain ⟨-, numbering, row, hrow, hnext, hs'⟩ := createVersion_ok hr
  have hrowid : row.id = s.nextId := by rw [hrow, ← hnext]; rfl
  have hrownode : row.nodeId = nodeId := by rw [hrow]; rfl
  have hattributes : s'.attributes = s.attributes ++
      (putAll (s.currentAttributes nodeId x) attrs).map fun e => ⟨row.id, e.1, e.2⟩ := by
    rw [hs']
    rfl
  have hdomains : s'.domains = s.domains ++
      (s.currentDomains nodeId x).map fun d => ⟨row.id, d.domainId⟩ := by
    rw [hs']
    rfl
  have hnodes : s'.nodes = s.nodes := by
    rw [hs']
    rfl
  have hkeys : s'.versionKeys = s.versionKeys ++ [row.key] := by
    rw [hs', versionKeys_addVersion]
  -- the domains of the current version are copied to the new one
  have hcopied : ∀ v ∈ s.getCurrentVersionForTx nodeId x, ∀ attr, s.OfDomains env v.id attr →
      s'.OfDomains env row.id attr := by
    rintro v hv attr ⟨d, hd, hdid, hattr⟩
    refine ⟨⟨row.id, d.domainId⟩, ?_, rfl, hattr⟩
    rw [hdomains, Tables.currentDomains, Option.mem_def.mp hv, Option.map_some, Option.getD_some]
    exact List.mem_append_right _ (List.mem_map.mpr
      ⟨d, List.mem_filter.mpr ⟨hd, decide_eq_true hdid⟩, rfl⟩)
  have htype (n : Uuid) (attr : String) (ht : s.OfType env n attr) : s'.OfType env n attr := by
    rw [Tables.OfType, hnodes]
    exact ht
  intro a ha v' hv' hid
  have hkey : v'.key ∈ s'.versionKeys := List.mem_map_of_mem hv'
  rw [hkeys, List.mem_append, List.mem_singleton] at hkey
  rw [hattributes, List.mem_append] at ha
  obtain hold | hnew := hkey
  · -- an old version has its old values
    obtain ⟨v, hv, hvid, hvnode⟩ := version_of_key hold
    have hvid : v.id = v'.id := hvid
    have hvnode : v.nodeId = v'.nodeId := hvnode
    obtain ha | ha := ha
    · have hbelongs := h a ha v hv (hvid.trans hid)
      rw [hvid, hvnode] at hbelongs
      refine hbelongs.imp (htype _ _) (Or.imp_left ?_)
      rintro ⟨d, hd, hd'⟩
      exact ⟨d, by rw [hdomains]; exact List.mem_append_left _ hd, hd'⟩
    · obtain ⟨e, -, rfl⟩ := List.mem_map.mp ha
      have hlt := s.valid.generated v hv
      rw [hvid, hid, hrowid] at hlt
      exact absurd hlt (Nat.lt_irrefl _)
  · have hv'id : v'.id = row.id := congrArg VersionKey.id hnew
    have hv'node : v'.nodeId = nodeId := (congrArg VersionKey.nodeId hnew).trans hrownode
    rw [hv'id, hv'node]
    obtain ha | ha := ha
    · -- a value that was stored before is of a version with a smaller id
      obtain ⟨v, hv, hvid⟩ := List.mem_map.mp (s.valid.fk_attribute_version a ha)
      have hlt := s.valid.generated v hv
      rw [hvid, ← hid, hv'id, hrowid] at hlt
      exact absurd hlt (Nat.lt_irrefl _)
    · obtain ⟨e, he, rfl⟩ := List.mem_map.mp ha
      obtain hsubmitted | htaken := mem_putAll he
      · obtain ht | ⟨v, hv, hd⟩ | hexcused := hattrs e hsubmitted
        · exact .inl (htype _ _ ht)
        · exact .inr (.inl (hcopied v hv _ hd))
        · exact .inr (.inr hexcused)
      · cases hcurrent : s.getCurrentVersionForTx nodeId x with
        | none =>
          rw [Tables.currentAttributes, hcurrent] at htaken
          cases htaken
        | some v =>
          rw [Tables.currentAttributes, hcurrent, Option.map_some, Option.getD_some] at htaken
          obtain ⟨hv, hvnode⟩ := current_mem hcurrent
          obtain ⟨b, hb, hbid, hbattr⟩ := mem_attributeMap htaken
          have hbelongs := h b hb v hv hbid.symm
          rw [hbattr, hvnode] at hbelongs
          exact hbelongs.imp (htype _ _) (Or.imp_left (hcopied v hcurrent _))

/-- **Assigning a domain** writes values of its attributes only. -/
theorem valuesBelong_assignDomain {vid : Uuid} {domainId : String} {k : Nat}
    (h : s.ValuesBelong env excused) (hr : Returns (assignDomain env nodeId domainId vid) s k s') :
    s'.ValuesBelong env excused := by
  have hs' := (assignDomain_writes hr).2
  refine h.rows (assignDomain_ok hr) fun v hv hid a ha => ?_
  obtain ⟨ha, hvid⟩ := List.mem_filter.mp ha
  have hvid := of_decide_eq_true hvid
  have hdomains : s'.domains = s.domains ++ [⟨vid, domainId⟩] := by
    rw [hs']
    rfl
  have hattributes : s'.attributes = s.attributes ++
      (defaultsOf env domainId).map fun b => ⟨vid, b.id, b.defaultValue⟩ := by
    rw [hs']
    rfl
  rw [hattributes] at ha
  obtain hold | hdefault := List.mem_append.mp ha
  · rw [← hid]
    refine (h a hold v hv (hid.trans hvid.symm)).imp_right (Or.imp_left ?_)
    rintro ⟨d, hd, hd'⟩
    exact ⟨d, by rw [hdomains]; exact List.mem_append_left _ hd, hd'⟩
  · obtain ⟨b, hb, rfl⟩ := List.mem_map.mp hdefault
    refine .inr (.inl ⟨⟨vid, domainId⟩, ?_, rfl, List.mem_map_of_mem (List.mem_of_mem_filter hb)⟩)
    rw [hdomains]
    exact List.mem_append_right _ (List.mem_singleton_self _)

/-- **Unassigning a domain** takes every value that only it justifies. -/
theorem valuesBelong_unassignDomain {vid : Uuid} {domainId : String} {k : Nat}
    (h : s.ValuesBelong env excused) (hr : Returns (unassignDomain env domainId vid) s k s') :
    s'.ValuesBelong env excused := by
  have hs' := unassignDomain_writes hr
  refine h.rows (unassignDomain_ok hr) fun v hv hid a ha => ?_
  obtain ⟨ha, hvid⟩ := List.mem_filter.mp ha
  have hvid := of_decide_eq_true hvid
  rw [hs'] at ha
  obtain ⟨ha, hleft⟩ := List.mem_filter.mp ha
  have hleft : ¬ (a.nodeVersionId = vid ∧ a.attributeDefId ∈ (env.getDomainAttributes domainId).map (·.id)) :=
    of_decide_eq_true hleft
  rw [← hid]
  refine (h a ha v hv (hid.trans hvid.symm)).imp_right (Or.imp_left ?_)
  rintro ⟨d, hd, hdid, hattr⟩
  refine ⟨d, ?_, hdid, hattr⟩
  rw [hs']
  -- the domain that goes is another one, since its values went
  refine List.mem_filter.mpr ⟨hd, decide_eq_true ?_⟩
  rintro ⟨-, rfl⟩
  exact hleft ⟨hvid, hattr⟩

end Writes

/-! ## Requests -/

/-- The request admits every attribute it submits. -/
def StoreRequest.WritesAdmitted (env : Env) (excused : Uuid → String → Prop) (t : Tables) :
    StoreRequest → Prop
  | .authoring _ _ x (.modifyNode nodeId attributes _ _) =>
    ∀ e ∈ attributes, t.IsAdmitted env excused nodeId x e.1
  | _ => True

section Requests

variable {env : Env} {ctx : Caller} {excused : Uuid → String → Prop} {nodeId x : Uuid} {s s' : Db}

/-- Storing a digest and publishing events writes no value. -/
theorem keepsScope_told {t : Tables} {n : Uuid} {v : VersionRow} {es : List PlmEvent} :
    KeepsScope t ((t.refresh env n v).withEvents es) :=
  .of_rows rfl rfl (versionKeys_refresh env n v t) (List.Subset.refl _)

theorem keepsScope_setLock {t : Tables} {b : Option String} {a : Option Nat} {es : List PlmEvent} :
    KeepsScope t ((t.setLock nodeId b a).withEvents es) :=
  .of_rows rfl rfl rfl (unlocked_setLock t nodeId b a ▸ List.Subset.refl _)

/-- A lock is all that a node gets. -/
theorem unlocked_tryLock (hr : Returns (tryLock ctx nodeId) s () s') :
    s'.nodes.map NodeRow.unlocked = s.nodes.map NodeRow.unlocked := by
  obtain ⟨n, -, ⟨-, rfl⟩ | ⟨-, hs'⟩⟩ := tryLock_ok hr
  · rfl
  · rw [hs']
    exact unlocked_setLock s.toTables nodeId _ _

theorem keepsScope_tryLock (hr : Returns (tryLock ctx nodeId) s () s') :
    KeepsScope s.toTables s'.toTables := by
  have hframe := tryLock_frame hr
  exact .of_rows (by rw [hframe]) (by rw [hframe]) (by rw [hframe]; rfl)
    (unlocked_tryLock hr ▸ List.Subset.refl _)

/-- A lock changes nothing of what is admitted. -/
theorem isAdmitted_tryLock {n : Uuid} {attr : String} (h : s.IsAdmitted env excused n x attr)
    (hr : Returns (tryLock ctx nodeId) s () s') : s'.IsAdmitted env excused n x attr := by
  have hframe := tryLock_frame hr
  have hcurrent : s'.getCurrentVersionForTx n x = s.getCurrentVersionForTx n x := by
    rw [hframe]
    rfl
  refine h.imp ?_ (Or.imp_left ?_)
  · rintro ⟨m, hm, hid, hattr⟩
    have hmem : m.unlocked ∈ s'.nodes.map NodeRow.unlocked := by
      rw [unlocked_tryLock hr]
      exact List.mem_map_of_mem hm
    obtain ⟨m', hm', hid', htype⟩ := node_of_unlocked hmem
    exact ⟨m', hm', hid'.trans hid, htype ▸ hattr⟩
  · rintro ⟨v, hv, hd⟩
    rw [hcurrent]
    refine ⟨v, hv, ?_⟩
    rw [Tables.OfDomains, hframe]
    exact hd

theorem keepsScope_openTransaction {y : Uuid} (hr : Returns (openTransaction ctx) s y s') :
    KeepsScope s.toTables s'.toTables := by
  rw [(openTransaction_ok hr).2]
  exact .of_rows rfl rfl rfl (List.Subset.refl _)

theorem keepsScope_findOrOpenTransaction {y : Uuid}
    (hr : Returns (findOrOpenTransaction ctx) s y s') : KeepsScope s.toTables s'.toTables := by
  obtain ⟨rfl, -⟩ | ⟨-, hopen⟩ := findOrOpenTransaction_ok hr
  · exact .of_rows rfl rfl rfl (List.Subset.refl _)
  · exact keepsScope_openTransaction hopen

/-- A node comes with a version that has no values. -/
theorem valuesBelong_createNode {projectSpaceId : Option String} {nodeTypeId : String}
    {logicalId externalId : Option String} (h : s.ValuesBelong env excused)
    (hr : Returns (createNode env ctx projectSpaceId nodeTypeId logicalId externalId) s nodeId s') :
    s'.ValuesBelong env excused := by
  obtain ⟨y, s₁, s₂, s₃, row, es, -, -, hins, hlock, htx, ⟨state, rfl⟩, hs'⟩ := createNode_ok hr
  have hs₁ : s₁.ValuesBelong env excused := by
    refine h.keeps ?_
    rw [hins]
    exact .of_rows rfl rfl rfl (List.map_subset _ (List.subset_append_left _ _))
  have hs₃ := (hs₁.keeps (keepsScope_tryLock hlock)).keeps (keepsScope_findOrOpenTransaction htx)
  have hattributes : s'.attributes = s₃.attributes := by
    rw [hs']
    change s₃.attributes ++ [] = s₃.attributes
    rw [List.append_nil]
  have hdomains : s'.domains = s₃.domains := by
    rw [hs']
    change s₃.domains ++ [] = s₃.domains
    rw [List.append_nil]
  have hnodes : s'.nodes = s₃.nodes := by
    rw [hs']
    rfl
  have hkeys : s'.versionKeys = s₃.versionKeys ++ [(initialVersion ctx s₃.nextId nodeId y state).key] := by
    rw [hs']
    exact versionKeys_addVersion env _ _ _ _
  -- the values of a version are those of an old one, since the new one has none
  intro a ha v' hv' hid
  rw [hattributes] at ha
  have hkey : v'.key ∈ s'.versionKeys := List.mem_map_of_mem hv'
  rw [hkeys, List.mem_append, List.mem_singleton] at hkey
  obtain hold | hnew := hkey
  · obtain ⟨v, hv, hvid, hvnode⟩ := version_of_key hold
    have hvid : v.id = v'.id := hvid
    have hvnode : v.nodeId = v'.nodeId := hvnode
    have hbelongs := hs₃ a ha v hv (hvid.trans hid)
    rw [hvid, hvnode] at hbelongs
    rw [Tables.OfType, Tables.OfDomains, hnodes, hdomains]
    exact hbelongs
  · have hv'id : v'.id = s₃.nextId := congrArg VersionKey.id hnew
    obtain ⟨v, hv, hvid⟩ := List.mem_map.mp (s₃.valid.fk_attribute_version a ha)
    have hlt := s₃.valid.generated v hv
    rw [hvid, ← hid, hv'id] at hlt
    exact absurd hlt (Nat.lt_irrefl _)

theorem valuesBelong_checkout {vid : Uuid} {txId : Option Uuid} (h : s.ValuesBelong env excused)
    (hr : Returns (checkout env ctx nodeId txId) s vid s') : s'.ValuesBelong env excused := by
  obtain ⟨y, s₁, s₂, hlock, htx, hr⟩ := checkout_ok hr
  have hs₁ := h.keeps (keepsScope_tryLock hlock)
  have hs₂ : s₂.ValuesBelong env excused := by
    cases txId with
    | none => exact hs₁.keeps (keepsScope_findOrOpenTransaction htx)
    | some z =>
      obtain ⟨rfl, rfl⟩ := returns_pure.mp htx
      exact hs₁
  obtain ⟨v, -, -, rfl⟩ | ⟨-, strategy, s₃, es, hcreate, hs'⟩ := hr
  · exact hs₂
  · rw [hs']
    refine (valuesBelong_createVersion hs₂ (fun e he => ?_) hcreate).keeps
      (.of_rows rfl rfl rfl (List.Subset.refl _))
    cases he

/-- **`modifyNode`** keeps every value where it belongs when it submits admitted attributes. -/
theorem valuesBelong_modifyNode {vid : Uuid} {attributes : List (String × Option String)}
    {description : Option String} {strategy : Option VersionStrategy} (h : s.ValuesBelong env excused)
    (hattrs : ∀ e ∈ attributes, s.IsAdmitted env excused nodeId x e.1)
    (hr : Returns (modifyNode env ctx nodeId x attributes description strategy) s vid s') :
    s'.ValuesBelong env excused := by
  obtain ⟨s₁, s₂, es, hlock, hs', hr⟩ := modifyNode_writes hr
  have hs₁ := h.keeps (keepsScope_tryLock hlock)
  have hattrs₁ : ∀ e ∈ attributes, s₁.IsAdmitted env excused nodeId x e.1 := fun e he =>
    isAdmitted_tryLock (hattrs e he) hlock
  suffices hs₂ : s₂.ValuesBelong env excused by
    rw [hs']
    exact hs₂.keeps (.of_rows rfl rfl rfl (List.Subset.refl _))
  obtain ⟨v, hopen, rfl, hs₂⟩ | ⟨-, strategy, hcreate⟩ := hr
  · have hcurrent : s₁.getCurrentVersionForTx nodeId x = some v := by
      rw [Tables.getCurrentVersionForTx, hopen, Option.some_or]
    obtain ⟨hv, hvnode, -⟩ := Tables.findOpenVersionInTx_ok hopen
    have hrows := RowsWritten.replaceAttributes v.id (putAll (s₁.attributeMap v.id) attributes) s₁.toTables
    have hreplaced : (s₁.replaceAttributes v.id
        (putAll (s₁.attributeMap v.id) attributes)).ValuesBelong env excused := by
      refine hs₁.rows hrows fun w hw hwid a ha => ?_
      obtain rfl := List.inj_on_of_nodup_map s₁.valid.pk_version hw hv hwid
      obtain ⟨ha, hawid⟩ := List.mem_filter.mp ha
      have hawid := of_decide_eq_true hawid
      obtain hdeleted | hwritten := List.mem_append.mp ha
      · exact absurd hawid (of_decide_eq_true (List.mem_filter.mp hdeleted).2)
      obtain ⟨e, he, rfl⟩ := List.mem_map.mp hwritten
      obtain hsubmitted | hkept := mem_putAll he
      · obtain ht | ⟨u, hu, hd⟩ | hexcused := hattrs₁ e hsubmitted
        · exact .inl (hvnode ▸ ht)
        · rw [hcurrent] at hu
          obtain rfl := Option.some.inj hu
          exact .inr (.inl hd)
        · exact .inr (.inr (hvnode ▸ hexcused))
      · obtain ⟨b, hb, hbid, hbattr⟩ := mem_attributeMap hkept
        have hbelongs := hs₁ b hb w hv hbid.symm
        rw [hbattr] at hbelongs
        exact hbelongs
    rw [hs₂]
    refine hreplaced.keeps (.of_rows ?_ ?_ ?_ ?_)
    · unfold Tables.refresh Tables.describe
      split <;> rfl
    · unfold Tables.refresh Tables.describe
      split <;> rfl
    · rw [versionKeys_refresh, versionKeys_describe]
    · unfold Tables.refresh Tables.describe
      split <;> exact List.Subset.refl _
  · exact valuesBelong_createVersion hs₁ hattrs₁ hcreate

theorem valuesBelong_domainAction {domainId : Option String} {change : String → Uuid → Plm Nat}
    (hchange : ∀ d vid s k s', Returns (change d vid) s k s' → RowsWritten vid s.toTables s'.toTables)
    (hstep : ∀ d vid k s', Returns (change d vid) s k s' → s'.ValuesBelong env excused)
    (hr : Returns (domainAction env ctx nodeId x domainId change) s () s') :
    s'.ValuesBelong env excused := by
  obtain ⟨v, k, s₁, es, -, hrun, hs'⟩ := domainAction_told hchange hr
  rw [hs']
  exact (hstep _ _ _ _ hrun).keeps keepsScope_told

theorem valuesBelong_createLink {linkTypeId : String} {linkId : Uuid}
    {sourceCode type key linkLogicalId : Option String} (h : s.ValuesBelong env excused)
    (hr : Returns (createLink env ctx linkTypeId nodeId sourceCode type key x linkLogicalId) s linkId
      s') : s'.ValuesBelong env excused := by
  obtain ⟨target, sv, s₁, s₂, v, es, hensure, hlock, -, -, -, -, hs'⟩ := createLink_ok hr
  have hs₁ : s₁.ValuesBelong env excused := by
    simp only [ensureOpenVersion, returns_bind, returns_query, and_assoc, exists_and_left,
      exists_eq_left] at hensure
    split at hensure
    · obtain ⟨-, rfl⟩ := returns_pure.mp hensure
      exact h
    · refine valuesBelong_createVersion h (fun e he => ?_) hensure
      cases he
  rw [hs']
  refine Tables.ValuesBelong.keeps ?_ keepsScope_told
  exact (hs₁.keeps (keepsScope_tryLock hlock)).keeps (.of_rows rfl rfl rfl (List.Subset.refl _))

/-- **A transition** takes the values of the versions it starts from over. -/
theorem valuesBelong_transition {depth : Nat} {vid : Uuid} {transitionId : String}
    (h : s.ValuesBelong env excused)
    (hr : Returns (applyTransition env ctx depth nodeId transitionId x) s vid s') :
    s'.ValuesBelong env excused := by
  have hrule : CallInvariant env ctx x s.toTables (nodeId, transitionId) fun s₁ =>
      s₁.ValuesBelong env excused ∧ Later s.toTables s₁.toTables := by
    constructor
    · exact fun hP => hP.2
    · intro s₁ s₂ p vid state strategy description hP _ _ hcreate
      refine ⟨valuesBelong_createVersion hP.1 (fun e he => ?_) hcreate,
        hP.2.entered ((createVersion_outcome s₁).1 _ _ hcreate)⟩
      cases he
    · intro s₁ s₂ a hP hcollapse
      have hcut := (collapseHistory_cut env a s₁.toTables s₁ (.refl _)).1 _ _ hcollapse
      refine ⟨?_, hP.2.cut hcut⟩
      obtain rfl | hcollapsed := collapseHistory_cases hcollapse
      · exact hP.1
      · exact hP.1.keeps (.of_collapsed hcollapsed)
    · intro s₁ s₂ n hP hlock
      refine ⟨hP.1.keeps (keepsScope_tryLock hlock), hP.2.sameView ?_⟩
      exact (tryLock_sameView ctx n s₁.toTables s₁ (.refl _)).1 _ _ hlock
    · intro s₁ s₂ es hP hs₂
      rw [hs₂]
      exact ⟨hP.1.keeps (.of_rows rfl rfl rfl (List.Subset.refl _)),
        hP.2.sameView (sameView_withEvents es _)⟩
  exact (hrule.applyTransition ⟨h, .refl _⟩ hr).1

/-- **A request of a user** keeps every value where it belongs when what it submits is admitted. -/
theorem valuesBelong_authoring {depth : Nat} {op : AuthoringOp} (h : s.ValuesBelong env excused)
    (hadmitted : (StoreRequest.authoring ctx depth x op).WritesAdmitted env excused s.toTables)
    (hr : Returns (op.run env ctx depth x) s () s') : s'.ValuesBelong env excused := by
  cases op with
  | createNode projectSpaceId nodeTypeId logicalId externalId =>
    obtain ⟨nodeId, hr⟩ := returns_void.mp hr
    exact valuesBelong_createNode h hr
  | checkout nodeId namesTransaction =>
    obtain ⟨vid, hr⟩ := returns_void.mp hr
    exact valuesBelong_checkout h hr
  | modifyNode nodeId attributes description strategy =>
    obtain ⟨vid, hr⟩ := returns_void.mp hr
    exact valuesBelong_modifyNode h hadmitted hr
  | createLink linkTypeId nodeId sourceCode type key linkLogicalId =>
    obtain ⟨linkId, hr⟩ := returns_void.mp hr
    exact valuesBelong_createLink h hr
  | updateLink linkId update =>
    obtain ⟨link, source, s₁, target, logicalId, rows, v, es, -, -, -, -, hlock, -, -, -, -, hs'⟩ :=
      updateLink_ok hr
    rw [hs']
    refine Tables.ValuesBelong.keeps ?_ keepsScope_told
    exact (h.keeps (keepsScope_tryLock hlock)).keeps (.of_rows rfl rfl rfl (List.Subset.refl _))
  | deleteLink linkId =>
    obtain ⟨link, source, s₁, es, -, -, -, -, hlock, hs'⟩ := deleteLink_ok hr
    rw [hs']
    refine Tables.ValuesBelong.keeps ?_ keepsScope_told
    exact (h.keeps (keepsScope_tryLock hlock)).keeps (.of_rows rfl rfl rfl (List.Subset.refl _))
  | assignDomain nodeId domainId =>
    exact valuesBelong_domainAction (fun _ _ _ _ _ => assignDomain_ok)
      (fun _ _ _ _ => valuesBelong_assignDomain h) hr
  | unassignDomain nodeId domainId =>
    exact valuesBelong_domainAction (fun _ _ _ _ _ => unassignDomain_ok)
      (fun _ _ _ _ => valuesBelong_unassignDomain h) hr
  | transition nodeId transitionId =>
    obtain ⟨vid, hr⟩ := returns_void.mp hr
    exact valuesBelong_transition h hr
  | commit comment selectedNodeIds =>
    obtain ⟨o, hr⟩ := returns_void.mp hr
    obtain ⟨⟨y, hcommits⟩, -, -⟩ := commitTransaction_commits hr
    exact h.keeps (.of_commits hcommits)
  | addComment nodeId nodeVersionId text parentCommentId attributeName =>
    obtain ⟨id, hr⟩ := returns_void.mp hr
    obtain ⟨v, c, es, -, -, -, -, -, hs'⟩ := addComment_ok hr
    rw [hs']
    exact h.keeps (.of_rows rfl rfl rfl (List.Subset.refl _))
  | sign nodeId meaning comment =>
    obtain ⟨id, hr⟩ := returns_void.mp hr
    obtain ⟨v, g, es, -, -, -, hs'⟩ := sign_ok hr
    rw [hs']
    exact h.keeps (.of_rows rfl rfl rfl (List.Subset.refl _))

/-- **Every request** does. -/
theorem valuesBelong_method {r : StoreRequest} (h : s.ValuesBelong env excused)
    (hadmitted : r.WritesAdmitted env excused s.toTables) (hr : Returns (r.method env) s () s') :
    s'.ValuesBelong env excused := by
  cases r with
  | openTransaction ctx =>
    obtain ⟨y, hr⟩ := returns_void.mp hr
    exact h.keeps (keepsScope_openTransaction hr)
  | authoring ctx depth txId op => exact valuesBelong_authoring h hadmitted hr
  | rollback ctx txId => exact h.keeps (.of_discards (rollbackTransaction_discards hr).1)
  | release ctx txId nodeIds => exact h.keeps (.of_discards (releaseNodes_discards hr).1)
  | cleanStale now => exact h.keeps (.of_discards (cleanStaleTransactions_discards hr).1)
  | lock ctx nodeId => exact h.keeps (keepsScope_tryLock hr)
  | unlock nodeId =>
    obtain ⟨es, hs'⟩ := unlock_ok hr
    rw [hs']
    exact h.keeps keepsScope_setLock
  | createBaseline ctx depth rootNodeId name description =>
    obtain ⟨id, hr⟩ := returns_void.mp hr
    obtain ⟨-, entries, hs'⟩ := createBaseline_ok hr
    rw [hs']
    exact h.keeps (.of_rows rfl rfl rfl (List.Subset.refl _))

end Requests

/-! ## Assigning and unassigning -/

/-- The version has the content and the stored digest it had. -/
def Tables.Restores (s s' : Tables) (nodeId : Uuid) (v : VersionRow) : Prop :=
  ∃ v' ∈ s'.versions, v'.id = v.id ∧ s'.contentOf nodeId v' = s.contentOf nodeId v ∧
    v'.fingerprint = v.fingerprint

section Restoring

variable {env : Env} {nodeId x : Uuid} {v : VersionRow} {t : Tables}

/-- The version with the digest of its content stored. -/
def VersionRow.digested (env : Env) (t : Tables) (nodeId : Uuid) (v : VersionRow) : VersionRow :=
  { v with fingerprint := some (env.sha256 (fingerprintText (t.contentOf nodeId v))) }

theorem mem_refresh (hv : v ∈ t.versions) : v.digested env t nodeId ∈ (t.refresh env nodeId v).versions :=
  List.mem_map.mpr ⟨v, hv, if_pos rfl⟩

/-- A stored digest is no part of a content. -/
theorem contentOf_setFingerprint (vid : Uuid) (fp : String) (w : VersionRow) :
    (t.setFingerprint vid fp).contentOf nodeId w = t.contentOf nodeId w := by
  have heffective : (t.setFingerprint vid fp).isEffectiveLink nodeId w = t.isEffectiveLink nodeId w := by
    funext l
    simp only [Tables.isEffectiveLink, Tables.setFingerprint, Tables.updateVersion, List.any_map]
    congr 1
    funext u
    simp only [Function.comp_apply]
    split <;> rfl
  unfold Tables.contentOf Tables.effectiveLinks
  rw [heffective]
  rfl

/-- The last version of a transaction stays the last one when its digest is stored. -/
theorem findOpenVersionInTx_refresh (ht : t.Valid) (h : t.findOpenVersionInTx nodeId x = some v) :
    (t.refresh env nodeId v).findOpenVersionInTx nodeId x = some (v.digested env t nodeId) := by
  obtain ⟨hv, hnode, htx⟩ := Tables.findOpenVersionInTx_ok h
  refine latest_eq_some ?_ fun w' hw' hne => ?_
  · exact List.mem_filter.mpr ⟨mem_refresh hv, decide_eq_true ⟨hnode, htx⟩⟩
  · obtain ⟨hw', hp⟩ := List.mem_filter.mp hw'
    obtain ⟨hwnode, hwtx⟩ := of_decide_eq_true hp
    obtain ⟨w, hw, rfl⟩ := List.mem_map.mp hw'
    by_cases hid : w.id = v.id
    · -- the row with the id is the digested one
      obtain rfl := List.inj_on_of_nodup_map ht.pk_version hw hv hid
      exact absurd (if_pos rfl) hne
    · rw [if_neg hid] at hwnode hwtx hne ⊢
      have hle : w.versionNumber ≤ v.versionNumber :=
        List.le_of_mem_argmax (List.mem_filter.mpr ⟨hw, decide_eq_true ⟨hwnode, hwtx⟩⟩) h
      refine lt_of_le_of_ne hle fun hsame => hid ?_
      have hkey : (w.nodeId, w.versionNumber) = (v.nodeId, v.versionNumber) :=
        congrArg₂ Prod.mk (hwnode.trans hnode.symm) hsame
      rw [List.inj_on_of_nodup_map ht.uq_node_version hw hv hkey]

/-- What is left of a version after a domain is assigned and unassigned. -/
theorem contentOf_unassigned {domainId : String} {defaults : List ResolvedAttribute}
    (hnew : domainId ∉ (t.domainsOf v.id).map (·.domainId))
    (hdefaults : defaults ⊆ env.getDomainAttributes domainId) :
    ((((t.insertDomain ⟨v.id, domainId⟩).insertAttributes
        (defaults.map fun a => ⟨v.id, a.id, a.defaultValue⟩)).clearAttributes v.id
          ((env.getDomainAttributes domainId).map (·.id))).deleteDomain v.id domainId).contentOf nodeId v =
      { t.contentOf nodeId v with
        attributes := ((t.attributesOf v.id).filter fun a =>
          a.attributeDefId ∉ (env.getDomainAttributes domainId).map (·.id)).map
            fun a => (a.attributeDefId, a.value) } := by
  have hdomains : (t.domains ++ [(⟨v.id, domainId⟩ : DomainRow)]).filter (fun d =>
      ¬ (d.nodeVersionId = v.id ∧ d.domainId = domainId)) = t.domains := by
    rw [List.filter_append, List.filter_eq_self.mpr]
    · simp
    · intro d hd
      refine decide_eq_true fun hd' => hnew ?_
      exact List.mem_map.mpr ⟨d, List.mem_filter.mpr ⟨hd, decide_eq_true hd'.1⟩, hd'.2⟩
  have hgone : (defaults.map fun a => (⟨v.id, a.id, a.defaultValue⟩ : AttributeRow)).filter (fun a =>
      ¬ (a.nodeVersionId = v.id ∧ a.attributeDefId ∈ (env.getDomainAttributes domainId).map (·.id))) =
        [] := by
    refine List.filter_eq_nil_iff.mpr fun a ha hleft => ?_
    obtain ⟨b, hb, rfl⟩ := List.mem_map.mp ha
    exact of_decide_eq_true hleft ⟨rfl, List.mem_map_of_mem (hdefaults hb)⟩
  have hattributes : ((t.attributes ++ defaults.map fun a => (⟨v.id, a.id, a.defaultValue⟩ : AttributeRow)).filter
      fun a => ¬ (a.nodeVersionId = v.id ∧
        a.attributeDefId ∈ (env.getDomainAttributes domainId).map (·.id))).filter
          (·.nodeVersionId = v.id) = (t.attributesOf v.id).filter fun a =>
            a.attributeDefId ∉ (env.getDomainAttributes domainId).map (·.id) := by
    rw [List.filter_append, hgone, List.append_nil, Tables.attributesOf, List.filter_filter,
      List.filter_filter]
    refine List.filter_congr fun a _ => ?_
    by_cases ha : a.nodeVersionId = v.id <;> simp [ha]
  unfold Tables.contentOf
  congr 1
  · exact congrArg _ hattributes
  · exact congrArg (fun ds : List DomainRow =>
      (ds.filter fun d => d.nodeVersionId = v.id).map (·.domainId)) hdomains

/-- **Assigning and then unassigning a domain** restores the version the transaction holds exactly
when the version had no value of the domain's attributes, and the digest of its content stored. -/
theorem assign_then_unassign_restores_iff {ctx ctx' : Caller} {domainId : String} {s s₁ s₂ : Db}
    (hv : s.findOpenVersionInTx nodeId x = some v)
    (hassign : Returns (assignDomainAction env ctx nodeId x (some domainId)) s () s₁)
    (hunassign : Returns (unassignDomainAction env ctx' nodeId x (some domainId)) s₁ () s₂) :
    s.Restores s₂.toTables nodeId v ↔
      (∀ a ∈ s.attributesOf v.id,
        a.attributeDefId ∉ (env.getDomainAttributes domainId).map (·.id)) ∧
      v.fingerprint = some (env.sha256 (fingerprintText (s.contentOf nodeId v))) := by
  obtain ⟨v', k, sa, es, hv', hrun, hs₁⟩ :=
    domainAction_told (fun _ _ _ _ _ => assignDomain_ok) hassign
  obtain rfl : v' = v := Option.some.inj (hv'.symm.trans hv)
  obtain ⟨w, k', sb, es', hw, hrun', hs₂⟩ :=
    domainAction_told (fun _ _ _ _ _ => unassignDomain_ok) hunassign
  obtain ⟨hnew, hsa⟩ := assignDomain_writes hrun
  have hsb := unassignDomain_writes hrun'
  -- the second request finds the version with the digest the first one stored
  have hopen : sa.findOpenVersionInTx nodeId x = some v' := by
    rw [hsa]
    exact hv
  have hfound : (sa.refresh env nodeId v').findOpenVersionInTx nodeId x =
      some (v'.digested env sa.toTables nodeId) := findOpenVersionInTx_refresh sa.valid hopen
  have hwdigested : w = v'.digested env sa.toTables nodeId := by
    rw [hs₁] at hw
    exact Option.some.inj (hw.symm.trans hfound)
  have hwid : w.id = v'.id := by rw [hwdigested]; rfl
  have hwcontent (t : Tables) : t.contentOf nodeId w = t.contentOf nodeId v' := by
    rw [hwdigested]
    rfl
  have hcontent : sb.contentOf nodeId v' = { s.contentOf nodeId v' with
      attributes := ((s.attributesOf v'.id).filter fun a =>
        a.attributeDefId ∉ (env.getDomainAttributes domainId).map (·.id)).map
          fun a => (a.attributeDefId, a.value) } := by
    obtain ⟨fp, hfp⟩ : ∃ fp, sa.refresh env nodeId v' = sa.setFingerprint v'.id fp := ⟨_, rfl⟩
    rw [hsb, hs₁, hfp, hwid]
    refine (contentOf_setFingerprint (t := (sa.clearAttributes v'.id
      ((env.getDomainAttributes domainId).map (·.id))).deleteDomain v'.id domainId) v'.id fp v').trans ?_
    rw [hsa]
    exact contentOf_unassigned hnew (List.filter_subset_self _)
  have hafter : w.digested env sb.toTables nodeId ∈ s₂.versions := by
    rw [hs₂]
    refine mem_refresh (t := sb.toTables) ?_
    rw [hsb]
    exact (Tables.findOpenVersionInTx_ok hw).1
  have hread (u : VersionRow) : s₂.contentOf nodeId u = sb.contentOf nodeId u := by
    rw [hs₂]
    exact contentOf_setFingerprint (t := sb.toTables) _ _ u
  constructor
  · rintro ⟨u, hu, huid, hsame, hfingerprint⟩
    obtain rfl := List.inj_on_of_nodup_map s₂.valid.pk_version hu hafter (huid.trans hwid.symm)
    have hsame : sb.contentOf nodeId v' = s.contentOf nodeId v' := by
      rw [← hsame, hread, ← hwcontent]
      rfl
    constructor
    · -- no value of the version is one of those that went
      rw [hcontent] at hsame
      have hall := congrArg (fun c => c.attributes.length) hsame
      simp only [Tables.contentOf, List.length_map] at hall
      intro a ha
      exact of_decide_eq_true (List.length_filter_eq_length_iff.mp hall a ha)
    · rw [← hsame, ← hwcontent]
      exact hfingerprint.symm
  · rintro ⟨hnone, hfingerprint⟩
    have hsame : sb.contentOf nodeId v' = s.contentOf nodeId v' := by
      rw [hcontent, List.filter_eq_self.mpr fun a ha => decide_eq_true (hnone a ha)]
      rfl
    refine ⟨_, hafter, hwid, ?_, ?_⟩
    · rw [hread, ← hsame, ← hwcontent]
      rfl
    · rw [hfingerprint, ← hsame, ← hwcontent]
      rfl

end Restoring

/-! ## What `modifyNode` admits -/

namespace ValidationModel

variable (m : ValidationModel) (base : Env)

/-- The attribute is one of a domain of some version of the node. -/
def OfSomeVersion (t : Tables) (nodeId : Uuid) (attr : String) : Prop :=
  ∃ v ∈ t.versions, v.nodeId = nodeId ∧ ∃ d ∈ t.domains, d.nodeVersionId = v.id ∧
    attr ∈ (m.domainAttributes d.domainId).map (·.id)

/-- The attribute is one of a domain that a version of the node has in some state of the run. -/
def OnceAssigned (rs : List StoreRequest) (nodeId : Uuid) (attr : String) : Prop :=
  ∃ past, past <+: rs ∧
    m.OfSomeVersion (run (Db.step (m.configure base)) Db.empty past).toTables nodeId attr

variable {m base} {t : Tables} {nodeId : Uuid}

/-- What `assertWritable` lets pass is in the writable scope: of the type, or of a domain of some
version of the node. -/
theorem mem_scope_of_assertWritable {submitted : List (String × Option String)}
    (h : m.assertWritable base t ((t.node? nodeId).map (·.nodeTypeId)) submitted nodeId = [])
    {e : String × Option String} (he : e ∈ submitted) :
    t.OfType (m.configure base) nodeId e.1 ∨ m.OfSomeVersion t nodeId e.1 := by
  have hpassed := List.filterMap_eq_nil_iff.mp h e he
  have hany : (m.resolveWritableScope base t ((t.node? nodeId).map (·.nodeTypeId)) nodeId).any
      (·.id = e.1) = true := by
    by_contra hnot
    rw [if_neg hnot] at hpassed
    cases hpassed
  obtain ⟨attr, hattr, hid⟩ := List.any_eq_true.mp hany
  have hid : attr.id = e.1 := of_decide_eq_true hid
  rw [← hid]
  obtain htype | hdomain := List.mem_append.mp hattr
  · unfold resolvedType at htype
    cases hnode : t.node? nodeId with
    | none =>
      rw [hnode] at htype
      cases htype
    | some n =>
      rw [hnode] at htype
      simp only [Option.map_some] at htype
      split at htype
      · refine .inl ⟨n, List.mem_of_find?_eq_some hnode, by simpa using List.find?_some hnode, ?_⟩
        exact List.mem_map.mpr ⟨attr.toResolvedAttribute, List.mem_map_of_mem htype, rfl⟩
      · cases htype
  · obtain ⟨domainId, hmem, hattr⟩ := List.mem_flatMap.mp hdomain
    obtain ⟨d, hd, rfl⟩ := List.mem_map.mp (List.mem_dedup.mp hmem)
    obtain ⟨hd, hversion⟩ := List.mem_filter.mp hd
    obtain ⟨v, hv, hkey⟩ := List.any_eq_true.mp hversion
    obtain ⟨hvid, hvnode⟩ := of_decide_eq_true hkey
    exact .inr ⟨v, hv, hvnode, d, hd, hvid.symm, List.mem_map_of_mem hattr⟩

end ValidationModel

/-- `modifyNode` asks what may be written when it has the lock. -/
theorem modifyNode_writable {env : Env} {ctx : Caller} {nodeId x vid : Uuid}
    {attributes : List (String × Option String)} {description : Option String}
    {strategy : Option VersionStrategy} {s s' : Db}
    (hr : Returns (modifyNode env ctx nodeId x attributes description strategy) s vid s') :
    ∃ s₁, Returns (tryLock ctx nodeId) s () s₁ ∧
      env.hardViolations s₁.toTables ((s₁.node? nodeId).map (·.nodeTypeId)) attributes nodeId = [] := by
  simp only [modifyNode, assertWritable, returns_bind, returns_query, returns_require, returns_pure,
    returns_enqueue, and_assoc, exists_and_left, exists_eq_left, exists_const] at hr
  obtain ⟨_, _, hfrozen, _, s₁, hlock, hwritable, -⟩ := hr
  obtain rfl := (assertNotFrozen_ok hfrozen).symm
  exact ⟨s₁, hlock, hwritable⟩

/-- **What a request submits is admitted** as soon as the domains of all versions of the node excuse
their attributes. -/
theorem writesAdmitted_of_returns {m : ValidationModel} {base : Env} {excused : Uuid → String → Prop}
    {r : StoreRequest} {s s' : Db} (hr : Returns (r.method (m.configure base)) s () s')
    (hexcused : ∀ nodeId attr, m.OfSomeVersion s.toTables nodeId attr → excused nodeId attr) :
    r.WritesAdmitted (m.configure base) excused s.toTables := by
  cases r with
  | authoring ctx depth x op =>
    cases op with
    | modifyNode nodeId attributes description strategy =>
      intro e he
      obtain ⟨vid, hr⟩ := returns_void.mp hr
      obtain ⟨s₁, hlock, hwritable⟩ := modifyNode_writable hr
      have hframe := tryLock_frame hlock
      obtain htype | hsome := ValidationModel.mem_scope_of_assertWritable hwritable he
      · -- a type is not changed by a lock
        obtain ⟨n, hn, hid, hattr⟩ := htype
        have hmem : n.unlocked ∈ s.nodes.map NodeRow.unlocked := by
          rw [← unlocked_tryLock hlock]
          exact List.mem_map_of_mem hn
        obtain ⟨n', hn', hid', htype⟩ := node_of_unlocked hmem
        exact .inl ⟨n', hn', hid'.trans hid, htype ▸ hattr⟩
      · rw [hframe] at hsome
        exact .inr (.inr (hexcused _ _ hsome))
    | _ => trivial
  | _ => trivial

/-! ## Runs -/

/-- **The values of a run**: from the empty store on, every stored value is one of an attribute of the
type, or of a domain some version of the node has or had in the run; it is one of the type or of a
domain of its own version when the run submits only attributes of these; and a domain that is
assigned and unassigned leaves the version as it was exactly when it had no value of the domain's
attributes, and its digest was the present one. -/
theorem values_stay_in_scope (m : ValidationModel) (base : Env) :
    (∀ rs : List StoreRequest,
      (run (Db.step (m.configure base)) Db.empty rs).ValuesBelong (m.configure base)
        (m.OnceAssigned base rs)) ∧
    (∀ rs : List StoreRequest,
      Along (Db.step (m.configure base)) (fun s r => r.WritesAdmitted (m.configure base)
        (fun _ _ => False) s.toTables) Db.empty rs →
      (run (Db.step (m.configure base)) Db.empty rs).NoOrphans (m.configure base)) ∧
    ∀ (ctx ctx' : Caller) (nodeId x : Uuid) (domainId : String) (v : VersionRow) (s s₁ s₂ : Db),
      s.findOpenVersionInTx nodeId x = some v →
      Returns (assignDomainAction (m.configure base) ctx nodeId x (some domainId)) s () s₁ →
      Returns (unassignDomainAction (m.configure base) ctx' nodeId x (some domainId)) s₁ () s₂ →
      (s.Restores s₂.toTables nodeId v ↔
        (∀ a ∈ s.attributesOf v.id,
          a.attributeDefId ∉ ((m.configure base).getDomainAttributes domainId).map (·.id)) ∧
        v.fingerprint = some ((m.configure base).sha256 (fingerprintText (s.contentOf nodeId v)))) := by
  have hempty (excused : Uuid → String → Prop) :
      Db.empty.ValuesBelong (m.configure base) excused := fun a ha => by cases ha
  refine ⟨fun rs => ?_, fun rs h => ?_, fun ctx ctx' nodeId x domainId v s s₁ s₂ =>
    assign_then_unassign_restores_iff⟩
  · -- every step is taken from a state of the run, which excuses what its versions have
    have hrun : Along (Db.step (m.configure base)) (fun _ _ => True) Db.empty rs :=
      Along.of_forall (fun _ _ => trivial) Db.empty rs
    have hstep : ∀ (s : Db) (r : StoreRequest), s.ValuesBelong (m.configure base) (m.OnceAssigned base rs) →
        (True ∧ ∃ past, past <+: rs ∧ run (Db.step (m.configure base)) Db.empty past = s) →
        (s.step (m.configure base) r).ValuesBelong (m.configure base) (m.OnceAssigned base rs) := by
      rintro s r hs ⟨-, past, hpast, rfl⟩
      refine Db.step_invariant _ hs fun s' hr => valuesBelong_method hs (writesAdmitted_of_returns hr ?_) hr
      exact fun nodeId attr hsome => ⟨past, hpast, hsome⟩
    exact Along.invariant hstep (hempty _) hrun.reached
  · have hstep : ∀ (s : Db) (r : StoreRequest), s.NoOrphans (m.configure base) →
        r.WritesAdmitted (m.configure base) (fun _ _ => False) s.toTables →
        (s.step (m.configure base) r).NoOrphans (m.configure base) := fun s r hs hadmitted =>
      Db.step_invariant _ hs fun s' hr => valuesBelong_method hs hadmitted hr
    exact Along.invariant hstep (hempty _) h

/-! ## A domain with a density -/

/-- A metamodel with one domain, whose only attribute has no default value. -/
def massDomain : ValidationModel where
  entityMetadata := []
  algorithms := []
  beans := fun _ => none
  nodeTypeAttributes := fun _ => []
  domainAttributes := fun id =>
    if id = "dom-mass" then [⟨⟨"density", "density", none⟩, none, none, none⟩] else []
  parsesDouble := fun _ => true
  parsesLong := fun _ => true
  parsesDate := fun _ => true
  parsesDateTime := fun _ => true

/-- The configuration of parts, with the domain. -/
def massEnv : Env := { partsEnv with domains := [⟨"dom-mass", "Mass", []⟩] }

/-- The store after a run under that configuration. -/
def massStore (rs : List StoreRequest) : Db := run (Db.step (massDomain.configure massEnv)) Db.empty rs

/-- A part gets the domain, a density while it has it, and loses both. -/
def densityRun : List StoreRequest :=
  [.authoring engineer 1 1 (.createNode none "nt-part" (some "P") none),
    .authoring engineer 1 1 (.assignDomain 0 (some "dom-mass")),
    .authoring engineer 1 1 (.modifyNode 0 [("density", some "7")] none none),
    .authoring engineer 1 1 (.unassignDomain 0 (some "dom-mass"))]

/-- A part is committed with the domain, the domain is unassigned from its next version, and then a
density is written. -/
def lateDensityRun : List StoreRequest :=
  [.authoring engineer 1 1 (.createNode none "nt-part" (some "P") none),
    .authoring engineer 1 1 (.assignDomain 0 (some "dom-mass")),
    .authoring engineer 1 1 (.commit (some "first") []), .openTransaction engineer,
    .authoring engineer 1 3 (.checkout 0 true),
    .authoring engineer 1 3 (.unassignDomain 0 (some "dom-mass")),
    .authoring engineer 1 3 (.modifyNode 0 [("density", some "7")] none none)]

/-- The density is written while the version has the domain. -/
theorem values_stay_in_scope_density :
    (massStore densityRun).NoOrphans (massDomain.configure massEnv) := by
  refine (values_stay_in_scope massDomain massEnv).2.1 densityRun ⟨trivial, trivial, ?_, trivial, trivial⟩
  unfold StoreRequest.WritesAdmitted Tables.IsAdmitted Tables.OfType Tables.OfDomains
  decide +kernel

/-- **A value that nothing of the version justifies**: the earlier version has the domain, so the
density is written to one that has lost it; assigning and unassigning the domain then deletes it. -/
theorem density_is_written_without_domain :
    ¬ (massStore lateDensityRun).NoOrphans (massDomain.configure massEnv) ∧
      ∃ v ∈ (massStore lateDensityRun).findOpenVersionInTx 0 3,
        (massStore (lateDensityRun ++
          [.authoring engineer 1 3 (.assignDomain 0 (some "dom-mass"))])).domainsOf v.id =
            [⟨v.id, "dom-mass"⟩] ∧
        ¬ (massStore lateDensityRun).Restores (massStore (lateDensityRun ++
          [.authoring engineer 1 3 (.assignDomain 0 (some "dom-mass")),
            .authoring engineer 1 3 (.unassignDomain 0 (some "dom-mass"))])).toTables 0 v := by
  constructor
  · unfold Tables.NoOrphans Tables.ValuesBelong Tables.OfType Tables.OfDomains
    decide +kernel
  · unfold Tables.Restores
    decide +kernel

end PlmCore.Psm
