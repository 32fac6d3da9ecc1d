/-
What an import loses silently, and when it loses nothing.

Nothing is lost (`NothingLost`) when every parsed node is accounted for, no PSM node stands for two
CAD nodes, and every occurrence between nodes the job has is a link in PSM or reported. A parsed node
is known by its CAD id: occurrences name their parents by it. The only way to lose an occurrence is
that `cadIdToLogicalId` has no entry for its child, and an update makes none.
-/
import PlmCore.Cad.ImportPhases

set_option autoImplicit false

namespace PlmCore.Cad

open PlmCore.Lib PlmCore.Psm

/-! ## What is lost -/

/-- **Nothing is lost**: of the job on the parsed `nodes`, carried out as `planned`. -/
structure NothingLost (nodes : List CadNodeData) (planned : List NodeDecision) (final : ImportState) :
    Prop where
  complete : (planned.map (·.node)).Perm nodes
  accounted : List.Forall₂ (Accounted final.warnings) planned final.results
  distinct : ∀ c c' a, c ≠ c' → final.Has c a → ¬ final.Has c' a
  linked : ∀ node ∈ nodes, ∀ occ ∈ node.occurrences, ∀ a b, final.Has occ.parentCadId a →
    final.Has node.cadId b → ∃ parent child, final.Has occ.parentCadId parent
      ∧ final.Has node.cadId child ∧ (final.psm.linked parent child
        ∨ ∃ m, .bomLinkFailed parent node.cadId m ∈ final.warnings)

/-! ## What can happen to a node -/

section Decisions

variable (ctx : ImportContext) (p : Psm)

/-- The node can be updated as the PSM node `t`: the algorithm says so, or it says CREATE and `t` is
found under the external id. -/
def CanUpdate (node : CadNodeData) (t : Uuid) : Prop :=
  t ∈ p.nodeIds ∧ ((ctx.evaluateValid node).Updates t
    ∨ (∃ nodeTypeId logicalId attributes,
        ctx.evaluateValid node = .create nodeTypeId logicalId attributes)
      ∧ p.nodeOfExternalId node.cadId = some t)

/-- The node can be created: the algorithm says so, and its logical id is not taken. -/
def CanCreate (node : CadNodeData) : Prop := (ctx.evaluateValid node).Creates p

/-- No two CAD nodes can be updated as one PSM node; and where the child of an occurrence can be
updated, the parent cannot be created, and the two are linked already if the parent can be
updated. -/
structure Traceable (nodes : List CadNodeData) : Prop where
  targets : ∀ m ∈ nodes, ∀ n ∈ nodes, m.cadId ≠ n.cadId → ∀ t, CanUpdate ctx p m t →
    ¬ CanUpdate ctx p n t
  updated : ∀ node ∈ nodes, ∀ occ ∈ node.occurrences,
    ∀ child ∈ nodes, child.cadId = node.cadId → ∀ parent ∈ nodes, parent.cadId = occ.parentCadId →
      ∀ t t', CanUpdate ctx p child t → CanUpdate ctx p parent t' →
        (occ.parentCadId = node.cadId → t' = t) → p.linked t' t
  created : ∀ node ∈ nodes, ∀ occ ∈ node.occurrences, occ.parentCadId ≠ node.cadId →
    ∀ child ∈ nodes, child.cadId = node.cadId → ∀ parent ∈ nodes, parent.cadId = occ.parentCadId →
      ∀ t, CanUpdate ctx p child t → ¬ CanCreate ctx p parent

end Decisions

section Gathering

variable {ctx : ImportContext} {faults : Faults} {p : Psm} {nodes : List CadNodeData} {pos : Nat}
  {node : CadNodeData} {t : Uuid}

theorem nodeOfExternalId_mem {externalId : String} (h : p.nodeOfExternalId externalId = some t) :
    t ∈ p.nodeIds := by
  unfold Psm.nodeOfExternalId at h
  split at h
  · cases h
  · split at h
    · rename_i n hn
      obtain rfl := Option.some.inj h
      have hmem : n ∈ p.nodes.filter (·.externalId = some (trim externalId)) := by
        rw [hn]
        exact List.mem_singleton_self n
      exact List.mem_map_of_mem (List.mem_of_mem_filter hmem)
    · cases h

/-- A decision to update is one that can be made. -/
theorem canUpdate_of_decideNode (h : (decideNode ctx faults p pos node).decision.Updates t)
    (ht : t ∈ p.nodeIds) : CanUpdate ctx p node t := by
  refine ⟨ht, ?_⟩
  simp only [decideNode] at h
  cases hd : ctx.evaluateValid node with
  | create nodeTypeId logicalId attributes =>
    refine .inr ⟨⟨_, _, _, rfl⟩, ?_⟩
    rw [hd] at h
    simp only [switchToUpdate, findByExternalId] at h
    cases hfails : faults.findByExternalId pos with
    | true =>
      rw [hfails] at h
      exact h.elim
    | false =>
      rw [hfails] at h
      cases hfound : p.nodeOfExternalId node.cadId with
      | none =>
        rw [hfound] at h
        exact h.elim
      | some existing =>
        rw [hfound] at h
        exact h
  | update target attributes =>
    rw [hd] at h
    exact .inl h
  | skip =>
    rw [hd] at h
    exact h.elim
  | reject reason =>
    rw [hd] at h
    exact h.elim

/-- A decision to create is one that can be made. -/
theorem canCreate_of_decideNode (h : (decideNode ctx faults p pos node).decision.Creates p) :
    CanCreate ctx p node := by
  unfold CanCreate
  simp only [decideNode] at h
  cases hd : ctx.evaluateValid node with
  | create nodeTypeId logicalId attributes =>
    rw [hd] at h
    simp only [switchToUpdate] at h
    split at h
    · exact h.elim
    · exact h
  | update target attributes =>
    rw [hd] at h
    exact h
  | skip =>
    rw [hd] at h
    exact h
  | reject reason =>
    rw [hd] at h
    exact h

/-- What can be updated is, when the lookup does not fail. -/
theorem decideNode_updates (h : CanUpdate ctx p node t) (hfails : faults.findByExternalId pos = false) :
    (decideNode ctx faults p pos node).decision.Updates t := by
  simp only [decideNode]
  rcases h.2 with hupdates | ⟨⟨nodeTypeId, logicalId, attributes, hd⟩, hfound⟩
  · cases hd : ctx.evaluateValid node with
    | update target attributes =>
      rw [hd] at hupdates
      exact hupdates
    | create nodeTypeId logicalId attributes =>
      rw [hd] at hupdates
      exact hupdates.elim
    | skip =>
      rw [hd] at hupdates
      exact hupdates.elim
    | reject reason =>
      rw [hd] at hupdates
      exact hupdates.elim
  · rw [hd]
    simp only [switchToUpdate, findByExternalId, hfails, hfound]
    rfl

/-- What can be created is, when the lookup fails. -/
theorem decideNode_creates (h : CanCreate ctx p node) (hfails : faults.findByExternalId pos = true) :
    (decideNode ctx faults p pos node).decision.Creates p := by
  unfold CanCreate at h
  simp only [decideNode]
  cases hd : ctx.evaluateValid node with
  | create nodeTypeId logicalId attributes =>
    rw [hd] at h
    simp only [switchToUpdate, findByExternalId, hfails]
    exact h
  | update target attributes =>
    rw [hd] at h
    exact h
  | skip =>
    rw [hd] at h
    exact h
  | reject reason =>
    rw [hd] at h
    exact h

theorem perm_gather (ctx : ImportContext) (faults : Faults) (p : Psm) (nodes : List CadNodeData) :
    (gather ctx faults p nodes).Perm (nodes.mapIdx (decideNode ctx faults p)) := by
  unfold gather
  dsimp only
  split
  · exact .refl _
  · exact List.mergeSort_perm _ _

/-- Nodes without a depth, as the parser makes them, are carried out in their order. -/
theorem gather_of_flat (h : ∀ node ∈ nodes, node.depth = 0) :
    gather ctx faults p nodes = nodes.mapIdx (decideNode ctx faults p) := by
  unfold gather
  dsimp only
  split
  · rfl
  · refine List.mergeSort_of_pairwise (List.pairwise_of_forall_mem_list fun a _ b hb => ?_)
    obtain ⟨i, hi, rfl⟩ := List.mem_mapIdx.mp hb
    have hdepth : (decideNode ctx faults p i nodes[i]).node.depth = 0 := h _ (List.getElem_mem hi)
    rw [hdepth]
    simp

theorem mem_gather {nd : NodeDecision} :
    nd ∈ gather ctx faults p nodes ↔
      ∃ pos node, nodes[pos]? = some node ∧ nd = decideNode ctx faults p pos node := by
  rw [(perm_gather ctx faults p nodes).mem_iff, List.mem_mapIdx]
  constructor
  · rintro ⟨i, hi, rfl⟩
    exact ⟨i, nodes[i], List.getElem?_eq_getElem hi, rfl⟩
  · rintro ⟨i, node, hget, rfl⟩
    obtain ⟨hi, rfl⟩ := List.getElem?_eq_some_iff.mp hget
    exact ⟨i, hi, rfl⟩

/-- The places are the places of the parsed structure. -/
theorem nodup_pos_gather : ((gather ctx faults p nodes).map (·.pos)).Nodup := by
  rw [((perm_gather ctx faults p nodes).map (·.pos)).nodup_iff]
  have hrange : (nodes.mapIdx (decideNode ctx faults p)).map (·.pos) = List.range nodes.length := by
    refine List.ext_getElem (by simp) fun i h₁ h₂ => ?_
    simp [decideNode]
  rw [hrange]
  exact List.nodup_range

theorem perm_node_gather : ((gather ctx faults p nodes).map (·.node)).Perm nodes := by
  refine ((perm_gather ctx faults p nodes).map (·.node)).trans ?_
  have hnodes : (nodes.mapIdx (decideNode ctx faults p)).map (·.node) = nodes := by
    refine List.ext_getElem (by simp) fun i h₁ h₂ => ?_
    simp [decideNode]
  rw [hnodes]

end Gathering

/-! ## Nothing is lost -/

section Sound

variable {ctx : ImportContext} {nodes : List CadNodeData} {p : Psm}

/-- The ids the algorithm updates are ids PSM has issued: `targetNodeId` is an existing node. -/
def TargetsIssued (ctx : ImportContext) (nodes : List CadNodeData) (p : Psm) : Prop :=
  ∀ node ∈ nodes, ∀ t, (ctx.evaluateValid node).Updates t → t < p.nextId

theorem issued_gather (hp : p.WellFormed) (hissued : TargetsIssued ctx nodes p) (faults : Faults) :
    ∀ nd ∈ gather ctx faults p nodes, ∀ t, nd.decision.Updates t → t < p.nextId := by
  intro nd hnd t hupdates
  obtain ⟨pos, node, hget, rfl⟩ := mem_gather.mp hnd
  by_cases hraw : (ctx.evaluateValid node).Updates t
  · exact hissued node (List.mem_of_getElem? hget) t hraw
  · -- the decision was switched, so the target was found
    have hfound : p.nodeOfExternalId node.cadId = some t := by
      simp only [decideNode] at hupdates
      cases hd : ctx.evaluateValid node with
      | create nodeTypeId logicalId attributes =>
        rw [hd] at hupdates
        simp only [switchToUpdate, findByExternalId] at hupdates
        split at hupdates
        · rename_i existing hexisting
          obtain rfl := Option.some.inj hupdates
          split at hexisting
          · cases hexisting
          · exact hexisting
        · exact hupdates.elim
      | update target attributes =>
        rw [hd] at hupdates hraw
        exact absurd hupdates hraw
      | skip =>
        rw [hd] at hupdates
        exact hupdates.elim
      | reject reason =>
        rw [hd] at hupdates
        exact hupdates.elim
    exact hp.lt_nextId (nodeOfExternalId_mem hfound)

/-- The execution phase of an import. -/
theorem executed_process (hp : p.WellFormed) (hissued : TargetsIssued ctx nodes p) (faults : Faults) :
    Executed faults p (gather ctx faults p nodes) (executeAll faults (gather ctx faults p nodes) p) :=
  executed_executeAll hp (issued_gather hp hissued faults)

/-- What is linked in PSM before the import is linked after it. -/
theorem linked_process {faults : Faults} {planned : List NodeDecision} {st final : ImportState}
    (hexecuted : Executed faults p planned st) (hextends : Extends st final) {a b : Uuid}
    (h : p.linked a b) : final.psm.linked a b := by
  obtain ⟨link, hlink, hsource, hkey⟩ := h
  refine ⟨link, hextends.links link (hexecuted.links ▸ hlink), hsource, ?_⟩
  rw [hextends.nodeOfKey]
  exact hexecuted.grown.nodeOfKey hkey

/-- **A traceable import loses nothing**, whatever calls fail. -/
theorem Traceable.nothingLost (h : Traceable ctx p nodes) (hp : p.WellFormed)
    (hissued : TargetsIssued ctx nodes p) (faults : Faults) :
    NothingLost nodes (gather ctx faults p nodes) (process ctx faults nodes p) := by
  have hexecuted := executed_process hp hissued faults
  have hextends := extends_process ctx faults nodes p
  -- an id PSM had before is one of an update, any other one of a creation
  have hbelow : ∀ c a, (process ctx faults nodes p).Has c a → a < p.nextId →
      ∃ node ∈ nodes, node.cadId = c ∧ CanUpdate ctx p node a := by
    intro c a ha hlt
    obtain ⟨hmem, nd, hnd, hc, hupdates, -⟩ := hexecuted.below (hextends.has.mp ha) hlt
    obtain ⟨pos, node, hget, rfl⟩ := mem_gather.mp hnd
    exact ⟨node, List.mem_of_getElem? hget, hc, canUpdate_of_decideNode hupdates hmem⟩
  have habove : ∀ c a, (process ctx faults nodes p).Has c a → p.nextId ≤ a →
      ∃ node ∈ nodes, node.cadId = c ∧ CanCreate ctx p node := by
    intro c a ha hle
    obtain ⟨nd, hnd, hc, hcreates, -⟩ := hexecuted.above hp (hextends.has.mp ha) hle
    obtain ⟨pos, node, hget, rfl⟩ := mem_gather.mp hnd
    exact ⟨node, List.mem_of_getElem? hget, hc, canCreate_of_decideNode hcreates⟩
  refine ⟨perm_node_gather, ?_, ?_, ?_⟩
  · rw [hextends.results]
    exact hexecuted.accounted.imp fun _ _ ha => ha.mono hextends.warnings
  · intro c c' a hne ha ha'
    by_cases hlt : a < p.nextId
    · obtain ⟨m, hm, rfl, hmupdate⟩ := hbelow c a ha hlt
      obtain ⟨n, hn, rfl, hnupdate⟩ := hbelow c' a ha' hlt
      exact h.targets m hm n hn hne a hmupdate hnupdate
    · exact hne (hexecuted.distinct c c' a (Nat.not_lt.mp hlt) (hextends.has.mp ha)
        (hextends.has.mp ha'))
  · intro node hnode occ hocc a b ha hb
    obtain ⟨pos, hget⟩ := List.getElem?_of_mem hnode
    have hnd : decideNode ctx faults p pos node ∈ gather ctx faults p nodes :=
      mem_gather.mpr ⟨pos, node, hget, rfl⟩
    obtain ⟨st₁, k, h₁, h₂⟩ := process_occurrence hnd hocc
    obtain ⟨parent, hparent⟩ := Option.isSome_iff_exists.mp
      (hexecuted.hasNodeId occ.parentCadId a (hextends.has.mp ha))
    have hasParent := hextends.has.mpr (hexecuted.nodeIds _ _ hparent)
    cases hkey : (executeAll faults (gather ctx faults p nodes) p).cadIdToLogicalId.lookup
      node.cadId with
    | some key =>
      -- the call is made
      obtain ⟨child, -, hchild, hnamed⟩ := hexecuted.logicalIds node.cadId key hkey
      refine ⟨parent, child, hasParent, hextends.has.mpr hchild, ?_⟩
      have hparent₁ : st₁.cadIdToNodeId.lookup occ.parentCadId = some parent := by
        rw [h₁.nodeIdMap]
        exact hparent
      have hkey₁ : st₁.cadIdToLogicalId.lookup (decideNode ctx faults p pos node).node.cadId
          = some key := by
        rw [h₁.logicalIdMap]
        exact hkey
      obtain ⟨m, hm⟩ | ⟨hsome, link, hlink, hsource, htarget⟩ :=
        linkOccurrence_ok ctx faults (occ, k) hparent₁ hkey₁
      · exact .inr ⟨m, h₂.warnings _ hm⟩
      · obtain ⟨named, hnamed'⟩ := Option.isSome_iff_exists.mp hsome
        rw [h₁.nodeOfKey] at hnamed'
        rw [hexecuted.wellFormed.key_trimmed hnamed'] at hnamed
        refine .inl ⟨link, h₂.links link hlink, hsource, ?_⟩
        rw [hextends.nodeOfKey, htarget]
        exact hnamed
    | none =>
      -- no creation put a logical id, so the child was updated
      have hlow : ∀ b, (process ctx faults nodes p).Has node.cadId b → b < p.nextId := by
        intro b hb
        by_contra hnlt
        have hsome := hexecuted.hasLogicalId node.cadId b (Nat.not_lt.mp hnlt) (hextends.has.mp hb)
        rw [hkey] at hsome
        cases hsome
      obtain ⟨child, hchild, hcc, hcupdate⟩ := hbelow _ b hb (hlow b hb)
      by_cases hown : occ.parentCadId = node.cadId
      · refine ⟨b, b, hown ▸ hb, hb, .inl ?_⟩
        exact linked_process hexecuted hextends
          (h.updated node hnode occ hocc child hchild hcc child hchild (hcc.trans hown.symm) b b
            hcupdate hcupdate fun _ => rfl)
      · refine ⟨a, b, ha, hb, .inl ?_⟩
        by_cases hlt : a < p.nextId
        · obtain ⟨parent', hparent', hpc, hpupdate⟩ := hbelow _ a ha hlt
          exact linked_process hexecuted hextends
            (h.updated node hnode occ hocc child hchild hcc parent' hparent' hpc b a hcupdate
              hpupdate fun hsame => absurd hsame hown)
        · obtain ⟨parent', hparent', hpc, hpcreate⟩ := habove _ a ha (Nat.not_lt.mp hlt)
          exact absurd hpcreate
            (h.created node hnode occ hocc hown child hchild hcc parent' hparent' hpc b hcupdate)

end Sound

/-! ## The runs that lose something -/

section Exact

variable {ctx : ImportContext} {nodes : List CadNodeData} {p : Psm}

/-- Only the updates at the given places are answered. -/
def onlyUpdates (places : List Nat) : Faults where
  findByExternalId _ := false
  createNode _ := some (.refused "unavailable")
  updateNode pos := if pos ∈ places then none else some (.refused "unavailable")
  evaluateLink _ _ := none
  createLink _ _ := none
  updateLinkAttributes _ _ := none
  createRootLink _ := none

/-- Only the update at one place and the creation at another are answered. -/
def onlyUpdateAndCreation (updated created : Nat) : Faults where
  findByExternalId pos := pos ≠ updated
  createNode pos := if pos = created then none else some (.refused "unavailable")
  updateNode pos := if pos = updated then none else some (.refused "unavailable")
  evaluateLink _ _ := none
  createLink _ _ := none
  updateLinkAttributes _ _ := none
  createRootLink _ := none

/-- A node that can be updated is, when its calls are answered. -/
theorem has_of_canUpdate {faults : Faults} {st : ImportState}
    (hexecuted : Executed faults p (gather ctx faults p nodes) st) {pos : Nat} {node : CadNodeData}
    {t : Uuid} (hget : nodes[pos]? = some node) (h : CanUpdate ctx p node t)
    (hlookup : faults.findByExternalId pos = false) (hupdate : faults.updateNode pos = none) :
    st.Has node.cadId t :=
  hexecuted.updates (decideNode ctx faults p pos node) (mem_gather.mpr ⟨pos, node, hget, rfl⟩) t h.1
    (decideNode_updates h hlookup) hupdate

/-- Two CAD nodes that can be updated as one PSM node are, in some run. -/
theorem targets_of_nothingLost (hp : p.WellFormed) (hissued : TargetsIssued ctx nodes p)
    (h : ∀ faults, NothingLost nodes (gather ctx faults p nodes) (process ctx faults nodes p)) :
    ∀ m ∈ nodes, ∀ n ∈ nodes, m.cadId ≠ n.cadId → ∀ t, CanUpdate ctx p m t → ¬ CanUpdate ctx p n t := by
  intro m hm n hn hne t hmupdate hnupdate
  obtain ⟨i, hi⟩ := List.getElem?_of_mem hm
  obtain ⟨j, hj⟩ := List.getElem?_of_mem hn
  have hexecuted := executed_process hp hissued (onlyUpdates [i, j])
  have hextends := extends_process ctx (onlyUpdates [i, j]) nodes p
  have hm' := has_of_canUpdate hexecuted hi hmupdate rfl (by simp [onlyUpdates])
  have hn' := has_of_canUpdate hexecuted hj hnupdate rfl (by simp [onlyUpdates])
  exact (h _).distinct _ _ t hne (hextends.has.mpr hm') (hextends.has.mpr hn')

/-- Where the child and the parent of an occurrence can be updated, some run only does that. -/
theorem updated_of_nothingLost (hp : p.WellFormed) (hissued : TargetsIssued ctx nodes p)
    (h : ∀ faults, NothingLost nodes (gather ctx faults p nodes) (process ctx faults nodes p)) :
    ∀ node ∈ nodes, ∀ occ ∈ node.occurrences,
      ∀ child ∈ nodes, child.cadId = node.cadId → ∀ parent ∈ nodes, parent.cadId = occ.parentCadId →
        ∀ t t', CanUpdate ctx p child t → CanUpdate ctx p parent t' →
          (occ.parentCadId = node.cadId → t' = t) → p.linked t' t := by
  intro node hnode occ hocc child hchild hcc parent hparent hpc t t' hcupdate hpupdate hsame
  obtain ⟨i, hi⟩ := List.getElem?_of_mem hchild
  obtain ⟨j, hj⟩ := List.getElem?_of_mem hparent
  have hexecuted := executed_process hp hissued (onlyUpdates [i, j])
  have hextends := extends_process ctx (onlyUpdates [i, j]) nodes p
  have hquiet := hexecuted.quiet fun nd _ => .inl ⟨_, rfl⟩
  have hlow : ∀ c a, (executeAll (onlyUpdates [i, j]) (gather ctx (onlyUpdates [i, j]) p nodes) p).Has
      c a → a < p.nextId := by
    intro c a ha
    by_contra hnlt
    obtain ⟨nd, -, -, -, hfault⟩ := hexecuted.above hp ha (Nat.not_lt.mp hnlt)
    cases hfault
  -- nothing else has a node
  have hwho : ∀ c a, (executeAll (onlyUpdates [i, j]) (gather ctx (onlyUpdates [i, j]) p nodes) p).Has
      c a → (child.cadId = c ∧ a = t) ∨ (parent.cadId = c ∧ a = t') := by
    intro c a ha
    obtain ⟨-, nd, hnd, hc, hupdates, hfault⟩ := hexecuted.below ha (hlow c a ha)
    obtain ⟨pos, other, hget, rfl⟩ := mem_gather.mp hnd
    have hpos : pos = i ∨ pos = j := by
      by_contra hnot
      have hmem : pos ∉ [i, j] := by simpa using hnot
      have hrefused : (onlyUpdates [i, j]).updateNode pos = some (.refused "unavailable") := if_neg hmem
      have hnone := hrefused.symm.trans hfault
      cases hnone
    rcases hpos with rfl | rfl
    · obtain rfl := Option.some.inj (hi.symm.trans hget)
      exact .inl ⟨hc, hupdates.unique (decideNode_updates hcupdate rfl)⟩
    · obtain rfl := Option.some.inj (hj.symm.trans hget)
      exact .inr ⟨hc, hupdates.unique (decideNode_updates hpupdate rfl)⟩
  have hnokey : ∀ c, (executeAll (onlyUpdates [i, j])
      (gather ctx (onlyUpdates [i, j]) p nodes) p).cadIdToLogicalId.lookup c = none := by
    intro c
    cases hkey : (executeAll (onlyUpdates [i, j])
      (gather ctx (onlyUpdates [i, j]) p nodes) p).cadIdToLogicalId.lookup c with
    | none => rfl
    | some key =>
      obtain ⟨a, hle, ha, -⟩ := hexecuted.logicalIds c key hkey
      exact absurd (hlow c a ha) (Nat.not_lt.mpr hle)
  have hchild' := has_of_canUpdate hexecuted hi hcupdate rfl (by simp [onlyUpdates])
  have hparent' := has_of_canUpdate hexecuted hj hpupdate rfl (by simp [onlyUpdates])
  rw [hcc] at hchild'
  rw [hpc] at hparent'
  obtain ⟨a, b, ha, hb, hlinked⟩ := (h (onlyUpdates [i, j])).linked node hnode occ hocc t' t
    (hextends.has.mpr hparent') (hextends.has.mpr hchild')
  have hab : a = t' := by
    rcases hwho _ a (hextends.has.mp ha) with ⟨hc, rfl⟩ | ⟨-, rfl⟩
    · exact (hsame (hc.symm.trans hcc)).symm
    · rfl
  have hbt : b = t := by
    rcases hwho _ b (hextends.has.mp hb) with ⟨-, rfl⟩ | ⟨hc, rfl⟩
    · rfl
    · exact hsame (hpc.symm.trans hc)
  rw [hab, hbt] at hlinked
  rcases hlinked with ⟨link, hlink, hsource, hkey⟩ | ⟨m, hm⟩
  · refine ⟨link, ?_, hsource, ?_⟩
    · rcases hextends.newLinks link hlink with hold | ⟨c, hc⟩
      · rw [hquiet] at hold
        exact hold
      · rw [hnokey] at hc
        cases hc
    · rw [hextends.nodeOfKey, hquiet] at hkey
      exact hkey
  · rcases hextends.newWarnings _ _ m hm with hold | hc
    · obtain ⟨name, message, hw⟩ := hexecuted.rejections _ hold
      cases hw
    · rw [hnokey] at hc
      cases hc

/-- Where the child of an occurrence can be updated and the parent created, some run only does
that. -/
theorem created_of_nothingLost (hp : p.WellFormed) (hissued : TargetsIssued ctx nodes p)
    (h : ∀ faults, NothingLost nodes (gather ctx faults p nodes) (process ctx faults nodes p)) :
    ∀ node ∈ nodes, ∀ occ ∈ node.occurrences, occ.parentCadId ≠ node.cadId →
      ∀ child ∈ nodes, child.cadId = node.cadId → ∀ parent ∈ nodes, parent.cadId = occ.parentCadId →
        ∀ t, CanUpdate ctx p child t → ¬ CanCreate ctx p parent := by
  intro node hnode occ hocc hne child hchild hcc parent hparent hpc t hcupdate hpcreate
  obtain ⟨i, hi⟩ := List.getElem?_of_mem hchild
  obtain ⟨j, hj⟩ := List.getElem?_of_mem hparent
  have hij : i ≠ j := by
    rintro rfl
    obtain rfl := Option.some.inj (hi.symm.trans hj)
    exact hne (hpc.symm.trans hcc)
  have hexecuted := executed_process hp hissued (onlyUpdateAndCreation i j)
  have hextends := extends_process ctx (onlyUpdateAndCreation i j) nodes p
  -- who updates is the child, who creates is the parent
  have hlow : ∀ c a, (executeAll (onlyUpdateAndCreation i j)
      (gather ctx (onlyUpdateAndCreation i j) p nodes) p).Has c a → a < p.nextId → child.cadId = c := by
    intro c a ha hlt
    obtain ⟨-, nd, hnd, hc, -, hfault⟩ := hexecuted.below ha hlt
    obtain ⟨pos, other, hget, rfl⟩ := mem_gather.mp hnd
    by_cases hpos : pos = i
    · rw [hpos] at hget
      obtain rfl := Option.some.inj (hi.symm.trans hget)
      exact hc
    · have hrefused : (onlyUpdateAndCreation i j).updateNode pos = some (.refused "unavailable") :=
        if_neg hpos
      have hnone := hrefused.symm.trans hfault
      cases hnone
  have hhigh : ∀ c a, (executeAll (onlyUpdateAndCreation i j)
      (gather ctx (onlyUpdateAndCreation i j) p nodes) p).Has c a → p.nextId ≤ a → parent.cadId = c := by
    intro c a ha hle
    obtain ⟨nd, hnd, hc, -, hfault⟩ := hexecuted.above hp ha hle
    obtain ⟨pos, other, hget, rfl⟩ := mem_gather.mp hnd
    by_cases hpos : pos = j
    · rw [hpos] at hget
      obtain rfl := Option.some.inj (hj.symm.trans hget)
      exact hc
    · have hrefused : (onlyUpdateAndCreation i j).createNode pos = some (.refused "unavailable") :=
        if_neg hpos
      have hnone := hrefused.symm.trans hfault
      cases hnone
  have hnokey : (executeAll (onlyUpdateAndCreation i j)
      (gather ctx (onlyUpdateAndCreation i j) p nodes) p).cadIdToLogicalId.lookup node.cadId = none := by
    cases hkey : (executeAll (onlyUpdateAndCreation i j)
      (gather ctx (onlyUpdateAndCreation i j) p nodes) p).cadIdToLogicalId.lookup node.cadId with
    | none => rfl
    | some key =>
      obtain ⟨a, hle, ha, -⟩ := hexecuted.logicalIds node.cadId key hkey
      exact absurd (hpc.symm.trans (hhigh _ a ha hle)) hne
  have hchild' := has_of_canUpdate hexecuted hi hcupdate (by simp [onlyUpdateAndCreation])
    (by simp [onlyUpdateAndCreation])
  have hlookup : (onlyUpdateAndCreation i j).findByExternalId j = true := by
    simp only [onlyUpdateAndCreation, ne_eq, decide_eq_true_eq]
    exact hij.symm
  obtain ⟨a₀, -, hparent'⟩ := hexecuted.creates nodup_pos_gather
    (decideNode ctx (onlyUpdateAndCreation i j) p j parent) (mem_gather.mpr ⟨j, parent, hj, rfl⟩)
    (decideNode_creates hpcreate hlookup) (if_pos rfl) fun nd _ hpos => ⟨_, if_neg hpos⟩
  rw [hcc] at hchild'
  change ImportState.Has _ parent.cadId a₀ at hparent'
  rw [hpc] at hparent'
  obtain ⟨a, b, ha, hb, hlinked⟩ := (h (onlyUpdateAndCreation i j)).linked node hnode occ hocc a₀ t
    (hextends.has.mpr hparent') (hextends.has.mpr hchild')
  have hle : p.nextId ≤ a := by
    by_contra hnle
    exact hne ((hlow _ a (hextends.has.mp ha) (Nat.not_le.mp hnle)).symm.trans hcc)
  have hlt : b < p.nextId := by
    by_contra hnlt
    exact hne (hpc.symm.trans (hhigh _ b (hextends.has.mp hb) (Nat.not_lt.mp hnlt)))
  rcases hlinked with ⟨link, hlink, hsource, hkey⟩ | ⟨m, hm⟩
  · rw [hextends.nodeOfKey] at hkey
    rcases hextends.newLinks link hlink with hold | ⟨c, hc⟩
    · rw [hexecuted.links] at hold
      exact absurd (hsource ▸ hp.sources link hold) (Nat.not_lt.mpr hle)
    · obtain ⟨named, hnamed, -, hkey'⟩ := hexecuted.logicalIds c _ hc
      rw [hexecuted.wellFormed.key_trimmed hkey, hkey] at hkey'
      rw [← Option.some.inj hkey'] at hnamed
      exact absurd hlt (Nat.not_lt.mpr hnamed)
  · rcases hextends.newWarnings _ _ m hm with hold | hc
    · obtain ⟨name, message, hw⟩ := hexecuted.rejections _ hold
      cases hw
    · rw [hnokey] at hc
      cases hc

end Exact

/-! ## A part that exists in a new assembly -/

section Runs

/-- An assembly with one part. -/
def bracketStructure : List CadNodeData :=
  [⟨"assembly", "Bracket", "ASSEMBLY", [], [], 0⟩,
    ⟨"part", "Bolt", "PART", [], [⟨"assembly", none⟩], 0⟩]

/-- PSM has the part. -/
def psmWithBolt : Psm where
  nodes := [⟨0, "nt-part", some "P-1", some "part"⟩]
  links := []
  nextId := 1

/-- The default algorithm updates no node by itself. -/
theorem targetsIssued_default (nodes : List CadNodeData) (p : Psm) :
    TargetsIssued defaultContext nodes p := by
  intro node _ t hupdates
  have heval : defaultContext.evaluateValid node = defaultEvaluate (defaultContext.enrich node) := rfl
  rw [heval, defaultEvaluate] at hupdates
  dsimp only at hupdates
  split at hupdates
  · exact hupdates.elim
  · exact hupdates.elim

end Runs

end PlmCore.Cad
