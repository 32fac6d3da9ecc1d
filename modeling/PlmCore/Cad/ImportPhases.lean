/-
What the phases of an import do.

`Executed` is what the execution phase keeps, node by node: which PSM nodes the job has for which
CAD node, and what the two maps know of them. `Linked` is what the linking phases keep. A call
fails or does what PSM does, so both speak of the calls only through what PSM is afterwards.
-/
import PlmCore.Cad.Import
import PlmCore.Lib.Run

set_option autoImplicit false

namespace PlmCore.Cad

open PlmCore.Lib PlmCore.Psm

/-! ## PSM during an import -/

/-- The ids of PSM are issued, and its logical ids are stored trimmed. -/
structure Psm.WellFormed (p : Psm) : Prop where
  issued : ∀ n ∈ p.nodes, n.id < p.nextId
  sources : ∀ link ∈ p.links, link.sourceNodeId < p.nextId
  trimmed : ∀ n ∈ p.nodes, ∀ l ∈ n.logicalId, trim l = l

/-- PSM has a link between the two nodes. -/
def Psm.linked (p : Psm) (parent child : Uuid) : Prop :=
  ∃ link ∈ p.links, link.sourceNodeId = parent ∧ p.nodeOfKey link.targetKey = some child

/-- Nodes were added, at the end. -/
structure Psm.Grown (p q : Psm) : Prop where
  nodes : p.nodes <+: q.nodes
  nextId : p.nextId ≤ q.nextId

namespace Psm

variable {p q r : Psm}

theorem Grown.refl (p : Psm) : p.Grown p := ⟨List.prefix_rfl, le_rfl⟩

theorem Grown.trans (h₁ : p.Grown q) (h₂ : q.Grown r) : p.Grown r :=
  ⟨h₁.nodes.trans h₂.nodes, h₁.nextId.trans h₂.nextId⟩

theorem Grown.mem_nodeIds (h : p.Grown q) {a : Uuid} (ha : a ∈ p.nodeIds) : a ∈ q.nodeIds :=
  (h.nodes.map (·.id)).subset ha

/-- A key that names a node goes on naming it. -/
theorem Grown.nodeOfKey (h : p.Grown q) {key : String} {a : Uuid} (ha : p.nodeOfKey key = some a) :
    q.nodeOfKey key = some a := by
  obtain ⟨added, hq⟩ := h.nodes
  obtain ⟨n, hn, rfl⟩ := Option.map_eq_some_iff.mp ha
  rw [Psm.nodeOfKey, ← hq, List.find?_append, hn]
  rfl

/-- A node is named by its logical id. -/
theorem nodeOfKey_ok {key : String} {a : Uuid} (h : p.nodeOfKey key = some a) :
    ∃ n ∈ p.nodes, n.id = a ∧ n.logicalId = some key := by
  obtain ⟨n, hn, rfl⟩ := Option.map_eq_some_iff.mp h
  exact ⟨n, List.mem_of_find?_eq_some hn, rfl, by simpa using List.find?_some hn⟩

theorem WellFormed.key_trimmed (hp : p.WellFormed) {key : String} {a : Uuid}
    (h : p.nodeOfKey key = some a) : trim key = key := by
  obtain ⟨n, hn, -, hkey⟩ := nodeOfKey_ok h
  exact hp.trimmed n hn key hkey

theorem WellFormed.lt_nextId (hp : p.WellFormed) {a : Uuid} (h : a ∈ p.nodeIds) : a < p.nextId := by
  obtain ⟨n, hn, rfl⟩ := List.mem_map.mp h
  exact hp.issued n hn

/-- PSM with one more node. -/
def withNode (p : Psm) (n : PsmNode) : Psm :=
  { p with
    nodes := p.nodes ++ [n]
    nextId := p.nextId + 1 }

theorem grown_withNode (p : Psm) (n : PsmNode) : p.Grown (p.withNode n) :=
  ⟨List.prefix_append _ _, Nat.le_succ _⟩

/-- The new node is the one its logical id names, when that was not taken. -/
theorem nodeOfKey_withNode {n : PsmNode} {key : String} (hkey : n.logicalId = some key)
    (hnone : p.nodeOfKey key = none) : (p.withNode n).nodeOfKey key = some n.id := by
  have hfind : p.nodes.find? (·.logicalId = some key) = none := Option.map_eq_none_iff.mp hnone
  have hnew : [n].find? (·.logicalId = some key) = some n := by simp [hkey]
  rw [Psm.nodeOfKey, withNode, List.find?_append, hfind, hnew]
  rfl

end Psm

/-! ## The execution of one node -/

/-- The job has the PSM node `a` for the CAD node: it was created or updated. -/
def ImportState.Has (st : ImportState) (cadId : String) (a : Uuid) : Prop :=
  ∃ r ∈ st.results, r.cadNodeId = cadId ∧ r.psmNodeId = some a

/-- The decision creates a node in PSM as it is in `p`: its logical id is not empty and not
taken. -/
def ImportDecision.Creates (p : Psm) : ImportDecision → Prop
  | .create _ logicalId _ => trim (nvl logicalId) ≠ "" ∧ p.nodeOfKey (trim (nvl logicalId)) = none
  | _ => False

/-- The decision updates the node `t`. -/
def ImportDecision.Updates (t : Uuid) : ImportDecision → Prop
  | .update target _ => target = some t
  | _ => False

/-- The node was created or updated, skipped by its decision, or is reported. -/
def Accounted (warnings : List Warning) (nd : NodeDecision) (r : ImportJobResult) : Prop :=
  r.cadNodeId = nd.node.cadId ∧
    (((r.action = .CREATED ∨ r.action = .UPDATED) ∧ r.psmNodeId.isSome = true)
      ∨ (r.action = .SKIPPED ∧ nd.decision = .skip)
      ∨ (r.action = .REJECTED ∧ .nodeRejected nd.node.name r.errorMessage ∈ warnings))

/-- What `processNode` does to PSM, from `p` to `q`, and when it has a node of PSM. -/
structure Processed (faults : Faults) (nd : NodeDecision) (p : Psm) (r : ImportJobResult) (q : Psm) :
    Prop where
  grown : p.Grown q
  links : q.links = p.links
  wellFormed : p.WellFormed → q.WellFormed
  added : ∀ a ∈ q.nodeIds, a ∈ p.nodeIds ∨ a = p.nextId
  quiet : (∃ m, faults.createNode nd.pos = some (.refused m)) ∨ ¬ nd.decision.Creates p → q = p
  has : ∀ a, r.psmNodeId = some a →
    (nd.decision.Updates a ∧ a ∈ p.nodeIds ∧ faults.updateNode nd.pos = none)
    ∨ (nd.decision.Creates p ∧ faults.createNode nd.pos = none ∧ a = p.nextId ∧ a < q.nextId
      ∧ ∃ l, nd.decision.logicalId = some l ∧ q.nodeOfKey (trim l) = some a)
  updates : ∀ t ∈ p.nodeIds, nd.decision.Updates t → faults.updateNode nd.pos = none →
    r.psmNodeId = some t
  creates : nd.decision.Creates p → faults.createNode nd.pos = none → r.psmNodeId = some p.nextId

theorem Psm.WellFormed.withNode {p : Psm} (h : p.WellFormed) (nodeTypeId s : String)
    (externalId : Option String) :
    (p.withNode (newPsmNode p.nextId nodeTypeId (trim s) externalId)).WellFormed where
  issued n hn := by
    rcases List.mem_append.mp hn with hn | hn
    · exact Nat.lt_succ_of_lt (h.issued n hn)
    · rw [List.mem_singleton.mp hn]
      exact Nat.lt_succ_self _
  sources link hlink := Nat.lt_succ_of_lt (h.sources link hlink)
  trimmed n hn l hl := by
    rcases List.mem_append.mp hn with hn | hn
    · exact h.trimmed n hn l hl
    · rw [List.mem_singleton.mp hn] at hl
      rw [← Option.some.inj hl]
      exact trim_trim s

/-- Attributes are not part of the view. -/
theorem updateNode_psm (fault : Option Fault) (nodeId : Uuid) (p : Psm) :
    (updateNode fault nodeId p).2 = p := by
  apply exchange_psm (fun q => q = p) rfl
  intro u q h
  exact (writePsmNode_ok.mp h).2

theorem writeCreated_psm (faults : Faults) (pos : Nat) (nodeId : Uuid)
    (attributes : List (String × String)) (p : Psm) :
    (writeCreated faults pos nodeId attributes p).2 = p := by
  unfold writeCreated
  split
  · rfl
  · exact updateNode_psm _ _ _

section Processing

variable {faults : Faults} {nd : NodeDecision} {p q : Psm} {r : ImportJobResult}

/-- A node for which no call was answered, and PSM as it was. -/
theorem Processed.unanswered (hr : r.psmNodeId = none)
    (hcreate : nd.decision.Creates p → faults.createNode nd.pos ≠ none)
    (hupdate : ∀ t ∈ p.nodeIds, nd.decision.Updates t → faults.updateNode nd.pos ≠ none) :
    Processed faults nd p r p where
  grown := .refl p
  links := rfl
  wellFormed := id
  added a ha := .inl ha
  quiet _ := rfl
  has a ha := by
    rw [hr] at ha
    cases ha
  updates t ht hdecision hfault := absurd hfault (hupdate t ht hdecision)
  creates hcreates hfault := absurd hfault (hcreate hcreates)

/-- A node that PSM has created, whatever the job knows of it. -/
theorem Processed.inserted {nodeTypeId : String} {logicalId : Option String}
    {attributes : List (String × String)}
    (hdecision : nd.decision = .create nodeTypeId logicalId attributes)
    (hcreates : nd.decision.Creates p) (hrefused : ∀ m, faults.createNode nd.pos ≠ some (.refused m))
    (hhas : ∀ a, r.psmNodeId = some a → a = p.nextId ∧ faults.createNode nd.pos = none)
    (hknown : faults.createNode nd.pos = none → r.psmNodeId = some p.nextId) :
    Processed faults nd p r
      (p.withNode (newPsmNode p.nextId nodeTypeId (trim (nvl logicalId)) (some nd.node.cadId))) where
  grown := p.grown_withNode _
  links := rfl
  wellFormed h := h.withNode _ _ _
  added a ha := by
    obtain ⟨n, hn, rfl⟩ := List.mem_map.mp ha
    rcases List.mem_append.mp hn with hn | hn
    · exact .inl (List.mem_map_of_mem hn)
    · rw [List.mem_singleton.mp hn]
      exact .inr rfl
  quiet h := by
    rcases h with ⟨m, hm⟩ | hnot
    · exact absurd hm (hrefused m)
    · exact absurd hcreates hnot
  has a ha := by
    -- the result names the node only if the answer came back
    obtain ⟨rfl, hfault⟩ := hhas a ha
    refine .inr ⟨hcreates, hfault, rfl, Nat.lt_succ_self _, ?_⟩
    rw [hdecision] at hcreates ⊢
    obtain ⟨hne, hfree⟩ := hcreates
    cases logicalId with
    | none => exact absurd (by decide) hne
    | some l => exact ⟨l, rfl, Psm.nodeOfKey_withNode rfl hfree⟩
  updates t _ hupdates := by
    rw [hdecision] at hupdates
    exact hupdates.elim
  creates _ hfault := hknown hfault

/-- A node that was updated. -/
theorem Processed.updated {t : Uuid} {attributes : List (String × String)} (hr : r.psmNodeId = some t)
    (hdecision : nd.decision = .update (some t) attributes) (ht : t ∈ p.nodeIds)
    (hfault : faults.updateNode nd.pos = none) : Processed faults nd p r p where
  grown := .refl p
  links := rfl
  wellFormed := id
  added a ha := .inl ha
  quiet _ := rfl
  has a ha := by
    obtain rfl := Option.some.inj (hr.symm.trans ha)
    refine .inl ⟨?_, ht, hfault⟩
    rw [hdecision]
    rfl
  updates t' _ hupdates _ := by
    rw [hdecision] at hupdates
    rw [hr]
    exact hupdates
  creates hcreates := by
    rw [hdecision] at hcreates
    exact hcreates.elim

/-- A failed creation left PSM as it was, or made the node. -/
theorem createNode_failed {fault : Option Fault} {nodeTypeId m : String}
    {logicalId externalId : Option String}
    (h : createNode fault nodeTypeId logicalId externalId p = (.error m, q)) :
    (q = p ∧ (fault = none → ∀ a p', insertPsmNode nodeTypeId logicalId externalId p ≠ .ok (a, p')))
    ∨ ((∀ m, fault ≠ some (.refused m)) ∧ fault ≠ none
      ∧ ∃ a, insertPsmNode nodeTypeId logicalId externalId p = .ok (a, q)) := by
  unfold createNode exchange at h
  split at h
  · cases h
  · rename_i hrun
    cases h
    exact .inl ⟨rfl, fun _ a p' => by rw [hrun]; simp⟩
  · rename_i hrun
    cases h
    exact .inr ⟨by simp, by simp, _, hrun⟩
  · cases h
    exact .inl ⟨rfl, by simp⟩
  · cases h
    exact .inl ⟨rfl, by simp⟩

theorem processed_create {nodeTypeId : String} {logicalId : Option String}
    {attributes : List (String × String)}
    (hdecision : nd.decision = .create nodeTypeId logicalId attributes) :
    Processed faults nd p (processNode faults nd p).1 (processNode faults nd p).2 := by
  simp only [processNode, hdecision]
  cases hcall : createNode (faults.createNode nd.pos) nodeTypeId logicalId (some nd.node.cadId) p with
  | mk answer p₁ =>
    cases answer with
    | error m =>
      -- the call failed before it reached PSM, or its answer was lost
      obtain ⟨rfl, hnone⟩ | ⟨hrefused, hfault, a, hrun⟩ := createNode_failed hcall
      · refine .unanswered rfl (fun hcreates hfault => ?_) (fun t _ hupdates => ?_)
        · rw [hdecision] at hcreates
          exact hnone hfault _ _ (insertPsmNode_ok.mpr ⟨hcreates.1, hcreates.2, rfl, rfl⟩)
        · rw [hdecision] at hupdates
          exact hupdates.elim
      · obtain ⟨hne, hfree, -, hnode⟩ := insertPsmNode_ok.mp hrun
        have hp₁ : p₁ = p.withNode
            (newPsmNode p.nextId nodeTypeId (trim (nvl logicalId)) (some nd.node.cadId)) := hnode
        rw [hp₁]
        refine .inserted hdecision ?_ hrefused (fun a ha => ?_) fun h => absurd h hfault
        · rw [hdecision]
          exact ⟨hne, hfree⟩
        · cases ha
    | ok nodeId =>
      obtain ⟨hfault, hrun⟩ := exchange_ok hcall
      obtain ⟨hne, hfree, rfl, hnode⟩ := insertPsmNode_ok.mp hrun
      have hp₁ : p₁ = p.withNode
          (newPsmNode p.nextId nodeTypeId (trim (nvl logicalId)) (some nd.node.cadId)) := hnode
      -- the node is there; the calls that follow write nothing that the view shows
      have hcreates : nd.decision.Creates p := by
        rw [hdecision]
        exact ⟨hne, hfree⟩
      have hinserted : ∀ r : ImportJobResult, r.psmNodeId = some p.nextId → Processed faults nd p r
          (p.withNode
            (newPsmNode p.nextId nodeTypeId (trim (nvl logicalId)) (some nd.node.cadId))) := by
        intro r hr
        refine .inserted hdecision hcreates (by simp [hfault]) (fun a ha => ?_) fun _ => hr
        exact ⟨Option.some.inj (ha.symm.trans hr), hfault⟩
      dsimp only
      cases hwrite : writeCreated faults nd.pos p.nextId attributes p₁ with
      | mk answer p₂ =>
        have hp₂ := writeCreated_psm faults nd.pos p.nextId attributes p₁
        rw [hwrite, hp₁] at hp₂
        change p₂ = _ at hp₂
        cases answer with
        | error m =>
          rw [hp₂]
          exact hinserted _ rfl
        | ok u =>
          rw [hp₂]
          exact hinserted _ rfl

theorem processed_update {target : Option Uuid} {attributes : List (String × String)}
    (hdecision : nd.decision = .update target attributes) :
    Processed faults nd p (processNode faults nd p).1 (processNode faults nd p).2 := by
  have hcreate : nd.decision.Creates p → faults.createNode nd.pos ≠ none := by
    rw [hdecision]
    exact False.elim
  cases target with
  | none =>
    simp only [processNode, hdecision]
    refine .unanswered rfl hcreate fun t _ hupdates => ?_
    rw [hdecision] at hupdates
    cases hupdates
  | some t =>
    simp only [processNode, hdecision]
    cases hcall : updateNode (faults.updateNode nd.pos) t p with
    | mk answer p₁ =>
      have hp₁ := updateNode_psm (faults.updateNode nd.pos) t p
      rw [hcall] at hp₁
      change p₁ = p at hp₁
      cases answer with
      | error m =>
        rw [hp₁]
        refine .unanswered rfl hcreate fun t' ht' hupdates hfault => ?_
        rw [hdecision] at hupdates
        obtain rfl := Option.some.inj hupdates
        rw [updateNode, hfault, exchange_none (a := ()) (writePsmNode_ok.mpr ⟨ht', rfl⟩)] at hcall
        cases hcall
      | ok u =>
        obtain ⟨hfault, hrun⟩ := exchange_ok hcall
        rw [hp₁]
        exact .updated rfl hdecision (writePsmNode_ok.mp hrun).1 hfault

/-- **What `processNode` does.** -/
theorem processed_processNode (faults : Faults) (nd : NodeDecision) (p : Psm) :
    Processed faults nd p (processNode faults nd p).1 (processNode faults nd p).2 := by
  cases hdecision : nd.decision with
  | create nodeTypeId logicalId attributes => exact processed_create hdecision
  | update target attributes => exact processed_update hdecision
  | skip =>
    simp only [processNode, hdecision]
    refine .unanswered rfl ?_ ?_
    · rw [hdecision]
      exact False.elim
    · rw [hdecision]
      exact fun _ _ => False.elim
  | reject reason =>
    simp only [processNode, hdecision]
    refine .unanswered rfl ?_ ?_
    · rw [hdecision]
      exact False.elim
    · rw [hdecision]
      exact fun _ _ => False.elim

/-- **The node is accounted for**, once a rejection is reported. -/
theorem accounted_processNode (faults : Faults) (nd : NodeDecision) (p : Psm) {warnings : List Warning}
    (h : (processNode faults nd p).1.action = .REJECTED →
      .nodeRejected nd.node.name (processNode faults nd p).1.errorMessage ∈ warnings) :
    Accounted warnings nd (processNode faults nd p).1 := by
  revert h
  unfold processNode
  cases hdecision : nd.decision with
  | create nodeTypeId logicalId attributes =>
    dsimp only
    split
    · exact fun h => ⟨rfl, .inr (.inr ⟨rfl, h rfl⟩)⟩
    · split
      · exact fun h => ⟨rfl, .inr (.inr ⟨rfl, h rfl⟩)⟩
      · exact fun _ => ⟨rfl, .inl ⟨.inl rfl, rfl⟩⟩
  | update target attributes =>
    cases target with
    | none => exact fun h => ⟨rfl, .inr (.inr ⟨rfl, h rfl⟩)⟩
    | some t =>
      dsimp only
      split
      · exact fun h => ⟨rfl, .inr (.inr ⟨rfl, h rfl⟩)⟩
      · exact fun _ => ⟨rfl, .inl ⟨.inr rfl, rfl⟩⟩
  | skip => exact fun _ => ⟨rfl, .inr (.inl ⟨rfl, hdecision⟩)⟩
  | reject reason => exact fun h => ⟨rfl, .inr (.inr ⟨rfl, h rfl⟩)⟩

/-- The result is the node's. -/
theorem processNode_cadNodeId (faults : Faults) (nd : NodeDecision) (p : Psm) :
    (processNode faults nd p).1.cadNodeId = nd.node.cadId
      ∧ (processNode faults nd p).1.cadNodeName = nd.node.name := by
  unfold processNode
  split
  · split
    · exact ⟨rfl, rfl⟩
    · split
      · exact ⟨rfl, rfl⟩
      · exact ⟨rfl, rfl⟩
  · exact ⟨rfl, rfl⟩
  · split
    · exact ⟨rfl, rfl⟩
    · exact ⟨rfl, rfl⟩
  · exact ⟨rfl, rfl⟩
  · exact ⟨rfl, rfl⟩

end Processing

/-! ## The execution phase -/

/-- What the execution phase keeps: `done` are the nodes it has carried out, `p` is PSM before the
first. An id below `p.nextId` is one of an update, any other one of a creation. -/
structure Executed (faults : Faults) (p : Psm) (done : List NodeDecision) (st : ImportState) : Prop where
  grown : p.Grown st.psm
  links : st.psm.links = p.links
  wellFormed : st.psm.WellFormed
  added : ∀ a ∈ st.psm.nodeIds, a ∈ p.nodeIds ∨ p.nextId ≤ a
  quiet : (∀ nd ∈ done, (∃ m, faults.createNode nd.pos = some (.refused m)) ∨ ¬ nd.decision.Creates p) →
    st.psm = p
  accounted : List.Forall₂ (Accounted st.warnings) done st.results
  rejections : ∀ w ∈ st.warnings, ∃ name message, w = .nodeRejected name message
  origin : ∀ c a, st.Has c a →
    (a ∈ p.nodeIds ∧ ∃ nd ∈ done, nd.node.cadId = c ∧ nd.decision.Updates a
      ∧ faults.updateNode nd.pos = none)
    ∨ (p.nextId ≤ a ∧ ∃ nd ∈ done, nd.node.cadId = c ∧ nd.decision.Creates p
      ∧ faults.createNode nd.pos = none)
  bound : ∀ c a, st.Has c a → a < st.psm.nextId
  distinct : ∀ c c' a, p.nextId ≤ a → st.Has c a → st.Has c' a → c = c'
  nodeIds : ∀ c a, st.cadIdToNodeId.lookup c = some a → st.Has c a
  hasNodeId : ∀ c a, st.Has c a → (st.cadIdToNodeId.lookup c).isSome = true
  logicalIds : ∀ c l, st.cadIdToLogicalId.lookup c = some l →
    ∃ a, p.nextId ≤ a ∧ st.Has c a ∧ st.psm.nodeOfKey (trim l) = some a
  hasLogicalId : ∀ c a, p.nextId ≤ a → st.Has c a → (st.cadIdToLogicalId.lookup c).isSome = true
  updates : ∀ nd ∈ done, ∀ t ∈ p.nodeIds, nd.decision.Updates t → faults.updateNode nd.pos = none →
    st.Has nd.node.cadId t
  creates : (done.map (·.pos)).Nodup → ∀ nd ∈ done, nd.decision.Creates p →
    faults.createNode nd.pos = none →
    (∀ nd' ∈ done, nd'.pos ≠ nd.pos → ∃ m, faults.createNode nd'.pos = some (.refused m)) →
      ∃ a, p.nextId ≤ a ∧ st.Has nd.node.cadId a

theorem Accounted.mono {ws ws' : List Warning} {nd : NodeDecision} {r : ImportJobResult}
    (h : Accounted ws nd r) (hws : ∀ w ∈ ws, w ∈ ws') : Accounted ws' nd r := by
  refine ⟨h.1, h.2.imp_right fun h => h.imp_right fun h => ⟨h.1, hws _ h.2⟩⟩

section Execution

variable {faults : Faults} {p : Psm} {done : List NodeDecision} {st : ImportState} {nd : NodeDecision}

/-- A decision that creates a node late would have created it early. -/
theorem ImportDecision.Creates.of_grown {p q : Psm} (h : p.Grown q) {d : ImportDecision}
    (hd : d.Creates q) : d.Creates p := by
  cases d with
  | create nodeTypeId logicalId attributes =>
    refine ⟨hd.1, ?_⟩
    cases hkey : p.nodeOfKey (trim (nvl logicalId)) with
    | none => rfl
    | some a =>
      have htaken := h.nodeOfKey hkey
      rw [hd.2] at htaken
      cases htaken
  | update target attributes => exact hd
  | skip => exact hd
  | reject reason => exact hd

/-- An update has no logical id. -/
theorem ImportDecision.Updates.logicalId {d : ImportDecision} {t : Uuid} (h : d.Updates t) :
    d.logicalId = none := by
  cases d with
  | update target attributes => rfl
  | create nodeTypeId logicalId attributes => exact h.elim
  | skip => exact h.elim
  | reject reason => exact h.elim

theorem ImportDecision.Updates.unique {d : ImportDecision} {t t' : Uuid} (h : d.Updates t)
    (h' : d.Updates t') : t = t' := by
  cases d with
  | update target attributes => exact Option.some.inj (h.symm.trans h')
  | create nodeTypeId logicalId attributes => exact h.elim
  | skip => exact h.elim
  | reject reason => exact h.elim

/-- One round adds what the node has. -/
theorem has_executeNode {c : String} {a : Uuid} :
    (executeNode faults st nd).Has c a ↔
      st.Has c a ∨ (nd.node.cadId = c ∧ (processNode faults nd st.psm).1.psmNodeId = some a) := by
  have hid := (processNode_cadNodeId faults nd st.psm).1
  have hresults : (executeNode faults st nd).results
      = st.results ++ [(processNode faults nd st.psm).1] := rfl
  unfold ImportState.Has
  rw [hresults]
  constructor
  · rintro ⟨r, hr, hc, ha⟩
    rcases List.mem_append.mp hr with hr | hr
    · exact .inl ⟨r, hr, hc, ha⟩
    · rw [List.mem_singleton.mp hr] at hc ha
      exact .inr ⟨hid.symm.trans hc, ha⟩
  · rintro (⟨r, hr, hc, ha⟩ | ⟨hc, ha⟩)
    · exact ⟨r, List.mem_append_left _ hr, hc, ha⟩
    · exact ⟨_, List.mem_append_right _ (List.mem_singleton_self _), hid.trans hc, ha⟩

theorem executed_init (hp : p.WellFormed) : Executed faults p [] (ImportState.init p) := by
  have hnone : ∀ c a, ¬ (ImportState.init p).Has c a := by
    rintro c a ⟨r, hr, -⟩
    cases hr
  exact
    { grown := .refl p
      links := rfl
      wellFormed := hp
      added := fun a ha => .inl ha
      quiet := fun _ => rfl
      accounted := .nil
      rejections := fun w hw => by cases hw
      origin := fun c a h => absurd h (hnone c a)
      bound := fun c a h => absurd h (hnone c a)
      distinct := fun c c' a _ h => absurd h (hnone c a)
      nodeIds := fun c a h => by cases h
      hasNodeId := fun c a h => absurd h (hnone c a)
      logicalIds := fun c l h => by cases h
      hasLogicalId := fun c a _ h => absurd h (hnone c a)
      updates := fun nd hnd => by cases hnd
      creates := fun _ nd hnd => by cases hnd }

/-- The maps of a round. -/
theorem lookup_putNodeId {c : String} {a : Uuid} {o : Option Uuid}
    (h : (st.putNodeId nd.node.cadId o).lookup c = some a) :
    (c = nd.node.cadId ∧ o = some a) ∨ st.cadIdToNodeId.lookup c = some a := by
  cases o with
  | none => exact .inr h
  | some b =>
    by_cases hc : c = nd.node.cadId
    · rw [hc] at h
      simp only [ImportState.putNodeId, List.lookup_cons_self] at h
      exact .inl ⟨hc, h⟩
    · have hne : (c == nd.node.cadId) = false := by simpa using hc
      simp only [ImportState.putNodeId, List.lookup_cons, hne] at h
      exact .inr h

theorem isSome_lookup_put {β : Type} {m : List (String × β)} {k c : String} {b : β}
    (h : (m.lookup c).isSome = true ∨ c = k) : (((k, b) :: m).lookup c).isSome = true := by
  by_cases hc : c = k
  · rw [hc, List.lookup_cons_self]
    rfl
  · have hne : (c == k) = false := by simpa using hc
    rw [List.lookup_cons, hne]
    exact h.resolve_right hc

theorem lookup_putLogicalId {c l : String} {o : Option Uuid} {k : Option String}
    (h : (st.putLogicalId nd.node.cadId o k).lookup c = some l) :
    (c = nd.node.cadId ∧ o.isSome = true ∧ k = some l) ∨ st.cadIdToLogicalId.lookup c = some l := by
  cases o with
  | none => exact .inr h
  | some b =>
    cases k with
    | none => exact .inr h
    | some l' =>
      by_cases hc : c = nd.node.cadId
      · rw [hc] at h
        simp only [ImportState.putLogicalId, List.lookup_cons_self] at h
        exact .inl ⟨hc, rfl, h⟩
      · have hne : (c == nd.node.cadId) = false := by simpa using hc
        simp only [ImportState.putLogicalId, List.lookup_cons, hne] at h
        exact .inr h

theorem mem_warnRejected {r : ImportJobResult} {w : Warning} :
    w ∈ st.warnRejected r ↔ w ∈ st.warnings
      ∨ (r.action = .REJECTED ∧ w = .nodeRejected r.cadNodeName r.errorMessage) := by
  unfold ImportState.warnRejected
  split
  · rename_i hr
    simp [hr]
  · rename_i hr
    simp [hr]

/-- An id that PSM had before the first node is one of an update. -/
theorem Executed.below (h : Executed faults p done st) {c : String} {a : Uuid}
    (ha : st.Has c a) (hlt : a < p.nextId) :
    a ∈ p.nodeIds ∧ ∃ nd ∈ done, nd.node.cadId = c ∧ nd.decision.Updates a
      ∧ faults.updateNode nd.pos = none := by
  rcases h.origin c a ha with h | ⟨hle, -⟩
  · exact h
  · exact absurd hlt (Nat.not_lt.mpr hle)

/-- An id that it had not is one of a creation. -/
theorem Executed.above (h : Executed faults p done st) (hp : p.WellFormed) {c : String} {a : Uuid}
    (ha : st.Has c a) (hle : p.nextId ≤ a) :
    ∃ nd ∈ done, nd.node.cadId = c ∧ nd.decision.Creates p ∧ faults.createNode nd.pos = none := by
  rcases h.origin c a ha with ⟨hmem, -⟩ | ⟨-, h⟩
  · exact absurd (hp.lt_nextId hmem) (Nat.not_lt.mpr hle)
  · exact h

/-- **One round of the execution phase keeps the invariant.** -/
theorem Executed.step (h : Executed faults p done st) (hp : p.WellFormed)
    (hissued : ∀ t, nd.decision.Updates t → t < p.nextId) :
    Executed faults p (done ++ [nd]) (executeNode faults st nd) := by
  have hproc := processed_processNode faults nd st.psm
  have hwarnings : (executeNode faults st nd).warnings
      = st.warnRejected (processNode faults nd st.psm).1 := rfl
  have hwarn : ∀ w ∈ st.warnings, w ∈ (executeNode faults st nd).warnings := by
    intro w hw
    rw [hwarnings, mem_warnRejected]
    exact .inl hw
  have hacc : Accounted (executeNode faults st nd).warnings nd (processNode faults nd st.psm).1 := by
    refine accounted_processNode faults nd st.psm fun hrejected => ?_
    rw [hwarnings, mem_warnRejected]
    exact .inr ⟨hrejected, by rw [(processNode_cadNodeId faults nd st.psm).2]⟩
  -- what the node has, in terms of PSM before the first node
  have hnew : ∀ a, (processNode faults nd st.psm).1.psmNodeId = some a →
      (a ∈ p.nodeIds ∧ nd.decision.Updates a ∧ faults.updateNode nd.pos = none)
      ∨ (p.nextId ≤ a ∧ a = st.psm.nextId ∧ nd.decision.Creates p ∧ faults.createNode nd.pos = none
        ∧ ∃ l, nd.decision.logicalId = some l
          ∧ (executeNode faults st nd).psm.nodeOfKey (trim l) = some a) := by
    intro a ha
    rcases hproc.has a ha with ⟨hupdates, hmem, hfault⟩ | ⟨hcreates, hfault, rfl, -, hl⟩
    · refine .inl ⟨?_, hupdates, hfault⟩
      exact (h.added a hmem).resolve_right (Nat.not_le.mpr (hissued a hupdates))
    · exact .inr ⟨h.grown.nextId, rfl, hcreates.of_grown h.grown, hfault, hl⟩
  have hlt : ∀ a, (processNode faults nd st.psm).1.psmNodeId = some a →
      a < (executeNode faults st nd).psm.nextId := by
    intro a ha
    rcases hproc.has a ha with ⟨-, hmem, -⟩ | ⟨-, -, -, hlt, -⟩
    · exact Nat.lt_of_lt_of_le (h.wellFormed.lt_nextId hmem) hproc.grown.nextId
    · exact hlt
  exact
    { grown := h.grown.trans hproc.grown
      links := hproc.links.trans h.links
      wellFormed := hproc.wellFormed h.wellFormed
      added := by
        intro a ha
        rcases hproc.added a ha with ha | rfl
        · exact h.added a ha
        · exact .inr h.grown.nextId
      quiet := by
        intro hall
        have hpsm := h.quiet fun nd' hnd' => hall nd' (List.mem_append_left _ hnd')
        have hlast := hall nd (List.mem_append_right _ (List.mem_singleton_self _))
        rw [← hpsm] at hlast
        exact (hproc.quiet hlast).trans hpsm
      accounted := by
        refine List.rel_append (h.accounted.imp fun _ _ ha => ha.mono hwarn) ?_
        exact .cons hacc .nil
      rejections := by
        intro w hw
        rw [hwarnings, mem_warnRejected] at hw
        rcases hw with hw | ⟨-, hw⟩
        · exact h.rejections w hw
        · exact ⟨_, _, hw⟩
      origin := by
        intro c a ha
        have hlast : nd ∈ done ++ [nd] := List.mem_append_right _ (List.mem_singleton_self _)
        rcases has_executeNode.mp ha with ha | ⟨hc, ha⟩
        · refine (h.origin c a ha).imp ?_ ?_
          · rintro ⟨hmem, nd', hnd', h'⟩
            exact ⟨hmem, nd', List.mem_append_left _ hnd', h'⟩
          · rintro ⟨hle, nd', hnd', h'⟩
            exact ⟨hle, nd', List.mem_append_left _ hnd', h'⟩
        · refine (hnew a ha).imp ?_ ?_
          · rintro ⟨hmem, hupdates, hfault⟩
            exact ⟨hmem, nd, hlast, hc, hupdates, hfault⟩
          · rintro ⟨hle, -, hcreates, hfault, -⟩
            exact ⟨hle, nd, hlast, hc, hcreates, hfault⟩
      bound := by
        intro c a ha
        rcases has_executeNode.mp ha with ha | ⟨-, ha⟩
        · exact Nat.lt_of_lt_of_le (h.bound c a ha) hproc.grown.nextId
        · exact hlt a ha
      distinct := by
        intro c c' a hle ha ha'
        have hfresh : ∀ c, st.Has c a → ¬ (processNode faults nd st.psm).1.psmNodeId = some a := by
          intro c hold hnow
          rcases hnew a hnow with ⟨hmem, -⟩ | ⟨-, hnext, -⟩
          · exact absurd (hp.lt_nextId hmem) (Nat.not_lt.mpr hle)
          · exact absurd (h.bound c a hold) (Nat.not_lt.mpr (Nat.le_of_eq hnext.symm))
        rcases has_executeNode.mp ha with ha | ⟨hc, ha⟩
        · rcases has_executeNode.mp ha' with ha' | ⟨-, ha'⟩
          · exact h.distinct c c' a hle ha ha'
          · exact absurd ha' (hfresh c ha)
        · rcases has_executeNode.mp ha' with ha' | ⟨hc', -⟩
          · exact absurd ha (hfresh c' ha')
          · exact hc.symm.trans hc'
      nodeIds := by
        intro c a hlookup
        rw [has_executeNode]
        rcases lookup_putNodeId hlookup with ⟨hc, ha⟩ | hold
        · exact .inr ⟨hc.symm, ha⟩
        · exact .inl (h.nodeIds c a hold)
      hasNodeId := by
        intro c a ha
        change ((st.putNodeId nd.node.cadId (processNode faults nd st.psm).1.psmNodeId).lookup c).isSome
          = true
        cases hr : (processNode faults nd st.psm).1.psmNodeId with
        | none =>
          rcases has_executeNode.mp ha with ha | ⟨-, ha⟩
          · exact h.hasNodeId c a ha
          · rw [hr] at ha
            cases ha
        | some b =>
          refine isSome_lookup_put ?_
          rcases has_executeNode.mp ha with ha | ⟨hc, -⟩
          · exact .inl (h.hasNodeId c a ha)
          · exact .inr hc.symm
      logicalIds := by
        intro c l hlookup
        rcases lookup_putLogicalId hlookup with ⟨rfl, hsome, hl⟩ | hold
        · obtain ⟨a, ha⟩ := Option.isSome_iff_exists.mp hsome
          rcases hnew a ha with ⟨-, hupdates, -⟩ | ⟨hle, -, -, -, l', hl', hkey⟩
          · rw [hupdates.logicalId] at hl
            cases hl
          · obtain rfl := Option.some.inj (hl.symm.trans hl')
            exact ⟨a, hle, has_executeNode.mpr (.inr ⟨rfl, ha⟩), hkey⟩
        · obtain ⟨a, hle, ha, hkey⟩ := h.logicalIds c l hold
          exact ⟨a, hle, has_executeNode.mpr (.inl ha), hproc.grown.nodeOfKey hkey⟩
      hasLogicalId := by
        intro c a hle ha
        change ((st.putLogicalId nd.node.cadId (processNode faults nd st.psm).1.psmNodeId
          nd.decision.logicalId).lookup c).isSome = true
        have hput : st.Has c a → ∀ o k, ((st.putLogicalId nd.node.cadId o k).lookup c).isSome = true := by
          intro hold o k
          cases o with
          | none => exact h.hasLogicalId c a hle hold
          | some b =>
            cases k with
            | none => exact h.hasLogicalId c a hle hold
            | some l => exact isSome_lookup_put (.inl (h.hasLogicalId c a hle hold))
        rcases has_executeNode.mp ha with ha | ⟨hc, ha⟩
        · exact hput ha _ _
        · rcases hnew a ha with ⟨hmem, -⟩ | ⟨-, -, -, -, l, hl, -⟩
          · exact absurd (hp.lt_nextId hmem) (Nat.not_lt.mpr hle)
          · rw [ha, hl]
            exact isSome_lookup_put (.inr hc.symm)
      updates := by
        intro nd' hnd' t ht hupdates hfault
        rw [has_executeNode]
        rcases List.mem_append.mp hnd' with hnd' | hnd'
        · exact .inl (h.updates nd' hnd' t ht hupdates hfault)
        · rw [List.mem_singleton.mp hnd'] at hupdates hfault ⊢
          exact .inr ⟨rfl, hproc.updates t (h.grown.mem_nodeIds ht) hupdates hfault⟩
      creates := by
        intro hnodup nd' hnd' hcreates hfault hothers
        rw [List.map_append] at hnodup
        have hlast : nd ∈ done ++ [nd] := List.mem_append_right _ (List.mem_singleton_self _)
        rcases List.mem_append.mp hnd' with hnd' | hnd'
        · obtain ⟨a, hle, ha⟩ := h.creates (List.nodup_append.mp hnodup).1 nd' hnd' hcreates hfault
            fun nd'' h'' => hothers nd'' (List.mem_append_left _ h'')
          exact ⟨a, hle, has_executeNode.mpr (.inl ha)⟩
        · obtain rfl := List.mem_singleton.mp hnd'
          -- nothing was created before it
          have hpsm : st.psm = p := h.quiet fun nd'' h'' => .inl <| hothers nd''
            (List.mem_append_left _ h'') fun hpos => (List.nodup_append.mp hnodup).2.2 _
              (List.mem_map_of_mem h'') _ (List.mem_singleton_self _) hpos
          have hhas := hproc.creates (hpsm ▸ hcreates) hfault
          exact ⟨st.psm.nextId, h.grown.nextId, has_executeNode.mpr (.inr ⟨rfl, hhas⟩)⟩ }

/-- **The whole execution phase.** -/
theorem executed_executeAll {planned : List NodeDecision} (hp : p.WellFormed)
    (hissued : ∀ nd ∈ planned, ∀ t, nd.decision.Updates t → t < p.nextId) :
    Executed faults p planned (executeAll faults planned p) := by
  suffices hrun : ∀ (rest done : List NodeDecision) (st : ImportState), (∀ nd ∈ rest, nd ∈ planned) →
      Executed faults p done st →
        Executed faults p (done ++ rest) (rest.foldl (executeNode faults) st) from
    hrun planned [] (ImportState.init p) (fun _ h => h) (executed_init hp)
  intro rest
  induction rest with
  | nil =>
    intro done st _ h
    rw [List.append_nil]
    exact h
  | cons nd rest ih =>
    intro done st hmem h
    have hstep := h.step hp (hissued nd (hmem nd List.mem_cons_self))
    have hrest := ih (done ++ [nd]) _ (fun nd' h' => hmem nd' (List.mem_cons_of_mem _ h')) hstep
    rw [List.append_assoc] at hrest
    exact hrest

end Execution

/-! ## The linking phases -/

/-- What a call that makes a link does to PSM. -/
structure LinkCalled (parent : Uuid) (key : String) (p : Psm) (ok : Bool) (q : Psm) : Prop where
  nodes : q.nodes = p.nodes
  old : ∀ link ∈ p.links, link ∈ q.links
  new : ∀ link ∈ q.links, link ∈ p.links ∨ link.targetKey = key
  made : ok = true → (p.nodeOfKey key).isSome = true
    ∧ ∃ link ∈ q.links, link.sourceNodeId = parent ∧ link.targetKey = key

/-- From `st` to `st'` only links were made, with keys the job knows, and failures reported. -/
structure Extends (st st' : ImportState) : Prop where
  nodes : st'.psm.nodes = st.psm.nodes
  nodeIdMap : st'.cadIdToNodeId = st.cadIdToNodeId
  logicalIdMap : st'.cadIdToLogicalId = st.cadIdToLogicalId
  results : st'.results = st.results
  links : ∀ link ∈ st.psm.links, link ∈ st'.psm.links
  warnings : ∀ w ∈ st.warnings, w ∈ st'.warnings
  newLinks : ∀ link ∈ st'.psm.links,
    link ∈ st.psm.links ∨ ∃ c, st.cadIdToLogicalId.lookup c = some link.targetKey
  newWarnings : ∀ a c m, .bomLinkFailed a c m ∈ st'.warnings →
    .bomLinkFailed a c m ∈ st.warnings ∨ (st.cadIdToLogicalId.lookup c).isSome = true

namespace Extends

variable {st st₁ st₂ st₃ : ImportState}

theorem refl (st : ImportState) : Extends st st :=
  ⟨rfl, rfl, rfl, rfl, fun _ h => h, fun _ h => h, fun _ h => .inl h, fun _ _ _ h => .inl h⟩

theorem trans (h₁ : Extends st₁ st₂) (h₂ : Extends st₂ st₃) : Extends st₁ st₃ where
  nodes := h₂.nodes.trans h₁.nodes
  nodeIdMap := h₂.nodeIdMap.trans h₁.nodeIdMap
  logicalIdMap := h₂.logicalIdMap.trans h₁.logicalIdMap
  results := h₂.results.trans h₁.results
  links link hlink := h₂.links link (h₁.links link hlink)
  warnings w hw := h₂.warnings w (h₁.warnings w hw)
  newLinks link hlink := by
    rcases h₂.newLinks link hlink with hlink | hkey
    · exact h₁.newLinks link hlink
    · rw [h₁.logicalIdMap] at hkey
      exact .inr hkey
  newWarnings a c m hw := by
    rcases h₂.newWarnings a c m hw with hw | hkey
    · exact h₁.newWarnings a c m hw
    · rw [h₁.logicalIdMap] at hkey
      exact .inr hkey

/-- What the job has stays. -/
theorem has (h : Extends st₁ st₂) {c : String} {a : Uuid} : st₂.Has c a ↔ st₁.Has c a := by
  unfold ImportState.Has
  rw [h.results]

theorem nodeOfKey (h : Extends st₁ st₂) (key : String) :
    st₂.psm.nodeOfKey key = st₁.psm.nodeOfKey key := by
  unfold Psm.nodeOfKey
  rw [h.nodes]

/-- A loop extends when each of its rounds does, and each round is one of the way. -/
theorem foldl {β : Type} {f : ImportState → β → ImportState} (hf : ∀ st x, Extends st (f st x))
    (xs : List β) (st : ImportState) : Extends st (xs.foldl f st) := by
  induction xs generalizing st with
  | nil => exact .refl st
  | cons x xs ih => exact (hf st x).trans (ih (f st x))

theorem foldl_round {β : Type} {f : ImportState → β → ImportState} (hf : ∀ st x, Extends st (f st x))
    {xs : List β} {x : β} (hx : x ∈ xs) (st : ImportState) :
    ∃ st₁, Extends st st₁ ∧ Extends (f st₁ x) (xs.foldl f st) := by
  induction xs generalizing st with
  | nil => cases hx
  | cons y ys ih =>
    rcases List.mem_cons.mp hx with rfl | hx
    · exact ⟨st, .refl st, foldl hf ys (f st x)⟩
    · obtain ⟨st₁, h₁, h₂⟩ := ih hx (f st y)
      exact ⟨st₁, (hf st y).trans h₁, h₂⟩

/-- The end of a `try` with a key of the job. -/
theorem finish {warn : String → Warning} {answer : Except String Unit} {q : Psm} {parent : Uuid}
    {key c : String} (hkey : st.cadIdToLogicalId.lookup c = some key)
    (hcall : LinkCalled parent key st.psm answer.isOk q)
    (hwarn : ∀ m a c' m', warn m = .bomLinkFailed a c' m' → c' = c) :
    Extends st (st.finish warn (answer, q)) := by
  have hlinks : ∀ link ∈ q.links,
      link ∈ st.psm.links ∨ ∃ c, st.cadIdToLogicalId.lookup c = some link.targetKey := by
    intro link hlink
    rcases hcall.new link hlink with hold | hnew
    -- the maps are final by now: linking adds links and warnings
    · exact .inl hold
    · rw [hnew]
      exact .inr ⟨c, hkey⟩
  cases answer with
  | ok u =>
    exact
      { nodes := hcall.nodes
        nodeIdMap := rfl
        logicalIdMap := rfl
        results := rfl
        links := hcall.old
        warnings := fun _ h => h
        newLinks := hlinks
        newWarnings := fun _ _ _ h => .inl h }
  | error m =>
    exact
      { nodes := hcall.nodes
        nodeIdMap := rfl
        logicalIdMap := rfl
        results := rfl
        links := hcall.old
        warnings := fun _ h => List.mem_append_left _ h
        newLinks := hlinks
        newWarnings := fun a c' m' h => by
          rcases List.mem_append.mp h with h | h
          · exact .inl h
          · obtain rfl := hwarn m a c' m' (List.mem_singleton.mp h).symm
            exact .inr (by rw [hkey]; rfl) }

end Extends

section Linking

variable {ctx : ImportContext} {faults : Faults} {nd : NodeDecision} {st : ImportState}

theorem LinkCalled.nothing (parent : Uuid) (key : String) (p : Psm) : LinkCalled parent key p false p :=
  ⟨rfl, fun _ h => h, fun _ h => .inl h, fun h => by cases h⟩

/-- What `createLink` does. -/
theorem linkCalled_createLink (fault : Option Fault) (parent : Uuid) (key linkTypeId : String) (p : Psm) :
    LinkCalled parent key p (createLink fault parent key linkTypeId p).1.isOk
      (createLink fault parent key linkTypeId p).2 := by
  have hmade : ∀ a q, insertPsmLink parent key linkTypeId p = .ok (a, q) → LinkCalled parent key p true q := by
    intro a q h
    obtain ⟨hsome, -, rfl⟩ := insertPsmLink_ok.mp h
    refine ⟨rfl, fun link hlink => List.mem_append_left _ hlink, fun link hlink => ?_, fun _ => ⟨hsome, ?_⟩⟩
    · rcases List.mem_append.mp hlink with hlink | hlink
      · exact .inl hlink
      · rw [List.mem_singleton.mp hlink]
        exact .inr rfl
    · exact ⟨_, List.mem_append_right _ (List.mem_singleton_self _), rfl, rfl⟩
  cases hcall : createLink fault parent key linkTypeId p with
  | mk answer q =>
    cases answer with
    | ok a => exact hmade a q (exchange_ok hcall).2
    | error m =>
      have hq : LinkCalled parent key p false q := by
        have hpsm : LinkCalled parent key p false (createLink fault parent key linkTypeId p).2 := by
          apply exchange_psm (fun q => LinkCalled parent key p false q) (.nothing parent key p)
          intro a q h
          exact { hmade a q h with made := fun h => by cases h }
        rw [hcall] at hpsm
        exact hpsm
      exact hq

/-- What the calls for one occurrence do. -/
theorem linkCalled_callLink (ctx : ImportContext) (faults : Faults) (nd : NodeDecision) (k : Nat)
    (occ : CadOccurrence) (parent : Uuid) (key : String) (p : Psm) :
    LinkCalled parent key p (callLink ctx faults nd k occ parent key p).1.isOk
      (callLink ctx faults nd k occ parent key p).2 := by
  unfold callLink
  cases faults.evaluateLink nd.pos k with
  | some m => exact .nothing parent key p
  | none =>
    have hcalled := linkCalled_createLink (faults.createLink nd.pos k) parent key
      (ctx.evaluateLink nd.node occ).linkTypeId p
    dsimp only
    cases hcall : createLink (faults.createLink nd.pos k) parent key
      (ctx.evaluateLink nd.node occ).linkTypeId p with
    | mk answer q =>
      rw [hcall] at hcalled
      cases answer with
      | error m => exact hcalled
      | ok a =>
        dsimp only
        split
        · exact hcalled
        · have hq : (updateLinkAttributes (faults.updateLinkAttributes nd.pos k) q).2 = q := by
            apply exchange_psm (fun q' => q' = q) rfl
            intro u q' h
            cases h
            rfl
          rw [hq]
          exact { hcalled with made := fun _ => hcalled.made rfl }

/-- **One occurrence**: nothing but a link or a warning. -/
theorem extends_linkOccurrence (occ : CadOccurrence × Nat) :
    Extends st (linkOccurrence ctx faults nd st occ) := by
  unfold linkOccurrence
  split
  · rename_i parent key hparent hkey
    refine .finish hkey (linkCalled_callLink ctx faults nd occ.2 occ.1 parent key st.psm) ?_
    intro m a c' m' h
    cases h
    rfl
  · exact .refl st

/-- **An occurrence whose parent has a node and whose child has a logical id becomes a link with
that key, or is reported.** -/
theorem linkOccurrence_ok (ctx : ImportContext) (faults : Faults) (occ : CadOccurrence × Nat)
    {parent : Uuid} {key : String}
    (hparent : st.cadIdToNodeId.lookup occ.1.parentCadId = some parent)
    (hkey : st.cadIdToLogicalId.lookup nd.node.cadId = some key) :
    (∃ m, .bomLinkFailed parent nd.node.cadId m ∈ (linkOccurrence ctx faults nd st occ).warnings)
    ∨ ((st.psm.nodeOfKey key).isSome = true ∧ ∃ link ∈ (linkOccurrence ctx faults nd st occ).psm.links,
        link.sourceNodeId = parent ∧ link.targetKey = key) := by
  have hcalled := linkCalled_callLink ctx faults nd occ.2 occ.1 parent key st.psm
  unfold linkOccurrence
  simp only [hparent, hkey]
  cases hcall : callLink ctx faults nd occ.2 occ.1 parent key st.psm with
  | mk answer q =>
    rw [hcall] at hcalled
    cases answer with
    | ok u => exact .inr (hcalled.made rfl)
    | error m => exact .inl ⟨m, List.mem_append_right _ (List.mem_singleton_self _)⟩

theorem extends_linkNode (st : ImportState) (nd : NodeDecision) :
    Extends st (linkNode ctx faults st nd) :=
  .foldl (fun _ => extends_linkOccurrence) _ st

theorem extends_linkToRoot (root : Uuid) (st : ImportState) (nd : NodeDecision) :
    Extends st (linkToRoot faults root st nd) := by
  unfold linkToRoot
  split
  · exact .refl st
  · split
    · rename_i child key hchild hkey
      have hcalled := linkCalled_createLink (faults.createRootLink nd.pos) root key "lt-composed-of" st.psm
      dsimp only
      apply Extends.finish hkey
      · show LinkCalled root key st.psm _ _
        cases hcall : createLink (faults.createRootLink nd.pos) root key "lt-composed-of" st.psm with
        | mk answer q =>
          rw [hcall] at hcalled
          cases answer with
          | ok a => exact hcalled
          | error m => exact hcalled
      · intro m a c' m' h
        cases h
    · exact .refl st

theorem extends_linkRoots (planned : List NodeDecision) (st : ImportState) :
    Extends st (linkRoots ctx faults planned st) := by
  unfold linkRoots
  split
  · exact .foldl (extends_linkToRoot _) _ st
  · exact .refl st

/-- **The linking phases** extend the execution phase. -/
theorem extends_process (ctx : ImportContext) (faults : Faults) (nodes : List CadNodeData) (p : Psm) :
    Extends (executeAll faults (gather ctx faults p nodes) p) (process ctx faults nodes p) :=
  (Extends.foldl extends_linkNode _ _).trans (extends_linkRoots _ _)

/-- Each occurrence of each node has its turn. -/
theorem process_occurrence {nodes : List CadNodeData} {p : Psm}
    (hnd : nd ∈ gather ctx faults p nodes) {occ : CadOccurrence} (hocc : occ ∈ nd.node.occurrences) :
    ∃ st₁ k, Extends (executeAll faults (gather ctx faults p nodes) p) st₁
      ∧ Extends (linkOccurrence ctx faults nd st₁ (occ, k)) (process ctx faults nodes p) := by
  obtain ⟨k, hget⟩ := List.getElem?_of_mem hocc
  have hk : (occ, k) ∈ nd.node.occurrences.zipIdx := List.mk_mem_zipIdx_iff_getElem?.mpr hget
  obtain ⟨st₁, h₁, h₂⟩ := Extends.foldl_round (f := linkNode ctx faults) extends_linkNode hnd
    (executeAll faults (gather ctx faults p nodes) p)
  obtain ⟨st₂, h₃, h₄⟩ := Extends.foldl_round (f := linkOccurrence ctx faults nd)
    (fun _ => extends_linkOccurrence) hk st₁
  exact ⟨st₂, k, h₁.trans h₃, (h₄.trans h₂).trans (extends_linkRoots _ _)⟩

end Linking

end PlmCore.Cad
