/-
Where a SELF link points, according to each place that follows it.

Seven pieces of code turn the key of a link into a node. They differ in whether they split
the key at `@`, whether they compare the type exactly, by hierarchy or not at all, and
which version they show. `OneMeaning` says that all of them arrive at one node, and at one
version when the key names one. It holds of an accepted link exactly when the key has no
version suffix, the target has the declared type itself and not a subtype of it, and the
target has a version.
-/
import PlmCore.Psm.Baseline
import PlmCore.Psm.Lifecycle
import PlmCore.Psm.Node

set_option autoImplicit false

namespace PlmCore.Psm

open PlmCore.Lib

/-! ## The remaining readers -/

/-- The links `LockService.resolveV2MDescendants` follows, in either leg of its recursive
query. -/
def isV2MLink (env : Env) (l : LinkRow) : Bool :=
  (env.getLinkType l.linkTypeId).any (·.linkPolicy = some "VERSION_TO_MASTER")
    ∧ l.targetSourceId = "SELF" ∧ hasAt l.targetKey = false

namespace Tables

variable (t : Tables)

/-- One leg of `LockService.resolveV2MDescendants`: the children of a node. -/
def v2mChildren (env : Env) (nodeId : Uuid) : List Uuid :=
  (t.links.filter fun l => t.isLinkOf nodeId l ∧ isV2MLink env l).flatMap fun l =>
    (t.joinedTargets l).map (·.id)

/-- The version `NodeService.fetchLinksAtVersion` joins to a pinned link. -/
def pinnedVersions (l : LinkRow) (n : NodeRow) : List VersionRow :=
  t.versions.filter fun v => v.nodeId = n.id ∧ hasAt l.targetKey
    ∧ castInt (splitPart2 l.targetKey) = some (v.versionNumber : Int)

/-- The rows `fetchLinksAtVersion` joins to a target node. -/
def pinnedRows (l : LinkRow) (n : NodeRow) : List (Option NodeRow × Option VersionRow) :=
  match t.pinnedVersions l n with
  | [] => [(some n, none)]
  | versions => versions.map fun v => (some n, some v)

/-- The target rows `fetchLinksAtVersion` joins to a link: two left joins. -/
def linkAtVersionRows (l : LinkRow) : List (Option NodeRow × Option VersionRow) :=
  match if l.targetSourceId = "SELF" then t.joinedTargets l else [] with
  | [] => [(none, none)]
  | targets => targets.flatMap (t.pinnedRows l)

/-- `NodeService.fetchLinksAtVersion`, without the display columns. -/
def fetchLinksAtVersion (userId : String) (nodeId : Uuid) (maxVersionNum : Nat) :
    List (LinkRow × Option NodeRow × Option VersionRow) :=
  (t.links.filter fun l => t.versions.any fun v => v.id = l.sourceNodeVersionId ∧ v.nodeId = nodeId
      ∧ v.versionNumber ≤ maxVersionNum ∧ t.sees ⟨userId, false, 0⟩ v.txId).flatMap
    fun l => (t.linkAtVersionRows l).map fun r => (l, r)

end Tables

/-! ## Agreement -/

/-- Every place that follows the link arrives at the node `n`. A place that only follows some
links (of a policy, or without a version suffix) is asked about those. -/
structure OneMeaning (env : Env) (s : Db) (l : LinkRow) (n : NodeRow) : Prop where
  resolve : ∃ target, Returns (selfResolve env l.targetType l.targetKey) s target s
    ∧ target.node = n
  createsCycle : s.joinedTargets l = [n]
  resolveChildNodeId : hasAt l.targetKey = false →
    resolveChildNodeId env s.toTables (beforeAt l.targetKey) l.targetType = some n.id
  resolveAndRecord : isMasterLink env l = true → ∀ p, s.isLinkOf p l = true →
    ∀ m, (l, m) ∈ s.baselineLinks p → m = some n
  resolveV2MDescendants : isV2MLink env l = true → s.joinedTargets l = [n]
  resolveDstNodeId : s.resolveDstNodeId l.target = some n.id
  getChildLinks : (s.childRows l).map (·.1) = [n]
  fetchLinksAtVersion : (s.linkAtVersionRows l).map (·.1) = [some n]
  sameVersion : hasAt l.targetKey = true →
    ∃ v, (∃ target, Returns (selfResolve env l.targetType l.targetKey) s target s
        ∧ target.version = some v)
      ∧ s.childRows l = [(n, v)] ∧ s.linkAtVersionRows l = [(some n, some v)]

/-- The link was accepted: `createLink` made it, or `updateLink` gave it its target, and
`s` is the store right after. -/
inductive Accepted (env : Env) (s : Db) (l : LinkRow) : Prop
  | created {ctx : Caller} {linkTypeId : String} {nodeId txId : Uuid}
      {sourceCode type key linkLogicalId : Option String} {s₀ : Db}
      (run : Returns (createLink env ctx linkTypeId nodeId sourceCode type key txId linkLogicalId)
        s₀ l.id s) (stored : l ∈ s.links) (self : l.targetSourceId = "SELF")
  | updated {ctx : Caller} {u : LinkUpdate} {s₀ : Db}
      (run : Returns (updateLink env ctx l.id u) s₀ () s) (asked : u.targetChanged = true)
      (stored : l ∈ s.links) (self : l.targetSourceId = "SELF")

/-! ## Exactly when the places agree -/

/-- The key has no version suffix, and the target is a node of exactly the declared type that
has a version. -/
def PlainTarget (s : Db) (l : LinkRow) : Prop :=
  hasAt l.targetKey = false ∧ ∃ n ∈ s.nodes, n.logicalId = some l.targetKey
    ∧ n.nodeTypeId = l.targetType ∧ s.versionsOf n.id ≠ []

/-- Agreement leaves no choice: the cycle check compares the type exactly, the search events
compare the whole key, and the child view joins a version. -/
theorem OneMeaning.plainTarget {env : Env} {s : Db} {l : LinkRow} {n : NodeRow}
    (h : OneMeaning env s l n) (hself : l.targetSourceId = "SELF") : PlainTarget s l := by
  have hn : n ∈ s.joinedTargets l := by simp [h.createsCycle]
  obtain ⟨hmem, hn⟩ := List.mem_filter.mp hn
  obtain ⟨hlogical, htype⟩ : n.logicalId = some (beforeAt l.targetKey)
    ∧ n.nodeTypeId = l.targetType := by simpa using hn
  have hkey : beforeAt l.targetKey = l.targetKey := by
    have hdst := h.resolveDstNodeId
    simp only [Tables.resolveDstNodeId, LinkRow.target, hself, if_true, Option.map_eq_some_iff] at hdst
    obtain ⟨m, hm, hid⟩ := hdst
    obtain rfl : m = n :=
      List.inj_on_of_nodup_map s.valid.pk_node (List.mem_of_find?_eq_some hm) hmem hid
    have hmkey : m.logicalId = some l.targetKey ∧ m.nodeTypeId = l.targetType := by
      simpa using List.find?_some hm
    rw [hmkey.1] at hlogical
    exact (Option.some.inj hlogical).symm
  refine ⟨hkey ▸ not_hasAt_beforeAt l.targetKey, n, hmem, hkey ▸ hlogical, htype, fun hnone => ?_⟩
  have hrow : n ∈ (s.childRows l).map (·.1) := by simp [h.getChildLinks]
  simp only [Tables.childRows, List.mem_map, List.mem_flatMap] at hrow
  obtain ⟨r, ⟨m, -, v, hv, rfl⟩, rfl⟩ := hrow
  rw [Tables.newestVersions, hnone] at hv
  cases hv

/-- With one node of that logical id, a plain target is the one every place arrives at. -/
theorem PlainTarget.oneMeaning {env : Env} {s : Db} {l : LinkRow} {n₀ : NodeRow}
    (h : PlainTarget s l) (hself : l.targetSourceId = "SELF")
    (honly : s.nodesByLogicalId (beforeAt l.targetKey) = [n₀]) : ∃ n, OneMeaning env s l n := by
  obtain ⟨hat, n, hmem, hlogical, htype, hversions⟩ := h
  have hkey : beforeAt l.targetKey = l.targetKey := beforeAt_of_not_hasAt hat
  rw [hkey] at honly
  obtain rfl : n = n₀ := by
    have hn : n ∈ s.nodesByLogicalId l.targetKey := List.mem_filter.mpr ⟨hmem, by simpa using hlogical⟩
    simpa [honly] using hn
  -- the exact join finds the same single row
  have hexact : (s.nodes.filter fun m => m.logicalId = some l.targetKey
      ∧ m.nodeTypeId = l.targetType) = [n] := by
    have hsplit : (s.nodes.filter fun m => m.logicalId = some l.targetKey
        ∧ m.nodeTypeId = l.targetType)
        = (s.nodesByLogicalId l.targetKey).filter (·.nodeTypeId = l.targetType) := by
      rw [Tables.nodesByLogicalId, List.filter_filter]
      refine List.filter_congr fun m _ => ?_
      simp [and_comm]
    rw [hsplit, honly]
    simp [htype]
  have hjoined : s.joinedTargets l = [n] := by rw [Tables.joinedTargets, hkey, hexact]
  obtain ⟨v, hnewest⟩ := newestVersions_eq_singleton hversions
  refine ⟨n, ?_, hjoined, fun _ => ?_, fun _ p _ m hm => ?_, fun _ => hjoined, ?_, ?_, ?_,
    fun hat' => ?_⟩
  · refine ⟨⟨l.targetKey, n.nodeTypeId, none, n, none⟩, ?_, rfl⟩
    simp only [selfResolve, resolveNode, returns_bind, returns_ofResult, returns_fetchOne]
    refine ⟨⟨l.targetKey, none⟩, s, ⟨by simp [parseKey, hat], rfl⟩, n, s,
      ⟨some n, s, ⟨rfl, by simpa using hexact⟩, returns_pure.mpr ⟨rfl, rfl⟩⟩,
      returns_pure.mpr ⟨rfl, rfl⟩⟩
  · simp [resolveChildNodeId, hkey, honly, htype]
  · obtain ⟨l', -, hm⟩ := List.mem_flatMap.mp hm
    split at hm
    · rename_i hnone
      obtain ⟨rfl, rfl⟩ : l = l' ∧ m = none := by simpa using hm
      rw [if_pos hself, hjoined] at hnone
      cases hnone
    · obtain ⟨x, hx, hxm⟩ := List.mem_map.mp hm
      obtain ⟨rfl, rfl⟩ : l' = l ∧ some x = m := by simpa using hxm
      rw [if_pos hself, hjoined, List.mem_singleton] at hx
      rw [hx]
  · have hfind : s.nodes.find? (fun m => decide (m.logicalId = some l.targetKey
        ∧ m.nodeTypeId = l.targetType)) = some n := by
      rw [← List.head?_filter, hexact]
      rfl
    simp only [Tables.resolveDstNodeId, LinkRow.target, hself, if_true, hfind, Option.map_some]
  · have hchild : s.childTargets l = [n] := by
      rw [← honly, Tables.childTargets, hkey]
      rfl
    simp [Tables.childRows, hchild, hnewest]
  · have hpinned : s.pinnedVersions l n = [] := by simp [Tables.pinnedVersions, hat]
    simp [Tables.linkAtVersionRows, hself, hjoined, Tables.pinnedRows, hpinned]
  · rw [hat] at hat'
    cases hat'

/-- An accepted link has one node of its logical id. -/
theorem Accepted.isOnly {env : Env} {s : Db} {l : LinkRow} (h : Accepted env s l) :
    ∃ n, s.nodesByLogicalId (beforeAt l.targetKey) = [n] := by
  cases h with
  | @created ctx linkTypeId nodeId txId sourceCode type key linkLogicalId s₀ run stored self =>
    obtain ⟨target, sv, s₁, s₂, v, es, -, -, haccepted, -, -, -, hs⟩ := createLink_ok run
    have hnew : newLink ctx l.id linkTypeId sv target linkLogicalId ∈ s.links := by
      rw [hs]
      exact List.mem_append_right _ (List.mem_singleton_self _)
    have hl := List.inj_on_of_nodup_map s.valid.pk_link stored hnew rfl
    have hself : target.sourceCode = "SELF" := by rw [hl] at self; exact self
    have hkey : l.targetKey = target.key := by rw [hl]; rfl
    obtain ⟨n, hn⟩ := haccepted hself
    refine ⟨n, ?_⟩
    rw [hs, hkey]
    exact hn.isOnly
  | @updated ctx u s₀ run asked stored self =>
    obtain ⟨link, source, s₁, target, logicalId, rows, v, es, -, -, -, -, -, hcases, -, -, -, hs⟩ :=
      updateLink_ok run
    obtain ⟨-, -, haccepted⟩ : u.targetChanged = true ∧ target = u.newTarget link ∧ _ :=
      hcases.resolve_left fun h => by simp [asked] at h
    -- the stored row is the one the update wrote
    rw [hs] at stored
    obtain ⟨l', -, hl'⟩ := List.mem_map.mp stored
    have hid : l'.id = l.id := by
      rw [← hl']
      split <;> rfl
    rw [if_pos hid] at hl'
    have hself : target.sourceCode = "SELF" := by rw [← hl'] at self; exact self
    have hkey : l.targetKey = target.key := by rw [← hl']; rfl
    obtain ⟨n, hn⟩ := haccepted hself
    refine ⟨n, ?_⟩
    rw [hs, hkey]
    exact hn.isOnly

/-! ## The equivalence, and two concrete links -/

/-- Creates an assembly and a second node of the given type, and links the first to it. -/
def linkTo (nodeTypeId : String) : Plm Uuid := do
  let _ ← createNode partsEnv engineer none nodeTypeId (some "SUB") none
  let source ← createNode partsEnv engineer none "nt-assembly" (some "TOP") none
  let txId ← findOrOpenTransaction engineer
  createLink partsEnv engineer "lt-composed-of" source none none (some "SUB") txId (some "1")

instance (s : Db) (l : LinkRow) : Decidable (PlainTarget s l) :=
  inferInstanceAs (Decidable (_ ∧ _))

/-- What a test of a run of `linkTo` shows: an accepted link that passes. -/
theorem linkTo_accepted (nodeTypeId : String) (test : Db → LinkRow → Bool)
    (h : passes (linkTo nodeTypeId) Db.empty (fun linkId s => s.links.any fun l =>
      l.id = linkId ∧ l.targetSourceId = "SELF" ∧ test s l = true) = true) :
    ∃ linkId s l, Returns (linkTo nodeTypeId) Db.empty linkId s ∧ Accepted partsEnv s l
      ∧ l.targetSourceId = "SELF" ∧ test s l = true := by
  obtain ⟨linkId, s, hrun, htest⟩ := returns_of_passes h
  obtain ⟨l, hl, htest⟩ := List.any_eq_true.mp htest
  obtain ⟨hid, hself, htest⟩ : l.id = linkId ∧ l.targetSourceId = "SELF" ∧ test s l = true := by
    simpa using htest
  refine ⟨linkId, s, l, hrun, ?_, hself, htest⟩
  simp only [linkTo, returns_bind] at hrun
  obtain ⟨_, _, -, _, _, -, _, _, -, hrun⟩ := hrun
  rw [← hid] at hrun
  exact .created hrun hl hself

/-- **A SELF key has one meaning exactly for plain targets.** For every accepted link, the
places that follow it agree on a node if and only if the key has no version suffix, the
target's type is the declared type itself, and the target has a version. -/
theorem accepted_link_has_one_meaning_iff {env : Env} {s : Db} {l : LinkRow}
    (h : Accepted env s l) (hself : l.targetSourceId = "SELF") :
    (∃ n, OneMeaning env s l n) ↔ PlainTarget s l := by
  obtain ⟨n₀, honly⟩ := h.isOnly
  constructor
  · rintro ⟨n, hn⟩
    exact hn.plainTarget hself
  · intro hplain
    exact hplain.oneMeaning hself honly

/-- A link to a plain part: the equivalence gives it one meaning. -/
theorem accepted_link_has_one_meaning_part : ∃ linkId s l,
    Returns (linkTo "nt-part") Db.empty linkId s ∧ Accepted partsEnv s l
      ∧ ∃ n, OneMeaning partsEnv s l n := by
  obtain ⟨linkId, s, l, hrun, hacc, hself, hplain⟩ :=
    linkTo_accepted "nt-part" (fun s l => PlainTarget s l) (by decide +kernel)
  exact ⟨linkId, s, l, hrun, hacc,
    (accepted_link_has_one_meaning_iff hacc hself).mpr (by simpa using hplain)⟩

/-- A link to an assembly, accepted because an assembly is a part, has no one meaning: the
cascade goes to the assembly, the cycle check goes nowhere. -/
theorem accepted_subassembly_has_no_one_meaning : ∃ linkId s l,
    Returns (linkTo "nt-assembly") Db.empty linkId s ∧ Accepted partsEnv s l
      ∧ (resolveChildNodeId partsEnv s.toTables l.targetKey l.targetType).isSome
      ∧ s.joinedTargets l = [] ∧ ¬ ∃ n, OneMeaning partsEnv s l n := by
  obtain ⟨linkId, s, l, hrun, hacc, -, htest⟩ := linkTo_accepted "nt-assembly"
    (fun s l => s.joinedTargets l = []
      ∧ (resolveChildNodeId partsEnv s.toTables l.targetKey l.targetType).isSome)
    (by decide +kernel)
  obtain ⟨hnone, hchild⟩ : s.joinedTargets l = []
    ∧ (resolveChildNodeId partsEnv s.toTables l.targetKey l.targetType).isSome = true := by
      simpa using htest
  refine ⟨linkId, s, l, hrun, hacc, hchild, hnone, ?_⟩
  rintro ⟨n, hn⟩
  have hcycle := hn.createsCycle
  rw [hnone] at hcycle
  cases hcycle

end PlmCore.Psm
