/-
`LockService.tryLockCascade`: the lock on a node and all it reaches over version-to-master links.

The nodes to lock come from one recursive query that keeps duplicates and joins targets of exactly
the declared type. It does not end where it reaches a cycle, and it passes over a target of a subtype,
which `SelfNodeResolver` accepts. The locks are taken one after the other in one transaction, so a
conflict undoes those before it.
-/
import PlmCore.Lib.RecursiveQuery
import PlmCore.Psm.KeyMeaning

set_option autoImplicit false

namespace PlmCore.Psm

open PlmCore.Lib Relation

/-! ## The service -/

/-- The rows of the recursive query of `resolveV2MDescendants`, within so many rounds. -/
def Tables.v2mDescendants (env : Env) (t : Tables) (rounds : Nat) (nodeId : Uuid) : Option (List Uuid) :=
  recursiveQuery (t.v2mChildren env) rounds (t.v2mChildren env nodeId)

/-- What `resolveV2MDescendants` may answer: the rows, each once, in any order (`SELECT DISTINCT`). -/
def Tables.ResolvesDescendants (env : Env) (t : Tables) (nodeId : Uuid) (found : List Uuid) : Prop :=
  ∃ rounds rows, t.v2mDescendants env rounds nodeId = some rows ∧ found.Nodup ∧
    ∀ x, x ∈ found ↔ x ∈ rows

/-- The boundary of a transaction: an exception undoes what was written. -/
def transactional {α : Type} (x : Plm α) : Plm α := fun s =>
  match x s with
  | (.ok a, s') => (.ok a, s')
  | (.error e, _) => (.error e, s)

/-- `LockService.tryLockCascade` with what `resolveV2MDescendants` answered. -/
def tryLockCascade (ctx : Caller) (rootNodeId : Uuid) (descendants : List Uuid) : Plm Unit :=
  transactional ((rootNodeId :: descendants).forM (tryLock ctx))

/-! ## Version-to-master links -/

/-- The nodes a link points to: of its type, or else of a subtype. -/
def Tables.linkTargets (env : Env) (t : Tables) (l : LinkRow) : List NodeRow :=
  match t.joinedTargets l with
  | [] => (t.nodesByLogicalId (beforeAt l.targetKey)).filter fun n =>
    env.isTypeOrDescendant n.nodeTypeId l.targetType
  | targets => targets

/-- A version-to-master link leads from a node to a node. -/
def Tables.MasterLink (env : Env) (t : Tables) (a b : Uuid) : Prop :=
  ∃ l ∈ t.links, t.isLinkOf a l = true ∧ isV2MLink env l = true ∧ ∃ n ∈ t.linkTargets env l, n.id = b

/-- A node is reached over version-to-master links. -/
def Tables.ReachedBy (env : Env) (t : Tables) : Uuid → Uuid → Prop := ReflTransGen (t.MasterLink env)

/-- A node is reached by the joins of the query. -/
def Tables.Joined (env : Env) (t : Tables) : Uuid → Uuid → Prop := ReflTransGen (Joins (t.v2mChildren env))

/-- Nobody else has the lock. -/
def NodeRow.FreeFor (user : String) (n : NodeRow) : Prop := ∀ owner, n.lockedBy = some owner → owner = user

open Classical in
/-- The node with the caller's lock, if it is one of those and is not locked yet. -/
noncomputable def NodeRow.lockedIf (ctx : Caller) (chosen : Uuid → Prop) (n : NodeRow) : NodeRow :=
  if chosen n.id ∧ n.lockedBy = none then
    { n with lockedBy := some ctx.userId, lockedAt := some ctx.now }
  else n

/-- **Cascaded locking is exact**: the query ends, and whatever order it answers in, the caller gets the
locks on the root and on all that version-to-master links reach, or, where another user has one of
them, an exception and no lock. -/
structure LocksExactly (env : Env) (ctx : Caller) (s : Db) (rootNodeId : Uuid) : Prop where
  ends : ∃ rounds, (s.v2mDescendants env rounds rootNodeId).isSome = true
  locks : (∀ n ∈ s.nodes, s.ReachedBy env rootNodeId n.id → n.FreeFor ctx.userId) →
    ∀ found, s.ResolvesDescendants env rootNodeId found →
      ∃ s', Returns (tryLockCascade ctx rootNodeId found) s () s' ∧
        s'.toTables = { s.toTables with
          nodes := s.nodes.map (·.lockedIf ctx (s.ReachedBy env rootNodeId))
          outbox := s'.outbox }
  refuses : (∃ n ∈ s.nodes, s.ReachedBy env rootNodeId n.id ∧ ¬ n.FreeFor ctx.userId) →
    ∀ found, s.ResolvesDescendants env rootNodeId found →
      ∃ nodeId owner, tryLockCascade ctx rootNodeId found s = (.error (.lockConflict nodeId owner), s)

/-! ## Locks one after the other -/

section Locking

variable {env : Env} {ctx : Caller} {s s' : Db} {n : NodeRow} {ids : List Uuid} {chosen : Uuid → Prop}

@[simp] theorem lockedIf_id (ctx : Caller) (chosen : Uuid → Prop) (n : NodeRow) :
    (n.lockedIf ctx chosen).id = n.id := by
  unfold NodeRow.lockedIf
  split <;> rfl

theorem nodeIds_map_lockedIf {t : Tables} {nodes : List NodeRow}
    (h : t.nodes = nodes.map (·.lockedIf ctx chosen)) : t.nodeIds = nodes.map (·.id) := by
  rw [Tables.nodeIds, h, List.map_map]
  exact List.map_congr_left fun n _ => lockedIf_id ctx chosen n

theorem lockedIf_of_locked {owner : String} (h : n.lockedBy = some owner) : n.lockedIf ctx chosen = n := by
  unfold NodeRow.lockedIf
  rw [if_neg]
  simp [h]

theorem lockedIf_of_not (h : ¬ chosen n.id) : n.lockedIf ctx chosen = n := by
  unfold NodeRow.lockedIf
  rw [if_neg fun hboth => h hboth.1]

theorem lockedIf_of_free (h : chosen n.id) (hfree : n.lockedBy = none) : n.lockedIf ctx chosen =
    { n with lockedBy := some ctx.userId, lockedAt := some ctx.now } := by
  unfold NodeRow.lockedIf
  rw [if_pos ⟨h, hfree⟩]

/-- Locks are taken one by one. -/
theorem lockedIf_lockedIf (chosen chosen' : Uuid → Prop) (n : NodeRow) :
    (n.lockedIf ctx chosen).lockedIf ctx chosen' = n.lockedIf ctx fun x => chosen x ∨ chosen' x := by
  by_cases hfree : n.lockedBy = none
  · by_cases hchosen : chosen n.id
    · rw [lockedIf_of_free hchosen hfree, lockedIf_of_locked rfl, lockedIf_of_free (.inl hchosen) hfree]
    · rw [lockedIf_of_not hchosen]
      by_cases hlater : chosen' n.id
      · rw [lockedIf_of_free hlater hfree, lockedIf_of_free (.inr hlater) hfree]
      · have hneither : ¬ (chosen n.id ∨ chosen' n.id) := by simp [hchosen, hlater]
        rw [lockedIf_of_not hlater]
        exact (@lockedIf_of_not ctx n (fun x => chosen x ∨ chosen' x) hneither).symm
  · obtain ⟨owner, howner⟩ := Option.ne_none_iff_exists'.mp hfree
    rw [lockedIf_of_locked howner, lockedIf_of_locked howner, lockedIf_of_locked howner]

theorem map_lockedIf_eq_self {nodes : List NodeRow} (h : ∀ m ∈ nodes, m.lockedIf ctx chosen = m) :
    nodes.map (·.lockedIf ctx chosen) = nodes := by
  rw [List.map_congr_left h, List.map_id']

theorem node?_eq_some (hn : n ∈ s.nodes) : s.node? n.id = some n :=
  find?_eq_some_of_nodup NodeRow.id s.valid.pk_node hn

/-- A lock that nobody else has is the caller's after `tryLock`. -/
theorem tryLock_returns (hn : n ∈ s.nodes) (hfree : n.FreeFor ctx.userId) :
    ∃ s', Returns (tryLock ctx n.id) s () s' ∧
      s'.toTables = { s.toTables with
        nodes := s.nodes.map (·.lockedIf ctx (· = n.id))
        outbox := s'.outbox } := by
  -- ids are the primary key, so the lock is set on one row
  have hone : ∀ m ∈ s.nodes, m.id = n.id → m = n :=
    fun m hm hid => List.inj_on_of_nodup_map s.valid.pk_node hm hn hid
  cases howner : n.lockedBy with
  | none =>
    obtain ⟨s₁, h₁⟩ := execute_succeeds.mpr
      (s.valid.setLock n.id (some ctx.userId) (some ctx.now))
    obtain ⟨s₂, h₂⟩ := enqueue_succeeds (.lockAcquired n.id ctx.userId) s₁
    refine ⟨s₂, ?_, ?_⟩
    · simp only [tryLock, returns_bind, returns_query, returns_orElseThrow]
      refine ⟨_, s, ⟨rfl, rfl⟩, n, s, ⟨node?_eq_some hn, rfl⟩, ?_⟩
      rw [howner]
      exact returns_bind.mpr ⟨_, s₁, h₁, h₂⟩
    · have hnodes : (s.setLock n.id (some ctx.userId) (some ctx.now)).nodes =
          s.nodes.map (·.lockedIf ctx (· = n.id)) := by
        refine List.map_congr_left fun m hm => ?_
        unfold NodeRow.lockedIf
        by_cases hid : m.id = n.id
        · rw [hone m hm hid, if_pos rfl, if_pos ⟨rfl, howner⟩]
        · rw [if_neg hid, if_neg fun h => hid h.1]
      rw [returns_enqueue.mp h₂, returns_execute.mp h₁, ← hnodes]
      rfl
  | some owner =>
    refine ⟨s, ?_, ?_⟩
    · simp only [tryLock, returns_bind, returns_query, returns_orElseThrow]
      refine ⟨_, s, ⟨rfl, rfl⟩, n, s, ⟨node?_eq_some hn, rfl⟩, ?_⟩
      rw [howner]
      exact returns_require.mpr ⟨hfree owner howner, rfl⟩
    · have hnodes : s.nodes.map (·.lockedIf ctx (· = n.id)) = s.nodes := by
        refine map_lockedIf_eq_self fun m hm => ?_
        by_cases hid : m.id = n.id
        · rw [hone m hm hid, lockedIf_of_locked howner]
        · exact lockedIf_of_not hid
      rw [hnodes]

/-- A lock that another user has is refused. -/
theorem tryLock_refuses (hn : n ∈ s.nodes) (hother : ¬ n.FreeFor ctx.userId) :
    ∃ owner, tryLock ctx n.id s = (.error (.lockConflict n.id owner), s) := by
  unfold NodeRow.FreeFor at hother
  push Not at hother
  obtain ⟨owner, howner, hne⟩ := hother
  refine ⟨owner, ?_⟩
  have htry : tryLock ctx n.id s =
      (require (owner = ctx.userId) (.lockConflict n.id owner) : Plm Unit) s := by
    simp only [tryLock, Bind.bind, query, node?_eq_some hn, orElseThrow, Pure.pure, howner]
  rw [htry, require, if_neg hne]
  rfl

/-- **Locks that nobody else has** are all the caller's after the loop. -/
theorem tryLocks_return (hids : ids ⊆ s.nodeIds)
    (hfree : ∀ n ∈ s.nodes, n.id ∈ ids → n.FreeFor ctx.userId) :
    ∃ s', Returns (ids.forM (tryLock ctx)) s () s' ∧
      s'.toTables = { s.toTables with
        nodes := s.nodes.map (·.lockedIf ctx (· ∈ ids))
        outbox := s'.outbox } := by
  induction ids generalizing s with
  | nil =>
    refine ⟨s, returns_forM_nil.mpr rfl, ?_⟩
    rw [map_lockedIf_eq_self fun m _ => lockedIf_of_not List.not_mem_nil]
  | cons x ids ih =>
    obtain ⟨n, hn, rfl⟩ := List.mem_map.mp (hids List.mem_cons_self)
    obtain ⟨s₁, h₁, hs₁⟩ := tryLock_returns hn (hfree n hn List.mem_cons_self)
    have hnodes : s₁.nodes = s.nodes.map (·.lockedIf ctx (· = n.id)) := by rw [hs₁]
    have hids₁ : s₁.nodeIds = s.nodeIds := nodeIds_map_lockedIf hnodes
    obtain ⟨s₂, h₂, hs₂⟩ := @ih s₁ (hids₁ ▸ List.subset_of_cons_subset hids) (by
      rw [hnodes]
      intro m₁ hm₁ hmem
      obtain ⟨m, hm, rfl⟩ := List.mem_map.mp hm₁
      rw [lockedIf_id] at hmem
      intro owner howner
      -- who has the lock now had it before, or is the caller
      by_cases hlocked : m.lockedBy = none
      · by_cases hid : m.id = n.id
        · rw [@lockedIf_of_free ctx m (· = n.id) hid hlocked] at howner
          exact (Option.some.inj howner).symm
        · rw [@lockedIf_of_not ctx m (· = n.id) hid, hlocked] at howner
          cases howner
      · obtain ⟨owner', howner'⟩ := Option.ne_none_iff_exists'.mp hlocked
        rw [lockedIf_of_locked howner'] at howner
        exact hfree m hm (List.mem_cons_of_mem _ hmem) owner howner)
    refine ⟨s₂, returns_forM_cons.mpr ⟨s₁, h₁, h₂⟩, ?_⟩
    rw [hs₂, hs₁]
    have hall : ((s.nodes.map (·.lockedIf ctx (· = n.id))).map (·.lockedIf ctx (· ∈ ids))) =
        s.nodes.map (·.lockedIf ctx (· ∈ n.id :: ids)) := by
      rw [List.map_map]
      refine List.map_congr_left fun m _ => ?_
      rw [Function.comp_apply, lockedIf_lockedIf]
      simp only [List.mem_cons]
    simp only [hall]

/-- The loop ends at the first lock that another user has. -/
theorem tryLocks_refuse (hids : ids ⊆ s.nodeIds) (hn : n ∈ s.nodes) (hmem : n.id ∈ ids)
    (hother : ¬ n.FreeFor ctx.userId) :
    ∃ nodeId owner s', ids.forM (tryLock ctx) s = (.error (.lockConflict nodeId owner), s') := by
  induction ids generalizing s with
  | nil => cases hmem
  | cons x ids ih =>
    obtain ⟨m, hm, rfl⟩ := List.mem_map.mp (hids List.mem_cons_self)
    have hcons : ∀ {s}, (m.id :: ids).forM (tryLock ctx) s =
        (tryLock ctx m.id >>= fun _ => ids.forM (tryLock ctx)) s := rfl
    by_cases hfree : m.FreeFor ctx.userId
    · obtain ⟨s₁, h₁, hs₁⟩ := tryLock_returns hm hfree
      have hnodes : s₁.nodes = s.nodes.map (·.lockedIf ctx (· = m.id)) := by rw [hs₁]
      have hids₁ : s₁.nodeIds = s.nodeIds := nodeIds_map_lockedIf hnodes
      have hne : n.id ≠ m.id := by
        intro hid
        obtain rfl := List.inj_on_of_nodup_map s.valid.pk_node hn hm hid
        exact hother hfree
      have hn₁ : n ∈ s₁.nodes := by
        rw [hnodes]
        exact List.mem_map.mpr ⟨n, hn, lockedIf_of_not hne⟩
      obtain ⟨nodeId, owner, s', hs'⟩ := ih (hids₁ ▸ List.subset_of_cons_subset hids) hn₁
        ((List.mem_cons.mp hmem).resolve_left hne)
      refine ⟨nodeId, owner, s', ?_⟩
      have hok : tryLock ctx m.id s = (.ok (), s₁) := h₁
      rw [hcons]
      simp only [Bind.bind, hok, hs']
    · obtain ⟨owner, hconflict⟩ := tryLock_refuses hm hfree
      refine ⟨m.id, owner, s, ?_⟩
      rw [hcons]
      simp only [Bind.bind, hconflict]

end Locking

/-! ## What the query finds -/

section Query

variable {env : Env} {ctx : Caller} {s : Db} {root : Uuid} {found : List Uuid}

theorem joins_v2mChildren_iff {t : Tables} {a b : Uuid} : Joins (t.v2mChildren env) a b ↔
    ∃ l ∈ t.links, t.isLinkOf a l = true ∧ isV2MLink env l = true ∧ ∃ n ∈ t.joinedTargets l, n.id = b := by
  simp [Joins, Tables.v2mChildren, and_assoc]

/-- The query follows version-to-master links. -/
theorem masterLink_of_joins {t : Tables} {a b : Uuid} (h : Joins (t.v2mChildren env) a b) :
    t.MasterLink env a b := by
  obtain ⟨l, hl, hof, hmaster, n, hn, hid⟩ := joins_v2mChildren_iff.mp h
  refine ⟨l, hl, hof, hmaster, n, ?_, hid⟩
  unfold Tables.linkTargets
  cases htargets : t.joinedTargets l with
  | nil =>
    rw [htargets] at hn
    cases hn
  | cons m targets =>
    rw [htargets] at hn
    exact hn

theorem reachedBy_of_joined {t : Tables} {a b : Uuid} (h : t.Joined env a b) : t.ReachedBy env a b :=
  ReflTransGen.mono (fun _ _ => masterLink_of_joins) a b h

/-- The node that `SelfNodeResolver` finds for a link is one the link points to. -/
theorem mem_linkTargets_of_selfResolve {l : LinkRow} {target : ResolvedTarget} {s' : Db}
    (h : Returns (selfResolve env l.targetType l.targetKey) s target s') :
    target.node ∈ s.linkTargets env l := by
  simp only [selfResolve, returns_bind, returns_ofResult] at h
  obtain ⟨p, _, ⟨hparse, rfl⟩, node, s₁, hnode, h⟩ := h
  have htarget : target.node = node := by
    cases hversion : p.versionNumber with
    | none =>
      simp only [hversion, returns_pure] at h
      rw [h.1]
    | some k =>
      simp only [hversion, resolveVersion, returns_bind, returns_pure] at h
      obtain ⟨_, _, -, _, _, -, rfl, -⟩ := h
      rfl
  rw [htarget]
  simp only [resolveNode, returns_bind, returns_fetchOne] at hnode
  obtain ⟨exact, s₂, ⟨rfl, hexact⟩, hnode⟩ := hnode
  have hjoined : s₂.joinedTargets l = exact.toList := by
    rw [Tables.joinedTargets, ← parseKey_logicalId hparse, ← hexact]
  unfold Tables.linkTargets
  rw [hjoined]
  cases exact with
  | some n =>
    obtain ⟨rfl, -⟩ := returns_pure.mp hnode
    exact List.mem_singleton_self _
  | none =>
    simp only [resolveDescendant, returns_bind, returns_fetchOne, returns_orElseThrow, returns_require,
      returns_pure] at hnode
    obtain ⟨row, _, ⟨rfl, hrow⟩, n, _, ⟨rfl, rfl⟩, _, _, ⟨htype, rfl⟩, rfl, -⟩ := hnode
    refine List.mem_filter.mpr ⟨?_, by simpa using htype⟩
    rw [← parseKey_logicalId hparse, hrow]
    exact List.mem_singleton_self _

/-- Links are joined to stored nodes, and belong to stored nodes. -/
theorem mem_nodeIds_of_joins {a b : Uuid} (h : Joins (s.v2mChildren env) a b) :
    a ∈ s.nodeIds ∧ b ∈ s.nodeIds := by
  obtain ⟨l, -, hof, -, n, hn, rfl⟩ := joins_v2mChildren_iff.mp h
  constructor
  · obtain ⟨v, hv, hboth⟩ := List.any_eq_true.mp hof
    obtain ⟨-, rfl⟩ := of_decide_eq_true hboth
    exact s.valid.fk_version_node v hv
  · exact List.mem_map_of_mem (List.mem_of_mem_filter hn)

theorem mem_nodeIds_of_joined {x : Uuid} (hroot : root ∈ s.nodeIds) (h : s.Joined env root x) :
    x ∈ s.nodeIds := by
  obtain rfl | ⟨y, -, hlast⟩ := h.cases_tail
  · exact hroot
  · exact (mem_nodeIds_of_joins hlast).2

/-- **When the query ends.** -/
theorem v2mDescendants_ends_iff : (∃ rounds, (s.v2mDescendants env rounds root).isSome = true) ↔
    ∀ x, s.Joined env root x → ¬ TransGen (Joins (s.v2mChildren env)) x x := by
  have hsources : ∀ a b, Joins (s.v2mChildren env) a b → a ∈ s.nodeIds.toFinset :=
    fun a b h => List.mem_toFinset.mpr (mem_nodeIds_of_joins h).1
  unfold Tables.v2mDescendants
  rw [recursiveQuery_ends_iff s.nodeIds.toFinset hsources]
  constructor
  · intro h x hx hcycle
    -- a cycle at the root is one at a child of it
    obtain rfl | ⟨c, hc, hreach⟩ := hx.cases_head
    · obtain ⟨c, hc, hback⟩ := TransGen.head'_iff.mp hcycle
      exact h c hc root hback hcycle
    · exact h c hc x hreach hcycle
  · exact fun h c hc x hreach => h x (.head hc hreach)

/-- The nodes that are locked are those that the joins reach. -/
theorem mem_cons_found_iff (h : s.ResolvesDescendants env root found) {x : Uuid} :
    x ∈ root :: found ↔ s.Joined env root x := by
  obtain ⟨rounds, rows, hrows, -, hsame⟩ := h
  rw [List.mem_cons, hsame, mem_recursiveQuery hrows]
  constructor
  · rintro (rfl | ⟨c, hc, hreach⟩)
    · exact .refl
    · exact .head hc hreach
  · intro hreach
    obtain rfl | ⟨c, hc, hreach⟩ := hreach.cases_head
    · exact .inl rfl
    · exact .inr ⟨c, hc, hreach⟩

theorem exists_resolvesDescendants (h : ∃ rounds, (s.v2mDescendants env rounds root).isSome = true) :
    ∃ found, s.ResolvesDescendants env root found := by
  obtain ⟨rounds, hsome⟩ := h
  obtain ⟨rows, hrows⟩ := Option.isSome_iff_exists.mp hsome
  exact ⟨rows.dedup, rounds, rows, hrows, List.nodup_dedup rows, fun _ => List.mem_dedup⟩

/-- **A cascade without a conflict.** -/
theorem tryLockCascade_returns (hroot : root ∈ s.nodeIds) (hfound : s.ResolvesDescendants env root found)
    (hfree : ∀ n ∈ s.nodes, s.Joined env root n.id → n.FreeFor ctx.userId) :
    ∃ s', Returns (tryLockCascade ctx root found) s () s' ∧
      s'.toTables = { s.toTables with
        nodes := s.nodes.map (·.lockedIf ctx (s.Joined env root))
        outbox := s'.outbox } := by
  have hids : root :: found ⊆ s.nodeIds :=
    fun x hx => mem_nodeIds_of_joined hroot ((mem_cons_found_iff hfound).mp hx)
  obtain ⟨s', hrun, hs'⟩ := tryLocks_return hids
    fun n hn hmem => hfree n hn ((mem_cons_found_iff hfound).mp hmem)
  refine ⟨s', ?_, ?_⟩
  · have hok : (root :: found).forM (tryLock ctx) s = (.ok (), s') := hrun
    simp only [Returns, tryLockCascade, transactional, hok]
  · simpa only [mem_cons_found_iff hfound] using hs'

/-- **A cascade that meets a lock of another user.** -/
theorem tryLockCascade_refuses (hroot : root ∈ s.nodeIds) (hfound : s.ResolvesDescendants env root found)
    {n : NodeRow} (hn : n ∈ s.nodes) (hjoined : s.Joined env root n.id) (hother : ¬ n.FreeFor ctx.userId) :
    ∃ nodeId owner, tryLockCascade ctx root found s = (.error (.lockConflict nodeId owner), s) := by
  have hids : root :: found ⊆ s.nodeIds :=
    fun x hx => mem_nodeIds_of_joined hroot ((mem_cons_found_iff hfound).mp hx)
  obtain ⟨nodeId, owner, s', hrun⟩ := tryLocks_refuse hids hn ((mem_cons_found_iff hfound).mpr hjoined) hother
  exact ⟨nodeId, owner, by simp only [tryLockCascade, transactional, hrun]⟩

/-! ## Exactness -/

/-- Node by node, the same locks. -/
theorem map_lockedIf_congr {chosen chosen' : Uuid → Prop} :
    s.nodes.map (·.lockedIf ctx chosen) = s.nodes.map (·.lockedIf ctx chosen') ↔
      ∀ n ∈ s.nodes, n.lockedBy = none → (chosen n.id ↔ chosen' n.id) := by
  rw [List.map_inj_left]
  refine forall₂_congr fun n _ => ?_
  by_cases hfree : n.lockedBy = none
  · have htell : ∀ chosen : Uuid → Prop, (n.lockedIf ctx chosen).lockedBy ≠ none ↔ chosen n.id := by
      intro chosen
      by_cases h : chosen n.id
      · rw [lockedIf_of_free h hfree]
        simp [h]
      · rw [lockedIf_of_not h]
        simp [h, hfree]
    constructor
    · intro heq _
      rw [← htell chosen, heq, htell]
    · intro hsame
      have hsame := hsame hfree
      by_cases h : chosen n.id
      · rw [lockedIf_of_free h hfree, lockedIf_of_free (hsame.mp h) hfree]
      · rw [lockedIf_of_not h, lockedIf_of_not fun h' => h (hsame.mpr h')]
  · obtain ⟨owner, howner⟩ := Option.ne_none_iff_exists'.mp hfree
    rw [lockedIf_of_locked howner, lockedIf_of_locked howner]
    simp [hfree]

/-- **When cascaded locking is exact.** It is exactly when the joins reach no cycle, and, unless they
reach a lock of another user, they reach every node that version-to-master links reach and that the
caller has not locked yet. -/
theorem locks_exactly_iff {env : Env} {ctx : Caller} {s : Db} {root : Uuid} (hroot : root ∈ s.nodeIds) :
    LocksExactly env ctx s root ↔
      (∀ x, s.Joined env root x → ¬ TransGen (Joins (s.v2mChildren env)) x x) ∧
        ((∃ n ∈ s.nodes, s.Joined env root n.id ∧ ¬ n.FreeFor ctx.userId) ∨
          ∀ n ∈ s.nodes, s.ReachedBy env root n.id →
            s.Joined env root n.id ∨ n.lockedBy = some ctx.userId) := by
  rw [← v2mDescendants_ends_iff]
  constructor
  · intro h
    refine ⟨h.ends, ?_⟩
    -- without a conflict both say which locks there are afterwards, and they say the same
    by_cases hconflict : ∃ n ∈ s.nodes, s.Joined env root n.id ∧ ¬ n.FreeFor ctx.userId
    · exact .inl hconflict
    · right
      push Not at hconflict
      obtain ⟨found, hfound⟩ := exists_resolvesDescendants h.ends
      obtain ⟨s₁, hrun, hs₁⟩ := tryLockCascade_returns hroot hfound hconflict
      have hfree : ∀ n ∈ s.nodes, s.ReachedBy env root n.id → n.FreeFor ctx.userId := by
        by_contra hother
        push Not at hother
        obtain ⟨nodeId, owner, hrefused⟩ := h.refuses hother found hfound
        -- the query met no lock of another user, so a refusal is excluded
        cases hrun.symm.trans hrefused
      obtain ⟨s₂, hrun₂, hs₂⟩ := h.locks hfree found hfound
      obtain ⟨-, rfl⟩ := hrun.unique hrun₂
      have hnodes : s₁.nodes = s.nodes.map (·.lockedIf ctx (s.Joined env root)) := by rw [hs₁]
      have hnodes₂ : s₁.nodes = s.nodes.map (·.lockedIf ctx (s.ReachedBy env root)) := by rw [hs₂]
      have hsame := map_lockedIf_congr.mp (hnodes.symm.trans hnodes₂)
      intro n hn hreach
      -- a lock that is new shows in one of the two unless the query joined the node
      by_cases hlocked : n.lockedBy = none
      · exact .inl ((hsame n hn hlocked).mpr hreach)
      · obtain ⟨owner, howner⟩ := Option.ne_none_iff_exists'.mp hlocked
        right
        rw [howner, hfree n hn hreach owner howner]
  · rintro ⟨hends, hcases⟩
    refine ⟨hends, fun hfree found hfound => ?_, fun hother found hfound => ?_⟩
    -- what the query joins is reached, so all it asks for is free
    · have hjoined : ∀ n ∈ s.nodes, s.Joined env root n.id → n.FreeFor ctx.userId :=
        fun n hn hreach => hfree n hn (reachedBy_of_joined hreach)
      obtain ⟨s', hrun, hs'⟩ := tryLockCascade_returns hroot hfound hjoined
      refine ⟨s', hrun, ?_⟩
      obtain ⟨n, hn, hreach, hlocked⟩ | hcovered := hcases
      · exact absurd (hjoined n hn hreach) hlocked
      · rw [hs', map_lockedIf_congr.mpr]
        intro n hn hnone
        refine ⟨reachedBy_of_joined, fun hreach => (hcovered n hn hreach).resolve_right ?_⟩
        rw [hnone]
        exact (Option.some_ne_none _).symm
    -- the lock of another user is joined, or another one is, or it would be the caller's
    · obtain ⟨n, hn, hreach, hlocked⟩ := hother
      obtain ⟨m, hm, hjoined, hlocked⟩ | hcovered := hcases
      · exact tryLockCascade_refuses hroot hfound hm hjoined hlocked
      · obtain hjoined | howner := hcovered n hn hreach
        · exact tryLockCascade_refuses hroot hfound hn hjoined hlocked
        · exact absurd (fun owner h => Option.some.inj (h.symm.trans howner)) hlocked

end Query

section Example

/-- Two unlocked nodes, TOP and SUB, and links between them. -/
def topAndSub (subType : String) (links : List LinkRow) : Tables :=
  { Tables.empty with
    txs := [⟨0, "u1", .COMMITTED, none, 0, some 0⟩]
    nodes := [⟨1, "nt-part", none, some "TOP", none, none, none, 0, "u1"⟩,
      ⟨2, subType, none, some "SUB", none, none, none, 0, "u1"⟩]
    versions := [⟨1, 1, 1, "A", 1, none, .CONTENT, none, 0, none, none, none, "main", 0, "u1"⟩,
      ⟨2, 2, 1, "A", 1, none, .CONTENT, none, 0, none, none, none, "main", 0, "u1"⟩]
    links
    nextId := 20 }

def topToSub : LinkRow := ⟨10, "lt-composed-of", 1, "SELF", "nt-part", "SUB", none, 0, "u1"⟩

def subToTop : LinkRow := ⟨11, "lt-composed-of", 2, "SELF", "nt-part", "TOP", none, 0, "u1"⟩

/-- TOP has the part SUB. -/
def partBelowTop : Db := ⟨topAndSub "nt-part" [topToSub], by decide⟩

/-- Each of the two is a part of the other. -/
def partsInCycle : Db := ⟨topAndSub "nt-part" [topToSub, subToTop], by decide⟩

/-- TOP has the assembly SUB as a part. -/
def assemblyBelowTop : Db := ⟨topAndSub "nt-assembly" [topToSub], by decide⟩

theorem locks_exactly_part_below_top : LocksExactly partsEnv engineer partBelowTop 1 := by
  refine (locks_exactly_iff (by decide)).mpr ⟨v2mDescendants_ends_iff.mp ⟨3, by decide⟩, .inr ?_⟩
  intro n hn _
  obtain rfl | rfl : n = _ ∨ n = _ := by simpa [partBelowTop, topAndSub] using hn
  · exact .inl .refl
  · have hjoin : Joins (partBelowTop.v2mChildren partsEnv) 1 2 := by
      unfold Joins
      decide
    exact .inl (.single hjoin)

/-- The query does not end on the cycle, and passes over the assembly. -/
theorem locks_not_exactly :
    ¬ LocksExactly partsEnv engineer partsInCycle 1 ∧
      ¬ LocksExactly partsEnv engineer assemblyBelowTop 1 := by
  constructor
  · intro h
    have hdown : Joins (partsInCycle.v2mChildren partsEnv) 1 2 := by
      unfold Joins
      decide
    have hup : Joins (partsInCycle.v2mChildren partsEnv) 2 1 := by
      unfold Joins
      decide
    exact v2mDescendants_ends_iff.mp h.ends 1 .refl (.tail (.single hdown) hup)
  · intro h
    have hends : ∃ rounds, (assemblyBelowTop.v2mDescendants partsEnv rounds 1).isSome = true :=
      ⟨1, by decide⟩
    have hunlocked : ∀ n ∈ assemblyBelowTop.nodes, n.lockedBy = none := by decide
    have hfree : ∀ n ∈ assemblyBelowTop.nodes, n.FreeFor engineer.userId := by
      intro n hn owner howner
      rw [hunlocked n hn] at howner
      cases howner
    obtain ⟨found, hfound⟩ := exists_resolvesDescendants hends
    obtain ⟨s₁, hrun, hs₁⟩ := @tryLockCascade_returns partsEnv engineer assemblyBelowTop 1 found (by decide)
      hfound fun n hn _ => hfree n hn
    obtain ⟨s₂, hrun₂, hs₂⟩ := h.locks (fun n hn _ => hfree n hn) found hfound
    obtain ⟨-, rfl⟩ := hrun.unique hrun₂
    have hnodes := (congrArg Tables.nodes hs₁).symm.trans (congrArg Tables.nodes hs₂)
    obtain ⟨n, hn, hid⟩ : ∃ n ∈ assemblyBelowTop.nodes, n.id = 2 := by decide
    have hsame := map_lockedIf_congr.mp hnodes n hn (hunlocked n hn)
    rw [hid] at hsame
    -- the link leads to the assembly, and the join of the query to nothing
    have hreached : assemblyBelowTop.ReachedBy partsEnv 1 2 :=
      .single ⟨topToSub, by decide, by decide, by decide, n, by decide +revert, hid⟩
    obtain ⟨c, hc, -⟩ := (hsame.mpr hreached).cases_head.resolve_left (by decide)
    have hnone : assemblyBelowTop.v2mChildren partsEnv 1 = [] := by decide
    unfold Joins at hc
    rw [hnone] at hc
    cases hc

end Example

end PlmCore.Psm
