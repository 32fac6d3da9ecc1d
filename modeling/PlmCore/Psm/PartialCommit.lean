/-
A commit of some of the nodes of a transaction, as a partition of its versions.

The versions of the other nodes move to a continuation, which `commitTransaction` opens for the
user who commits. That user is the owner of the transaction, or an administrator; the locks of the
moved nodes stay with the owner either way.
-/
import PlmCore.Psm.Discard
import PlmCore.Psm.Wrapper

set_option autoImplicit false

namespace PlmCore.Psm

open PlmCore.Lib

/-! ## The partition -/

/-- The version after the commit: it is in the continuation, if there is one and its node was not
selected. -/
def VersionRow.continued (x : Uuid) (selected : List Uuid) : Option Uuid → VersionRow → VersionRow
  | none, v => v
  | some y, v => if v.txId = x ∧ v.nodeId ∉ selected then { v with txId := y } else v

/-- The owner of a transaction. -/
def Tables.ownerOf (t : Tables) (x : Uuid) : Option String := (t.tx? x).map (·.ownerId)

/-- `t'` is `t` with the selected nodes of the transaction `x` of `owner` committed, and the others in
the continuation `o`. -/
structure Partitions (x : Uuid) (owner : Option String) (selected : List Uuid) (o : Option Uuid)
    (t t' : Tables) : Prop where
  committed : t'.isCommitted x = true
  selectedVersions : t'.versionsInTx x = (t.versionsInTx x).filter (·.nodeId ∈ selected)
  unlocked : ∀ n ∈ t'.nodes, n.id ∈ selected → n.lockedBy = none
  deferred : (∀ v ∈ t.versionsInTx x, v.nodeId ∈ selected) ↔ o = none
  continuation : ∀ y, o = some y → y ∉ t.txIds
    ∧ t'.isOpen y = true ∧ t'.ownerOf y = owner
    ∧ t'.versionsInTx y =
      ((t.versionsInTx x).filter (·.nodeId ∉ selected)).map fun v => { v with txId := y }
  locks : ∀ n ∈ t.nodes, n.id ∉ selected → n ∈ t'.nodes
  versions : t'.versions = t.versions.map (·.continued x selected o)
  contents : t'.attributes = t.attributes ∧ t'.links = t.links ∧ t'.linkAttributes = t.linkAttributes
    ∧ t'.domains = t.domains ∧ t'.signatures = t.signatures ∧ t'.comments = t.comments

section Deferring

variable {x : Uuid} {selected : List Uuid} {t : Tables}

/-- Exactly the nodes of the transaction that are not selected are deferred. -/
theorem mem_deferredNodeIds {nodeId : Uuid} (hselected : selected ≠ []) :
    nodeId ∈ deferredNodeIds (t.affectedNodes x) selected ↔
      nodeId ∈ t.affectedNodes x ∧ nodeId ∉ selected := by
  rw [deferredNodeIds, if_neg hselected, List.mem_filter, decide_eq_true_eq]

theorem deferredNodeIds_eq_nil (hselected : selected ≠ []) :
    deferredNodeIds (t.affectedNodes x) selected = [] ↔ ∀ v ∈ t.versionsInTx x, v.nodeId ∈ selected := by
  rw [List.eq_nil_iff_forall_not_mem]
  constructor
  · intro h v hv
    obtain ⟨hv, hx⟩ := List.mem_filter.mp hv
    by_contra hnode
    exact h v.nodeId ((mem_deferredNodeIds hselected).mpr
      ⟨mem_affectedNodes.mpr ⟨v, hv, of_decide_eq_true hx, rfl⟩, hnode⟩)
  · intro h nodeId hid
    obtain ⟨hid, hnode⟩ := (mem_deferredNodeIds hselected).mp hid
    obtain ⟨v, hv, hx, rfl⟩ := mem_affectedNodes.mp hid
    exact hnode (h v (List.mem_filter.mpr ⟨hv, decide_eq_true hx⟩))

/-- Deferring its node moves a version of the transaction, and no other. -/
theorem deferTo_eq_continued (hselected : selected ≠ []) {y : Uuid} {v : VersionRow}
    (hv : v ∈ t.versions) : v.deferTo x y (deferredNodeIds (t.affectedNodes x) selected) =
      v.continued x selected (some y) := by
  unfold VersionRow.deferTo VersionRow.continued
  refine if_congr (and_congr_right fun hx => ?_) rfl rfl
  rw [mem_deferredNodeIds hselected]
  exact and_iff_right (mem_affectedNodes.mpr ⟨v, hv, hx, rfl⟩)

end Deferring

/-! ## What a commit leaves -/

section Commit

variable {env : Env} {ctx : Caller} {x : Uuid} {comment : Option String} {selected : List Uuid}
  {o : Option Uuid} {s s' : Db}

/-- The nodes whose versions a commit finds are unlocked, and no others. -/
theorem unlocked_iff_selected (ctx : Caller) (comment : Option String) {t : Tables}
    (hids : ∀ n, n ∈ (t.versionsInTx x).map (·.nodeId) ↔ n ∈ selected) :
    (∀ n ∈ (t.committed x comment ctx.now).nodes, n.id ∈ selected → n.lockedBy = none)
      ∧ ∀ n ∈ t.nodes, n.id ∉ selected → n ∈ (t.committed x comment ctx.now).nodes := by
  constructor
  · intro n hn hsel
    obtain ⟨m, -, rfl⟩ := List.mem_map.mp hn
    by_cases hm : m.id ∈ (t.versionsInTx x).map (·.nodeId)
    · rw [if_pos hm]
      rfl
    · rw [if_neg hm] at hsel
      exact absurd ((hids _).mpr hsel) hm
  · intro n hn hsel
    have hmem : (if n.id ∈ (t.versionsInTx x).map (·.nodeId) then n.unlocked else n)
        ∈ (t.committed x comment ctx.now).nodes := List.mem_map_of_mem hn
    rwa [if_neg fun hm => hsel ((hids _).mp hm)] at hmem

/-- The commit of all nodes of a transaction. -/
theorem partitions_of_all (hopen : s.isOpen x = true) (hin : ∀ n ∈ selected, n ∈ s.affectedNodes x)
    (hall : ∀ v ∈ s.versionsInTx x, v.nodeId ∈ selected) (owner : Option String) (es : List PlmEvent) :
    Partitions x owner selected none s.toTables ((s.committed x comment ctx.now).withEvents es) := by
  have hids : ∀ n, n ∈ (s.versionsInTx x).map (·.nodeId) ↔ n ∈ selected := by
    intro n
    constructor
    · intro hn
      obtain ⟨v, hv, rfl⟩ := List.mem_map.mp hn
      exact hall v hv
    · intro hn
      obtain ⟨v, hv, hx, rfl⟩ := mem_affectedNodes.mp (hin n hn)
      exact List.mem_map.mpr ⟨v, List.mem_filter.mpr ⟨hv, decide_eq_true hx⟩, rfl⟩
  obtain ⟨hunlocked, hlocks⟩ := unlocked_iff_selected ctx comment hids
  exact
    { committed := by
        refine (isCommitted_committed comment ctx.now (mem_txIds_of_isOpen hopen) x).trans ?_
        simp
      selectedVersions := by
        rw [List.filter_eq_self.mpr fun v hv => decide_eq_true (hall v hv)]
        rfl
      unlocked := hunlocked
      deferred := ⟨fun _ => rfl, fun _ => hall⟩
      continuation := fun y hy => by cases hy
      locks := hlocks
      versions := (List.map_id _).symm
      contents := ⟨rfl, rfl, rfl, rfl, rfl, rfl⟩ }

/-- A commit writes no other transaction. -/
theorem tx?_committed (comment : Option String) (now : Nat) {t : Tables} {z : Uuid} (hz : z ≠ x) :
    (t.committed x comment now).tx? z = t.tx? z := by
  have hfind : (t.committed x comment now).tx? z = (t.tx? z).map fun row =>
      if row.id = x then
        { row with status := .COMMITTED, commitComment := some (nvl comment), committedAt := some now }
      else row := by
    change (t.txs.map _).find? _ = _
    rw [List.find?_map]
    congr 2
    funext row
    simp only [Function.comp_apply]
    split <;> rfl
  rw [hfind]
  cases hrow : t.tx? z with
  | none => rfl
  | some row =>
    have hid : row.id = z := by simpa using List.find?_some hrow
    rw [Option.map_some, if_neg (hid ▸ hz)]

/-- The versions the commit leaves in the transaction, and those it moves. -/
theorem versionsInTx_continued (selected : List Uuid) {y : Uuid} (hxy : x ≠ y) (hy : ∀ v ∈ s.versions, v.txId ≠ y) :
    (s.versions.map (·.continued x selected (some y))).filter (·.txId = x) =
        (s.versionsInTx x).filter (·.nodeId ∈ selected)
      ∧ (s.versions.map (·.continued x selected (some y))).filter (·.txId = y) =
        ((s.versionsInTx x).filter (·.nodeId ∉ selected)).map fun v => { v with txId := y } := by
  rw [List.filter_map, List.filter_map, Tables.versionsInTx, List.filter_filter, List.filter_filter]
  constructor
  -- a version stays iff its node is selected; nothing is in `y` yet
  · have hfilter : s.versions.filter ((fun v => decide (v.txId = x)) ∘ (·.continued x selected (some y)))
        = s.versions.filter fun v => decide (v.nodeId ∈ selected) && decide (v.txId = x) := by
      refine List.filter_congr fun v _ => ?_
      by_cases hx : v.txId = x
      · by_cases hn : v.nodeId ∈ selected
        · simp [VersionRow.continued, hx, hn]
        · simp [VersionRow.continued, hx, hn, hxy.symm]
      · simp [VersionRow.continued, hx]
    rw [hfilter]
    refine (List.map_congr_left fun v hv => ?_).trans (List.map_id _)
    have hn : v.nodeId ∈ selected ∧ v.txId = x := by simpa using (List.mem_filter.mp hv).2
    simp [VersionRow.continued, hn.1]
  -- those that move are the ones that were in `x`, for the same reason
  · have hfilter : s.versions.filter ((fun v => decide (v.txId = y)) ∘ (·.continued x selected (some y)))
        = s.versions.filter fun v => decide (v.nodeId ∉ selected) && decide (v.txId = x) := by
      refine List.filter_congr fun v hv => ?_
      by_cases hx : v.txId = x
      · by_cases hn : v.nodeId ∈ selected
        · simp [VersionRow.continued, hx, hn, hxy]
        · simp [VersionRow.continued, hx, hn]
      · simp [VersionRow.continued, hx, hy v hv]
    rw [hfilter]
    refine List.map_congr_left fun v hv => ?_
    have hn : v.nodeId ∉ selected ∧ v.txId = x := by simpa using (List.mem_filter.mp hv).2
    simp [VersionRow.continued, hn.1, hn.2]

/-- The commit that leaves nodes to a continuation. -/
theorem partitions_of_some {y : Uuid} {s₁ : Db} (hopen : s.isOpen x = true) (hselected : selected ≠ [])
    (hin : ∀ n ∈ selected, n ∈ s.affectedNodes x)
    (hdeferred : deferredNodeIds (s.affectedNodes x) selected ≠ [])
    (htx : Returns (openTransaction ctx) s y s₁) (es : List PlmEvent) :
    Partitions x (some ctx.userId) selected (some y) s.toTables
      (((s₁.deferTo x y (deferredNodeIds (s.affectedNodes x) selected)).committed x comment
        ctx.now).withEvents es) := by
  -- the continuation is a new row, so it is another transaction and has no version yet
  have hx := mem_txIds_of_isOpen hopen
  have hfresh := fresh_of_openTransaction htx
  have hxy : x ≠ y := fun hxy => hfresh (hxy ▸ hx)
  have hy : ∀ v ∈ s.versions, v.txId ≠ y := fun v hv hvy => hfresh (hvy ▸ s.valid.fk_version_tx v hv)
  have hs₁ := (openTransaction_ok htx).2
  -- deferring and the commit in one map over the versions of before
  have hversions : (s₁.deferTo x y (deferredNodeIds (s.affectedNodes x) selected)).versions =
      s.versions.map (·.continued x selected (some y)) := by
    change s₁.versions.map _ = _
    rw [hs₁]
    exact List.map_congr_left fun v hv => deferTo_eq_continued hselected hv
  obtain ⟨hstay, hmoved⟩ := versionsInTx_continued selected hxy hy
  rw [← hversions] at hstay hmoved
  generalize ht₁ : s₁.deferTo x y (deferredNodeIds (s.affectedNodes x) selected) = t₁ at *
  -- the versions left in `x` are of the selected nodes, each of which has one
  have hids : ∀ n, n ∈ (t₁.versionsInTx x).map (·.nodeId) ↔ n ∈ selected := by
    intro n
    rw [Tables.versionsInTx, hstay]
    constructor
    · intro hn
      obtain ⟨v, hv, rfl⟩ := List.mem_map.mp hn
      exact of_decide_eq_true (List.mem_filter.mp hv).2
    · intro hn
      obtain ⟨v, hv, hvx, rfl⟩ := mem_affectedNodes.mp (hin n hn)
      refine List.mem_map.mpr ⟨v, List.mem_filter.mpr ⟨?_, decide_eq_true hn⟩, rfl⟩
      exact List.mem_filter.mpr ⟨hv, decide_eq_true hvx⟩
  obtain ⟨hunlocked, hlocks⟩ := unlocked_iff_selected ctx comment hids
  have hnodes : t₁.nodes = s.nodes := by
    rw [← ht₁]
    change s₁.nodes = s.nodes
    rw [hs₁]
    rfl
  have htxs : t₁.txs = s.txs ++ [⟨y, ctx.userId, .OPEN, none, ctx.now, none⟩] := by
    rw [← ht₁]
    change s₁.txs = _
    rw [hs₁]
    rfl
  have hx₁ : x ∈ t₁.txIds := by
    rw [Tables.txIds, htxs, List.map_append]
    exact List.mem_append_left _ hx
  exact
    { committed := by
        refine (isCommitted_committed comment ctx.now hx₁ x).trans ?_
        simp
      selectedVersions := hstay
      unlocked := hunlocked
      deferred := ⟨fun hall => absurd ((deferredNodeIds_eq_nil hselected).mpr hall) hdeferred,
        fun h => by cases h⟩
      -- the row of the continuation is the one that was inserted, and the commit is of `x` only
      continuation := fun z hz => by
        obtain rfl := Option.some.inj hz
        have hnone : s.txs.find? (·.id = y) = none := by
          refine List.find?_eq_none.mpr fun row hrow hid => hfresh ?_
          exact List.mem_map.mpr ⟨row, hrow, of_decide_eq_true hid⟩
        have hrow : t₁.tx? y = some ⟨y, ctx.userId, .OPEN, none, ctx.now, none⟩ := by
          rw [Tables.tx?, htxs, List.find?_append, hnone]
          simp
        have hrow' := (tx?_committed comment ctx.now hxy.symm).trans hrow
        refine ⟨hfresh, ?_, ?_, hmoved⟩
        · exact decide_eq_true (congrArg (Option.map TransactionRow.status) hrow')
        · exact congrArg (Option.map TransactionRow.ownerId) hrow'
      locks := fun n hn hsel => hlocks n (hnodes ▸ hn) hsel
      versions := hversions
      -- the other tables are not touched by any of the three steps
      contents := by
        rw [← ht₁]
        refine ⟨?_, ?_, ?_, ?_, ?_, ?_⟩
        · change s₁.attributes = _
          rw [hs₁]
          rfl
        · change s₁.links = _
          rw [hs₁]
          rfl
        · change s₁.linkAttributes = _
          rw [hs₁]
          rfl
        · change s₁.domains = _
          rw [hs₁]
          rfl
        · change s₁.signatures = _
          rw [hs₁]
          rfl
        · change s₁.comments = _
          rw [hs₁]
          rfl }

/-- **A commit of selected nodes** partitions the versions, for the caller as the owner of the
continuation. -/
theorem partitions_of_commit (hselected : selected ≠ []) (hin : ∀ n ∈ selected, n ∈ s.affectedNodes x)
    (h : Returns (commitTransaction env ctx x comment selected) s o s') :
    Partitions x (some ctx.userId) selected o s.toTables s'.toTables := by
  obtain ⟨hown, s₁, es, hdefer, -, hs'⟩ := commitTransaction_ok h
  obtain ⟨hnil, rfl, rfl⟩ | ⟨hcons, y, s₂, rfl, htx, hs₁⟩ := deferNodes_ok hdefer
  · rw [hs']
    exact partitions_of_all hown.isOpen hin ((deferredNodeIds_eq_nil hselected).mp hnil) _ es
  · rw [hs', hs₁]
    exact partitions_of_some hown.isOpen hselected hin hcons htx es

/-- **A partial commit is a partition exactly when its caller owns the transaction or leaves no node
out; a failed one leaves the store as it was.** -/
theorem partial_commit_partitions_iff
    (hselected : selected ≠ []) (hin : ∀ n ∈ selected, n ∈ s.affectedNodes x) :
    (∀ e s', atomically (commitTransaction env ctx x comment selected) s = (.error e, s') → s' = s)
      ∧ ∀ o s', atomically (commitTransaction env ctx x comment selected) s = (.ok o, s') →
        (Partitions x (s.ownerOf x) selected o s.toTables s'.toTables ↔
          s.ownerOf x = some ctx.userId ∨ ∀ v ∈ s.versionsInTx x, v.nodeId ∈ selected) := by
  constructor
  · intro e s' h
    exact (atomically_error h).1
  · intro o s' h
    have hpartitions := partitions_of_commit hselected hin (returns_of_atomically h)
    constructor
    · intro hown
      by_cases hall : ∀ v ∈ s.versionsInTx x, v.nodeId ∈ selected
      · exact .inr hall
      · -- there is a continuation, and it has one owner
        obtain ⟨y, hy⟩ := Option.ne_none_iff_exists'.mp fun hnone => hall (hown.deferred.mpr hnone)
        obtain ⟨-, -, howner₁, -⟩ := hown.continuation y hy
        obtain ⟨-, -, howner₂, -⟩ := hpartitions.continuation y hy
        exact .inl (howner₁.symm.trans howner₂)
    · rintro (howner | hall)
      · rw [howner]
        exact hpartitions
      · obtain rfl := hpartitions.deferred.mp hall
        exact { hpartitions with continuation := fun y hy => by cases hy }

end Commit

section Runs

/-- Two parts that an engineer creates in one transaction. -/
def twoPartsDb : Db where
  toTables :=
    { Tables.empty with
      txs := [⟨1, "engineer", .OPEN, none, 0, none⟩]
      nodes := [⟨0, "nt-part", none, some "P-1", none, some "engineer", some 0, 0, "engineer"⟩,
        ⟨4, "nt-part", none, some "P-2", none, some "engineer", some 0, 0, "engineer"⟩]
      versions := [⟨2, 0, 1, "A", 1, some "draft", .LIFECYCLE, none, 1, none, none, none, "main", 0,
          "engineer"⟩,
        ⟨3, 4, 1, "A", 1, some "draft", .LIFECYCLE, none, 1, none, none, none, "main", 0, "engineer"⟩]
      nextId := 5 }
  valid := by decide

/-- The engineer commits the first part and goes on with the second. -/
theorem owner_partial_commit_partitions : ∃ o s',
    Returns (commitTransaction partsEnv engineer 1 (some "first part") [0]) twoPartsDb o s'
      ∧ Partitions 1 (some "engineer") [0] o twoPartsDb.toTables s'.toTables := by
  have hpasses : passes (commitTransaction partsEnv engineer 1 (some "first part") [0]) twoPartsDb
      (fun _ _ => true) = true := by decide +kernel
  obtain ⟨o, s', hrun, -⟩ := returns_of_passes hpasses
  exact ⟨o, s', hrun, ((partial_commit_partitions_iff (by decide) (by decide)).2 o s' (atomically_ok hrun)).mpr (.inl rfl)⟩

/-- An administrator commits the first part, and the second goes on in a transaction of the
administrator. -/
theorem admin_partial_commit_takes_over : ¬ ∀ o s',
    Returns (commitTransaction partsEnv ⟨"admin", true, 0⟩ 1 (some "first part") [0]) twoPartsDb o s' →
      Partitions 1 (some "engineer") [0] o twoPartsDb.toTables s'.toTables := by
  intro hall
  have hpasses : passes (commitTransaction partsEnv ⟨"admin", true, 0⟩ 1 (some "first part") [0])
      twoPartsDb (fun o s' => o = some 5 ∧ s'.ownerOf 5 = some "admin") = true := by
    decide +kernel
  obtain ⟨o, s', hrun, htest⟩ := returns_of_passes hpasses
  obtain ⟨rfl, howner⟩ := of_decide_eq_true htest
  obtain ⟨-, -, howner', -⟩ := (hall _ s' hrun).continuation 5 rfl
  rw [howner] at howner'
  exact absurd howner' (by decide)

end Runs

end PlmCore.Psm
