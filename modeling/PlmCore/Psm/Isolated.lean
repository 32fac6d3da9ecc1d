/-
The ISOLATED mode of `TransactionWrapper`: all or nothing, and when.

The handler, the commit and the rollback are database transactions of their own, so a failure
after the handler is undone by `rollbackTransaction`. That deletes what hangs on the versions
of the dedicated transaction and unlocks their nodes. Whatever else the handler did is not
undone: `OnlyIn` is the list of it, table by table. The handler is arbitrary.
-/
import PlmCore.Psm.Discard
import PlmCore.Psm.Immutability
import PlmCore.Psm.Wrapper

set_option autoImplicit false

namespace PlmCore.Psm

open PlmCore.Lib

variable {α : Type}

/-! ## What all or nothing means -/

/-- Every table but the transactions' own rows, with the locks on the nodes. -/
def Tables.content (t : Tables) : Tables := { t with txs := [], outbox := [], nextId := 0 }

/-- The rows that hang on the given versions. -/
def Tables.onVersions (ids : List Uuid) (t : Tables) : Tables where
  txs := []
  nodes := []
  versions := t.versions.filter (·.id ∈ ids)
  attributes := t.attributes.filter (·.nodeVersionId ∈ ids)
  links := t.links.filter (·.sourceNodeVersionId ∈ ids)
  linkAttributes := t.linkAttributes.filter fun a =>
    ∃ l ∈ t.links, l.id = a.nodeLinkId ∧ l.sourceNodeVersionId ∈ ids
  domains := t.domains.filter (·.nodeVersionId ∈ ids)
  signatures := t.signatures.filter (·.nodeVersionId ∈ ids)
  baselines := []
  baselineEntries := []
  comments := t.comments.filter (·.nodeVersionId ∈ ids)
  outbox := []
  nextId := 0

/-- The versions that are not committed. -/
def Tables.uncommitted (t : Tables) : List Uuid :=
  (t.versions.filter fun v => t.isCommitted v.txId = false).map (·.id)

/-- The transaction is committed, and what is on versions that are not is what was there
before. -/
structure AllCommitted (x : Uuid) (S s' : Tables) : Prop where
  committed : s'.isCommitted x = true
  rest : s'.onVersions s'.uncommitted = S.onVersions s'.uncommitted

/-- **All or nothing**, of an action that ran in the transaction `x`: after an exception every
table and every lock is as before, after a normal return every effect is committed. -/
def AllOrNothing (x : Uuid) (S : Db) : Except PlmError α × Db → Prop
  | (.ok _, s') => AllCommitted x S.toTables s'.toTables
  | (.error _, s') => s'.content = S.content

/-! ## What a rollback undoes -/

/-- `rollbackTransaction` returns: the caller may close the transaction, no comment and no
other version refers to a version of it, and no annotation is on a node that goes with it. -/
structure Tables.CanRollback (ctx : Caller) (x : Uuid) (t : Tables) : Prop where
  mayClose : t.mayClose ctx x
  detached : Detached (ofTx x) t
  unannotated : t.orphansUnannotated x

/-- What the rows outside the transaction are: everything the handler did from `S` to `s` hangs
on the versions of the transaction, the nodes it locked were free and have one of these
versions, and the nodes it created have only these. -/
structure OnlyIn (x : Uuid) (S s : Tables) : Prop where
  versions : s.versions.filter (fun v => ¬ ofTx x v) = S.versions
  attributes : s.attributes.filter (·.nodeVersionId ∉ s.selectVersionIds (ofTx x)) = S.attributes
  links : s.links.filter (·.sourceNodeVersionId ∉ s.selectVersionIds (ofTx x)) = S.links
  linkAttributes : s.linkAttributes.filter (·.nodeLinkId ∉ s.selectLinkIds (ofTx x))
    = S.linkAttributes
  domains : s.domains.filter (·.nodeVersionId ∉ s.selectVersionIds (ofTx x)) = S.domains
  signatures : s.signatures.filter (·.nodeVersionId ∉ s.selectVersionIds (ofTx x)) = S.signatures
  baselines : s.baselines = S.baselines
  baselineEntries : s.baselineEntries.filter (·.nodeLinkId ∉ s.selectLinkIds (ofTx x))
    = S.baselineEntries
  comments : s.comments = S.comments
  nodes : ((s.nodes.filter fun n => n.id ∉ s.affectedNodes x
      ∨ s.versions.any (fun v => v.nodeId = n.id ∧ ¬ ofTx x v)).map fun n =>
    if n.id ∈ s.affectedNodes x then n.unlocked else n) = S.nodes

/-- **A rollback restores exactly what hangs on the transaction.** -/
theorem content_rolledBack_iff {x : Uuid} {S s : Tables} :
    (s.rolledBack x).content = S.content ↔ OnlyIn x S s := by
  have hnodes : (s.rolledBack x).nodes = (s.nodes.filter fun n => n.id ∉ s.affectedNodes x
      ∨ s.versions.any (fun v => v.nodeId = n.id ∧ ¬ ofTx x v)).map fun n =>
        if n.id ∈ s.affectedNodes x then n.unlocked else n := by
    -- unlocking and deleting nodes commute, since a lock is no part of what decides who goes
    change ((s.nodes.map fun n => if n.id ∈ s.affectedNodes x then n.unlocked else n).filter _) = _
    rw [List.filter_map]
    congr 1
    refine List.filter_congr fun n _ => ?_
    have hid : (if n.id ∈ s.affectedNodes x then n.unlocked else n).id = n.id := by
      split
      · rfl
      · rfl
    rw [Bool.eq_iff_iff]
    simp only [Function.comp_apply, decide_eq_true_eq, hid]
    -- left without a version by the deletion: every version it has is of `x`
    have horphan : ((s.unlockNodes (s.affectedNodes x)).withoutVersions (ofTx x)).isOrphan n.id
        = true ↔ ¬ s.versions.any (fun v => v.nodeId = n.id ∧ ¬ ofTx x v) = true := by
      rw [isOrphan_iff]
      simp only [Tables.withoutVersions, Tables.unlockNodes, List.mem_filter, List.any_eq_true,
        decide_eq_true_eq]
      constructor
      · rintro h ⟨v, hv, hnode, hx⟩
        exact h v ⟨hv, hx⟩ hnode
      · rintro h v ⟨hv, hx⟩ hnode
        exact h ⟨v, hv, hnode, hx⟩
    rw [horphan]
    tauto
  constructor
  · intro h
    have hbaselines := congrArg Tables.baselines h
    have hcomments := congrArg Tables.comments h
    have hkept := congrArg Tables.nodes h
    exact
      { versions := congrArg Tables.versions h
        attributes := congrArg Tables.attributes h
        links := congrArg Tables.links h
        linkAttributes := congrArg Tables.linkAttributes h
        domains := congrArg Tables.domains h
        signatures := congrArg Tables.signatures h
        baselines := hbaselines
        baselineEntries := congrArg Tables.baselineEntries h
        comments := hcomments
        nodes := hnodes.symm.trans hkept }
  · intro h
    exact Tables.ext rfl (hnodes.trans h.nodes) h.versions h.attributes h.links h.linkAttributes
      h.domains h.signatures h.baselines h.baselineEntries h.comments rfl rfl

/-! ## How the wrapper's own calls end -/

/-- An exception that `catch (Exception e)` catches. -/
def PlmError.Caught (e : PlmError) : Prop := e.isJavaError = false

/-- What a statement throws is caught. -/
theorem keeps_execute (f : Tables → Tables) :
    Keeps (fun _ : Db => True) PlmError.Caught (execute f) := by
  intro s _
  apply outcome_execute
  · exact fun _ _ => trivial
  · exact ⟨trivial, rfl⟩

theorem keeps_compute (env : Env) (nodeId vid : Uuid) :
    Keeps (fun _ : Db => True) PlmError.Caught
      (compute env nodeId vid) := by
  apply Keeps.bind (Keeps.query _)
  intro version
  refine Keeps.bind (Keeps.orElseThrow ?_) fun v => ?_
  · rfl
  apply Keeps.bind (Keeps.query _)
  exact fun _ => Keeps.pure _

theorem keeps_getOrComputeFingerPrint (env : Env) (nodeId vid : Uuid) :
    Keeps (fun _ : Db => True) PlmError.Caught
      (getOrComputeFingerPrint env nodeId vid) := by
  apply Keeps.bind (Keeps.query _)
  intro version
  cases version.bind (·.fingerprint) with
  | none => exact keeps_compute env nodeId vid
  | some stored => exact Keeps.ite (keeps_compute env nodeId vid) (Keeps.pure _)

theorem keeps_isNoOp (env : Env) (v : VersionRow) :
    Keeps (fun _ : Db => True) PlmError.Caught (isNoOp env v) := by
  apply Keeps.bind (keeps_getOrComputeFingerPrint env _ _)
  intro fp
  cases v.previousVersionId with
  | none => exact Keeps.pure _
  | some p =>
    apply Keeps.bind (keeps_getOrComputeFingerPrint env _ _)
    exact fun _ => Keeps.pure _

theorem keeps_collectNoOps (env : Env) (vs : List VersionRow) :
    Keeps (fun _ : Db => True) PlmError.Caught
      (collectNoOps env vs) := by
  induction vs with
  | nil => exact Keeps.pure _
  | cons v vs ih =>
    apply Keeps.bind (keeps_isNoOp env v)
    intro flagged
    apply Keeps.bind ih
    exact fun _ => Keeps.pure _

theorem keeps_loadAndVerifyOwnership (ctx : Caller) (x : Uuid) :
    Keeps (fun _ : Db => True) PlmError.Caught
      (loadAndVerifyOwnership ctx x) := by
  apply Keeps.bind (Keeps.query _)
  intro row
  refine Keeps.bind (Keeps.orElseThrow ?_) fun tx => ?_
  · rfl
  refine Keeps.bind (Keeps.require fun _ => ?_) fun _ => Keeps.require fun _ => ?_
  · rfl
  · rfl

theorem keeps_unlock (nodeId : Uuid) :
    Keeps (fun _ : Db => True) PlmError.Caught (unlock nodeId) := by
  apply Keeps.bind (Keeps.query _)
  intro row
  apply Keeps.bind (keeps_execute _)
  intro _
  unfold publishRelease
  cases row.bind (·.lockedBy) with
  | none => exact Keeps.pure _
  | some owner => exact keeps_execute _

/-- **A full commit fails with an `Exception`**, which the wrapper catches. -/
theorem commitTransaction_not_javaError {env : Env} {ctx : Caller} {x : Uuid}
    {comment : Option String} {s s' : Db} {e : PlmError}
    (h : commitTransaction env ctx x comment [] s = (.error e, s')) : e.isJavaError = false := by
  suffices hkeeps : Keeps (fun _ : Db => True) PlmError.Caught
      (commitTransaction env ctx x comment []) from ((hkeeps s trivial).2 e s' h).2
  -- statement by statement; what is thrown on the way is a `PlmException` each time
  apply Keeps.bind (keeps_loadAndVerifyOwnership ctx x)
  intro _
  refine Keeps.bind (Keeps.require fun _ => ?_) fun _ => ?_
  · rfl
  apply Keeps.bind (Keeps.query _)
  intro allNodeIds
  apply Keeps.bind (Keeps.pure none)
  intro o
  apply Keeps.bind (Keeps.query _)
  intro openVersions
  refine Keeps.bind (Keeps.require fun _ => ?_) fun _ => ?_
  · rfl
  apply Keeps.bind
  · apply Keeps.bind (keeps_collectNoOps env openVersions)
    intro noOps
    apply Keeps.bind (Keeps.query _)
    refine fun _ => Keeps.require fun _ => ?_
    rfl
  intro _
  apply Keeps.bind (Keeps.query _)
  intro violations
  refine Keeps.bind (Keeps.require fun _ => ?_) fun _ => ?_
  · rfl
  apply Keeps.bind (keeps_execute _)
  intro _
  apply Keeps.bind (Keeps.forM _ fun _ _ => keeps_execute _)
  intro _
  apply Keeps.bind (Keeps.forM _ fun v _ => keeps_unlock v.nodeId)
  intro _
  apply Keeps.bind (keeps_execute _)
  exact fun _ => Keeps.pure _

section Compensation

variable {env : Env} {ctx : Caller} {x : Uuid} {S s : Db}

/-- What the handler left can be undone, where it can be rolled back; where it cannot, there is
nothing to undo. -/
def Undoable (ctx : Caller) (x : Uuid) (S s : Tables) : Prop :=
  (s.CanRollback ctx x ∧ OnlyIn x S s) ∨ (¬ s.CanRollback ctx x ∧ s.content = S.content)

/-- **The compensation restores the store exactly when what is there can be undone.** -/
theorem content_compensate_iff :
    (compensate ctx x s).content = S.content ↔ Undoable ctx x S.toTables s.toTables := by
  unfold compensate Undoable
  by_cases hcan : s.CanRollback ctx x
  · obtain ⟨s', h⟩ := rollbackTransaction_succeeds_iff.mpr
      ⟨hcan.mayClose, hcan.detached, hcan.unannotated⟩
    obtain ⟨-, es, hs'⟩ := rollbackTransaction_ok h
    have hcontent : s'.content = (s.rolledBack x).content := by
      rw [hs']
      rfl
    rw [atomically_ok h]
    change s'.content = S.content ↔ _
    rw [hcontent, content_rolledBack_iff]
    simp only [hcan, true_and, not_true_eq_false, false_and, or_false]
  · cases hrun : atomically (rollbackTransaction ctx x) s with
    | mk r s' =>
      cases r with
      | ok u =>
        obtain ⟨hmay, hdetached, hun⟩ := rollbackTransaction_succeeds_iff.mp
          ⟨s', returns_of_atomically hrun⟩
        exact absurd ⟨hmay, hdetached, hun⟩ hcan
      | error e =>
        obtain ⟨rfl, -⟩ := atomically_error hrun
        simp only [hcan, false_and, not_false_eq_true, true_and, false_or]

/-! ## The commit -/

/-- The versions of other transactions that are not committed. -/
def Tables.uncommittedOutside (x : Uuid) (t : Tables) : List Uuid :=
  (t.versions.filter fun v => ¬ ofTx x v ∧ t.isCommitted v.txId = false).map (·.id)

/-- The commit can return. -/
def Tables.CanCommit (env : Env) (ctx : Caller) (x : Uuid) (comment : String) (t : Tables) : Prop :=
  t.mayClose ctx x ∧ t.Committable env x (some comment)

/-- **After a commit everything is committed exactly when the handler left what is not committed
elsewhere as it was.** -/
theorem allCommitted_iff {comment : String} {o : Option Uuid} {s' : Db} {S : Tables}
    (h : Returns (commitTransaction env ctx x (some comment) []) s o s') :
    AllCommitted x S s'.toTables ↔
      s.onVersions (s.uncommittedOutside x) = S.onVersions (s.uncommittedOutside x) := by
  -- a full commit defers nothing, so the only transaction that changes is `x`
  obtain ⟨hmay, s₁, es, hdefer, -, hs'⟩ := commitTransaction_ok h
  obtain ⟨-, rfl⟩ := hdefer.unique (deferNodes_nil s)
  have hcommitted : ∀ y, s'.isCommitted y = (s₁.isCommitted y || y = x) := by
    intro y
    rw [← isCommitted_committed (some comment) ctx.now (mem_txIds_of_isOpen hmay.isOpen) y]
    refine Tables.isCommitted_congr ?_ y
    rw [hs']
    rfl
  have hversions : s'.versions = s₁.versions := by
    rw [hs']
    rfl
  -- what is uncommitted afterwards was uncommitted before, and not of `x`
  have huncommitted : s'.uncommitted = s₁.uncommittedOutside x := by
    rw [Tables.uncommitted, Tables.uncommittedOutside, hversions]
    congr 1
    refine List.filter_congr fun v _ => ?_
    rw [hcommitted]
    by_cases hx : v.txId = x
    · simp [ofTx, hx]
    · simp [ofTx, hx]
  have hrows : ∀ ids, s'.onVersions ids = s₁.onVersions ids := by
    intro ids
    rw [hs']
    rfl
  constructor
  · intro hall
    rw [← huncommitted, ← hrows, hall.rest]
  · intro hrest
    refine ⟨?_, ?_⟩
    · rw [hcommitted]
      simp
    · rw [huncommitted, hrows, hrest]

end Compensation

/-! ## When an isolated action is all or nothing -/

/-- What the handler may leave. If it throws an `Exception`, or the commit is rejected, it leaves
what can be undone; if it throws a `java.lang.Error`, it leaves no trace; if it is committed,
it leaves what is not committed elsewhere as it was. -/
def HandlerLeaves (env : Env) (ctx : Caller) (comment : String) (x : Uuid) (S : Tables) :
    Except PlmError α × Db → Prop
  | (.error e, s) =>
    if e.isJavaError then s.content = S.content else Undoable ctx x S s.toTables
  | (.ok _, s) =>
    (s.CanCommit env ctx x comment
      ∧ s.onVersions (s.uncommittedOutside x) = S.onVersions (s.uncommittedOutside x))
    ∨ (¬ s.CanCommit env ctx x comment ∧ Undoable ctx x S s.toTables)

/-- The handler leaves that when it starts in the dedicated transaction. -/
def KeepsToTransaction (env : Env) (ctx : Caller) (comment : String)
    (proceed : Option Uuid → Request α) (S : Db) : Prop :=
  ∀ S₁, Returns (openTransaction ctx) S S.nextId S₁ →
    HandlerLeaves env ctx comment S.nextId S.toTables (proceed (some S.nextId) S₁)

/-- The body of the mode, after the transaction was opened. -/
theorem runIsolated_allOrNothing_iff {env : Env} {ctx : Caller} {comment : String} {x : Uuid} {S S₁ : Db}
    {proceed : Uuid → Request α} :
    AllOrNothing x S (runIsolated env ctx comment proceed x S₁) ↔
      HandlerLeaves env ctx comment x S.toTables (proceed x S₁) := by
  unfold runIsolated
  cases proceed x S₁ with
  | mk r s =>
    cases r with
    -- the handler threw: a `java.lang.Error` passes the wrapper, an `Exception` is compensated
    | error e =>
      change (catchException ctx x e s).content = S.content ↔
        if e.isJavaError then s.content = S.content else Undoable ctx x S.toTables s.toTables
      rw [catchException]
      by_cases he : e.isJavaError
      · rw [if_pos he, if_pos he]
      · rw [if_neg he, if_neg he]
        exact content_compensate_iff
    | ok a =>
      dsimp only
      -- the handler returned: the commit goes through exactly when the store allows it
      by_cases hcan : s.CanCommit env ctx x comment
      · obtain ⟨o, s', h⟩ := commitTransaction_succeeds_iff.mpr hcan
        rw [atomically_ok h]
        change AllCommitted x S.toTables s'.toTables ↔ _
        rw [allCommitted_iff h]
        simp only [HandlerLeaves, hcan, true_and, not_true_eq_false, false_and, or_false]
      · cases hrun : commitTransaction env ctx x (some comment) [] s with
        | mk r s' =>
          cases r with
          | ok o => exact absurd (commitTransaction_succeeds_iff.mp ⟨o, s', hrun⟩) hcan
          | error e =>
            have hat : atomically (commitTransaction env ctx x (some comment) []) s = (.error e, s) := by
              rw [atomically, hrun]
            -- a commit that is refused leaves what the handler left, which is then compensated
            rw [hat]
            change (catchException ctx x e s).content = S.content ↔ _
            rw [catchException, if_neg (by simp [commitTransaction_not_javaError hrun]),
              content_compensate_iff]
            simp only [HandlerLeaves, hcan, false_and, not_false_eq_true, true_and, false_or]

section Runs

/-- The assembly is committed, and nothing is open. -/
def settledAssembly : Db :=
  ⟨{ assemblyTables with txs := [⟨0, "engineer", .COMMITTED, some "created", 0, some 0⟩], nextId := 1 },
    by decide⟩

/-- The handler of the TRANSITION action. -/
def releaseAssembly (txId : Option Uuid) : Request Uuid :=
  atomically (applyTransition collapsingEnv engineer 1 0 "release" (txId.getD 0))

end Runs

end PlmCore.Psm
