/-
The store under the requests of all its users.

Every service method is one database transaction, so a run of the store is a list of such
methods in the order in which they commit: what users ask for in their PLM transactions, the
opening and the ends of these, the locks the wrapper takes and drops around an action, the
cleanup job, and the recording of baselines. A method that fails leaves the store as it was.
-/
import PlmCore.Psm.Authoring
import PlmCore.Psm.Baseline
import PlmCore.Psm.Discard
import PlmCore.Psm.Wrapper

set_option autoImplicit false

namespace PlmCore.Psm

open PlmCore.Lib

/-- A service method that is called on the store. -/
inductive StoreRequest
  | openTransaction (ctx : Caller)
  | authoring (ctx : Caller) (depth : Nat) (txId : Uuid) (op : AuthoringOp)
  | rollback (ctx : Caller) (txId : Uuid)
  | release (ctx : Caller) (txId : Uuid) (nodeIds : List Uuid)
  | cleanStale (now : Nat)
  | lock (ctx : Caller) (nodeId : Uuid)
  | unlock (nodeId : Uuid)
  | createBaseline (ctx : Caller) (depth : Nat) (rootNodeId : Uuid) (name : String)
      (description : Option String)

/-- The method behind a request. -/
def StoreRequest.method (env : Env) : StoreRequest → Plm Unit
  | .openTransaction ctx => do
    let _ ← Psm.openTransaction ctx
    pure ()
  | .authoring ctx depth txId op => op.run env ctx depth txId
  | .rollback ctx txId => rollbackTransaction ctx txId
  | .release ctx txId nodeIds => releaseNodes ctx txId nodeIds
  | .cleanStale now => cleanStaleTransactions now
  | .lock ctx nodeId => tryLock ctx nodeId
  | .unlock nodeId => Psm.unlock nodeId
  | .createBaseline ctx depth rootNodeId name description => do
    let _ ← Psm.createBaseline env ctx depth rootNodeId name description
    pure ()

/-- One request. -/
def Db.step (env : Env) (s : Db) (r : StoreRequest) : Db := (atomically (r.method env) s).2

/-- The request is carried out. -/
def StoreRequest.Succeeds (env : Env) (s : Db) (r : StoreRequest) : Prop :=
  ∃ s', Returns (r.method env) s () s'

/-- An invariant that every request keeps when it is carried out is kept by every step. -/
theorem Db.step_invariant {env : Env} (Inv : Db → Prop) {s : Db} {r : StoreRequest} (hs : Inv s)
    (h : ∀ s', Returns (r.method env) s () s' → Inv s') : Inv (s.step env r) := by
  obtain hrun | ⟨hsame, -⟩ := atomically_cases (r.method env) s
  · exact h _ hrun
  · rw [Db.step, hsame]
    exact hs

/-! ## Recording a baseline -/

/-- The step adds entries to baselines and touches nothing else. -/
def OnlyEntries (s s' : Db) : Prop :=
  ∃ entries, s'.toTables = { s.toTables with baselineEntries := s.baselineEntries ++ entries }

theorem OnlyEntries.refl (s : Db) : OnlyEntries s s := ⟨[], by simp⟩

theorem OnlyEntries.trans {s₁ s₂ s₃ : Db} (h₁ : OnlyEntries s₁ s₂) (h₂ : OnlyEntries s₂ s₃) :
    OnlyEntries s₁ s₃ := by
  obtain ⟨entries₁, hs₂⟩ := h₁
  obtain ⟨entries₂, hs₃⟩ := h₂
  exact ⟨entries₁ ++ entries₂, by rw [hs₃, hs₂, List.append_assoc]⟩

theorem OnlyEntries.insert {e : BaselineEntryRow} {s s' : Db}
    (h : s'.toTables = s.insertBaselineEntry e) : OnlyEntries s s' := ⟨[e], h⟩

/-- One row of the walk, when what it does below the target only adds entries. -/
theorem onlyEntries_recordLink {env : Env} {baselineId : Uuid} {descend : Uuid → Plm Unit}
    (hdescend : ∀ nodeId s s', Returns (descend nodeId) s () s' → OnlyEntries s s')
    {row : LinkRow × Option NodeRow} {s s' : Db}
    (h : Returns (recordLink env baselineId descend row) s () s') : OnlyEntries s s' := by
  unfold recordLink at h
  split at h
  · unfold recordMaster at h
    split at h
    · exact (returns_pure.mp h).2 ▸ .refl s
    · simp only [returns_bind, returns_query, and_assoc, exists_and_left, exists_eq_left] at h
      split at h
      · exact (returns_pure.mp h).2 ▸ .refl s
      · simp only [returns_bind, returns_execute] at h
        obtain ⟨_, s₁, hins, hbelow⟩ := h
        exact (OnlyEntries.insert hins).trans (hdescend _ _ _ hbelow)
  · exact .insert (returns_execute.mp h)

/-- The walk, by induction on the depth of the call stack. -/
theorem onlyEntries_resolveAndRecord {env : Env} {baselineId : Uuid} {depth : Nat}
    (nodeId : Uuid) (s s' : Db) (h : Returns (resolveAndRecord env baselineId depth nodeId) s () s') :
    OnlyEntries s s' := by
  induction depth generalizing nodeId s s' with
  | zero => exact absurd h returns_throw
  | succ depth ih =>
    simp only [resolveAndRecord, returns_bind, returns_query, and_assoc, exists_and_left,
      exists_eq_left] at h
    exact Moves.forM OnlyEntries.refl OnlyEntries.trans
      (fun _ _ _ _ _ hrow => onlyEntries_recordLink ih hrow) s () s' h

/-- **What `createBaseline` writes**: the baseline, its entries and an event. -/
theorem createBaseline_ok {env : Env} {ctx : Caller} {depth : Nat} {rootNodeId baselineId : Uuid}
    {name : String} {description : Option String} {s s' : Db}
    (h : Returns (createBaseline env ctx depth rootNodeId name description) s baselineId s') :
    baselineId = s.nextId ∧ ∃ entries, s'.toTables = { s.toTables with
      baselines := s.baselines ++ [⟨baselineId, name, description, ctx.now, ctx.userId⟩]
      baselineEntries := s.baselineEntries ++ entries
      outbox := s.outbox ++ [.baselineCreated baselineId name ctx.userId]
      nextId := s.nextId + 1 } := by
  simp only [createBaseline, assertNodeIsFrozen, returns_bind, returns_query, returns_orElseThrow,
    returns_require, returns_randomUUID, returns_execute, returns_enqueue, returns_pure, and_assoc,
    exists_and_left, exists_eq_left, exists_const] at h
  obtain ⟨s₀, ⟨v, -, state, -, -, hs₀⟩, s₁, htake, s₂, hins, _, s₃, hwalk, s₄, hevent, rfl, rfl⟩ := h
  obtain rfl := hs₀.symm
  obtain ⟨entries, hs₃⟩ := onlyEntries_resolveAndRecord _ _ _ hwalk
  refine ⟨rfl, entries, ?_⟩
  rw [hevent, hs₃, hins, htake]
  rfl

end PlmCore.Psm
