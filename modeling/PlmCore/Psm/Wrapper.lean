/-
`TransactionWrapper` and `LockWrapper`: what runs around an action handler.

A service method is one database transaction (`Plm`). A request is a sequence of them: the
wrapper's own calls and whatever the handler does. `Request` is the type of such a
sequence: it always ends in a store, also when it fails, because what earlier database
transactions committed stays.
-/
import PlmCore.Psm.Transaction

set_option autoImplicit false

namespace PlmCore.Psm

open PlmCore.Lib

/-- A sequence of database transactions: its result, and the store it leaves. -/
abbrev Request (α : Type) := Db → Except PlmError α × Db

variable {α : Type}

/-- One service method as a request: a failure leaves the store as it was. -/
def atomically (x : Plm α) : Request α := fun s =>
  match x s with
  | (.ok a, s') => (.ok a, s')
  | (.error e, _) => (.error e, s)

/-- The request of a service method that returns. -/
theorem atomically_ok {x : Plm α} {s s' : Db} {a : α} (h : Returns x s a s') :
    atomically x s = (.ok a, s') := by
  unfold Returns at h
  simp [atomically, h]

/-- A service method that does not return leaves the store as it was. -/
theorem atomically_error {x : Plm α} {s s' : Db} {e : PlmError} (h : atomically x s = (.error e, s')) :
    s' = s ∧ ∀ a s₁, ¬ Returns x s a s₁ := by
  unfold atomically at h
  split at h
  · cases h
  · rename_i e' s₁ he
    cases h
    refine ⟨rfl, fun a s₁ hr => ?_⟩
    unfold Returns at hr
    rw [he] at hr
    cases hr

/-- What a request that ends normally tells about its service method. -/
theorem returns_of_atomically {x : Plm α} {s s' : Db} {a : α} (h : atomically x s = (.ok a, s')) :
    Returns x s a s' := by
  unfold atomically at h
  split at h
  · rename_i b s₁ hx
    cases h
    exact hx
  · cases h

/-- A service method that cannot return leaves the store as it was. -/
theorem atomically_of_not_returns {x : Plm Unit} {s : Db} (h : ¬ ∃ s', Returns x s () s') :
    (atomically x s).2 = s := by
  cases hrun : atomically x s with
  | mk r s₁ =>
    cases r with
    | ok u => exact absurd ⟨s₁, returns_of_atomically hrun⟩ h
    | error e => exact (atomically_error hrun).1

/-- A method returns, or leaves the store as it was. -/
theorem atomically_cases (x : Plm Unit) (s : Db) :
    Returns x s () (atomically x s).2 ∨
      (atomically x s).2 = s ∧ ∀ s', ¬ Returns x s () s' := by
  cases h : atomically x s with
  | mk r s' =>
    cases r with
    | error e =>
      obtain ⟨hs', hfails⟩ := atomically_error h
      exact .inr ⟨hs', hfails ()⟩
    | ok u => exact .inl (returns_of_atomically h)

/-! ## `TransactionWrapper` -/

/-- `rollbackTransaction` in the `catch` block; its own failure is logged. -/
def compensate (ctx : Caller) (txId : Uuid) (s : Db) : Db :=
  (atomically (rollbackTransaction ctx txId) s).2

/-- The `catch (Exception e)` block of the ISOLATED mode. -/
def catchException (ctx : Caller) (txId : Uuid) (e : PlmError) (s : Db) : Db :=
  if e.isJavaError then s else compensate ctx txId s

/-- The body of the ISOLATED mode after the transaction was opened: the handler, the commit,
and the compensation of either's failure. -/
def runIsolated (env : Env) (ctx : Caller) (comment : String) (proceed : Uuid → Request α)
    (txId : Uuid) : Request α := fun s =>
  match proceed txId s with
  | (.error e, s₁) => (.error e, catchException ctx txId e s₁)
  | (.ok result, s₁) =>
    match atomically (commitTransaction env ctx txId (some comment) []) s₁ with
    | (.ok _, s₂) => (.ok result, s₂)
    | (.error e, s₂) => (.error e, catchException ctx txId e s₂)

/-- The ISOLATED mode: a dedicated transaction. `description` is the parameter
`_description`, the comment of the commit; the default is the code of the action. -/
def wrapIsolated (env : Env) (ctx : Caller) (actionCode : String) (description : Option String)
    (proceed : Uuid → Request α) : Request α := fun s =>
  match atomically (openTransaction ctx) s with
  | (.error e, s₁) => (.error e, s₁)
  | (.ok txId, s₁) => runIsolated env ctx (description.getD actionCode) proceed txId s₁

/-- The AUTO_OPEN mode: the given transaction, or the caller's open one, or a new one. Looking
and opening are two database transactions. -/
def wrapAutoOpen (ctx : Caller) (txId : Option Uuid) (proceed : Uuid → Request α) : Request α :=
  fun s => match txId with
  | some txId => proceed txId s
  | none =>
    match atomically (findOpenTransaction ctx.userId) s with
    | (.error e, s₁) => (.error e, s₁)
    | (.ok (some txId), s₁) => proceed txId s₁
    | (.ok none, s₁) =>
      match atomically (openTransaction ctx) s₁ with
      | (.error e, s₂) => (.error e, s₂)
      | (.ok txId, s₂) => proceed txId s₂

/-- `TransactionWrapper.wrap`. -/
def wrapTransaction (env : Env) (ctx : Caller) (txMode actionCode : String) (txId : Option Uuid)
    (description : Option String) (proceed : Option Uuid → Request α) : Request α := fun s =>
  match txMode with
  | "NONE" => proceed txId s
  | "REQUIRED" =>
    if txId.isNone then
      (.error (.illegalState (actionCode ++ " requires an open transaction")), s)
    else proceed txId s
  | "AUTO_OPEN" => wrapAutoOpen ctx txId (fun txId => proceed (some txId)) s
  | "ISOLATED" => wrapIsolated env ctx actionCode description (fun txId => proceed (some txId)) s
  | _ => (.error (.illegalArgument ("Unknown tx_mode: " ++ txMode)), s)

/-! ## `LockWrapper` -/

/-- `LockWrapper.wrap`: the lock is taken before the handler and released after it, whether
the handler failed or not, and whoever held it before. -/
def wrapLock (ctx : Caller) (nodeId : Option Uuid) (proceed : Request α) : Request α := fun s =>
  match nodeId with
  | none => proceed s
  | some nodeId =>
    match atomically (tryLock ctx nodeId) s with
    | (.error e, s₁) => (.error e, s₁)
    | (.ok (), s₁) =>
      let (result, s₂) := proceed s₁
      (result, (atomically (unlock nodeId) s₂).2)

end PlmCore.Psm
