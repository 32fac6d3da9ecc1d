/-
Computations that run inside one database transaction: they read and write a state,
and an exception ends them where it is thrown. What was written before it stays for whoever
catches it inside the transaction; undoing it is the matter of the transaction's boundary.

The file fixes the evaluation relation `Returns` and one equation for each way of
building a computation. Every inversion of a service method in this development is a
rewriting with these equations, so a proof never unfolds the monad. The second half
is the relational reading: `Moves R x` says that each successful run of `x` relates
its initial to its final state, and the rules below compose it along `bind`, branches
and loops.

Nothing here knows what the state is.
-/
import Mathlib.Logic.Relation
import Mathlib.Tactic.Common

set_option autoImplicit false

namespace PlmCore.Lib

universe u

/-- A computation over a state `σ` that fails with an `ε` or returns an `α`, and leaves a state
either way. -/
def Txn (σ ε : Type) (α : Type) := σ → Except ε α × σ

variable {σ ε α β : Type}

/-- A composite runs its first part, and the rest unless that fails. -/
instance : Monad (Txn σ ε) where
  pure a := fun s => (.ok a, s)
  bind x f := fun s =>
    match x s with
    | (.ok a, s₁) => f a s₁
    | (.error e, s₁) => (.error e, s₁)

instance : MonadExcept ε (Txn σ ε) where
  throw e := fun s => (.error e, s)
  tryCatch x handle := fun s =>
    match x s with
    | (.ok a, s₁) => (.ok a, s₁)
    | (.error e, s₁) => handle e s₁

/-! ## Building blocks -/

/-- Reads something off the current state. -/
def query (f : σ → α) : Txn σ ε α := fun s => (.ok (f s), s)

/-- Fails with `e` unless `c` holds. -/
def require (c : Prop) [Decidable c] (e : ε) : Txn σ ε Unit :=
  if c then pure () else throw e

/-- The value of an optional, or the exception `e`. -/
def orElseThrow (o : Option α) (e : ε) : Txn σ ε α :=
  match o with
  | some a => pure a
  | none => throw e

/-- A computation that is already known to be an exception or a value. -/
def ofResult (r : Except ε α) : Txn σ ε α := fun s => (r, s)

/-- Catches an exception: a failed computation becomes its exception, in the state in which it
was thrown. -/
def attempt (x : Txn σ ε α) : Txn σ ε (Except ε α) := fun s => (.ok (x s).1, (x s).2)

/-! ## Evaluation -/

/-- `x`, started in `s`, returns `a` and leaves `s'`. -/
def Returns (x : Txn σ ε α) (s : σ) (a : α) (s' : σ) : Prop := x s = (.ok a, s')

@[simp] theorem returns_pure {a b : α} {s s' : σ} :
    Returns (pure a : Txn σ ε α) s b s' ↔ b = a ∧ s' = s := by
  constructor
  · intro h
    cases h
    exact ⟨rfl, rfl⟩
  · rintro ⟨rfl, rfl⟩
    rfl

/-- **Sequencing.** A composite returns exactly when its first part returns and the
rest returns from the state the first part left. -/
@[simp] theorem returns_bind {x : Txn σ ε α} {f : α → Txn σ ε β} {s s' : σ} {b : β} :
    Returns (x >>= f) s b s' ↔ ∃ a s₁, Returns x s a s₁ ∧ Returns (f a) s₁ b s' := by
  unfold Returns
  simp only [bind]
  cases h : x s with
  | mk r s₁ => cases r <;> simp

/-- A call whose result is dropped. -/
theorem returns_void {x : Txn σ ε α} {s s' : σ} {u : Unit} :
    Returns (do let _ ← x; pure ()) s u s' ↔ ∃ a, Returns x s a s' := by
  simp

@[simp] theorem returns_throw {e : ε} {s s' : σ} {a : α} :
    ¬ Returns (throw e : Txn σ ε α) s a s' := by
  intro h
  cases h

@[simp] theorem returns_query {f : σ → α} {s s' : σ} {a : α} :
    Returns (query f : Txn σ ε α) s a s' ↔ a = f s ∧ s' = s := by
  constructor
  · intro h
    cases h
    exact ⟨rfl, rfl⟩
  · rintro ⟨rfl, rfl⟩
    rfl

@[simp] theorem returns_require {c : Prop} [Decidable c] {e : ε} {s s' : σ} {u : Unit} :
    Returns (require c e : Txn σ ε Unit) s u s' ↔ c ∧ s' = s := by
  unfold require
  split
  · simp [*]
  · simp [*]

@[simp] theorem returns_orElseThrow {o : Option α} {e : ε} {s s' : σ} {a : α} :
    Returns (orElseThrow o e : Txn σ ε α) s a s' ↔ o = some a ∧ s' = s := by
  cases o with
  | none => simp [orElseThrow]
  | some b => simp [orElseThrow, eq_comm]

@[simp] theorem returns_ofResult {r : Except ε α} {s s' : σ} {a : α} :
    Returns (ofResult r : Txn σ ε α) s a s' ↔ r = .ok a ∧ s' = s := by
  unfold Returns ofResult
  cases r with
  | error e => simp
  | ok b => simp [eq_comm]

/-- A caught computation returned or failed, and goes on where it ended. -/
theorem returns_attempt {x : Txn σ ε α} {s s' : σ} {r : Except ε α} :
    Returns (attempt x) s r s' ↔ x s = (r, s') := by
  unfold Returns attempt
  cases h : x s with
  | mk r₁ s₁ => simp

@[simp] theorem returns_ite {c : Prop} [Decidable c] {x y : Txn σ ε α} {s s' : σ} {a : α} :
    Returns (if c then x else y) s a s' ↔
      (c ∧ Returns x s a s') ∨ (¬ c ∧ Returns y s a s') := by
  split
  · simp [*]
  · simp [*]

@[simp] theorem returns_forM_nil {f : α → Txn σ ε PUnit} {s s' : σ} {u : PUnit} :
    Returns (List.forM [] f) s u s' ↔ s' = s := by
  change Returns (pure ⟨⟩) s u s' ↔ _
  simp

@[simp] theorem returns_forM_cons {f : α → Txn σ ε PUnit} {x : α} {xs : List α} {s s' : σ}
    {u : PUnit} :
    Returns (List.forM (x :: xs) f) s u s' ↔
      ∃ s₁, Returns (f x) s ⟨⟩ s₁ ∧ Returns (List.forM xs f) s₁ ⟨⟩ s' := by
  change Returns (f x >>= fun _ => List.forM xs f) s u s' ↔ _
  rw [returns_bind]
  constructor
  · rintro ⟨⟨⟩, s₁, h₁, h₂⟩
    exact ⟨s₁, h₁, h₂⟩
  · rintro ⟨s₁, h₁, h₂⟩
    exact ⟨⟨⟩, s₁, h₁, h₂⟩

/-- A computation has one outcome. -/
theorem Returns.unique {x : Txn σ ε α} {s s₁ s₂ : σ} {a b : α} (h₁ : Returns x s a s₁)
    (h₂ : Returns x s b s₂) : a = b ∧ s₁ = s₂ := by
  have h : ((.ok a, s₁) : Except ε α × σ) = (.ok b, s₂) := h₁.symm.trans h₂
  cases h
  exact ⟨rfl, rfl⟩

/-- Runs `x` and tests its outcome; a failure does not pass. -/
def passes (x : Txn σ ε α) (s : σ) (test : α → σ → Bool) : Bool :=
  match x s with
  | (.ok a, s') => test a s'
  | (.error _, _) => false

/-- A run that passes a test is a run. -/
theorem returns_of_passes {x : Txn σ ε α} {s : σ} {test : α → σ → Bool}
    (h : passes x s test = true) : ∃ a s', Returns x s a s' ∧ test a s' = true := by
  unfold passes at h
  split at h
  · rename_i a s' hx
    exact ⟨a, s', hx, h⟩
  · cases h

/-! ## Both outcomes -/

/-- `x`, started in `s`, returns into `P` or fails into `Q`. -/
def Outcome (x : Txn σ ε α) (s : σ) (P : α → σ → Prop) (Q : ε → σ → Prop) : Prop :=
  (∀ a s', x s = (.ok a, s') → P a s') ∧ ∀ e s', x s = (.error e, s') → Q e s'

section Outcome

variable {x : Txn σ ε α} {s : σ} {P P' : α → σ → Prop} {Q Q' : ε → σ → Prop}

theorem Outcome.mono (h : Outcome x s P Q) (hP : ∀ a s', P a s' → P' a s')
    (hQ : ∀ e s', Q e s' → Q' e s') : Outcome x s P' Q' :=
  ⟨fun a s' hr => hP a s' (h.1 a s' hr), fun e s' hr => hQ e s' (h.2 e s' hr)⟩

theorem Outcome.pure {a : α} (h : P a s) : Outcome (pure a) s P Q := by
  constructor
  · rintro b s' ⟨⟩
    exact h
  · rintro e s' ⟨⟩

theorem Outcome.throw {e : ε} (h : Q e s) : Outcome (throw e : Txn σ ε α) s P Q := by
  constructor
  · rintro b s' ⟨⟩
  · rintro e s' ⟨⟩
    exact h

theorem Outcome.query {f : σ → α} (h : P (f s) s) : Outcome (query f) s P Q := by
  constructor
  · rintro b s' ⟨⟩
    exact h
  · rintro e s' ⟨⟩

/-- The rest starts where the first part returns; where that fails, the composite does. -/
theorem Outcome.bind {f : α → Txn σ ε β} {P : β → σ → Prop}
    (h : Outcome x s (fun a s₁ => Outcome (f a) s₁ P Q) Q) : Outcome (x >>= f) s P Q := by
  constructor
  · intro b s' hr
    obtain ⟨a, s₁, h₁, h₂⟩ := returns_bind.mp hr
    exact (h.1 a s₁ h₁).1 b s' h₂
  · intro e s' hr
    simp only [Bind.bind] at hr
    cases hx : x s with
    | mk r s₁ =>
      rw [hx] at hr
      cases r with
      | ok a => exact (h.1 a s₁ hx).2 e s' hr
      | error e₁ =>
        cases hr
        exact h.2 e s' hx

theorem Outcome.require {c : Prop} [Decidable c] {e : ε} {P : Unit → σ → Prop}
    (hP : c → P () s) (hQ : ¬ c → Q e s) : Outcome (require c e) s P Q := by
  unfold Lib.require
  by_cases hc : c
  · rw [if_pos hc]
    exact Outcome.pure (hP hc)
  · rw [if_neg hc]
    exact Outcome.throw (hQ hc)

theorem Outcome.orElseThrow {o : Option α} {e : ε} (hP : ∀ a, o = some a → P a s)
    (hQ : o = none → Q e s) : Outcome (orElseThrow o e) s P Q := by
  cases o with
  | none => exact Outcome.throw (hQ rfl)
  | some a => exact Outcome.pure (hP a rfl)

theorem Outcome.ofResult {r : Except ε α} (hP : ∀ a, r = .ok a → P a s)
    (hQ : ∀ e, r = .error e → Q e s) : Outcome (ofResult r) s P Q := by
  constructor
  · rintro b s' ⟨⟩
    exact hP b rfl
  · rintro e s' ⟨⟩
    exact hQ e rfl

theorem Outcome.ite {c : Prop} [Decidable c] {y : Txn σ ε α} (hx : c → Outcome x s P Q)
    (hy : ¬ c → Outcome y s P Q) : Outcome (if c then x else y) s P Q := by
  by_cases hc : c
  · rw [if_pos hc]
    exact hx hc
  · rw [if_neg hc]
    exact hy hc

/-- A caught computation goes on after its exception. -/
theorem Outcome.attempt {P : Except ε α → σ → Prop}
    (h : Outcome x s (fun a s' => P (.ok a) s') (fun e s' => P (.error e) s')) :
    Outcome (attempt x) s P Q := by
  constructor
  · intro r s' hr
    have hx := returns_attempt.mp hr
    cases r with
    | ok a => exact h.1 a s' hx
    | error e => exact h.2 e s' hx
  · rintro e s' ⟨⟩

/-- Of a run that returns, only the return counts. -/
theorem Outcome.of_returns {a : α} {s' : σ} (h : Returns x s a s') (hP : P a s') : Outcome x s P Q := by
  constructor
  · intro b s'' hr
    obtain ⟨rfl, rfl⟩ := h.unique hr
    exact hP
  · intro e s'' hr
    have hne := h.symm.trans hr
    cases hne

/-- A computation that cannot fail returns. -/
theorem Outcome.returns (h : Outcome x s P fun _ _ => False) : ∃ a s', Returns x s a s' ∧ P a s' := by
  cases hx : x s with
  | mk r s' =>
    cases r with
    | ok a => exact ⟨a, s', hx, h.1 a s' hx⟩
    | error e => exact (h.2 e s' hx).elim

end Outcome

/-- Whatever `x` ends with, it keeps `I`, and its exceptions satisfy `P`. -/
def Keeps (I : σ → Prop) (P : ε → Prop) (x : Txn σ ε α) : Prop :=
  ∀ s, I s → Outcome x s (fun _ s' => I s') fun e s' => I s' ∧ P e

section Keeps

variable {I : σ → Prop} {P : ε → Prop}

theorem Keeps.pure (a : α) : Keeps I P (pure a : Txn σ ε α) := fun _ hI => Outcome.pure hI

theorem Keeps.throw {e : ε} (h : P e) : Keeps I P (throw e : Txn σ ε α) :=
  fun _ hI => Outcome.throw ⟨hI, h⟩

theorem Keeps.query (f : σ → α) : Keeps I P (query f : Txn σ ε α) := fun _ hI => Outcome.query hI

theorem Keeps.bind {x : Txn σ ε α} {f : α → Txn σ ε β} (hx : Keeps I P x)
    (hf : ∀ a, Keeps I P (f a)) : Keeps I P (x >>= f) := by
  intro s hI
  apply Outcome.bind
  exact (hx s hI).mono (fun a s₁ h₁ => hf a s₁ h₁) fun _ _ h => h

theorem Keeps.require {c : Prop} [Decidable c] {e : ε} (h : ¬ c → P e) :
    Keeps I P (require c e : Txn σ ε Unit) :=
  fun _ hI => Outcome.require (fun _ => hI) fun hc => ⟨hI, h hc⟩

theorem Keeps.orElseThrow {o : Option α} {e : ε} (h : P e) :
    Keeps I P (orElseThrow o e : Txn σ ε α) :=
  fun _ hI => Outcome.orElseThrow (fun _ _ => hI) fun _ => ⟨hI, h⟩

theorem Keeps.ite {c : Prop} [Decidable c] {x y : Txn σ ε α} (hx : Keeps I P x)
    (hy : Keeps I P y) : Keeps I P (if c then x else y) :=
  fun s hI => Outcome.ite (fun _ => hx s hI) fun _ => hy s hI

/-- A loop keeps what each of its rounds keeps. -/
theorem Keeps.forM {f : α → Txn σ ε PUnit} (xs : List α) (h : ∀ x ∈ xs, Keeps I P (f x)) :
    Keeps I P (xs.forM f) := by
  induction xs with
  | nil => exact Keeps.pure _
  | cons x xs ih =>
    apply Keeps.bind (h x List.mem_cons_self)
    intro _
    exact ih fun y hy => h y (List.mem_cons_of_mem _ hy)

end Keeps

/-! ## What a computation does to the state -/

/-- Every successful run of `x` relates its initial to its final state. -/
def Moves (R : σ → σ → Prop) (x : Txn σ ε α) : Prop :=
  ∀ s a s', Returns x s a s' → R s s'

variable {R : σ → σ → Prop}

/-- A loop moves along `R` when each of its rounds does. -/
theorem Moves.forM (hrefl : ∀ s, R s s) (htrans : ∀ {a b c}, R a b → R b c → R a c)
    {f : α → Txn σ ε PUnit} {xs : List α} (h : ∀ x ∈ xs, Moves R (f x)) :
    Moves R (xs.forM f) := by
  induction xs with
  | nil =>
    intro s a s' hr
    rw [returns_forM_nil] at hr
    exact hr ▸ hrefl s
  | cons x xs ih =>
    intro s a s' hr
    obtain ⟨s₁, h₁, h₂⟩ := returns_forM_cons.mp hr
    have hx : R s s₁ := h x (by simp) _ _ _ h₁
    have hxs : R s₁ s' := ih (fun y hy => h y (by simp [hy])) _ _ _ h₂
    exact htrans hx hxs

/-- **Loop invariant.** A property that every round of a loop keeps holds after the loop. -/
theorem forM_invariant {I : σ → Prop} {f : α → Txn σ ε PUnit} {xs : List α}
    (hstep : ∀ x ∈ xs, ∀ s s', I s → Returns (f x) s ⟨⟩ s' → I s') {s s' : σ} {u : PUnit}
    (h : Returns (xs.forM f) s u s') (hI : I s) : I s' :=
  Moves.forM (R := fun a b => I a → I b) (fun _ => id) (fun h₁ h₂ => h₂ ∘ h₁)
    (fun x hx s _ s' hr hs => hstep x hx s s' hs hr) s u s' h hI

end PlmCore.Lib
