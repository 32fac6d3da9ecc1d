/-
Processes that run at the same time and write to one store.

Each process has a state of its own and takes its steps at its own events, and a step writes at most one
cell of the store. The events of the processes come in any order. A process ends in the state its own events
bring it to, and where each cell has an owner and only the owner writes it, the cell ends as the owner alone
would leave it: the order in which the events of different processes come makes no difference.
-/
import Mathlib.Logic.Function.Basic
import PlmCore.Lib.Run

set_option autoImplicit false

namespace PlmCore.Lib

variable {ι σ ε κ ν : Type} [DecidableEq ι] [DecidableEq κ]

/-- What a process does at an event: its next state, and the cell it writes. -/
structure Process (σ ε κ ν : Type) where
  next : σ → ε → σ
  write : σ → ε → Option (κ × ν)

/-- The store behind a write. -/
def writeCell (store : κ → ν) : Option (κ × ν) → κ → ν
  | some (k, v) => Function.update store k v
  | none => store

/-- The states of the processes, and the store. -/
structure Joint (ι σ κ ν : Type) where
  states : ι → σ
  store : κ → ν

variable (p : Process σ ε κ ν)

/-- A process that runs alone. -/
def Process.alone (s : σ × (κ → ν)) (e : ε) : σ × (κ → ν) := (p.next s.1 e, writeCell s.2 (p.write s.1 e))

/-- An event of one process. -/
def Process.joint (s : Joint ι σ κ ν) (e : ι × ε) : Joint ι σ κ ν :=
  ⟨Function.update s.states e.1 (p.next (s.states e.1) e.2), writeCell s.store (p.write (s.states e.1) e.2)⟩

/-- The events of one process among all. -/
def eventsOf (i : ι) (es : List (ι × ε)) : List ε := (es.filter fun e => e.1 = i).map Prod.snd

/-- Along the events of a process, it writes no cells but those of `own`. -/
def Process.WritesOnly (own : κ → Prop) (s : σ) (es : List ε) : Prop :=
  Along p.next (fun s e => ∀ k v, p.write s e = some (k, v) → own k) s es

variable {p}

theorem eventsOf_cons_self (i : ι) (e : ε) (es : List (ι × ε)) : eventsOf i ((i, e) :: es) = e :: eventsOf i es := by
  simp [eventsOf]

theorem eventsOf_cons_of_ne {i j : ι} (h : j ≠ i) (e : ε) (es : List (ι × ε)) :
    eventsOf i ((j, e) :: es) = eventsOf i es := by
  simp [eventsOf, h]

theorem writeCell_of_ne {store : κ → ν} {w : Option (κ × ν)} {k : κ} (h : ∀ v, w ≠ some (k, v)) :
    writeCell store w k = store k := by
  match w, h with
  | none, _ => rfl
  | some (k', v), h => exact Function.update_of_ne (fun heq : k = k' => h v (by rw [heq])) v store

/-- The states of the processes in a joint run. -/
theorem Process.states_run (s : Joint ι σ κ ν) (es : List (ι × ε)) (i : ι) :
    (run p.joint s es).states i = run p.next (s.states i) (eventsOf i es) := by
  induction es generalizing s with
  | nil => rfl
  | cons e es ih =>
    obtain ⟨j, e⟩ := e
    rw [run_cons, ih]
    by_cases hj : j = i
    · subst hj
      rw [eventsOf_cons_self, run_cons]
      exact congrArg (run p.next · _) (Function.update_self _ _ _)
    · rw [eventsOf_cons_of_ne hj]
      exact congrArg (run p.next · _) (Function.update_of_ne (Ne.symm hj) _ _)

/-- What a process alone leaves in a cell depends on what was in that cell only. -/
theorem Process.alone_congr (s : σ) {store store' : κ → ν} {k : κ} (h : store k = store' k) (es : List ε) :
    (run p.alone (s, store) es).2 k = (run p.alone (s, store') es).2 k := by
  induction es generalizing s store store' with
  | nil => exact h
  | cons e es ih =>
    refine ih (p.next s e) ?_
    match p.write s e with
    | none => exact h
    | some (k', v) =>
      by_cases hk : k = k'
      · subst hk
        exact (Function.update_self k v store).trans (Function.update_self k v store').symm
      · exact (Function.update_of_ne hk v store).trans (h.trans (Function.update_of_ne hk v store').symm)

/-- **A cell ends as its owner leaves it**, whatever the other processes do in between. -/
theorem Process.store_run (s : Joint ι σ κ ν) (es : List (ι × ε)) {i : ι} {k : κ}
    (h : ∀ j, j ≠ i → p.WritesOnly (· ≠ k) (s.states j) (eventsOf j es)) :
    (run p.joint s es).store k = (run p.alone (s.states i, s.store) (eventsOf i es)).2 k := by
  induction es generalizing s with
  | nil => rfl
  | cons e es ih =>
    obtain ⟨j, e⟩ := e
    have hothers : ∀ j', j' ≠ i → p.WritesOnly (· ≠ k) ((p.joint s (j, e)).states j') (eventsOf j' es) := by
      intro j' hj'
      have hwrites := h j' hj'
      by_cases hj : j = j'
      · subst hj
        rw [eventsOf_cons_self] at hwrites
        have hstate : (p.joint s (j, e)).states j = p.next (s.states j) e := Function.update_self _ _ _
        rw [hstate]
        exact hwrites.2
      · rw [eventsOf_cons_of_ne hj] at hwrites
        have hstate : (p.joint s (j, e)).states j' = s.states j' := Function.update_of_ne (Ne.symm hj) _ _
        rw [hstate]
        exact hwrites
    rw [run_cons, ih _ hothers]
    by_cases hj : j = i
    · subst hj
      rw [eventsOf_cons_self, run_cons]
      have hstate : (p.joint s (j, e)).states j = p.next (s.states j) e := Function.update_self _ _ _
      rw [hstate]
      rfl
    · have hstate : (p.joint s (j, e)).states i = s.states i := Function.update_of_ne (Ne.symm hj) _ _
      rw [eventsOf_cons_of_ne hj, hstate]
      refine Process.alone_congr _ ?_ _
      have hwrites := h j hj
      rw [eventsOf_cons_self] at hwrites
      exact writeCell_of_ne fun v hv => hwrites.1 k v hv rfl

omit [DecidableEq κ] in
/-- **The cells a process may write**, from what it may write at one step and what it may write afterwards. -/
theorem Process.writesOnly_of_step {ahead : σ → κ → Prop}
    (h : ∀ s e, (∀ k v, p.write s e = some (k, v) → ahead s k) ∧ ∀ k, ahead (p.next s e) k → ahead s k)
    (s : σ) (es : List ε) : p.WritesOnly (ahead s) s es := by
  suffices hgo : ∀ t, (∀ k, ahead t k → ahead s k) → p.WritesOnly (ahead s) t es from hgo s fun _ hk => hk
  induction es with
  | nil => exact fun _ _ => trivial
  | cons e es ih =>
    refine fun t ht => ⟨fun k v hv => ht k ((h t e).1 k v hv), ih _ fun k hk => ht k ((h t e).2 k hk)⟩

omit [DecidableEq κ] in
theorem Process.WritesOnly.mono {own own' : κ → Prop} {s : σ} {es : List ε} (h : p.WritesOnly own s es)
    (hown : ∀ k, own k → own' k) : p.WritesOnly own' s es := by
  induction es generalizing s with
  | nil => trivial
  | cons e es ih => exact ⟨fun k v hv => hown k (h.1 k v hv), ih h.2⟩

/-- A process alone leaves alone the cells it does not write. -/
theorem Process.WritesOnly.alone {own : κ → Prop} {s : σ} {es : List ε} (h : p.WritesOnly own s es)
    {k : κ} (hk : ¬ own k) (store : κ → ν) : (run p.alone (s, store) es).2 k = store k := by
  induction es generalizing s store with
  | nil => rfl
  | cons e es ih =>
    rw [run_cons]
    exact (ih h.2 _).trans (writeCell_of_ne fun v hv => hk (h.1 k v hv))

end PlmCore.Lib
