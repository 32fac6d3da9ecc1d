/-
Runs of a state machine.

A machine is a function that takes the event of a step, and its runs are lists of events. A
condition on single steps holds along a run when each of its steps meets it in the state the
run has then reached, and an invariant that such steps keep holds at the end of the run. Every
prefix of a run is a run, so what holds at the end of every run holds in every state reached.
-/
import Mathlib.Data.List.Basic

set_option autoImplicit false

namespace PlmCore.Lib

variable {σ ε : Type*} (step : σ → ε → σ)

/-- The state at the end of a run. -/
def run (s : σ) (es : List ε) : σ := es.foldl step s

@[simp] theorem run_nil (s : σ) : run step s [] = s := rfl

@[simp] theorem run_cons (s : σ) (e : ε) (es : List ε) :
    run step s (e :: es) = run step (step s e) es := rfl

theorem run_append (s : σ) (es es' : List ε) :
    run step s (es ++ es') = run step (run step s es) es' := List.foldl_append

/-- Every step of the run meets `good` in the state it is taken from. -/
def Along (good : σ → ε → Prop) : σ → List ε → Prop
  | _, [] => True
  | s, e :: es => good s e ∧ Along good (step s e) es

variable {step}

theorem Along.append {good : σ → ε → Prop} {s : σ} {es es' : List ε} :
    Along step good s (es ++ es') ↔ Along step good s es ∧ Along step good (run step s es) es' := by
  induction es generalizing s with
  | nil => simp [Along]
  | cons e es ih => simp [Along, ih, and_assoc]

/-- Whatever holds of each step holds of each step of a run. -/
theorem Along.of_forall {good : σ → ε → Prop} (h : ∀ s e, good s e) (s : σ) (es : List ε) :
    Along step good s es := by
  induction es generalizing s with
  | nil => trivial
  | cons e es ih => exact ⟨h s e, ih _⟩

/-- Two conditions hold along a run together. -/
theorem Along.and {good good' : σ → ε → Prop} {s : σ} {es : List ε} (h : Along step good s es)
    (h' : Along step good' s es) : Along step (fun s e => good s e ∧ good' s e) s es := by
  induction es generalizing s with
  | nil => trivial
  | cons e es ih => exact ⟨⟨h.1, h'.1⟩, ih h.2 h'.2⟩

/-- **The invariant rule.** An invariant that good steps keep holds at the end of a run whose
steps are all good. -/
theorem Along.invariant {good : σ → ε → Prop} {Inv : σ → Prop}
    (hstep : ∀ s e, Inv s → good s e → Inv (step s e)) {s : σ} {es : List ε}
    (hs : Inv s) (h : Along step good s es) : Inv (run step s es) := by
  induction es generalizing s with
  | nil => exact hs
  | cons e es ih => exact ih (hstep s e hs h.1) h.2

/-- Good steps are right ones where an invariant holds that good steps keep. -/
theorem Along.mono_invariant {good right : σ → ε → Prop} {Inv : σ → Prop}
    (hstep : ∀ s e, Inv s → good s e → Inv (step s e))
    (hright : ∀ s e, Inv s → good s e → right s e) {s : σ} {es : List ε}
    (hs : Inv s) (h : Along step good s es) : Along step right s es := by
  induction es generalizing s with
  | nil => trivial
  | cons e es ih => exact ⟨hright s e hs h.1, ih (hstep s e hs h.1) h.2⟩

/-- The state a step of a run is taken from is the end of a prefix of the run. -/
theorem Along.reached {good : σ → ε → Prop} {s : σ} {es : List ε} (h : Along step good s es) :
    Along step (fun s' e => good s' e ∧ ∃ past, past <+: es ∧ run step s past = s') s es := by
  suffices hgo : ∀ rest past, past ++ rest = es → Along step good (run step s past) rest →
      Along step (fun s' e => good s' e ∧ ∃ past, past <+: es ∧ run step s past = s')
        (run step s past) rest by
    exact hgo es [] rfl h
  intro rest
  induction rest with
  | nil => exact fun _ _ _ => trivial
  | cons e rest ih =>
    intro past hes hrest
    refine ⟨⟨hrest.1, past, ⟨_, hes⟩, rfl⟩, ?_⟩
    -- one more step of the run is past
    have hpast : run step s (past ++ [e]) = step (run step s past) e := run_append ..
    have hnext := ih (past ++ [e]) (by simpa using hes)
    rw [hpast] at hnext
    exact hnext hrest.2

/-- **The exact invariant rule.** Where good steps are exactly those that keep an invariant, it holds
in every state of a run exactly when the steps of the run are good. -/
theorem Along.iff_invariant {good : σ → ε → Prop} (Inv : σ → Prop)
    (hstep : ∀ s e, Inv s → (Inv (step s e) ↔ good s e)) {s : σ} (hs : Inv s) (es : List ε) :
    (∀ past, past <+: es → Inv (run step s past)) ↔ Along step good s es := by
  induction es generalizing s with
  | nil =>
    refine iff_of_true (fun past hpast => ?_) trivial
    rw [List.prefix_nil.mp hpast]
    exact hs
  | cons e es ih =>
    constructor
    · intro hall
      have hnext : Inv (step s e) := hall [e] (List.prefix_append [e] es)
      refine ⟨(hstep s e hs).mp hnext, (ih hnext).mp fun past hpast => ?_⟩
      exact hall (e :: past) (List.cons_prefix_cons.mpr ⟨rfl, hpast⟩)
    · rintro ⟨hgood, hrest⟩ past hpast
      have hnext := (hstep s e hs).mpr hgood
      cases past with
      | nil => exact hs
      | cons e' past =>
        obtain ⟨rfl, hrun⟩ := List.cons_prefix_cons.mp hpast
        exact (ih hnext).mpr hrest past hrun

/-- Where good steps keep an invariant and every other step from it breaks a property that the invariant
gives, the property holds in every state of a run exactly when the steps of the run are good. -/
theorem Along.iff_of_invariant {good : σ → ε → Prop} {Inv P : σ → Prop} (hInv : ∀ s, Inv s → P s)
    (hstep : ∀ s e, Inv s → good s e → Inv (step s e))
    (hbad : ∀ s e, Inv s → ¬ good s e → ¬ P (step s e)) {s : σ} (hs : Inv s) (es : List ε) :
    (∀ past, past <+: es → P (run step s past)) ↔ Along step good s es := by
  constructor
  · intro hall
    induction es generalizing s with
    | nil => trivial
    | cons e es ih =>
      have hnext : P (step s e) := hall [e] (List.prefix_append [e] es)
      have hgood : good s e := not_not.mp fun hnot => hbad s e hs hnot hnext
      refine ⟨hgood, ih (hstep s e hs hgood) fun past hpast => ?_⟩
      exact hall (e :: past) (List.cons_prefix_cons.mpr ⟨rfl, hpast⟩)
  · rintro hgood past ⟨rest, rfl⟩
    exact hInv _ (Along.invariant hstep hs (Along.append.mp hgood).1)

/-- An invariant that every step keeps holds at the end of every run. -/
theorem run_invariant {Inv : σ → Prop} (hstep : ∀ s e, Inv s → Inv (step s e)) {s : σ}
    (hs : Inv s) (es : List ε) : Inv (run step s es) := by
  have hes : Along step (fun _ _ => True) s es := Along.of_forall (fun _ _ => trivial) s es
  exact Along.invariant (fun s e h _ => hstep s e h) hs hes

end PlmCore.Lib
