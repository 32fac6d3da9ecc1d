/-
Relations between the stores before and after that the service methods keep, from the statements
they are made of.

`MethodRule` asks for one fact per kind of statement: a lock, a new transaction, a new version,
rows rewritten in place, a collapse, events. The methods on nodes and transitions then keep the
relation, whatever it says.
-/
import PlmCore.Psm.Link
import PlmCore.Psm.LifecycleEffect

set_option autoImplicit false

namespace PlmCore.Psm

open PlmCore.Lib

/-- What to show of each kind of statement for `R` to hold of every method made of them. -/
structure MethodRule (env : Env) (R : Tables → Tables → Prop) : Prop where
  refl : ∀ t, R t t
  trans : ∀ {t₁ t₂ t₃}, R t₁ t₂ → R t₂ t₃ → R t₁ t₃
  events : ∀ t es, R t (t.withEvents es)
  rows : ∀ {vid t t'}, RowsWritten vid t t' → R t t'
  described : ∀ vid description t, R t (t.describe vid description)
  refreshed : ∀ nodeId v t, R t (t.refresh env nodeId v)
  locked : ∀ {ctx nodeId} {s s' : Db}, Returns (tryLock ctx nodeId) s () s' → R s.toTables s'.toTables
  opened : ∀ {ctx x} {s s' : Db}, Returns (openTransaction ctx) s x s' → R s.toTables s'.toTables
  versioned : ∀ {ctx nodeId x vid ct strategy st attrs desc} {s s' : Db},
    Returns (createVersion env ctx nodeId x ct strategy st attrs desc) s vid s' → R s.toTables s'.toTables
  collapsed : ∀ {a} {s s' : Db}, Returns (collapseHistory env a) s () s' → R s.toTables s'.toTables

namespace MethodRule

variable {env : Env} {R : Tables → Tables → Prop} {ctx : Caller} {x nodeId vid : Uuid} {s s' : Db}

theorem withEvents (h : MethodRule env R) {t t' : Tables} (hr : R t t') (es : List PlmEvent) :
    R t (t'.withEvents es) := h.trans hr (h.events t' es)

theorem findOrOpenTransaction (h : MethodRule env R) (hr : Returns (findOrOpenTransaction ctx) s x s') :
    R s.toTables s'.toTables := by
  obtain ⟨rfl, -⟩ | ⟨-, hopen⟩ := findOrOpenTransaction_ok hr
  · exact h.refl _
  · exact h.opened hopen

theorem checkout (h : MethodRule env R) {txId : Option Uuid}
    (hr : Returns (checkout env ctx nodeId txId) s vid s') : R s.toTables s'.toTables := by
  obtain ⟨y, s₁, s₂, hlock, htx, hversion⟩ := checkout_ok hr
  have hresolved : R s₁.toTables s₂.toTables := by
    cases txId with
    | none => exact h.findOrOpenTransaction htx
    | some z => exact (returns_pure.mp htx).2 ▸ h.refl _
  refine h.trans (h.trans (h.locked hlock) hresolved) ?_
  obtain ⟨v, -, -, rfl⟩ | ⟨-, strategy, s₃, es, hcreate, hs'⟩ := hversion
  · exact h.refl _
  · exact hs' ▸ h.withEvents (h.versioned hcreate) es

theorem modifyNode (h : MethodRule env R) {attributes : List (String × Option String)}
    {description : Option String} {strategy : Option VersionStrategy}
    (hr : Returns (modifyNode env ctx nodeId x attributes description strategy) s vid s') :
    R s.toTables s'.toTables := by
  obtain ⟨s₁, s₂, es, hlock, hs', hwrite⟩ := modifyNode_ok hr
  refine h.trans (h.locked hlock) (hs' ▸ h.withEvents ?_ es)
  obtain ⟨v, values, -, -, hs₂⟩ | ⟨-, strategy, hcreate⟩ := hwrite
  · rw [hs₂]
    exact h.trans (h.trans (h.rows (.replaceAttributes vid values _)) (h.described ..)) (h.refreshed ..)
  · exact h.versioned hcreate

theorem domainAction (h : MethodRule env R) {domainId : Option String} {change : String → Uuid → Plm Nat}
    (hchange : ∀ d vid s k s', Returns (change d vid) s k s' → RowsWritten vid s.toTables s'.toTables)
    (hr : Returns (domainAction env ctx nodeId x domainId change) s () s') :
    R s.toTables s'.toTables := by
  obtain ⟨v, t, es, -, hrows, hs'⟩ := domainAction_ok hchange hr
  exact hs' ▸ h.withEvents (h.trans (h.rows hrows) (h.refreshed nodeId v t)) es

theorem ensureOpenVersion (h : MethodRule env R)
    (hr : Returns (ensureOpenVersion env ctx nodeId x) s vid s') : R s.toTables s'.toTables := by
  simp only [Psm.ensureOpenVersion, returns_bind, returns_query, and_assoc, exists_and_left,
    exists_eq_left] at hr
  split at hr
  · exact (returns_pure.mp hr).2 ▸ h.refl _
  · exact h.versioned hr

/-- **A transition**, with its cascades and the actions of its states. -/
theorem transition (h : MethodRule env R) {depth : Nat} {transitionId : String}
    (hr : Returns (applyTransition env ctx depth nodeId transitionId x) s vid s') :
    R s.toTables s'.toTables := by
  have hactions : ∀ {stateId trigger a} {s s' : Db},
      Returns (executeTransactionalActions env stateId trigger a) s () s' → R s.toTables s'.toTables :=
    fun {stateId trigger a s s'} hrun =>
      executeTransactionalActions_rule (R := fun s s' : Db => R s.toTables s'.toTables)
        (fun s => h.refl _) h.trans (fun _ hr => h.collapsed hr) hrun
  have hrule : TransitionRule env ctx x (fun s s' => R s.toTables s'.toTables) (fun _ _ => True) :=
    { refl := fun s => h.refl _
      trans := h.trans
      events := fun {s _ es} hs' => hs' ▸ h.events s.toTables es
      level := fun ⟨_, _, _, _, _, hcreate, _, hexit, henter, hlock⟩ =>
        h.trans (h.versioned hcreate) (h.trans (hactions hexit) (h.trans (hactions henter)
          (h.locked hlock)))
      registers := fun _ _ => trivial
      keeps := fun _ _ => trivial
      action := fun _ hrun => h.collapsed hrun }
  exact hrule.applyTransition hr

end MethodRule

end PlmCore.Psm
