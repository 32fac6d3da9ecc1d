/-
In which order the outbox publishes.

A pass publishes the rows of its batch in their order, and goes on after a row it could not publish; a
pass that skips locked rows does not see those another pass is still publishing. So a later event of a
producer can overtake an earlier one after a failed publish, past another pass, and where `created_at`
does not tell the two apart. Where none of this happens, an event is published only after the earlier
ones of its producer. A producer is any way to group events: the events of a user, or those of an item.
-/
import PlmCore.Shared.OutboxSafety

set_option autoImplicit false

namespace PlmCore.Shared

open PlmCore.Lib

variable {α β : Type} {env : Environment α} {poller : Poller} {s s' : Outbox α} {n w : Nat}
  {producer : OutboxRow → β}

/-- The event of `r` was enqueued before that of `r'`, by the same producer. -/
def Before (producer : OutboxRow → β) (r r' : OutboxRow) : Prop :=
  producer r = producer r' ∧ r.id < r'.id

/-- The known rows that come before a row of the list are done or stand before it in the list. -/
def Sorted (producer : OutboxRow → β) (rows done known : List OutboxRow) : Prop :=
  ∀ past r rest, rows = past ++ r :: rest → ∀ r' ∈ known, Before producer r' r → r' ∈ done ∨ r' ∈ past

namespace Outbox

/-- The first publications of the events of each producer are in the order in which the events were
enqueued: whenever an event is published, those before it that are ever published have been. -/
def PublishedInOrder (producer : OutboxRow → β) (s : Outbox α) : Prop :=
  ∀ past r rest, s.published = past ++ r :: rest →
    ∀ r' ∈ s.published, Before producer r' r → r' ∈ past

/-- A row is inserted in turn: no other open operation holds a row of its producer, and it is later
than those of its producer that are still in the table or that its own operation inserted. -/
def InsertsInTurn (producer : OutboxRow → β) (s : Outbox α) (n : Nat) (r : OutboxRow) : Prop :=
  (∀ m o, m ≠ n → s.operations m = some o → ∀ r' ∈ o.rows, producer r' ≠ producer r) ∧
    (∀ o, s.operations n = some o → ∀ r' ∈ o.rows, producer r' = producer r → r'.createdAt < r.createdAt) ∧
      ∀ r' ∈ s.table, producer r' = producer r → r'.createdAt < r.createdAt

/-- Nothing is overtaken: a row is inserted in turn; a pass does not read a row while another pass
holds an earlier one of its producer; and a publish fails only on the last row of its producer in the
pass. -/
def InTurn (env : Environment α) (poller : Poller) (producer : OutboxRow → β) (s : Outbox α) :
    OutboxEvent α → Prop
  | .enqueue n m now _ => ∀ r, rowOf env m s.nextId now = some r → s.InsertsInTurn producer n r
  | .enqueueOnConn n m now _ => ∀ r, rowOf env m s.nextId now = some r → s.InsertsInTurn producer n r
  | .select _ order => poller.skipsLocked = true →
    ∀ r ∈ order.take batchSize, ∀ r' ∈ s.table, r'.id ∈ s.locked → ¬ Before producer r' r
  | .publish w fails => fails = true → ∀ p row rest, s.passes w = some p → p.rest = row :: rest →
    ∀ r ∈ rest, producer r ≠ producer row
  | _ => True

/-- What a run in turn keeps. -/
structure Ordered (producer : OutboxRow → β) (s : Outbox α) : Prop where
  /-- Two open operations do not hold rows of one producer. -/
  alone : ∀ m n o o', m ≠ n → s.operations m = some o → s.operations n = some o' →
    ∀ r ∈ o.rows, ∀ r' ∈ o'.rows, producer r ≠ producer r'
  /-- A row still to be committed is the latest of its producer. -/
  latest : ∀ n o, s.operations n = some o → ∀ r ∈ o.rows, ∀ r' ∈ s.committedRows,
    ¬ Before producer r r'
  /-- `created_at` tells the rows of a producer apart. -/
  table : ∀ r ∈ s.table, ∀ r' ∈ s.table, Before producer r r' → r.createdAt < r'.createdAt
  pending : ∀ n o, s.operations n = some o → ∀ r ∈ s.table ++ o.rows, ∀ r' ∈ o.rows,
    Before producer r r' → r.createdAt < r'.createdAt
  passes : ∀ w p, s.passes w = some p → Sorted producer p.rest s.published s.committedRows
  published : Sorted producer s.published [] s.committedRows

end Outbox

/-! ## Sorted lists -/

namespace Sorted

variable {rows done known more : List OutboxRow} {row : OutboxRow}

theorem nil : Sorted producer [] done known := by
  intro past r rest h
  simp at h

theorem mono (h : Sorted producer rows done known) (hdone : ∀ r ∈ done, r ∈ more) :
    Sorted producer rows more known :=
  fun past r rest heq r' hr' hbefore => (h past r rest heq r' hr' hbefore).imp_left (hdone r')

/-- Rows become known that come before none of the list. -/
theorem learn (h : Sorted producer rows done known)
    (hmore : ∀ r ∈ rows, ∀ r' ∈ more, ¬ Before producer r' r) :
    Sorted producer rows done (known ++ more) := by
  intro past r rest heq r' hr' hbefore
  obtain hr' | hr' := List.mem_append.mp hr'
  · exact h past r rest heq r' hr' hbefore
  · exact absurd hbefore (hmore r (heq ▸ List.mem_append_right _ List.mem_cons_self) r' hr')

/-- The head is done. -/
theorem tail (h : Sorted producer (row :: rows) done known) :
    Sorted producer rows (done ++ [row]) known := by
  intro past r rest heq r' hr' hbefore
  obtain hr' | hr' := h (row :: past) r rest (heq ▸ rfl) r' hr' hbefore
  · exact .inl (List.mem_append_left _ hr')
  · obtain rfl | hr' := List.mem_cons.mp hr'
    · exact .inl (List.mem_append_right _ (List.mem_singleton_self _))
    · exact .inr hr'

/-- The head is left out, and comes before no other row. -/
theorem skip (h : Sorted producer (row :: rows) done known) (hlast : ∀ r ∈ rows, producer r ≠ producer row) :
    Sorted producer rows done known := by
  intro past r rest heq r' hr' hbefore
  obtain hr' | hr' := h (row :: past) r rest (heq ▸ rfl) r' hr' hbefore
  · exact .inl hr'
  · obtain rfl | hr' := List.mem_cons.mp hr'
    · have hr : r ∈ rows := heq ▸ List.mem_append_right _ List.mem_cons_self
      exact absurd hbefore.1.symm (hlast r hr)
    · exact .inr hr'

/-- What comes before the head is done. -/
theorem head (h : Sorted producer (row :: rows) done known) {r' : OutboxRow} (hr' : r' ∈ known)
    (hbefore : Before producer r' row) : r' ∈ done :=
  (h [] row rows rfl r' hr' hbefore).resolve_right List.not_mem_nil

/-- One row more, after all that come before it. -/
theorem concat (h : Sorted producer rows [] known)
    (hrow : ∀ r' ∈ known, Before producer r' row → r' ∈ rows) : Sorted producer (rows ++ [row]) [] known := by
  intro past r rest heq r' hr' hbefore
  obtain rfl | ⟨rest', last, rfl⟩ := List.eq_nil_or_concat' rest
  · obtain ⟨rfl, hlast⟩ := List.append_inj' heq rfl
    obtain rfl := (List.cons.inj hlast).1
    exact .inr (hrow r' hr' hbefore)
  · rw [← List.cons_append, ← List.append_assoc] at heq
    exact h past r rest' (List.append_inj' heq rfl).1 r' hr' hbefore

/-- A list in the order of `created_at`, where that tells the rows of a producer apart. -/
theorem of_pairwise {order : List OutboxRow} (hsorted : order.Pairwise (·.createdAt ≤ ·.createdAt))
    (happart : ∀ r ∈ order, ∀ r' ∈ order, Before producer r r' → r.createdAt < r'.createdAt)
    (hknown : ∀ r ∈ order.take batchSize, ∀ r' ∈ known, Before producer r' r → r' ∈ done ∨ r' ∈ order) :
    Sorted producer (order.take batchSize) done known := by
  intro past r rest heq r' hr' hbefore
  have hr : r ∈ order.take batchSize := heq ▸ List.mem_append_right _ List.mem_cons_self
  obtain hdone | horder := hknown r hr r' hr' hbefore
  · exact .inl hdone
  · have hsplit : order = past ++ r :: (rest ++ order.drop batchSize) := by
      rw [← List.cons_append, ← List.append_assoc, ← heq, List.take_append_drop]
    have hlt := happart r' horder r (List.mem_of_mem_take hr) hbefore
    rw [hsplit] at horder hsorted
    obtain hpast | hrest := List.mem_append.mp horder
    · exact .inr hpast
    · obtain rfl | hrest := List.mem_cons.mp hrest
      · exact absurd hbefore.2 (Nat.lt_irrefl _)
      · have hle := (List.pairwise_cons.mp (List.pairwise_append.mp hsorted).2.1).1 r' hrest
        exact absurd hlt (Nat.not_lt.mpr hle)

end Sorted

/-! ## The steps -/

namespace Outbox.Ordered

theorem empty : (Outbox.empty α).Ordered producer where
  alone _ _ _ _ _ ho := by cases ho
  latest _ _ ho := by cases ho
  table _ hr := by cases hr
  pending _ _ ho := by cases ho
  passes _ _ hp := by cases hp
  published := Sorted.nil

/-- The steps of a pass. -/
theorem pass (h : s.Ordered producer) (hsame : SameOperations s s') (htable : ∀ r ∈ s'.table, r ∈ s.table)
    (hmore : ∀ r ∈ s.published, r ∈ s'.published)
    (hpasses : ∀ w p, s'.passes w = some p →
      s.passes w = some p ∨ Sorted producer p.rest s'.published s.committedRows)
    (hpublished : Sorted producer s'.published [] s.committedRows) : s'.Ordered producer := by
  constructor
  · rw [hsame.operations]
    exact h.alone
  · rw [hsame.operations, hsame.committedRows]
    exact h.latest
  · exact fun r hr r' hr' => h.table r (htable r hr) r' (htable r' hr')
  · rw [hsame.operations]
    intro n o ho r hr
    refine h.pending n o ho r (List.mem_append.mpr ?_)
    exact (List.mem_append.mp hr).imp_left (htable r)
  · rw [hsame.committedRows]
    intro w p hp
    obtain hp | hp := hpasses w p hp
    · exact (h.passes w p hp).mono hmore
    · exact hp
  · rw [hsame.committedRows]
    exact hpublished

theorem endPass (h : s.Ordered producer) (p : Pass) : (s.endPass poller w p).Ordered producer := by
  refine h.pass ⟨rfl, rfl, rfl, rfl⟩ (fun _ hr => hr) (fun _ hr => hr) (fun w' p' hp' => ?_) h.published
  obtain ⟨-, hp'⟩ | ⟨-, hp'⟩ := update_eq_some hp'
  · cases hp'
  · exact .inl hp'

theorem setPass (h : s.Ordered producer) {p : Pass}
    (hp : Sorted producer p.rest s.published s.committedRows) : (s.setPass w p).Ordered producer := by
  refine h.pass ⟨rfl, rfl, rfl, rfl⟩ (fun _ hr => hr) (fun _ hr => hr) (fun w' p' hp' => ?_) h.published
  obtain ⟨-, hp'⟩ | ⟨-, hp'⟩ := update_eq_some hp'
  · exact .inr (Option.some.inj hp' ▸ hp)
  · exact .inl hp'

theorem publish (h : s.Ordered producer) {p : Pass} {row : OutboxRow} {rest : List OutboxRow}
    (hp : s.passes w = some p) (hrest : p.rest = row :: rest) {fails : Bool}
    (hlast : fails = true → ∀ r ∈ rest, producer r ≠ producer row) :
    (s.publish w p row rest fails).Ordered producer := by
  have hsorted := h.passes w p hp
  rw [hrest] at hsorted
  have hsame := sameOperations_publish w p row rest fails s
  revert hsame
  unfold Outbox.publish
  split
  · rename_i hfails
    exact fun _ => h.setPass (hsorted.skip (hlast hfails))
  · intro hsame
    refine h.pass hsame (fun _ hr => hr) (fun _ hr => List.mem_append_left _ hr) (fun w' p' hp' => ?_)
      (h.published.concat fun r' hr' hbefore => hsorted.head hr' hbefore)
    obtain ⟨-, hp'⟩ | ⟨-, hp'⟩ := update_eq_some hp'
    · obtain rfl := Option.some.inj hp'
      exact .inr hsorted.tail
    · exact .inl hp'

theorem delete (h : s.Ordered producer) {p : Pass} {row : OutboxRow} (hp : s.passes w = some p)
    (fails : Bool) : (s.delete env poller w p row fails).Ordered producer := by
  unfold Outbox.delete
  split
  · split
    · exact h.setPass (h.passes w p hp)
    · exact h.endPass p
  · split
    · exact h.setPass (h.passes w p hp)
    · have hset : (s.setPass w { p with current := none }).Ordered producer := h.setPass (h.passes w p hp)
      exact hset.pass ⟨rfl, rfl, rfl, rfl⟩ (fun _ hr => List.mem_of_mem_filter hr) (fun _ hr => hr)
        (fun _ _ hp => .inl hp) hset.published

theorem finish (h : s.Ordered producer) (p : Pass) : (s.finish poller w p).Ordered producer := by
  unfold Outbox.finish
  split
  · exact h.endPass p
  · have hend : (s.endPass poller w p).Ordered producer := h.endPass p
    exact hend.pass ⟨rfl, rfl, rfl, rfl⟩ (fun _ hr => List.mem_of_mem_filter hr) (fun _ hr => hr)
      (fun _ _ hp => .inl hp) hend.published

/-- A pass that reads no row of which another pass holds an earlier one. -/
theorem select (h : s.Ordered producer) (htraced : s.Traced) {order : List OutboxRow}
    (hfree : poller.skipsLocked = true → ∀ r ∈ order.take batchSize, ∀ r' ∈ s.table, r'.id ∈ s.locked →
      ¬ Before producer r' r) : (s.select poller w order).Ordered producer := by
  have hsame := sameOperations_select poller w order s
  revert hsame
  unfold Outbox.select
  split
  · rename_i hselect
    obtain ⟨-, hperm, hsorted⟩ := hselect
    have hin : ∀ r ∈ order, r ∈ s.table := fun r hr =>
      Traced.visible_subset (hperm.mem_iff.mp hr)
    -- what is earlier than a row of the batch was published, or is visible and so in the batch
    have hnew : Sorted producer (order.take batchSize) s.published s.committedRows := by
      refine Sorted.of_pairwise hsorted (fun r hr r' hr' => h.table r (hin r hr) r' (hin r' hr')) ?_
      intro r hr r' hr' hbefore
      obtain htable | hpublished := htraced.kept r' hr'
      · refine .inr (hperm.mem_iff.mpr ?_)
        unfold Outbox.visible
        split
        · rename_i hskips
          -- the earlier row may be locked by another pass, which `hfree` excludes
          have hunlocked : r'.id ∉ s.locked := fun hlocked =>
            hfree hskips r hr r' htable hlocked hbefore
          exact List.mem_filter.mpr ⟨htable, by simpa using hunlocked⟩
        · exact htable
      · exact .inl hpublished
    intro hsame
    refine h.pass hsame (fun _ hr => hr) (fun _ hr => hr) (fun w' p hp => ?_) h.published
    obtain ⟨-, hp⟩ | ⟨-, hp⟩ := update_eq_some hp
    · obtain rfl := Option.some.inj hp
      exact .inr hnew
    · exact .inl hp
  · exact fun _ => h

/-- An operation begins, or is rolled back. -/
theorem of_operations (h : s.Ordered producer) {o : Option (Operation α)} (ho : ∀ o', o = some o' → o'.rows = [])
    (hoperations : s'.operations = Function.update s.operations n o) (htable : s'.table = s.table)
    (hcommitted : s'.committed = s.committed) (hpasses : s'.passes = s.passes)
    (hpublished : s'.published = s.published) : s'.Ordered producer := by
  have hrows : s'.committedRows = s.committedRows := by
    rw [Outbox.committedRows, hcommitted]
    rfl
  have hcases : ∀ m p, s'.operations m = some p → p.rows = [] ∨ s.operations m = some p := by
    intro m p hp
    rw [hoperations] at hp
    obtain ⟨-, hp⟩ | ⟨-, hp⟩ := update_eq_some hp
    · exact .inl (ho p hp)
    · exact .inr hp
  -- an operation without rows has nothing to be in order with
  constructor
  · intro m m' p p' hne hp hp' r hr r' hr'
    obtain hnil | hp := hcases m p hp
    · rw [hnil] at hr
      cases hr
    · obtain hnil | hp' := hcases m' p' hp'
      · rw [hnil] at hr'
        cases hr'
      · exact h.alone m m' p p' hne hp hp' r hr r' hr'
  · rw [hrows]
    intro m p hp r hr
    obtain hnil | hp := hcases m p hp
    · rw [hnil] at hr
      cases hr
    · exact h.latest m p hp r hr
  · rw [htable]
    exact h.table
  · rw [htable]
    intro m p hp r hr r' hr'
    obtain hnil | hp := hcases m p hp
    · rw [hnil] at hr'
      cases hr'
    · exact h.pending m p hp r hr r' hr'
  · rw [hpasses, hpublished, hrows]
    exact h.passes
  · rw [hpublished, hrows]
    exact h.published

/-- A row is inserted in turn. -/
theorem setOperation (h : s.Ordered producer) (hsound : s.Sound) {o o' : Operation α}
    (ho : s.operations n = some o) (hrows : o'.rows = o.rows ∨
      ∃ r, r.id = s.nextId ∧ s.InsertsInTurn producer n r ∧ o'.rows = o.rows ++ [r]) :
    (s.setOperation n o').Ordered producer := by
  have hnew : ∀ r ∈ o'.rows, r ∈ o.rows ∨ (r.id = s.nextId ∧ s.InsertsInTurn producer n r) := by
    intro r hr
    obtain hsame | ⟨r', hid, hturn, hmore⟩ := hrows
    · exact .inl (hsame ▸ hr)
    · rw [hmore] at hr
      obtain hr | hr := List.mem_append.mp hr
      · exact .inl hr
      · exact .inr (List.mem_singleton.mp hr ▸ ⟨hid, hturn⟩)
  have hcases : ∀ m p, (s.setOperation n o').operations m = some p →
      (m = n ∧ p = o') ∨ (m ≠ n ∧ s.operations m = some p) := by
    intro m p hp
    obtain ⟨hm, hp⟩ | h := update_eq_some hp
    · exact .inl ⟨hm, (Option.some.inj hp).symm⟩
    · exact .inr h
  constructor
  -- no other operation has rows of the producer while this one inserts
  · intro m m' p p' hne hp hp' r hr r' hr'
    obtain ⟨rfl, rfl⟩ | ⟨hm, hpm⟩ := hcases m p hp
    · obtain ⟨rfl, -⟩ | ⟨hm', hp'⟩ := hcases m' p' hp'
      · exact absurd rfl hne
      · obtain hr | ⟨-, hturn⟩ := hnew r hr
        · exact h.alone m m' o p' hne ho hp' r hr r' hr'
        · exact (hturn.1 m' p' hm' hp' r' hr').symm
    · obtain ⟨rfl, rfl⟩ | ⟨hm', hp'⟩ := hcases m' p' hp'
      · obtain hr' | ⟨-, hturn⟩ := hnew r' hr'
        · exact h.alone m m' p o hne hpm ho r hr r' hr'
        · exact hturn.1 m p hm hpm r hr
      · exact h.alone m m' p p' hne hpm hp' r hr r' hr'
  -- a committed row was drawn earlier, so it is not after the new one
  · intro m p hp r hr r' hr'
    obtain ⟨rfl, rfl⟩ | ⟨-, hp⟩ := hcases m p hp
    · obtain hr | ⟨hid, -⟩ := hnew r hr
      · exact h.latest m o ho r hr r' hr'
      · rintro ⟨-, hlt⟩
        have hbounded := hsound.ids.bounded r' (List.mem_append_left _ hr')
        omega
    · exact h.latest m p hp r hr r' hr'
  · exact h.table
  -- within the operation ids grow with the order of insertion
  · intro m p hp r hr r' hr' hbefore
    obtain ⟨rfl, rfl⟩ | ⟨-, hp⟩ := hcases m p hp
    · obtain hr' | ⟨hid', hturn⟩ := hnew r' hr'
      · obtain hr | hr := List.mem_append.mp hr
        · exact h.pending m o ho r (List.mem_append_left _ hr) r' hr' hbefore
        · obtain hr | ⟨hid, -⟩ := hnew r hr
          · exact h.pending m o ho r (List.mem_append_right _ hr) r' hr' hbefore
          · have hbounded := hsound.ids.ownBounded m o ho r' hr'
            have hlt := hbefore.2
            omega
      -- the new row comes last: of the producer nothing is in the table and nothing older is pending
      · obtain hr | hr := List.mem_append.mp hr
        · exact hturn.2.2 r hr hbefore.1
        · obtain hr | ⟨hid, -⟩ := hnew r hr
          · exact hturn.2.1 o ho r hr hbefore.1
          · have hlt := hbefore.2
            omega
    · exact h.pending m p hp r hr r' hr' hbefore
  · exact h.passes
  · exact h.published

theorem commit (h : s.Ordered producer) (hsound : s.Sound) {o : Operation α}
    (ho : s.operations n = some o) : (s.commit n o).Ordered producer := by
  cases hdoomed : o.doomed with
  | true =>
    rw [Outbox.commit, hdoomed]
    exact h.of_operations (o := none) (fun o' ho => by cases ho) rfl rfl rfl rfl rfl
  | false =>
    have hrows := committedRows_commit (s := s) (n := n) hdoomed
    have hother : ∀ m p, (s.commit n o).operations m = some p → m ≠ n ∧ s.operations m = some p := by
      intro m p hp
      rw [Outbox.commit, hdoomed] at hp
      obtain ⟨-, hp⟩ | h := update_eq_some hp
      · cases hp
      · exact h
    have htable : (s.commit n o).table = s.table ++ o.rows := by
      rw [Outbox.commit, hdoomed]
      rfl
    constructor
    -- the operation that commits is gone; the others are among themselves as before
    · intro m m' p p' hne hp hp'
      exact h.alone m m' p p' hne (hother m p hp).2 (hother m' p' hp').2
    -- a row of another operation is not older than what is committed now
    · rw [hrows]
      intro m p hp r hr r' hr' hbefore
      obtain ⟨hm, hp⟩ := hother m p hp
      obtain hr' | hr' := List.mem_append.mp hr'
      · exact h.latest m p hp r hr r' hr' hbefore
      · exact h.alone m n p o hm hp ho r hr r' hr' hbefore.1
    -- the table gets the rows at its end
    · rw [htable]
      intro r hr r' hr' hbefore
      obtain hr' | hr' := List.mem_append.mp hr'
      · obtain hr | hr := List.mem_append.mp hr
        · exact h.table r hr r' hr' hbefore
        · exact absurd hbefore (h.latest n o ho r hr r' (hsound.traced.table r' hr'))
      · exact h.pending n o ho r hr r' hr' hbefore
    · rw [htable]
      intro m p hp r hr r' hr' hbefore
      obtain ⟨hm, hp⟩ := hother m p hp
      rw [List.append_assoc] at hr
      obtain hr | hr := List.mem_append.mp hr
      · exact h.pending m p hp r (List.mem_append_left _ hr) r' hr' hbefore
      · obtain hr | hr := List.mem_append.mp hr
        · exact absurd hbefore.1 (h.alone n m o p hm.symm ho hp r hr r' hr')
        · exact h.pending m p hp r (List.mem_append_right _ hr) r' hr' hbefore
    -- what passes hold and have published was committed before
    · rw [hrows]
      intro w p hp
      rw [Outbox.commit, hdoomed] at hp ⊢
      have htraced := hsound.traced.passes w p hp
      refine (h.passes w p hp).learn fun r hr r' hr' => ?_
      exact h.latest n o ho r' hr' r (htraced.batch r (htraced.rest r hr))
    · rw [hrows]
      have hpublished : (s.commit n o).published = s.published := by
        rw [Outbox.commit, hdoomed]
        rfl
      rw [hpublished]
      exact h.published.learn fun r hr r' hr' => h.latest n o ho r' hr' r (hsound.traced.published r hr)

/-- **A step in turn keeps the order.** -/
theorem step (h : s.Ordered producer) (hsound : s.Sound) {e : OutboxEvent α}
    (he : s.InTurn env poller producer e) : (s.step env poller e).Ordered producer := by
  cases e with
  | begin n =>
    simp only [Outbox.step]
    split
    · refine h.of_operations (fun o ho => ?_) rfl rfl rfl rfl rfl
      rw [← Option.some.inj ho]
    · exact h
  | enqueue n m now fails =>
    simp only [Outbox.step]
    split
    -- a row that is inserted is inserted in turn, by `he`
    · refine h.setOperation hsound ‹_› ((enqueue_rows m _ now fails _).imp_right ?_)
      rintro ⟨r, hr, hmore⟩
      exact ⟨r, rowOf_id hr, he r hr, hmore⟩
    · exact h
  | enqueueOnConn n m now fails =>
    simp only [Outbox.step]
    split
    · refine h.setOperation hsound ‹_› ((enqueueOnConn_rows m _ now fails _).imp_right ?_)
      rintro ⟨r, hr, hmore⟩
      exact ⟨r, rowOf_id hr, he r hr, hmore⟩
    · exact h
  | commit n =>
    simp only [Outbox.step]
    split
    · exact h.commit hsound ‹_›
    · exact h
  | rollback n =>
    simp only [Outbox.step]
    split
    · exact h.of_operations (o := none) (fun o' ho => by cases ho) rfl rfl rfl rfl rfl
    · exact h
  | select w order => exact h.select hsound.traced he
  | publish w fails =>
    simp only [Outbox.step]
    split
    · split
      · exact h.publish ‹_› ‹_› fun hfails => he hfails _ _ _ ‹_› ‹_›
      · exact h
    · exact h
  | delete w fails =>
    simp only [Outbox.step]
    split
    · split
      · exact h.delete ‹_› fails
      · exact h
    · exact h
  | finish w =>
    simp only [Outbox.step]
    split
    · split
      · exact h.finish _
      · exact h
    · exact h
  | restart w =>
    simp only [Outbox.step]
    split
    · exact h.endPass _
    · exact h

end Outbox.Ordered

namespace Outbox

/-- **In every run in which nothing is overtaken, the events of each producer are published first in the
order in which they were enqueued**, in every state, for each of the pollers. -/
theorem outbox_keeps_order {es : List (OutboxEvent α)}
    (h : Along (Outbox.step env poller) (InTurn env poller producer) (Outbox.empty α) es)
    {past : List (OutboxEvent α)} (hpast : past <+: es) :
    (run (Outbox.step env poller) (Outbox.empty α) past).PublishedInOrder producer := by
  obtain ⟨later, rfl⟩ := hpast
  have hstep : ∀ (s : Outbox α) (e : OutboxEvent α), s.Sound ∧ s.Ordered producer →
      s.InTurn env poller producer e →
        (s.step env poller e).Sound ∧ (s.step env poller e).Ordered producer :=
    fun s e hs he => ⟨hs.1.step e, hs.2.step hs.1 he⟩
  have hinv := Along.invariant hstep ⟨Sound.empty, Ordered.empty⟩ (Along.append.mp h).1
  intro past r rest heq r' hr' hbefore
  have hcommitted := hinv.1.traced.published r' hr'
  exact (hinv.2.published past r rest heq r' hcommitted hbefore).resolve_left List.not_mem_nil

section Runs

/-- The only open operation inserts its first row, the latest in the table. -/
theorem insertsInTurn_alone {r : OutboxRow} (hother : ∀ m ≠ n, s.operations m = none)
    (hown : ∀ o, s.operations n = some o → o.rows = []) (hlatest : ∀ r' ∈ s.table, r'.createdAt < r.createdAt) :
    s.InsertsInTurn producer n r := by
  refine ⟨fun m o hm ho => ?_, fun o ho r hr => ?_, fun r' hr' _ => hlatest r' hr'⟩
  · rw [hother m hm] at ho
    cases ho
  · rw [hown o ho] at hr
    cases hr

/-- An item is created and then deleted; the pass cannot publish the creation, publishes the deletion,
and the next pass publishes the creation. -/
def overtakenRun : List (OutboxEvent String) :=
  [.begin 0, .enqueue 0 ⟨"global.ITEM_CREATED", "item"⟩ 1 false, .commit 0,
    .begin 1, .enqueue 1 ⟨"global.ITEM_DELETED", "item"⟩ 2 false, .commit 1,
    .select 0 [⟨0, "global.ITEM_CREATED", "item", 1⟩, ⟨1, "global.ITEM_DELETED", "item", 2⟩],
    .publish 0 true, .publish 0 false, .delete 0 false, .finish 0,
    .select 0 [⟨0, "global.ITEM_CREATED", "item", 1⟩], .publish 0 false, .delete 0 false, .finish 0]

/-- The deletion is published before the creation. -/
theorem deletion_overtakes_creation : ¬ PublishedInOrder (·.payload)
    (run (Outbox.step postgres .poll) (Outbox.empty String) overtakenRun) := by
  intro h
  have hpast := h [] ⟨1, "global.ITEM_DELETED", "item", 2⟩ [⟨0, "global.ITEM_CREATED", "item", 1⟩] rfl
    ⟨0, "global.ITEM_CREATED", "item", 1⟩ (List.mem_cons_of_mem _ (List.mem_singleton_self _)) ⟨rfl, by decide⟩
  cases hpast

/-- The same, but it is the deletion that cannot be published at first. -/
def retriedDeletionRun : List (OutboxEvent String) :=
  [.begin 0, .enqueue 0 ⟨"global.ITEM_CREATED", "item"⟩ 1 false, .commit 0,
    .begin 1, .enqueue 1 ⟨"global.ITEM_DELETED", "item"⟩ 2 false, .commit 1,
    .select 0 [⟨0, "global.ITEM_CREATED", "item", 1⟩, ⟨1, "global.ITEM_DELETED", "item", 2⟩],
    .publish 0 false, .delete 0 false, .publish 0 true, .finish 0,
    .select 0 [⟨1, "global.ITEM_DELETED", "item", 2⟩], .publish 0 false, .delete 0 false, .finish 0]

theorem retried_deletion_keeps_order : PublishedInOrder (·.payload)
    (run (Outbox.step postgres .poll) (Outbox.empty String) retriedDeletionRun) := by
  suffices hturn : Along (Outbox.step postgres .poll) (InTurn postgres .poll (·.payload))
      (Outbox.empty String) retriedDeletionRun from outbox_keeps_order hturn List.prefix_rfl
  simp only [retriedDeletionRun, Along]
  refine ⟨trivial, ?_, trivial, trivial, ?_, trivial, ?_, ?_, trivial, ?_, trivial, ?_, ?_, trivial, trivial, trivial⟩
  · rintro r ⟨⟩
    refine insertsInTurn_alone (fun m hm => Function.update_of_ne hm ..) (fun o ho => ?_) fun r hr => by cases hr
    obtain rfl := Option.some.inj ho
    rfl
  · rintro r ⟨⟩
    refine insertsInTurn_alone (fun m hm => ?_) (fun o ho => ?_) fun r hr => ?_
    · -- the first operation has ended
      refine (Function.update_of_ne hm ..).trans ?_
      change Function.update (Function.update (Function.update (fun _ => none) 0 _) 0 _) 0 none m = none
      rw [Function.update_idem, Function.update_idem]
      exact congrFun (Function.update_eq_self 0 _) m
    · obtain rfl := Option.some.inj ho
      rfl
    · obtain rfl := List.mem_singleton.mp hr
      decide
  · rintro - r hr r' hr' hlocked
    cases hlocked
  · rintro ⟨⟩
  · rintro - p row rest hp hrest r hr
    obtain rfl := Option.some.inj hp
    cases hrest
    cases hr
  · rintro - r hr r' hr' hlocked
    cases hlocked
  · rintro ⟨⟩

end Runs

end Outbox

end PlmCore.Shared
