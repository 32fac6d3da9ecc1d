/-
What the outbox loses, and what it does not.

In every run a row that was committed is in the table until it was published, and a row of an
operation that was rolled back is never published: a pass deletes only rows it has published, and
sees only rows that were committed. That every message of a committed operation has a row, and that a
pass without a failed publish empties its batch, holds where no failure is swallowed: `enqueue`
catches an envelope that cannot be written as JSON, and both `enqueue` and `poll` catch a failed
statement, which is harmless only if the database refuses the commit then.
-/
import PlmCore.Shared.Outbox

set_option autoImplicit false

namespace PlmCore.Shared

open PlmCore.Lib

variable {α : Type} {env : Environment α} {poller : Poller} {s s' : Outbox α} {n w : Nat}

/-- What stands in a family of which one entry was replaced. -/
theorem update_eq_some {β : Type} {f : Nat → Option β} {o : Option β} {m : Nat} {b : β}
    (h : Function.update f n o m = some b) : (m = n ∧ o = some b) ∨ (m ≠ n ∧ f m = some b) := by
  by_cases hm : m = n
  · rw [hm, Function.update_self] at h
    exact .inl ⟨hm, h⟩
  · rw [Function.update_of_ne hm] at h
    exact .inr ⟨hm, h⟩

/-! ## Row ids -/

/-- A row id was drawn once, and belongs to one operation. -/
structure Outbox.Ids (s : Outbox α) : Prop where
  nodup : ((s.committedRows ++ s.discardedRows).map (·.id)).Nodup
  bounded : ∀ r ∈ s.committedRows ++ s.discardedRows, r.id < s.nextId
  ownNodup : ∀ n o, s.operations n = some o → (o.rows.map (·.id)).Nodup
  ownBounded : ∀ n o, s.operations n = some o → ∀ r ∈ o.rows, r.id < s.nextId
  fresh : ∀ n o, s.operations n = some o → ∀ r ∈ o.rows, ∀ r' ∈ s.committedRows ++ s.discardedRows,
    r.id ≠ r'.id
  apart : ∀ m n o o', m ≠ n → s.operations m = some o → s.operations n = some o' →
    ∀ r ∈ o.rows, ∀ r' ∈ o'.rows, r.id ≠ r'.id

namespace Outbox.Ids

theorem unique (h : s.Ids) {r r' : OutboxRow} (hr : r ∈ s.committedRows) (hr' : r' ∈ s.committedRows)
    (hid : r.id = r'.id) : r = r' :=
  List.inj_on_of_nodup_map h.nodup (List.mem_append_left _ hr) (List.mem_append_left _ hr') hid

/-- A row of an operation that was rolled back is not one of an operation that committed. -/
theorem not_committed (h : s.Ids) {r : OutboxRow} (hr : r ∈ s.discardedRows) : r ∉ s.committedRows := by
  intro hr'
  have hnodup := h.nodup
  rw [List.map_append] at hnodup
  exact List.disjoint_of_nodup_append hnodup (List.mem_map_of_mem hr') (List.mem_map_of_mem hr)

/-- The ids do not change with the table and the passes. -/
theorem of_same (h : s.Ids) (hoperations : s'.operations = s.operations) (hnext : s'.nextId = s.nextId)
    (hcommitted : s'.committed = s.committed) (hdiscarded : s'.discarded = s.discarded) : s'.Ids := by
  have hrows : s'.committedRows ++ s'.discardedRows = s.committedRows ++ s.discardedRows := by
    rw [Outbox.committedRows, Outbox.discardedRows, hcommitted, hdiscarded]
    rfl
  constructor
  · rw [hrows]
    exact h.nodup
  · rw [hrows, hnext]
    exact h.bounded
  · rw [hoperations]
    exact h.ownNodup
  · rw [hoperations, hnext]
    exact h.ownBounded
  · rw [hoperations, hrows]
    exact h.fresh
  · rw [hoperations]
    exact h.apart

theorem empty : (Outbox.empty α).Ids where
  nodup := List.nodup_nil
  bounded _ hr := by cases hr
  ownNodup _ _ ho := by cases ho
  ownBounded _ _ ho := by cases ho
  fresh _ _ ho := by cases ho
  apart _ _ _ _ _ ho := by cases ho

/-- An operation that inserts at most one row, under the id drawn for it. -/
theorem setOperation (h : s.Ids) {o o' : Operation α} (ho : s.operations n = some o)
    (hrows : o'.rows = o.rows ∨ ∃ r, r.id = s.nextId ∧ o'.rows = o.rows ++ [r]) :
    (s.setOperation n o').Ids := by
  -- a row of the operation was there before or has the id drawn just now
  have hnew : ∀ r ∈ o'.rows, r ∈ o.rows ∨ r.id = s.nextId := by
    intro r hr
    obtain hsame | ⟨r', hid, hmore⟩ := hrows
    · exact .inl (hsame ▸ hr)
    · rw [hmore] at hr
      obtain hr | hr := List.mem_append.mp hr
      · exact .inl hr
      · exact .inr (List.mem_singleton.mp hr ▸ hid)
  have hcases : ∀ m p, (s.setOperation n o').operations m = some p →
      (m = n ∧ p = o') ∨ (m ≠ n ∧ s.operations m = some p) := by
    intro m p hp
    obtain ⟨hm, hp⟩ | h := update_eq_some hp
    · exact .inl ⟨hm, (Option.some.inj hp).symm⟩
    · exact .inr h
  -- ids are drawn once, so no other row has it
  have hbelow : ∀ m p, s.operations m = some p → ∀ r ∈ p.rows, r.id ≠ s.nextId :=
    fun m p hp r hr => Nat.ne_of_lt (h.ownBounded m p hp r hr)
  constructor
  -- of the rows that are committed or discarded nothing changes
  · exact h.nodup
  · exact fun r hr => Nat.lt_succ_of_lt (h.bounded r hr)
  -- within one operation
  · intro m p hp
    obtain ⟨-, rfl⟩ | ⟨-, hp⟩ := hcases m p hp
    · obtain hsame | ⟨r, hid, hmore⟩ := hrows
      · rw [hsame]
        exact h.ownNodup n o ho
      · rw [hmore, List.map_append, List.nodup_append]
        refine ⟨h.ownNodup n o ho, List.nodup_singleton _, ?_⟩
        intro i hi j hj
        obtain ⟨r', hr', rfl⟩ := List.mem_map.mp hi
        have hj : j = r.id := List.mem_singleton.mp hj
        rw [hj, hid]
        exact hbelow n o ho r' hr'
    · exact h.ownNodup m p hp
  · intro m p hp r hr
    obtain ⟨-, rfl⟩ | ⟨-, hp⟩ := hcases m p hp
    · obtain hr | hid := hnew r hr
      · exact Nat.lt_succ_of_lt (h.ownBounded n o ho r hr)
      · exact hid ▸ Nat.lt_succ_self _
    · exact Nat.lt_succ_of_lt (h.ownBounded m p hp r hr)
  -- against the rows that are committed or discarded
  · intro m p hp r hr r' hr'
    obtain ⟨-, rfl⟩ | ⟨-, hp⟩ := hcases m p hp
    · obtain hr | hid := hnew r hr
      · exact h.fresh n o ho r hr r' hr'
      · rw [hid]
        exact Nat.ne_of_gt (h.bounded r' hr')
    · exact h.fresh m p hp r hr r' hr'
  -- against the rows of another operation
  · intro m m' p p' hne hp hp' r hr r' hr'
    obtain ⟨rfl, rfl⟩ | ⟨hm, hpm⟩ := hcases m p hp
    · obtain ⟨rfl, -⟩ | ⟨hm', hp'⟩ := hcases m' p' hp'
      · exact absurd rfl hne
      · obtain hr | hid := hnew r hr
        · exact h.apart m m' o p' hne ho hp' r hr r' hr'
        · rw [hid]
          exact (hbelow m' p' hp' r' hr').symm
    · obtain ⟨rfl, rfl⟩ | ⟨hm', hp'⟩ := hcases m' p' hp'
      · obtain hr' | hid := hnew r' hr'
        · exact h.apart m m' p o hne hpm ho r hr r' hr'
        · rw [hid]
          exact hbelow m p hpm r hr
      · exact h.apart m m' p p' hne hpm hp' r hr r' hr'

/-- An operation ends, and its rows are those of one that has ended. -/
theorem ended (h : s.Ids) {o : Operation α} (ho : s.operations n = some o)
    (hoperations : s'.operations = Function.update s.operations n none) (hnext : s'.nextId = s.nextId)
    (hrows : (s'.committedRows ++ s'.discardedRows).Perm
      (s.committedRows ++ s.discardedRows ++ o.rows)) : s'.Ids := by
  -- the rows of the operation change sides, and no others
  have hmem : ∀ r, r ∈ s'.committedRows ++ s'.discardedRows ↔
      r ∈ s.committedRows ++ s.discardedRows ∨ r ∈ o.rows := by
    intro r
    rw [hrows.mem_iff, List.mem_append]
  have hother : ∀ m p, s'.operations m = some p → m ≠ n ∧ s.operations m = some p := by
    intro m p hp
    rw [hoperations] at hp
    obtain ⟨-, hp⟩ | h := update_eq_some hp
    · cases hp
    · exact h
  constructor
  · rw [(hrows.map _).nodup_iff, List.map_append, List.nodup_append]
    refine ⟨h.nodup, h.ownNodup n o ho, ?_⟩
    intro i hi j hj
    obtain ⟨r, hr, rfl⟩ := List.mem_map.mp hi
    obtain ⟨r', hr', rfl⟩ := List.mem_map.mp hj
    exact (h.fresh n o ho r' hr' r hr).symm
  · intro r hr
    rw [hnext]
    obtain hr | hr := (hmem r).mp hr
    · exact h.bounded r hr
    · exact h.ownBounded n o ho r hr
  · exact fun m p hp => h.ownNodup m p (hother m p hp).2
  · intro m p hp
    rw [hnext]
    exact h.ownBounded m p (hother m p hp).2
  · intro m p hp r hr r' hr'
    obtain ⟨hm, hp⟩ := hother m p hp
    obtain hr' | hr' := (hmem r').mp hr'
    · exact h.fresh m p hp r hr r' hr'
    · exact h.apart m n p o hm hp ho r hr r' hr'
  · intro m m' p p' hne hp hp'
    exact h.apart m m' p p' hne (hother m p hp).2 (hother m' p' hp').2

end Outbox.Ids

/-! ## What the steps of an operation write -/

theorem rowOf_id {m : Message α} {id now : Nat} {r : OutboxRow} (h : rowOf env m id now = some r) :
    r.id = id := by
  obtain ⟨json, -, rfl⟩ := Option.map_eq_some_iff.mp h
  rfl

/-- `enqueue` inserts the row of the message, or no row. -/
theorem enqueue_rows (m : Message α) (id now : Nat) (fails : Bool) (o : Operation α) :
    (enqueue env m id now fails o).rows = o.rows ∨
      ∃ r, rowOf env m id now = some r ∧ (enqueue env m id now fails o).rows = o.rows ++ [r] := by
  unfold enqueue
  cases hrow : rowOf env m id now with
  | none => exact .inl rfl
  | some r =>
    dsimp only
    split
    · exact .inl rfl
    · exact .inr ⟨r, rfl, rfl⟩

theorem enqueueOnConn_rows (m : Message α) (id now : Nat) (fails : Bool) (o : Operation α) :
    (enqueueOnConn env m id now fails o).rows = o.rows ∨
      ∃ r, rowOf env m id now = some r ∧ (enqueueOnConn env m id now fails o).rows = o.rows ++ [r] := by
  unfold enqueueOnConn
  cases hrow : rowOf env m id now with
  | none => exact .inl rfl
  | some r =>
    dsimp only
    split
    · exact .inl rfl
    · exact .inr ⟨r, rfl, rfl⟩

namespace Outbox

theorem Ids.begin (h : s.Ids) :
    ({ s with operations := Function.update s.operations n (some ⟨[], [], false⟩) } : Outbox α).Ids := by
  have hcases : ∀ m p, Function.update s.operations n (some ⟨[], [], false⟩) m = some p →
      p.rows = [] ∨ s.operations m = some p := by
    intro m p hp
    obtain ⟨-, hp⟩ | ⟨-, hp⟩ := update_eq_some hp
    · exact .inl (Option.some.inj hp ▸ rfl)
    · exact .inr hp
  -- an operation that has just begun has no rows
  constructor
  · exact h.nodup
  · exact h.bounded
  · intro m p hp
    obtain hnil | hp := hcases m p hp
    · rw [hnil]
      exact List.nodup_nil
    · exact h.ownNodup m p hp
  · intro m p hp r hr
    obtain hnil | hp := hcases m p hp
    · rw [hnil] at hr
      cases hr
    · exact h.ownBounded m p hp r hr
  · intro m p hp r hr
    obtain hnil | hp := hcases m p hp
    · rw [hnil] at hr
      cases hr
    · exact h.fresh m p hp r hr
  · intro m m' p p' hne hp hp' r hr r' hr'
    obtain hnil | hp := hcases m p hp
    · rw [hnil] at hr
      cases hr
    · obtain hnil | hp' := hcases m' p' hp'
      · rw [hnil] at hr'
        cases hr'
      · exact h.apart m m' p p' hne hp hp' r hr r' hr'

theorem Ids.discard (h : s.Ids) {o : Operation α} (ho : s.operations n = some o) :
    (s.discard n o).Ids := by
  refine h.ended ho rfl rfl (List.Perm.of_eq ?_)
  change s.committed.flatMap _ ++ (s.discarded ++ [o]).flatMap _ = _
  rw [List.flatMap_append, List.flatMap_singleton, ← List.append_assoc]
  rfl

theorem committedRows_commit {o : Operation α} (hdoomed : o.doomed = false) :
    (s.commit n o).committedRows = s.committedRows ++ o.rows := by
  rw [Outbox.commit, hdoomed]
  change (s.committed ++ [o]).flatMap _ = _
  rw [List.flatMap_append, List.flatMap_singleton]
  rfl

theorem Ids.commit (h : s.Ids) {o : Operation α} (ho : s.operations n = some o) :
    (s.commit n o).Ids := by
  cases hdoomed : o.doomed with
  | true =>
    rw [Outbox.commit, hdoomed]
    exact h.discard ho
  | false =>
    refine h.ended ho ?_ ?_ ?_
    · rw [Outbox.commit, hdoomed]
      rfl
    · rw [Outbox.commit, hdoomed]
      rfl
    · have hdiscarded : (s.commit n o).discardedRows = s.discardedRows := by
        rw [Outbox.commit, hdoomed]
        rfl
      rw [committedRows_commit hdoomed, hdiscarded, List.append_assoc, List.append_assoc]
      exact List.perm_append_comm.append_left _

/-! ## The steps of a pass leave the operations alone -/

/-- The operations and their rows are as before. -/
structure SameOperations (s s' : Outbox α) : Prop where
  operations : s'.operations = s.operations
  nextId : s'.nextId = s.nextId
  committed : s'.committed = s.committed
  discarded : s'.discarded = s.discarded

theorem sameOperations_select (poller : Poller) (w : Nat) (order : List OutboxRow) (s : Outbox α) :
    SameOperations s (s.select poller w order) := by
  unfold Outbox.select
  split
  · exact ⟨rfl, rfl, rfl, rfl⟩
  · exact ⟨rfl, rfl, rfl, rfl⟩

theorem sameOperations_publish (w : Nat) (p : Pass) (row : OutboxRow) (rest : List OutboxRow)
    (fails : Bool) (s : Outbox α) : SameOperations s (s.publish w p row rest fails) := by
  unfold Outbox.publish
  split
  · exact ⟨rfl, rfl, rfl, rfl⟩
  · exact ⟨rfl, rfl, rfl, rfl⟩

theorem sameOperations_delete (env : Environment α) (poller : Poller) (w : Nat) (p : Pass)
    (row : OutboxRow) (fails : Bool) (s : Outbox α) :
    SameOperations s (s.delete env poller w p row fails) := by
  unfold Outbox.delete
  split
  · split
    · exact ⟨rfl, rfl, rfl, rfl⟩
    · exact ⟨rfl, rfl, rfl, rfl⟩
  · split
    · exact ⟨rfl, rfl, rfl, rfl⟩
    · exact ⟨rfl, rfl, rfl, rfl⟩

theorem sameOperations_finish (poller : Poller) (w : Nat) (p : Pass) (s : Outbox α) :
    SameOperations s (s.finish poller w p) := by
  unfold Outbox.finish
  split
  · exact ⟨rfl, rfl, rfl, rfl⟩
  · exact ⟨rfl, rfl, rfl, rfl⟩

theorem SameOperations.ids (h : SameOperations s s') (hids : s.Ids) : s'.Ids :=
  hids.of_same h.operations h.nextId h.committed h.discarded

theorem SameOperations.committedRows (h : SameOperations s s') : s'.committedRows = s.committedRows := by
  rw [Outbox.committedRows, h.committed]
  rfl

/-- **Every step keeps the ids apart.** -/
theorem Ids.step (h : s.Ids) (e : OutboxEvent α) : (s.step env poller e).Ids := by
  -- both ways to enqueue insert under the id drawn
  have hrows : ∀ {m : Message α} {now : Nat} {o o' : Operation α},
      (o'.rows = o.rows ∨ ∃ r, rowOf env m s.nextId now = some r ∧ o'.rows = o.rows ++ [r]) →
        o'.rows = o.rows ∨ ∃ r, r.id = s.nextId ∧ o'.rows = o.rows ++ [r] := by
    rintro m now o o' (hsame | ⟨r, hr, hmore⟩)
    · exact .inl hsame
    · exact .inr ⟨r, rowOf_id hr, hmore⟩
  cases e with
  | begin n =>
    simp only [Outbox.step]
    split
    · exact h.begin
    · exact h
  | enqueue n m now fails =>
    simp only [Outbox.step]
    split
    · exact h.setOperation ‹_› (hrows (enqueue_rows m _ now fails _))
    · exact h
  | enqueueOnConn n m now fails =>
    simp only [Outbox.step]
    split
    · exact h.setOperation ‹_› (hrows (enqueueOnConn_rows m _ now fails _))
    · exact h
  | commit n =>
    simp only [Outbox.step]
    split
    · exact h.commit ‹_›
    · exact h
  | rollback n =>
    simp only [Outbox.step]
    split
    · exact h.discard ‹_›
    · exact h
  -- passes draw no ids and move no operation
  | select w order => exact (sameOperations_select poller w order s).ids h
  | publish w fails =>
    simp only [Outbox.step]
    split
    · split
      · exact (sameOperations_publish ..).ids h
      · exact h
    · exact h
  | delete w fails =>
    simp only [Outbox.step]
    split
    · split
      · exact (sameOperations_delete ..).ids h
      · exact h
    · exact h
  | finish w =>
    simp only [Outbox.step]
    split
    · split
      · exact (sameOperations_finish ..).ids h
      · exact h
    · exact h
  | restart w =>
    simp only [Outbox.step]
    split
    · exact h.of_same rfl rfl rfl rfl
    · exact h

end Outbox

/-! ## Where the rows are -/

/-- A pass has read committed rows, and deleted rows that were published. -/
structure Pass.Traced (p : Pass) (committed published : List OutboxRow) : Prop where
  batch : ∀ r ∈ p.batch, r ∈ committed
  rest : ∀ r ∈ p.rest, r ∈ p.batch
  current : ∀ r, p.current = some r → r ∈ published
  deleted : ∀ i ∈ p.deleted, ∃ r ∈ published, r.id = i

theorem Pass.Traced.mono {p : Pass} {committed committed' published published' : List OutboxRow}
    (h : p.Traced committed published) (hcommitted : ∀ r ∈ committed, r ∈ committed')
    (hpublished : ∀ r ∈ published, r ∈ published') : p.Traced committed' published' where
  batch r hr := hcommitted r (h.batch r hr)
  rest := h.rest
  current r hr := hpublished r (h.current r hr)
  deleted i hi := by
    obtain ⟨r, hr, hid⟩ := h.deleted i hi
    exact ⟨r, hpublished r hr, hid⟩

namespace Outbox

/-- A committed row is in the table or was published, and nothing else was. -/
structure Traced (s : Outbox α) : Prop where
  table : ∀ r ∈ s.table, r ∈ s.committedRows
  kept : ∀ r ∈ s.committedRows, r ∈ s.table ∨ r ∈ s.published
  published : ∀ r ∈ s.published, r ∈ s.committedRows
  passes : ∀ w p, s.passes w = some p → p.Traced s.committedRows s.published
  finished : ∀ p ∈ s.finished, ∀ r ∈ p.batch, r ∈ s.committedRows

namespace Traced

theorem empty : (Outbox.empty α).Traced where
  table _ hr := by cases hr
  kept _ hr := by cases hr
  published _ hr := by cases hr
  passes _ _ hp := by cases hp
  finished _ hp := by cases hp

/-- An operation that does not commit changes none of this. -/
theorem of_same (h : s.Traced) (htable : s'.table = s.table) (hcommitted : s'.committed = s.committed)
    (hpublished : s'.published = s.published) (hpasses : s'.passes = s.passes)
    (hfinished : s'.finished = s.finished) : s'.Traced := by
  have hrows : s'.committedRows = s.committedRows := by
    rw [Outbox.committedRows, hcommitted]
    rfl
  constructor
  · rw [htable, hrows]
    exact h.table
  · rw [htable, hrows, hpublished]
    exact h.kept
  · rw [hrows, hpublished]
    exact h.published
  · rw [hrows, hpublished, hpasses]
    exact h.passes
  · rw [hrows, hfinished]
    exact h.finished

theorem commit (h : s.Traced) (o : Operation α) : (s.commit n o).Traced := by
  -- a commit that PostgreSQL refuses discards the rows
  cases hdoomed : o.doomed with
  | true =>
    rw [Outbox.commit, hdoomed]
    exact h.of_same rfl rfl rfl rfl rfl
  | false =>
    have hrows := committedRows_commit (s := s) (n := n) hdoomed
    have htable : (s.commit n o).table = s.table ++ o.rows := by
      rw [Outbox.commit, hdoomed]
      rfl
    have hpublished : (s.commit n o).published = s.published := by
      rw [Outbox.commit, hdoomed]
      rfl
    have hpasses : (s.commit n o).passes = s.passes := by
      rw [Outbox.commit, hdoomed]
      rfl
    have hfinished : (s.commit n o).finished = s.finished := by
      rw [Outbox.commit, hdoomed]
      rfl
    have hmore : ∀ r ∈ s.committedRows, r ∈ (s.commit n o).committedRows := by
      rw [hrows]
      exact fun r hr => List.mem_append_left _ hr
    constructor
    · rw [htable, hrows]
      intro r hr
      obtain hr | hr := List.mem_append.mp hr
      · exact List.mem_append_left _ (h.table r hr)
      · exact List.mem_append_right _ hr
    · rw [htable, hrows, hpublished]
      intro r hr
      -- the rows that are committed now are all in the table
      obtain hr | hr := List.mem_append.mp hr
      · exact (h.kept r hr).imp_left fun hr => List.mem_append_left _ hr
      · exact .inl (List.mem_append_right _ hr)
    · rw [hpublished]
      exact fun r hr => hmore r (h.published r hr)
    · rw [hpasses, hpublished]
      exact fun w p hp => (h.passes w p hp).mono hmore fun _ hr => hr
    · rw [hfinished]
      exact fun p hp r hr => hmore r (h.finished p hp r hr)

/-- A step of a pass may publish committed rows and delete published ones. -/
theorem pass (h : s.Traced) (hsame : SameOperations s s')
    (htable : ∀ r ∈ s'.table, r ∈ s.table)
    (hkept : ∀ r ∈ s.table, r ∈ s'.table ∨ r ∈ s'.published)
    (hmore : ∀ r ∈ s.published, r ∈ s'.published)
    (hpublished : ∀ r ∈ s'.published, r ∈ s.committedRows)
    (hpasses : ∀ w p, s'.passes w = some p →
      s.passes w = some p ∨ p.Traced s.committedRows s'.published)
    (hfinished : ∀ p ∈ s'.finished, p ∈ s.finished ∨ ∀ r ∈ p.batch, r ∈ s.committedRows) :
    s'.Traced := by
  constructor
  · rw [hsame.committedRows]
    exact fun r hr => h.table r (htable r hr)
  · rw [hsame.committedRows]
    intro r hr
    obtain hr | hr := h.kept r hr
    · exact hkept r hr
    · exact .inr (hmore r hr)
  · rw [hsame.committedRows]
    exact hpublished
  · rw [hsame.committedRows]
    intro w p hp
    obtain hp | hp := hpasses w p hp
    · exact (h.passes w p hp).mono (fun _ hr => hr) hmore
    · exact hp
  · rw [hsame.committedRows]
    intro p hp
    obtain hp | hp := hfinished p hp
    · exact h.finished p hp
    · exact hp

theorem visible_subset {r : OutboxRow} (hr : r ∈ s.visible poller) : r ∈ s.table := by
  unfold Outbox.visible at hr
  split at hr
  · exact List.mem_of_mem_filter hr
  · exact hr

theorem select (h : s.Traced) (order : List OutboxRow) : (s.select poller w order).Traced := by
  have hsame := sameOperations_select poller w order s
  revert hsame
  unfold Outbox.select
  split
  · rename_i hselect
    intro hsame
    refine h.pass hsame (fun _ hr => hr) (fun _ hr => .inl hr) (fun _ hr => hr) h.published ?_
      fun p hp => .inl hp
    intro w' p hp
    obtain ⟨-, hp⟩ | ⟨-, hp⟩ := update_eq_some hp
    · obtain rfl := Option.some.inj hp
      refine .inr ⟨fun r hr => ?_, fun r hr => hr, fun r hr => (by cases hr), fun i hi => by cases hi⟩
      exact h.table r (visible_subset (hselect.2.1.mem_iff.mp (List.mem_of_mem_take hr)))
    · exact .inl hp
  · exact fun _ => h

theorem endPass (h : s.Traced) (p : Pass) : (s.endPass poller w p).Traced := by
  refine h.pass ⟨rfl, rfl, rfl, rfl⟩ (fun _ hr => hr) (fun _ hr => .inl hr) (fun _ hr => hr) h.published
    ?_ fun p hp => .inl hp
  intro w' p' hp'
  obtain ⟨-, hp'⟩ | ⟨-, hp'⟩ := update_eq_some hp'
  · cases hp'
  · exact .inl hp'

theorem setPass (h : s.Traced) {p : Pass} (hp : p.Traced s.committedRows s.published) :
    (s.setPass w p).Traced := by
  refine h.pass ⟨rfl, rfl, rfl, rfl⟩ (fun _ hr => hr) (fun _ hr => .inl hr) (fun _ hr => hr) h.published
    ?_ fun p hp => .inl hp
  intro w' p' hp'
  obtain ⟨-, hp'⟩ | ⟨-, hp'⟩ := update_eq_some hp'
  · exact .inr (Option.some.inj hp' ▸ hp)
  · exact .inl hp'

theorem publish (h : s.Traced) {p : Pass} {row : OutboxRow} {rest : List OutboxRow}
    (hp : s.passes w = some p) (hrest : p.rest = row :: rest) (fails : Bool) :
    (s.publish w p row rest fails).Traced := by
  have htraced := h.passes w p hp
  have hsub : ∀ r ∈ rest, r ∈ p.batch := fun r hr =>
    htraced.rest r (hrest ▸ List.mem_cons_of_mem row hr)
  have hsame := sameOperations_publish w p row rest fails s
  revert hsame
  unfold Outbox.publish
  split
  · exact fun _ => h.setPass ⟨htraced.batch, hsub, htraced.current, htraced.deleted⟩
  · intro hsame
    have hrow : row ∈ s.committedRows :=
      htraced.batch row (htraced.rest row (hrest ▸ List.mem_cons_self))
    have hmore : ∀ r ∈ s.published, r ∈ s.published ++ [row] := fun r hr => List.mem_append_left _ hr
    refine h.pass hsame (fun _ hr => hr) (fun _ hr => .inl hr) hmore ?_ ?_ fun p hp => .inl hp
    · intro r hr
      obtain hr | hr := List.mem_append.mp hr
      · exact h.published r hr
      · exact List.mem_singleton.mp hr ▸ hrow
    · intro w' p' hp'
      obtain ⟨-, hp'⟩ | ⟨-, hp'⟩ := update_eq_some hp'
      · obtain rfl := Option.some.inj hp'
        refine .inr ⟨htraced.batch, hsub, fun r hr => ?_, (htraced.mono (fun _ hr => hr) hmore).deleted⟩
        rw [← Option.some.inj hr]
        exact List.mem_append_right _ (List.mem_singleton_self row)
      · exact .inl hp'

/-- Rows that go from the table were published. -/
theorem kept_of_filter (h : s.Traced) (hids : s.Ids) (gone : Nat → Bool)
    (hgone : ∀ i, gone i = true → ∃ r ∈ s.published, r.id = i) :
    ∀ r ∈ s.table, r ∈ s.table.filter (fun r => ¬ gone r.id) ∨ r ∈ s.published := by
  intro r hr
  by_cases hid : gone r.id = true
  · obtain ⟨r', hr', heq⟩ := hgone r.id hid
    exact .inr (hids.unique (h.published r' hr') (h.table r hr) heq ▸ hr')
  · exact .inl (List.mem_filter.mpr ⟨hr, by simpa using hid⟩)

theorem delete (h : s.Traced) (hids : s.Ids) {p : Pass} {row : OutboxRow} (hp : s.passes w = some p)
    (hcurrent : p.current = some row) (fails : Bool) : (s.delete env poller w p row fails).Traced := by
  have htraced := h.passes w p hp
  have hrow := htraced.current row hcurrent
  have hnone : ∀ r, (none : Option OutboxRow) = some r → r ∈ s.published := fun r hr => by cases hr
  unfold Outbox.delete
  split
  · split
    · exact h.setPass ⟨htraced.batch, htraced.rest, hnone, htraced.deleted⟩
    · exact h.endPass p
  · split
    · refine h.setPass ⟨htraced.batch, htraced.rest, hnone, fun i hi => ?_⟩
      obtain hi | hi := List.mem_append.mp hi
      · exact htraced.deleted i hi
      · exact ⟨row, hrow, (List.mem_singleton.mp hi).symm⟩
    · -- the row is deleted at once
      have hset : (s.setPass w { p with current := none }).Traced :=
        h.setPass ⟨htraced.batch, htraced.rest, hnone, htraced.deleted⟩
      refine hset.pass ⟨rfl, rfl, rfl, rfl⟩ (fun _ hr => List.mem_of_mem_filter hr) ?_ (fun _ hr => hr)
        hset.published (fun _ _ hp => .inl hp) fun _ hp => .inl hp
      have hkept := h.kept_of_filter hids (fun i => i = row.id) fun i hi =>
        ⟨row, hrow, (of_decide_eq_true hi).symm⟩
      simpa [Outbox.setPass] using hkept

theorem finish (h : s.Traced) (hids : s.Ids) {p : Pass} (hp : s.passes w = some p) :
    (s.finish poller w p).Traced := by
  have htraced := h.passes w p hp
  unfold Outbox.finish
  split
  · exact h.endPass p
  · have hend : (s.endPass poller w p).Traced := h.endPass p
    refine hend.pass ⟨rfl, rfl, rfl, rfl⟩ (fun _ hr => List.mem_of_mem_filter hr) ?_ (fun _ hr => hr) h.published (fun _ _ hp => .inl hp) ?_
    · have hkept := h.kept_of_filter hids (fun i => i ∈ p.deleted) fun i hi =>
        htraced.deleted i (of_decide_eq_true hi)
      simpa [Outbox.endPass] using hkept
    · intro p' hp'
      obtain hp' | hp' := List.mem_append.mp hp'
      · exact .inl hp'
      · exact .inr (List.mem_singleton.mp hp' ▸ htraced.batch)

/-- **Every step keeps the committed rows in the table until they are published.** -/
theorem step (h : s.Traced) (hids : s.Ids) (e : OutboxEvent α) : (s.step env poller e).Traced := by
  cases e with
  | begin n =>
    -- what an operation does before its commit is not seen by passes
    simp only [Outbox.step]
    split
    · exact h.of_same rfl rfl rfl rfl rfl
    · exact h
  | enqueue n m now fails =>
    simp only [Outbox.step]
    split
    · exact h.of_same rfl rfl rfl rfl rfl
    · exact h
  | enqueueOnConn n m now fails =>
    simp only [Outbox.step]
    split
    · exact h.of_same rfl rfl rfl rfl rfl
    · exact h
  | commit n =>
    simp only [Outbox.step]
    split
    · exact h.commit _
    · exact h
  | rollback n =>
    simp only [Outbox.step]
    split
    · exact h.of_same rfl rfl rfl rfl rfl
    · exact h
  | select w order => exact h.select order
  | publish w fails =>
    simp only [Outbox.step]
    split
    · split
      · exact h.publish ‹_› ‹_› fails
      · exact h
    · exact h
  | delete w fails =>
    simp only [Outbox.step]
    split
    · split
      -- what is deleted was published in this pass: by its id it is the row itself
      · exact h.delete hids ‹_› ‹_› fails
      · exact h
    · exact h
  | finish w =>
    simp only [Outbox.step]
    split
    · split
      · exact h.finish hids ‹_›
      · exact h
    · exact h
  | restart w =>
    simp only [Outbox.step]
    split
    · exact h.endPass _
    · exact h

end Traced

/-- The two together hold in every state. -/
structure Sound (s : Outbox α) : Prop where
  ids : s.Ids
  traced : s.Traced

theorem Sound.empty : (Outbox.empty α).Sound := ⟨.empty, .empty⟩

theorem Sound.step (h : s.Sound) (e : OutboxEvent α) : (s.step env poller e).Sound :=
  ⟨h.ids.step e, h.traced.step h.ids e⟩

end Outbox

/-! ## What is lost -/

/-- The row is the message's. -/
def Stores (env : Environment α) (m : Message α) (r : OutboxRow) : Prop :=
  r.destination = m.destination ∧ env.writeValueAsString m.payload r.id = some r.payload

theorem stores_of_rowOf {m : Message α} {id now : Nat} {r : OutboxRow} (h : rowOf env m id now = some r) :
    Stores env m r := by
  obtain ⟨json, hjson, rfl⟩ := Option.map_eq_some_iff.mp h
  exact ⟨rfl, hjson⟩

namespace Outbox

/-- Nothing was lost so far: an operation that committed has a row for each message it enqueued; its
rows are in the table until they are published; no row of an operation that was rolled back was
published; and a pass whose publishes all succeeded has emptied its batch. -/
structure LosesNothing (env : Environment α) (s : Outbox α) : Prop where
  stored : ∀ o ∈ s.committed, List.Forall₂ (Stores env) o.enqueued o.rows
  kept : ∀ o ∈ s.committed, ∀ r ∈ o.rows, r ∈ s.table ∨ r ∈ s.published
  discarded : ∀ o ∈ s.discarded, ∀ r ∈ o.rows, r ∉ s.published
  emptied : ∀ p ∈ s.finished, p.clean = true → ∀ r ∈ p.batch, r ∉ s.table

/-- No failure is swallowed: an envelope given to `enqueue` can be written as JSON, and a failed
statement whose exception is caught makes the database refuse the commit. -/
def Loud (env : Environment α) (poller : Poller) (s : Outbox α) : OutboxEvent α → Prop
  | .enqueue _ m _ fails =>
    (env.writeValueAsString m.payload s.nextId).isSome ∧ (fails = true → env.abortsOnError = true)
  | .delete _ fails => fails = true → poller.catchesDelete = true → env.abortsOnError = true
  | _ => True

/-- What a run without swallowed failures keeps. -/
structure Whole (env : Environment α) (s : Outbox α) : Prop where
  own : ∀ n o, s.operations n = some o → o.doomed = false → List.Forall₂ (Stores env) o.enqueued o.rows
  stored : ∀ o ∈ s.committed, List.Forall₂ (Stores env) o.enqueued o.rows
  handled : ∀ w p, s.passes w = some p → p.aborted = false → p.clean = true →
    ∀ r ∈ p.batch, r ∈ p.rest ∨ p.current = some r ∨ r.id ∈ p.deleted ∨ r ∉ s.table
  emptied : ∀ p ∈ s.finished, p.clean = true → ∀ r ∈ p.batch, r ∉ s.table

namespace Whole

theorem empty : (Outbox.empty α).Whole env where
  own _ _ ho := by cases ho
  stored _ ho := by cases ho
  handled _ _ hp := by cases hp
  emptied _ hp := by cases hp

/-- A message more, and its row. -/
theorem forall₂_concat {ms : List (Message α)} {rs : List OutboxRow} {m : Message α} {r : OutboxRow}
    (h : List.Forall₂ (Stores env) ms rs) (hr : Stores env m r) :
    List.Forall₂ (Stores env) (ms ++ [m]) (rs ++ [r]) :=
  List.rel_append h (.cons hr .nil)

/-- `enqueue` stores the message, or the operation can only be rolled back. -/
theorem enqueue_stores {m : Message α} {id now : Nat} {fails : Bool} {o : Operation α}
    (hjson : (env.writeValueAsString m.payload id).isSome) (hfails : fails = true → env.abortsOnError = true)
    (hdoomed : (Shared.enqueue env m id now fails o).doomed = false)
    (h : o.doomed = false → List.Forall₂ (Stores env) o.enqueued o.rows) :
    List.Forall₂ (Stores env) (Shared.enqueue env m id now fails o).enqueued
      (Shared.enqueue env m id now fails o).rows := by
  unfold Shared.enqueue at hdoomed ⊢
  cases hrow : rowOf env m id now with
  | none =>
    rw [rowOf, Option.map_eq_none_iff] at hrow
    rw [hrow] at hjson
    cases hjson
  | some r =>
    rw [hrow] at hdoomed
    dsimp only at hdoomed ⊢
    by_cases hfailed : (o.doomed || fails) = true
    · -- the failed statement dooms the operation
      rw [if_pos hfailed, Bool.or_eq_false_iff] at hdoomed
      rw [hdoomed.1, Bool.false_or] at hfailed
      rw [hfails hfailed] at hdoomed
      exact absurd hdoomed.2 (by decide)
    · rw [if_neg hfailed] at hdoomed ⊢
      exact forall₂_concat (h hdoomed) (stores_of_rowOf hrow)

/-- `enqueueOnConn` stores the message, or the operation can only be rolled back. -/
theorem enqueueOnConn_stores {m : Message α} {id now : Nat} {fails : Bool} {o : Operation α}
    (hdoomed : (Shared.enqueueOnConn env m id now fails o).doomed = false)
    (h : o.doomed = false → List.Forall₂ (Stores env) o.enqueued o.rows) :
    List.Forall₂ (Stores env) (Shared.enqueueOnConn env m id now fails o).enqueued
      (Shared.enqueueOnConn env m id now fails o).rows := by
  unfold Shared.enqueueOnConn at hdoomed ⊢
  cases hrow : rowOf env m id now with
  | none =>
    rw [hrow] at hdoomed
    cases hdoomed
  | some r =>
    rw [hrow] at hdoomed
    dsimp only at hdoomed ⊢
    by_cases hfailed : (o.doomed || fails) = true
    · rw [if_pos hfailed] at hdoomed
      cases hdoomed
    · rw [if_neg hfailed] at hdoomed ⊢
      exact forall₂_concat (h hdoomed) (stores_of_rowOf hrow)

/-- The steps of operations that do not end in a commit. -/
theorem operation (h : s.Whole env) {o : Option (Operation α)}
    (hown : ∀ o', o = some o' → o'.doomed = false → List.Forall₂ (Stores env) o'.enqueued o'.rows)
    (hoperations : s'.operations = Function.update s.operations n o) (htable : s'.table = s.table)
    (hcommitted : s'.committed = s.committed) (hpasses : s'.passes = s.passes)
    (hfinished : s'.finished = s.finished) : s'.Whole env := by
  constructor
  · intro m p hp hdoomed
    rw [hoperations] at hp
    obtain ⟨-, hp⟩ | ⟨-, hp⟩ := update_eq_some hp
    · exact hown p hp hdoomed
    · exact h.own m p hp hdoomed
  · rw [hcommitted]
    exact h.stored
  · rw [hpasses, htable]
    exact h.handled
  · rw [hfinished, htable]
    exact h.emptied

theorem discard (h : s.Whole env) (o : Operation α) : (s.discard n o).Whole env :=
  h.operation (o := none) (fun o' ho => by cases ho) rfl rfl rfl rfl rfl

theorem commit (h : s.Whole env) (hsound : s.Sound) {o : Operation α} (ho : s.operations n = some o) :
    (s.commit n o).Whole env := by
  cases hdoomed : o.doomed with
  | true =>
    rw [Outbox.commit, hdoomed]
    exact h.discard o
  | false =>
    rw [Outbox.commit, hdoomed]
    -- a row that has left the table does not come back
    have hgone : ∀ r ∈ s.committedRows, r ∉ s.table → r ∉ s.table ++ o.rows := by
      intro r hr hout hin
      obtain hin | hin := List.mem_append.mp hin
      · exact hout hin
      · exact hsound.ids.fresh n o ho r hin r (List.mem_append_left _ hr) rfl
    constructor
    · intro m p hp
      obtain ⟨-, hp⟩ | ⟨-, hp⟩ := update_eq_some hp
      · cases hp
      · exact h.own m p hp
    · intro p hp
      obtain hp | hp := List.mem_append.mp hp
      · exact h.stored p hp
      · rw [List.mem_singleton.mp hp]
        exact h.own n o ho hdoomed
    · intro w p hp haborted hclean r hr
      have hcommitted := (hsound.traced.passes w p hp).batch r hr
      obtain hr | hr | hr | hr := h.handled w p hp haborted hclean r hr
      · exact .inl hr
      · exact .inr (.inl hr)
      · exact .inr (.inr (.inl hr))
      · exact .inr (.inr (.inr (hgone r hcommitted hr)))
    · intro p hp hclean r hr
      exact hgone r (hsound.traced.finished p hp r hr) (h.emptied p hp hclean r hr)

/-- The steps of a pass. -/
theorem pass (h : s.Whole env) (hsame : SameOperations s s') (htable : ∀ r ∈ s'.table, r ∈ s.table)
    (hpasses : ∀ w p, s'.passes w = some p → s.passes w = some p ∨
      (p.aborted = false → p.clean = true →
        ∀ r ∈ p.batch, r ∈ p.rest ∨ p.current = some r ∨ r.id ∈ p.deleted ∨ r ∉ s'.table))
    (hfinished : ∀ p ∈ s'.finished, p ∈ s.finished ∨ (p.clean = true → ∀ r ∈ p.batch, r ∉ s'.table)) :
    s'.Whole env := by
  constructor
  · rw [hsame.operations]
    exact h.own
  · rw [hsame.committed]
    exact h.stored
  · intro w p hp haborted hclean r hr
    obtain hp | hp := hpasses w p hp
    · refine (h.handled w p hp haborted hclean r hr).imp_right fun hr => hr.imp_right fun hr =>
        hr.imp_right fun hr hin => hr (htable r hin)
    · exact hp haborted hclean r hr
  · intro p hp hclean r hr
    obtain hp | hp := hfinished p hp
    · exact fun hin => h.emptied p hp hclean r hr (htable r hin)
    · exact hp hclean r hr

theorem select (h : s.Whole env) (order : List OutboxRow) : (s.select poller w order).Whole env := by
  have hsame := sameOperations_select poller w order s
  revert hsame
  unfold Outbox.select
  split
  · intro hsame
    refine h.pass hsame (fun _ hr => hr) (fun w' p hp => ?_) fun _ hp => .inl hp
    obtain ⟨-, hp⟩ | ⟨-, hp⟩ := update_eq_some hp
    · obtain rfl := Option.some.inj hp
      exact .inr fun _ _ r hr => .inl hr
    · exact .inl hp
  · exact fun _ => h

theorem endPass (h : s.Whole env) (p : Pass) : (s.endPass poller w p).Whole env := by
  refine h.pass ⟨rfl, rfl, rfl, rfl⟩ (fun _ hr => hr) (fun w' p' hp' => ?_) fun _ hp => .inl hp
  obtain ⟨-, hp'⟩ | ⟨-, hp'⟩ := update_eq_some hp'
  · cases hp'
  · exact .inl hp'

theorem setPass (h : s.Whole env) {p : Pass}
    (hp : p.aborted = false → p.clean = true →
      ∀ r ∈ p.batch, r ∈ p.rest ∨ p.current = some r ∨ r.id ∈ p.deleted ∨ r ∉ s.table) :
    (s.setPass w p).Whole env := by
  refine h.pass ⟨rfl, rfl, rfl, rfl⟩ (fun _ hr => hr) (fun w' p' hp' => ?_) fun _ hp => .inl hp
  obtain ⟨-, hp'⟩ | ⟨-, hp'⟩ := update_eq_some hp'
  · exact .inr (Option.some.inj hp' ▸ hp)
  · exact .inl hp'

theorem publish (h : s.Whole env) {p : Pass} {row : OutboxRow} {rest : List OutboxRow}
    (hp : s.passes w = some p) (hrest : p.rest = row :: rest) (hcurrent : p.current = none)
    (fails : Bool) : (s.publish w p row rest fails).Whole env := by
  have hsame := sameOperations_publish w p row rest fails s
  revert hsame
  unfold Outbox.publish
  split
  · exact fun _ => h.setPass fun _ hclean => by cases hclean
  · intro hsame
    refine h.pass hsame (fun _ hr => hr) (fun w' p' hp' => ?_) fun _ hp => .inl hp
    obtain ⟨-, hp'⟩ | ⟨-, hp'⟩ := update_eq_some hp'
    · obtain rfl := Option.some.inj hp'
      refine .inr fun haborted hclean r hr => ?_
      have hhandled := h.handled w p hp haborted hclean r hr
      rw [hrest, hcurrent] at hhandled
      obtain hr | hr | hr := hhandled
      · obtain hrow | hr := List.mem_cons.mp hr
        · exact .inr (.inl (congrArg some hrow.symm))
        · exact .inl hr
      · cases hr
      · exact .inr (.inr hr)
    · exact .inl hp'

theorem delete (h : s.Whole env) {p : Pass} {row : OutboxRow} (hp : s.passes w = some p)
    (hcurrent : p.current = some row) {fails : Bool}
    (hfails : fails = true → poller.catchesDelete = true → env.abortsOnError = true) :
    (s.delete env poller w p row fails).Whole env := by
  -- the row at hand is the only one of the batch that is neither left nor deleted
  have hhandled : p.aborted = false → p.clean = true → ∀ r ∈ p.batch,
      r ∈ p.rest ∨ r = row ∨ r.id ∈ p.deleted ∨ r ∉ s.table := by
    intro haborted hclean r hr
    have hr := h.handled w p hp haborted hclean r hr
    rw [hcurrent] at hr
    exact hr.imp_right fun hr => hr.imp_left fun hr => (Option.some.inj hr).symm
  unfold Outbox.delete
  -- the DELETE fails: `poll` goes on with the next row, the others end the pass
  by_cases hfailed : (p.aborted || fails) = true
  · rw [if_pos hfailed]
    by_cases hcatches : poller.catchesDelete = true
    · rw [if_pos hcatches]
      refine h.setPass fun haborted _ => ?_
      rw [Bool.or_eq_false_iff] at haborted
      rw [haborted.1, Bool.false_or] at hfailed
      rw [hfails hfailed hcatches] at haborted
      exact absurd haborted.2 (by decide)
    · rw [if_neg hcatches]
      exact h.endPass p
  · rw [if_neg hfailed]
    -- within a transaction the row goes with the commit of the pass, else at once
    by_cases htransactional : poller.transactional = true
    · rw [if_pos htransactional]
      refine h.setPass fun haborted hclean r hr => ?_
      obtain hr | rfl | hr | hr := hhandled haborted hclean r hr
      · exact .inl hr
      · exact .inr (.inr (.inl (List.mem_append_right _ (List.mem_singleton_self _))))
      · exact .inr (.inr (.inl (List.mem_append_left _ hr)))
      · exact .inr (.inr (.inr hr))
    · rw [if_neg htransactional]
      refine h.pass ⟨rfl, rfl, rfl, rfl⟩ (fun _ hr => List.mem_of_mem_filter hr) (fun w' p' hp' => ?_)
        fun _ hp => .inl hp
      obtain ⟨-, hp'⟩ | ⟨-, hp'⟩ := update_eq_some hp'
      · obtain rfl := Option.some.inj hp'
        refine .inr fun haborted hclean r hr => ?_
        obtain hr | rfl | hr | hr := hhandled haborted hclean r hr
        · exact .inl hr
        · exact .inr (.inr (.inr fun hin => by simpa using (List.mem_filter.mp hin).2))
        · exact .inr (.inr (.inl hr))
        · exact .inr (.inr (.inr fun hin => hr (List.mem_of_mem_filter hin)))
      · exact .inl hp'

theorem finish (h : s.Whole env) {p : Pass} (hp : s.passes w = some p) (hcurrent : p.current = none)
    (hrest : p.rest = []) : (s.finish poller w p).Whole env := by
  unfold Outbox.finish
  by_cases haborted : p.aborted = true
  · rw [if_pos haborted]
    exact h.endPass p
  · rw [if_neg haborted]
    have hend : (s.endPass poller w p).Whole env := h.endPass p
    refine hend.pass ⟨rfl, rfl, rfl, rfl⟩ (fun _ hr => List.mem_of_mem_filter hr) (fun _ _ hp => .inl hp) fun p' hp' => ?_
    obtain hp' | hp' := List.mem_append.mp hp'
    · exact .inl hp'
    · obtain rfl := List.mem_singleton.mp hp'
      -- at the end of a clean pass nothing of its batch is left in the table
      refine .inr fun hclean r hr hin => ?_
      obtain ⟨hin, hkept⟩ := List.mem_filter.mp hin
      have hhandled := h.handled w p' hp (by simpa using haborted) hclean r hr
      rw [hrest, hcurrent] at hhandled
      obtain hr | hr | hr | hr := hhandled
      · cases hr
      · cases hr
      · simp [hr] at hkept
      · exact hr hin

/-- **A step whose failures are not swallowed keeps every message.** -/
theorem step (h : s.Whole env) (hsound : s.Sound) {e : OutboxEvent α} (he : s.Loud env poller e) :
    (s.step env poller e).Whole env := by
  cases e with
  | begin n =>
    simp only [Outbox.step]
    split
    · refine h.operation (fun o ho _ => ?_) rfl rfl rfl rfl rfl
      obtain rfl := Option.some.inj ho
      exact .nil
    · exact h
  | enqueue n m now fails =>
    simp only [Outbox.step]
    split
    -- the row is stored, or the operation is doomed
    · refine h.operation (fun o' ho' hdoomed => ?_) rfl rfl rfl rfl rfl
      obtain rfl := Option.some.inj ho'
      exact enqueue_stores he.1 he.2 hdoomed (h.own n _ ‹_›)
    · exact h
  | enqueueOnConn n m now fails =>
    simp only [Outbox.step]
    split
    · refine h.operation (fun o' ho' hdoomed => ?_) rfl rfl rfl rfl rfl
      obtain rfl := Option.some.inj ho'
      exact enqueueOnConn_stores hdoomed (h.own n _ ‹_›)
    · exact h
  | commit n =>
    simp only [Outbox.step]
    split
    · exact h.commit hsound ‹_›
    · exact h
  | rollback n =>
    simp only [Outbox.step]
    split
    · exact h.discard _
    · exact h
  | select w order => exact h.select order
  | publish w fails =>
    simp only [Outbox.step]
    split
    · split
      · exact h.publish ‹_› ‹_› ‹_› fails
      · exact h
    · exact h
  | delete w fails =>
    simp only [Outbox.step]
    split
    · split
      -- a DELETE that fails is not swallowed, by `he`
      · exact h.delete ‹_› ‹_› he
      · exact h
    · exact h
  | finish w =>
    simp only [Outbox.step]
    split
    · split
      · exact h.finish ‹_› ‹_› ‹_›
      · exact h
    · exact h
  | restart w =>
    simp only [Outbox.step]
    split
    · exact h.endPass _
    · exact h

end Whole

/-- What is kept of the rows of ended operations, in every state. -/
theorem losesNothing (hsound : s.Sound) (hwhole : s.Whole env) : s.LosesNothing env where
  stored := hwhole.stored
  kept o ho r hr := hsound.traced.kept r (List.mem_flatMap.mpr ⟨o, ho, hr⟩)
  discarded o ho r hr hpublished :=
    hsound.ids.not_committed (List.mem_flatMap.mpr ⟨o, ho, hr⟩) (hsound.traced.published r hpublished)
  emptied := hwhole.emptied

/-- **In every run in which no failure is swallowed, the outbox loses nothing**, in every state, for
each of the pollers. -/
theorem outbox_loses_nothing {es : List (OutboxEvent α)}
    (h : Along (Outbox.step env poller) (Loud env poller) (Outbox.empty α) es)
    {past : List (OutboxEvent α)} (hpast : past <+: es) :
    (run (Outbox.step env poller) (Outbox.empty α) past).LosesNothing env := by
  obtain ⟨later, rfl⟩ := hpast
  have hstep : ∀ (s : Outbox α) (e : OutboxEvent α), s.Sound ∧ s.Whole env → s.Loud env poller e →
      (s.step env poller e).Sound ∧ (s.step env poller e).Whole env :=
    fun s e hs he => ⟨hs.1.step e, hs.2.step hs.1 he⟩
  have hinv := Along.invariant hstep ⟨Sound.empty, Whole.empty⟩ (Along.append.mp h).1
  exact losesNothing hinv.1 hinv.2

section Runs

/-- Payloads that are JSON text, on PostgreSQL. -/
def postgres : Environment String := ⟨fun json _ => some json, true⟩

/-- The same on H2, the datasource of `application.properties`. -/
def h2 : Environment String := ⟨fun json _ => some json, false⟩

/-- An operation enqueues an event; the first pass cannot publish it, the second can. -/
def retriedRun : List (OutboxEvent String) :=
  [.begin 0, .enqueue 0 ⟨"global.SIGNED", "\x7b\x7d"⟩ 5 false, .commit 0,
    .select 0 [⟨0, "global.SIGNED", "\x7b\x7d", 5⟩], .publish 0 true, .finish 0,
    .select 1 [⟨0, "global.SIGNED", "\x7b\x7d", 5⟩], .publish 1 false, .delete 1 false, .finish 1]

/-- The retried event is not lost. -/
theorem retried_run_loses_nothing : LosesNothing postgres
    (run (Outbox.step postgres .poll) (Outbox.empty String) retriedRun) := by
  have hloud : Along (Outbox.step postgres .poll) (Loud postgres .poll) (Outbox.empty String) retriedRun := by
    simp [retriedRun, Along, Loud, postgres]
  exact outbox_loses_nothing hloud List.prefix_rfl

/-- On H2 the INSERT of an event fails; `enqueue` logs that, and the operation commits without the
event. -/
theorem swallowed_insert_loses_event : ¬ LosesNothing h2
    (run (Outbox.step h2 .poll) (Outbox.empty String)
      [.begin 0, .enqueue 0 ⟨"global.SIGNED", "\x7b\x7d"⟩ 5 true, .commit 0]) := by
  intro h
  have hstored := h.stored ⟨[⟨"global.SIGNED", "\x7b\x7d"⟩], [], false⟩ (List.mem_singleton_self _)
  cases hstored

end Runs

end Outbox

end PlmCore.Shared
