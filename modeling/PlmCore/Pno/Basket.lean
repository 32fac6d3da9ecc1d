/-
The event subscribers of the baskets, `basket.rs`.

ITEM_CREATED puts the item into the basket of its creator, ITEM_DELETED takes it out of every
basket. Each message is handled by a task of its own: an insertion is one statement, a removal
reads the affected rows and then deletes by item id.
-/
import PlmCore.Lib.Run

set_option autoImplicit false

namespace PlmCore.Pno.Basket

open PlmCore.Lib

/-- A row of `basket_item`, by its unique key. -/
structure BasketItem where
  userId : String
  psId : String
  source : String
  typeCode : String
  itemId : String
  deriving DecidableEq

/-- The two messages, with the string fields the handlers look for. -/
inductive Message
  | created (source typeCode itemId userId projectSpaceId : Option String)
  | deleted (source itemId : Option String)
  deriving DecidableEq

namespace Message

/-- The source and the id of the item a message is about. -/
def item? : Message → Option (String × String)
  | created source _ itemId _ _ | deleted source itemId =>
    source.bind fun source => itemId.map fun itemId => (source, itemId)

def isDeletion : Message → Bool
  | created .. => false
  | deleted .. => true

end Message

/-- What a task has still to do. A removal remembers the source its message named. -/
inductive Task
  | add (item : BasketItem)
  | read (itemId : String) (source : Option String)
  | delete (itemId : String) (source : Option String)
  deriving DecidableEq

/-- The table and the tasks. `published` and `removed` record the messages, and the rows deletions
took with the source of their message. -/
structure State where
  basket : List BasketItem
  tasks : List Task
  published : List Message
  removed : List (Option String × BasketItem)
  deriving DecidableEq

/-- A message is published, or the task at `i` makes its next statement. -/
inductive Event
  | publish (m : Message)
  | advance (i : Nat)
  deriving DecidableEq

/-- The task of a message; an incomplete one is skipped. -/
def handle : Message → List Task
  | .created (some source) typeCode (some itemId) userId projectSpaceId =>
    match typeCode, userId with
    | some typeCode, some userId => [.add ⟨userId, projectSpaceId.getD "", source, typeCode, itemId⟩]
    | _, _ => []
  | .created .. => []
  | .deleted source (some itemId) => [.read itemId source]
  | .deleted _ none => []

namespace State

variable (s : State)

/-- The rows of an item id. -/
def rowsOf (itemId : String) : List BasketItem := s.basket.filter (·.itemId = itemId)

/-- `add_item`, and the two statements of `remove_by_item_id`. -/
def advance (i : Nat) : State :=
  match s.tasks[i]? with
  | none => s
  | some (.add item) =>
    { s with
      tasks := s.tasks.eraseIdx i
      basket := if item ∈ s.basket then s.basket else s.basket ++ [item] }
  | some (.read itemId source) =>
    if s.rowsOf itemId = [] then { s with tasks := s.tasks.eraseIdx i }
    else { s with tasks := s.tasks.set i (.delete itemId source) }
  | some (.delete itemId source) =>
    { s with
      tasks := s.tasks.eraseIdx i
      basket := s.basket.filter (·.itemId ≠ itemId)
      removed := s.removed ++ (s.rowsOf itemId).map fun item => (source, item) }

def step : Event → State
  | .publish m => { s with tasks := s.tasks ++ handle m, published := s.published ++ [m] }
  | .advance i => s.advance i

/-- The last message about an item was its deletion. -/
def IsDeleted (source itemId : String) : Prop :=
  ∃ m, (s.published.filter (·.item? = some (source, itemId))).getLast? = some m ∧ m.isDeletion = true

/-- A removal of the item id has a statement to make. -/
def IsRemoving (itemId : String) : Prop :=
  ∃ source, .read itemId source ∈ s.tasks ∨ .delete itemId source ∈ s.tasks

/-- An item is not inserted after its deletion, unless a removal of its id is still to come. A
deletion finds only rows of the source its message named. -/
def Timely : Event → Prop
  | .publish _ => True
  | .advance i => (∀ item, s.tasks[i]? = some (.add item) → s.IsDeleted item.source item.itemId →
      s.IsRemoving item.itemId) ∧
    ∀ itemId source, s.tasks[i]? = some (.delete itemId source) →
      ∀ item ∈ s.rowsOf itemId, source = some item.source

/-- Rows of deleted items are about to go, and rows went with deletions of their own source. -/
structure Clean : Prop where
  leaving : ∀ item ∈ s.basket, s.IsDeleted item.source item.itemId → s.IsRemoving item.itemId
  own : ∀ r ∈ s.removed, r.1 = some r.2.source

end State

variable {s : State}

/-- A message that makes an item deleted has a task that removes the item id. -/
theorem isRemoving_publish {m : Message} {source itemId : String}
    (h : (s.step (.publish m)).IsDeleted source itemId) :
    s.IsDeleted source itemId ∨ (s.step (.publish m)).IsRemoving itemId := by
  obtain ⟨last, hlast, hdeletion⟩ := h
  by_cases hitem : m.item? = some (source, itemId)
  · -- the message is the last one about the item
    right
    have hpublished : ((s.published ++ [m]).filter (·.item? = some (source, itemId))).getLast? =
        some m := by
      simp [List.filter_append, hitem]
    have hm : some m = some last := hpublished.symm.trans hlast
    rw [← Option.some.inj hm] at hdeletion
    cases m with
    | created => cases hdeletion
    | deleted source' itemId' =>
      cases source' with
      | none => cases hitem
      | some source' =>
        cases itemId' with
        | none => cases hitem
        | some itemId' =>
          cases hitem
          exact ⟨_, .inl (List.mem_append_right _ (List.mem_singleton_self _))⟩
  · left
    have hpublished : (s.published ++ [m]).filter (·.item? = some (source, itemId)) =
        s.published.filter (·.item? = some (source, itemId)) := by
      simp [List.filter_append, hitem]
    exact ⟨last, by rw [← hpublished]; exact hlast, hdeletion⟩

/-- Any other task keeps its place. -/
theorem isRemoving_erase {i : Nat} {task : Task} {itemId : String} (hi : s.tasks[i]? = some task)
    (hother : ∀ source, task ≠ .read itemId source ∧ task ≠ .delete itemId source)
    (h : s.IsRemoving itemId) :
    ∃ source, .read itemId source ∈ s.tasks.eraseIdx i ∨
      .delete itemId source ∈ s.tasks.eraseIdx i := by
  have hstays : ∀ t ∈ s.tasks, task ≠ t → t ∈ s.tasks.eraseIdx i := by
    intro t ht hne
    obtain ⟨j, hj⟩ := List.mem_iff_getElem?.mp ht
    refine List.mem_eraseIdx_iff_getElem?.mpr ⟨j, ?_, hj⟩
    rintro rfl
    exact hne (Option.some.inj (hi.symm.trans hj))
  obtain ⟨source, ht | ht⟩ := h
  · exact ⟨source, .inl (hstays _ ht (hother source).1)⟩
  · exact ⟨source, .inr (hstays _ ht (hother source).2)⟩

/-- What stays when the task is erased stays when it is replaced. -/
theorem eraseIdx_subset_set {α : Type} (xs : List α) (i : Nat) (x : α) :
    xs.eraseIdx i ⊆ xs.set i x := by
  intro y hy
  obtain ⟨j, hne, hj⟩ := List.mem_eraseIdx_iff_getElem?.mp hy
  exact List.mem_of_getElem? ((List.getElem?_set_ne hne.symm).trans hj)

theorem mem_rowsOf {itemId : String} {item : BasketItem} :
    item ∈ s.rowsOf itemId ↔ item ∈ s.basket ∧ item.itemId = itemId := by
  simp [State.rowsOf]

/-- **One statement** keeps the baskets clean. -/
theorem clean_advance (h : s.Clean) {i : Nat} (he : s.Timely (.advance i)) :
    (s.advance i).Clean := by
  obtain ⟨hinsert, hdelete⟩ := he
  unfold State.advance
  cases htask : s.tasks[i]? with
  | none => exact h
  | some task =>
    cases task with
    | add item =>
      have hother : ∀ itemId source, Task.add item ≠ .read itemId source ∧
          Task.add item ≠ .delete itemId source := by simp
      refine ⟨fun item' hitem' hdeleted => ?_, h.own⟩
      refine isRemoving_erase htask (hother _) ?_
      have hcases : item' ∈ s.basket ∨ item' = item := by
        dsimp only at hitem'
        split at hitem'
        · exact .inl hitem'
        · simpa using hitem'
      obtain hold | rfl := hcases
      · exact h.leaving item' hold hdeleted
      · exact hinsert item' htask hdeleted
    | read itemId source =>
      dsimp only
      split
      · rename_i hnone
        refine ⟨fun item hitem hdeleted => isRemoving_erase htask (fun source => ?_)
          (h.leaving item hitem hdeleted), h.own⟩
        -- no row has the id the task looked for
        have hne : item.itemId ≠ itemId := by
          intro hid
          have hrow : item ∈ s.rowsOf itemId := mem_rowsOf.mpr ⟨hitem, hid⟩
          rw [hnone] at hrow
          cases hrow
        simp [hne.symm]
      · refine ⟨fun item hitem hdeleted => ?_, h.own⟩
        by_cases hid : item.itemId = itemId
        · refine ⟨source, .inr ?_⟩
          rw [hid]
          exact List.mem_set (List.getElem?_eq_some_iff.mp htask).1 _
        · obtain ⟨source', ht⟩ := isRemoving_erase htask
            (fun source => by simp [Ne.symm hid]) (h.leaving item hitem hdeleted)
          exact ⟨source', ht.imp (eraseIdx_subset_set _ _ _ ·) (eraseIdx_subset_set _ _ _ ·)⟩
    | delete itemId source =>
      constructor
      · intro item hitem hdeleted
        obtain ⟨hitem, hne⟩ := List.mem_filter.mp hitem
        have hne : item.itemId ≠ itemId := of_decide_eq_true hne
        exact isRemoving_erase htask (fun source => by simp [hne.symm])
          (h.leaving item hitem hdeleted)
      · intro r hr
        obtain hr | hr := List.mem_append.mp hr
        · exact h.own r hr
        · obtain ⟨item, hitem, rfl⟩ := List.mem_map.mp hr
          exact hdelete itemId source htask item hitem

/-- **One step** keeps the baskets clean. -/
theorem clean_step (s : State) (e : Event) (h : s.Clean) (he : s.Timely e) : (s.step e).Clean := by
  cases e with
  | advance i => exact clean_advance h he
  | publish m =>
    refine ⟨fun item hitem hdeleted => ?_, h.own⟩
    obtain hold | hnew := isRemoving_publish hdeleted
    · obtain ⟨source, ht⟩ := h.leaving item hitem hold
      exact ⟨source, ht.imp (List.mem_append_left _) (List.mem_append_left _)⟩
    · exact hnew

/-- The baskets before any message. -/
def start (basket : List BasketItem) : State := ⟨basket, [], [], []⟩

/-- **Deleted items leave the baskets.** Along a run whose statements are timely, in every state
reached: once no task is left no basket holds a deleted item, and a deletion has taken no row of
another source. -/
theorem deleted_items_leave {basket : List BasketItem} {es : List Event}
    (h : Along State.step State.Timely (start basket) es) (past : List Event) (hpast : past <+: es) :
    ((run State.step (start basket) past).tasks = [] →
      ∀ item ∈ (run State.step (start basket) past).basket,
        ¬ (run State.step (start basket) past).IsDeleted item.source item.itemId) ∧
    ∀ r ∈ (run State.step (start basket) past).removed, r.1 = some r.2.source := by
  have hstart : (start basket).Clean := by
    refine ⟨fun item _ hdeleted => ?_, by simp [start]⟩
    obtain ⟨m, hm, -⟩ := hdeleted
    cases hm
  obtain ⟨rest, rfl⟩ := hpast
  have hclean := Along.invariant clean_step hstart (Along.append.mp h).1
  refine ⟨fun hnone item hitem hdeleted => ?_, hclean.own⟩
  obtain ⟨source, ht⟩ := hclean.leaving item hitem hdeleted
  rw [hnone] at ht
  simp at ht

section Runs

def partCreated : Message :=
  .created (some "psm") (some "part") (some "42") (some "alice") (some "ps1")

def partDeleted : Message := .deleted (some "psm") (some "42")

def partItem : BasketItem := ⟨"alice", "ps1", "psm", "part", "42"⟩

def dstItem : BasketItem := ⟨"bob", "ps1", "dst", "file", "42"⟩

def partRun : List Event :=
  [.publish partCreated, .advance 0, .publish partDeleted, .advance 0, .advance 0]

/-- Both messages come before the tasks run, the removal runs first. -/
def lateInsert : List Event := [.publish partCreated, .publish partDeleted, .advance 1, .advance 0]

theorem deleted_part_leaves : partItem ∉ (run State.step (start []) partRun).basket := by
  have htimely : Along State.step State.Timely (start []) partRun := by
    refine ⟨trivial, ⟨?_, ?_⟩, trivial, ⟨?_, ?_⟩, ⟨?_, ?_⟩, trivial⟩
    · rintro item - ⟨m, hm, hdeletion⟩
      obtain ⟨hm, -⟩ := List.mem_filter.mp (List.mem_of_getLast? hm)
      cases List.mem_singleton.mp hm
      cases hdeletion
    all_goals simp [State.step, State.advance, State.rowsOf, handle, start, partCreated,
      partDeleted]
  intro hitem
  have hdeleted : (run State.step (start []) partRun).IsDeleted "psm" "42" :=
    ⟨partDeleted, by decide, rfl⟩
  exact (deleted_items_leave htimely partRun (List.prefix_refl _)).1 (by decide) partItem hitem
    hdeleted

/-- The item inserted late stays, and a deletion of a part takes an item of `dst`. -/
theorem late_insert_stays_and_other_source_goes :
    ((run State.step (start []) lateInsert).tasks = [] ∧
      ∃ item ∈ (run State.step (start []) lateInsert).basket,
        (run State.step (start []) lateInsert).IsDeleted item.source item.itemId) ∧
    (some "psm", dstItem) ∈ (run State.step (start [dstItem])
      [.publish partDeleted, .advance 0, .advance 0]).removed :=
  ⟨⟨by decide, partItem, by decide, partDeleted, by decide, rfl⟩, by decide⟩

end Runs

end PlmCore.Pno.Basket
