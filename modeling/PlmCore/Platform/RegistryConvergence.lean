/-
Convergence of the environment registry.

As long as no snapshot is begun between a change and its revision, and nothing changes while one
is being read, a snapshot of the present revision shows the instances as they are. The local
mirror is at the present revision, or a task of the server brings a snapshot of it; a consumer is,
or is owed one: by a notification, by a pull under way, by a task that will publish.
-/
import PlmCore.Platform.Registry

set_option autoImplicit false

namespace PlmCore.Platform.Environment

open PlmCore.Lib

/-! ## Entries -/

section Entries

variable {β : Type}

theorem entryAt_cons (k k' : Key) (b : β) (entries : List (Key × β)) :
    entryAt ((k', b) :: entries) k = if k' = k then some b else entryAt entries k := by
  unfold entryAt
  by_cases h : k' = k
  · simp [h]
  · simp [h]

theorem entryAt_remove (entries : List (Key × β)) (k k' : Key) :
    entryAt (remove entries k) k' = if k' = k then none else entryAt entries k' := by
  induction entries with
  | nil => simp [remove, entryAt]
  | cons e entries ih =>
    obtain ⟨ke, b⟩ := e
    by_cases he : ke = k
    · have hskip : remove ((ke, b) :: entries) k = remove entries k := by simp [remove, he]
      rw [hskip, ih, entryAt_cons]
      by_cases hk : k' = k
      · rw [if_pos hk, if_pos hk]
      · rw [if_neg hk, if_neg hk, if_neg (by rw [he]; exact Ne.symm hk)]
    · have hkeep : remove ((ke, b) :: entries) k = (ke, b) :: remove entries k := by
        simp [remove, he]
      rw [hkeep, entryAt_cons, entryAt_cons, ih]
      by_cases hk : k' = k
      · rw [if_pos hk, if_pos hk, if_neg (by rw [hk]; exact he)]
      · rw [if_neg hk, if_neg hk]

theorem entryAt_append (entries entries' : List (Key × β)) (k : Key) :
    entryAt (entries ++ entries') k = (entryAt entries k).or (entryAt entries' k) := by
  unfold entryAt
  rw [List.find?_append]
  cases entries.find? fun e => e.1 = k <;> rfl

theorem entryAt_insert (entries : List (Key × β)) (k k' : Key) (b : β) :
    entryAt (insert entries k b) k' = if k' = k then some b else entryAt entries k' := by
  rw [insert, entryAt_append, entryAt_remove, entryAt_cons]
  by_cases hk : k' = k
  · rw [if_pos hk, if_pos hk, if_pos hk.symm]
    rfl
  · rw [if_neg hk, if_neg hk, if_neg (Ne.symm hk)]
    cases entryAt entries k' <;> rfl

theorem mem_of_entryAt {entries : List (Key × β)} {k : Key} (h : entryAt entries k ≠ none) :
    k ∈ entries.map (·.1) := by
  obtain ⟨b, hb⟩ := Option.ne_none_iff_exists'.mp h
  obtain ⟨e, he, -⟩ := Option.map_eq_some_iff.mp hb
  have hkey := List.find?_some he
  exact List.mem_map.mpr ⟨e, List.mem_of_find?_eq_some he, by simpa using hkey⟩

end Entries

theorem shown_ne_none {entries : List (Key × Registration)} {k : Key} :
    shown entries k ≠ none ↔ entryAt entries k ≠ none := by simp [shown]

theorem differ_eq_false_iff {entries entries' : List (Key × Registration)} :
    differ entries entries' = false ↔ ∀ k, shown entries' k = shown entries k := by
  unfold differ
  rw [List.any_eq_false]
  constructor
  · intro h k
    by_cases hk : k ∈ (entries ++ entries').map (·.1)
    · obtain ⟨e, he, rfl⟩ := List.mem_map.mp hk
      have := h e he
      simpa using Eq.symm (by simpa using this)
    · -- the key is in neither list
      have hnone : ∀ l : List (Key × Registration), k ∉ l.map (·.1) → shown l k = none := by
        intro l hl
        by_contra hne
        exact hl (mem_of_entryAt (shown_ne_none.mp hne))
      rw [List.map_append, List.mem_append, not_or] at hk
      rw [hnone _ hk.1, hnone _ hk.2]
  · intro h e _
    simp [h e.1]

theorem shown_insert (entries : List (Key × Registration)) (k k' : Key) (r : Registration) :
    shown (insert entries k r) k' = if k' = k then some r.info else shown entries k' := by
  rw [shown, entryAt_insert]
  by_cases hk : k' = k
  · rw [if_pos hk, if_pos hk]
    rfl
  · rw [if_neg hk, if_neg hk]
    rfl

theorem shown_insert_ne_none {entries : List (Key × Registration)} {k : Key} (r : Registration)
    {k' : Key} (h : shown entries k' ≠ none) : shown (insert entries k r) k' ≠ none := by
  rw [shown_insert]
  by_cases hk : k' = k
  · simp [hk]
  · rwa [if_neg hk]

/-- An operation that neither calls `mutated()` nor evicts changes no instance; one that evicts
removes none yet. -/
theorem Op.touch_spec (op : Op) (entries : List (Key × Registration)) :
    ((op.touch entries).2 = .unchanged → ∀ k, shown (op.touch entries).1 k = shown entries k) ∧
      ∀ k, (op.touch entries).2 = .evict k → shown (op.touch entries).1 k ≠ none ∧
        ∀ k', shown entries k' ≠ none → shown (op.touch entries).1 k' ≠ none := by
  cases op with
  | register req => simp [Op.touch]
  | deregister_instance k =>
    by_cases h : (entryAt entries k).isSome = true
    · simp [Op.touch, if_pos h]
    · simp [Op.touch, if_neg h]
  | deregister_service code =>
    by_cases h : entries.any (fun e => e.1.1 = code) = true
    · simp [Op.touch, if_pos h]
    · simp [Op.touch, if_neg h]
  | record_probe k ok threshold =>
    cases hr : entryAt entries k with
    | none => simp [Op.touch, hr]
    | some r =>
      have hshown : shown entries k = some r.info := by simp [shown, hr]
      -- an instance whose health stays is shown as before
      have hsame : ∀ info n, info = r.info →
          ∀ k', shown (insert entries k ⟨info, n⟩) k' = shown entries k' := by
        intro info n hinfo k'
        rw [shown_insert]
        by_cases hk : k' = k
        · rw [if_pos hk, hk, hshown, hinfo]
        · rw [if_neg hk]
      have hpresent : ∀ r', shown (insert entries k r') k ≠ none := by simp [shown_insert]
      simp only [Op.touch, hr]
      by_cases hok : ok = true
      · simp only [hok, if_true]
        by_cases hflip : r.info.healthy = false ∨ 0 < r.consecutive_failures
        · simp [hflip]
        · have hhealthy : r.info.healthy = true := by
            cases h : r.info.healthy
            · exact absurd (Or.inl h) hflip
            · rfl
          refine ⟨fun _ => hsame _ _ (by rw [← hhealthy]), ?_⟩
          simp [hflip]
      · simp only [hok]
        by_cases hevict : threshold ≤ r.consecutive_failures + 1
        · rw [if_pos hevict]
          refine ⟨fun h => by simp at h, ?_⟩
          rintro k' h
          obtain rfl : k = k' := by simpa using h
          exact ⟨hpresent _, fun k' => shown_insert_ne_none _⟩
        · rw [if_neg hevict]
          by_cases hhealthy : r.info.healthy = true
          · simp [hhealthy]
          · refine ⟨fun _ => hsame _ _ ?_, ?_⟩
            · rw [Bool.not_eq_true] at hhealthy
              rw [← hhealthy]
            · simp [hhealthy]

/-! ## The invariant -/

/-- A snapshot being read shows what it has come by, and has all of it to come by. -/
structure Reading.Ok (entries : List (Key × Registration)) (r : Reading) : Prop where
  built : ∀ k, entryAt r.built k = if k ∈ r.seen then shown entries k else none
  todo : ∀ k, shown entries k ≠ none → k ∈ r.todo

/-- The snapshot that has arrived. -/
def Refresh.snap : Refresh → Option RegistrySnapshot
  | .received snap | .accepted snap => some snap
  | _ => none

/-- It is yet to be read, or of this run and revision. -/
def Refresh.Coming (run : Nat) (revision : Int) (f : Refresh) : Prop :=
  ∀ snap, f.snap = some snap → snap.run = run ∧ snap.version = revision

section Invariant

variable {ι κ : Type}

/-- A version and content of the present run: of a snapshot taken, or none at the start. -/
def Net.Known (s : Net ι κ) (v : Int) (services : List (Key × ServiceInstanceInfo)) : Prop :=
  (v = 0 ∧ services = []) ∨
    ∃ a ∈ s.taken, a.run = s.run ∧ a.version = v ∧ a.services = services

/-- What holds of the server and the snapshots taken. -/
structure Core (s : Net ι κ) : Prop where
  runs : ∀ a ∈ s.taken, a.run ≤ s.run
  numbered : s.Numbered
  newest : ∀ v services, s.Known v services → 0 ≤ v ∧ v ≤ s.revision ∧
    (v = s.revision → ¬ s.Dirty → Shows services s.entries)
  reading : ∀ r, s.Reads r → ¬ s.Dirty ∧ r.Ok s.entries
  evict : ∀ k, s.Evicts k → shown s.entries k ≠ none ∨ s.Increments ∨
    ∀ v services, s.Known v services → v < s.revision

/-- What holds of the tasks of the server and the local mirror. -/
structure MirrorOk (s : Net ι κ) : Prop where
  mutated : ∀ i t b, s.tasks i = some t → t.phase = .mutated b → t.changed = true
  fetched : ∀ i t f snap, s.tasks i = some t → t.phase = .refreshing f → f.snap = some snap →
    snap ∈ s.taken ∧ snap.run = s.run
  known : s.Known s.mirror.version s.mirror.services
  fresh : s.mirror.populated = false → s.mirror.version = 0

/-- A task of the server brings a snapshot of the present revision. -/
def Net.Coming (s : Net ι κ) : Prop :=
  s.SomeTask fun t => ∃ f, t.phase = .refreshing f ∧ f.Coming s.run s.revision

/-- The registry of a consumer is of the present run, or takes any snapshot. -/
def Net.Placed (s : Net ι κ) (reg : LocalServiceRegistry) : Prop :=
  reg.version = minVersion ∨ reg.populated = false ∨ s.Known reg.version reg.services

/-- A consumer is told, has a pull under way, or will be told by a task of the server. -/
def Net.Owes (s : Net ι κ) (x : Consumer ι) : Prop :=
  0 < x.changed ∨ (∃ i f, x.pulls i = some (.refresh f) ∧ f.Coming s.run s.revision) ∨
    s.SomeTask fun t => t.changed = true

/-- What holds of a consumer. -/
structure ConsumerOk (s : Net ι κ) (x : Consumer ι) : Prop where
  fetched : ∀ i f snap, x.pulls i = some (.refresh f) → f.snap = some snap → snap ∈ s.taken
  served : x.AwaitsReset ∨ s.Placed x.registry ∧
    (x.registry.populated = true ∧ x.registry.version = s.revision ∨ s.Owes x)

/-- The invariant. -/
structure Inv (s : Net ι κ) : Prop where
  core : Core s
  mirror : MirrorOk s
  coming : s.mirror.version = s.revision ∨ s.Coming
  consumers : ∀ c x, s.consumers c = some x → ConsumerOk s x

variable {s s' : Net ι κ}

theorem Net.Known.mono {v : Int} {services : List (Key × ServiceInstanceInfo)}
    (h : s.Known v services) (hrun : s'.run = s.run) (htaken : s.taken ⊆ s'.taken) :
    s'.Known v services := by
  rcases h with h | ⟨a, ha, harun, hv⟩
  · exact Or.inl h
  · exact Or.inr ⟨a, htaken ha, harun.trans hrun.symm, hv⟩

theorem Core.revision (h : Core s) : 0 ≤ s.revision := (h.newest 0 [] (Or.inl ⟨rfl, rfl⟩)).2.1

theorem Reading.Ok.congr {entries entries' : List (Key × Registration)} {r : Reading}
    (h : r.Ok entries) (hshown : ∀ k, shown entries' k = shown entries k) : r.Ok entries' where
  built k := by rw [h.built, hshown]
  todo k hk := h.todo k (by rwa [← hshown])

/-- At its end the reading shows the instances. -/
theorem Reading.Ok.shows {entries : List (Key × Registration)} {r : Reading} (h : r.Ok entries)
    (hend : ∀ k ∈ r.todo, k ∈ r.seen) : Shows r.built entries := by
  intro k
  rw [h.built]
  by_cases hk : k ∈ r.seen
  · rw [if_pos hk]
  · rw [if_neg hk]
    by_contra hne
    exact hk (hend k (h.todo k (Ne.symm hne)))

theorem Reading.Ok.visit {entries : List (Key × Registration)} {r : Reading} (h : r.Ok entries)
    {k : Key} (hk : k ∉ r.seen) : (r.visit entries k).Ok entries where
  built k' := by
    have hfree : entryAt r.built k = none := by rw [h.built, if_neg hk]
    unfold Reading.visit
    simp only [List.mem_cons]
    by_cases hkk : k' = k
    · rw [hkk, if_pos (Or.inl rfl)]
      cases hs : shown entries k with
      | none => exact hfree
      | some info => rw [entryAt_cons, if_pos rfl]
    · have hkeep : (k' = k ∨ k' ∈ r.seen) ↔ k' ∈ r.seen := by simp [hkk]
      simp only [hkeep]
      rw [← h.built]
      cases shown entries k with
      | none => rfl
      | some info => exact (entryAt_cons ..).trans (if_neg (Ne.symm hkk))
  todo := h.todo

/-! ## Steps of the server, seen from the snapshots -/

theorem Net.not_dirty (hi : s'.Increments → s.Increments) (he : ∀ k, s'.Evicts k → s.Evicts k)
    (h : ¬ s.Dirty) : ¬ s'.Dirty := by
  rintro (hinc | ⟨k, hk⟩)
  · exact h (Or.inl (hi hinc))
  · exact h (Or.inr ⟨k, he k hk⟩)

/-- A step that changes none of it, but for a snapshot that is read further. -/
theorem Core.frame (h : Core s) (hrun : s'.run = s.run) (hrev : s'.revision = s.revision)
    (htaken : s'.taken = s.taken) (hshown : ∀ k, shown s'.entries k = shown s.entries k)
    (hinc : s'.Increments ↔ s.Increments) (hev : ∀ k, s'.Evicts k ↔ s.Evicts k)
    (hreads : ∀ r, s'.Reads r → s.Reads r ∨ ¬ s.Dirty ∧ r.Ok s.entries) : Core s' := by
  have hknown : ∀ v services, s'.Known v services → s.Known v services := fun v services hk =>
    hk.mono hrun.symm (htaken ▸ List.Subset.refl _)
  have hdirty : ¬ s'.Dirty → ¬ s.Dirty :=
    Net.not_dirty hinc.mpr fun k => (hev k).mpr
  refine ⟨by rw [htaken, hrun]; exact h.runs, by unfold Net.Numbered; rw [htaken]; exact h.numbered,
    ?_, ?_, ?_⟩
  · intro v services hk
    obtain ⟨hpos, hle, hshows⟩ := h.newest v services (hknown v services hk)
    rw [hrev]
    refine ⟨hpos, hle, fun hv hd k => ?_⟩
    rw [hshown, hshows hv (hdirty hd)]
  · intro r hr
    obtain ⟨hd, hok⟩ := (hreads r hr).elim (h.reading r) id
    exact ⟨Net.not_dirty hinc.mp (fun k => (hev k).mp) hd, hok.congr hshown⟩
  · intro k hk
    rw [hshown, hinc, hrev]
    rcases h.evict k ((hev k).mp hk) with hp | hi | hlt
    · exact Or.inl hp
    · exact Or.inr (Or.inl hi)
    · exact Or.inr (Or.inr fun v services hkn => hlt v services (hknown v services hkn))

/-- The instances change while no snapshot is being read. -/
theorem Core.changed (h : Core s) (hrun : s'.run = s.run) (hrev : s'.revision = s.revision)
    (htaken : s'.taken = s.taken) (hreads : ∀ r, ¬ s'.Reads r) (hdirty : s'.Dirty)
    (hev : ∀ k, s'.Evicts k → shown s'.entries k ≠ none ∨ s'.Increments ∨
      ∀ v services, s.Known v services → v < s.revision) : Core s' := by
  have hknown : ∀ v services, s'.Known v services → s.Known v services := fun v services hk =>
    hk.mono hrun.symm (htaken ▸ List.Subset.refl _)
  refine ⟨by rw [htaken, hrun]; exact h.runs, by unfold Net.Numbered; rw [htaken]; exact h.numbered,
    ?_, fun r hr => absurd hr (hreads r), ?_⟩
  · intro v services hk
    obtain ⟨hpos, hle, -⟩ := h.newest v services (hknown v services hk)
    rw [hrev]
    exact ⟨hpos, hle, fun _ hd => absurd hdirty hd⟩
  · intro k hk
    rw [hrev]
    rcases hev k hk with hp | hi | hlt
    · exact Or.inl hp
    · exact Or.inr (Or.inl hi)
    · exact Or.inr (Or.inr fun v services hkn => hlt v services (hknown v services hkn))

/-- The instance to be evicted is gone: another task has removed it, and counts or counted. -/
theorem Core.missed (h : Core s) (hrun : s'.run = s.run) (hrev : s'.revision = s.revision)
    (htaken : s'.taken = s.taken) (hentries : s'.entries = s.entries)
    (hinc : s'.Increments ↔ s.Increments) (hev : ∀ k, s'.Evicts k → s.Evicts k)
    (hgone : ∀ k, s.Evicts k → s'.Evicts k ∨ shown s.entries k = none)
    (hreads : ∀ r, s'.Reads r → s.Reads r) : Core s' := by
  have hknown : ∀ v services, s'.Known v services → s.Known v services := fun v services hk =>
    hk.mono hrun.symm (htaken ▸ List.Subset.refl _)
  refine ⟨by rw [htaken, hrun]; exact h.runs, by unfold Net.Numbered; rw [htaken]; exact h.numbered,
    ?_, ?_, ?_⟩
  -- a snapshot of the newest version: it shows the entries, unless something is still to be counted
  · intro v services hk
    obtain ⟨hpos, hle, hshows⟩ := h.newest v services (hknown v services hk)
    rw [hrev, hentries]
    refine ⟨hpos, hle, fun hv hd => hshows hv ?_⟩
    rintro (hi | ⟨k₀, hk₀⟩)
    · exact hd (Or.inl (hinc.mpr hi))
    · rcases hgone k₀ hk₀ with hk' | hnone
      · exact hd (Or.inr ⟨k₀, hk'⟩)
      -- the eviction that is dropped was of a key that is shown, or is counted elsewhere
      · rcases h.evict k₀ hk₀ with hp | hi | hlt
        · exact hp hnone
        · exact hd (Or.inl (hinc.mpr hi))
        · have := hlt v services (hknown v services hk)
          omega
  · intro r hr
    obtain ⟨hd, hok⟩ := h.reading r (hreads r hr)
    exact ⟨Net.not_dirty hinc.mp hev hd, hentries ▸ hok⟩
  · intro k hk
    rw [hentries, hinc, hrev]
    rcases h.evict k (hev k hk) with hp | hi | hlt
    · exact Or.inl hp
    · exact Or.inr (Or.inl hi)
    · exact Or.inr (Or.inr fun v services hkn => hlt v services (hknown v services hkn))

/-- Behind a new revision every snapshot is old. -/
theorem Core.increment (h : Core s) (hrun : s'.run = s.run) (hrev : s'.revision = s.revision + 1)
    (htaken : s'.taken = s.taken) (hentries : s'.entries = s.entries)
    (hinc : s'.Increments → s.Increments) (hev : ∀ k, s'.Evicts k → s.Evicts k)
    (hreads : ∀ r, s'.Reads r → s.Reads r) : Core s' := by
  have hlt : ∀ v services, s'.Known v services → 0 ≤ v ∧ v < s'.revision := by
    intro v services hk
    obtain ⟨hpos, hle, -⟩ := h.newest v services (hk.mono hrun.symm (htaken ▸ List.Subset.refl _))
    omega
  refine ⟨by rw [htaken, hrun]; exact h.runs, by unfold Net.Numbered; rw [htaken]; exact h.numbered,
    ?_, ?_, ?_⟩
  · intro v services hk
    obtain ⟨hpos, hlt⟩ := hlt v services hk
    exact ⟨hpos, hlt.le, fun hv => absurd hv hlt.ne⟩
  · intro r hr
    obtain ⟨hd, hok⟩ := h.reading r (hreads r hr)
    exact ⟨Net.not_dirty hinc hev hd, hentries ▸ hok⟩
  · exact fun k _ => Or.inr (Or.inr fun v services hk => (hlt v services hk).2)

/-- **A snapshot is taken**: it shows the instances, under the present revision. -/
theorem Core.taken (h : Core s) {r : Reading} (hr : s.Reads r) (hend : ∀ k ∈ r.todo, k ∈ r.seen)
    (hrun : s'.run = s.run) (hrev : s'.revision = s.revision) (hentries : s'.entries = s.entries)
    (htaken : s'.taken = s.taken ++ [⟨s.revision, r.built, s.run⟩])
    (hinc : s'.Increments ↔ s.Increments) (hev : ∀ k, s'.Evicts k ↔ s.Evicts k)
    (hreads : ∀ r, s'.Reads r → s.Reads r) : Core s' := by
  obtain ⟨hclean, hok⟩ := h.reading r hr
  have hshows := hok.shows hend
  have hknown : ∀ v services, s'.Known v services →
      s.Known v services ∨ v = s.revision ∧ services = r.built := by
    rintro v services (hk | ⟨a, ha, harun, hv, hs⟩)
    · exact Or.inl (Or.inl hk)
    · rw [htaken, List.mem_append, List.mem_singleton] at ha
      rcases ha with ha | rfl
      · exact Or.inl (Or.inr ⟨a, ha, harun.trans hrun, hv, hs⟩)
      · exact Or.inr ⟨hv.symm, hs.symm⟩
  -- a snapshot of this run and revision shows the same
  have hsame : ∀ a ∈ s.taken, a.run = s.run → a.version = s.revision →
      ∀ k, entryAt a.services k = entryAt r.built k := by
    intro a ha harun hv k
    have hk : s.Known a.version a.services := Or.inr ⟨a, ha, harun, rfl, rfl⟩
    rw [hshows k]
    exact (h.newest _ _ hk).2.2 hv hclean k
  refine ⟨?_, ?_, ?_, ?_, ?_⟩
  · intro a ha
    rw [htaken, List.mem_append, List.mem_singleton] at ha
    rw [hrun]
    rcases ha with ha | rfl
    · exact h.runs a ha
    · exact le_refl _
  · intro a ha b hb hab hv k
    rw [htaken, List.mem_append, List.mem_singleton] at ha hb
    rcases ha with ha | rfl
    · rcases hb with hb | rfl
      · exact h.numbered a ha b hb hab hv k
      · exact hsame a ha hab hv k
    · rcases hb with hb | rfl
      · exact (hsame b hb hab.symm hv.symm k).symm
      · rfl
  · intro v services hk
    rw [hrev, hentries]
    rcases hknown v services hk with hk | ⟨rfl, rfl⟩
    · obtain ⟨hpos, hle, hs⟩ := h.newest v services hk
      exact ⟨hpos, hle, fun hv _ => hs hv hclean⟩
    · exact ⟨h.revision, le_refl _, fun _ _ => hshows⟩
  · intro r' hr'
    rw [hentries]
    exact ⟨Net.not_dirty hinc.mp (fun k => (hev k).mp) hclean, (h.reading r' (hreads r' hr')).2⟩
  · intro k hk
    exact absurd (Or.inr ⟨k, (hev k).mp hk⟩) hclean

theorem Core.read (h : Core s) {k : Option Key} {f : Refresh} (hask : f = .ask → ¬ s.Dirty)
    (hf : ∀ r, f = .reading r → s.Reads r) (hsnap : f.snap = none) (hrun : s'.run = s.run)
    (hrev : s'.revision = s.revision) (hentries : s'.entries = s.entries)
    (htaken : s'.taken = s.taken ++ completed (s.read k f))
    (hinc : s'.Increments ↔ s.Increments) (hev : ∀ k, s'.Evicts k ↔ s.Evicts k)
    (hreads : ∀ r, s'.Reads r → s.Reads r ∨ s.read k f = .reading r) : Core s' := by
  -- a read that completes no snapshot changes nothing but the reading
  have hframe : ∀ r', s.read k f = .reading r' → ¬ s.Dirty → r'.Ok s.entries → Core s' := by
    intro r' hread hclean hok
    rw [hread] at htaken hreads
    refine h.frame hrun hrev (htaken.trans (List.append_nil _)) (fun k => by rw [hentries]) hinc hev
      fun r hr => (hreads r hr).imp_right ?_
    intro heq
    obtain rfl : r' = r := by simpa using heq
    exact ⟨hclean, hok⟩
  cases f with
  | ask =>
    refine hframe _ rfl (hask rfl) ⟨fun k => by simp [entryAt], fun k hk => ?_⟩
    exact mem_of_entryAt (shown_ne_none.mp hk)
  | reading r =>
    obtain ⟨hclean, hok⟩ := h.reading r (hf r rfl)
    cases k with
    | some k =>
      by_cases hk : k ∈ r.seen
      · exact hframe r (if_pos hk) hclean hok
      · exact hframe (r.visit s.entries k) (if_neg hk) hclean (hok.visit hk)
    | none =>
      by_cases hend : ∀ k ∈ r.todo, k ∈ r.seen
      -- all keys were seen: the snapshot is taken now, under the revision of now
      · have hread : s.read none (.reading r) = .received ⟨s.revision, r.built, s.run⟩ :=
          if_pos hend
        rw [hread] at htaken hreads
        exact h.taken (hf r rfl) hend hrun hrev hentries htaken hinc hev
          fun r' hr' => (hreads r' hr').elim id fun heq => by simp at heq
      · exact hframe r (if_neg hend) hclean hok
  | received snap => simp [Refresh.snap] at hsnap
  | accepted snap => simp [Refresh.snap] at hsnap

/-! ## Tasks -/

section Tasks

variable [DecidableEq ι] {P : ServerTask → Prop} {i : ι} {t : ServerTask} {o : Option ServerTask}

theorem Net.withTask_tasks (s : Net ι κ) (j : ι) :
    (s.withTask i o).tasks j = if j = i then o else s.tasks j := Function.update_apply ..

/-- What some task is after a step of one task. -/
theorem someTask_withTask : (s.withTask i o).SomeTask P ↔
    (∃ t', o = some t' ∧ P t') ∨ ∃ j t', j ≠ i ∧ s.tasks j = some t' ∧ P t' := by
  constructor
  · rintro ⟨j, t', hj, ht'⟩
    rw [Net.withTask_tasks] at hj
    by_cases hji : j = i
    · rw [if_pos hji] at hj
      exact Or.inl ⟨t', hj, ht'⟩
    · rw [if_neg hji] at hj
      exact Or.inr ⟨j, t', hji, hj, ht'⟩
  · rintro (⟨t', ho, ht'⟩ | ⟨j, t', hji, hj, ht'⟩)
    · exact ⟨i, t', by rw [Net.withTask_tasks, if_pos rfl, ho], ht'⟩
    · exact ⟨j, t', by rw [Net.withTask_tasks, if_neg hji, hj], ht'⟩

/-- What the task was it still is. -/
theorem SomeTask.step (hi : s.tasks i = some t) (h : s.SomeTask P)
    (hstep : P t → ∃ t', o = some t' ∧ P t') : (s.withTask i o).SomeTask P := by
  obtain ⟨j, t', hj, ht'⟩ := h
  rw [someTask_withTask]
  by_cases hji : j = i
  · subst hji
    obtain rfl : t = t' := Option.some.inj (hi.symm.trans hj)
    exact Or.inl (hstep ht')
  · exact Or.inr ⟨j, t', hji, hj, ht'⟩

/-- What no task has become it was before. -/
theorem SomeTask.back (h : (s.withTask i o).SomeTask P)
    (hstep : ∀ t', o = some t' → P t' → s.SomeTask P) : s.SomeTask P := by
  rcases someTask_withTask.mp h with ⟨t', ho, ht'⟩ | ⟨j, t', -, hj, ht'⟩
  · exact hstep t' ho ht'
  · exact ⟨j, t', hj, ht'⟩

theorem reads_withTask {r : Reading} (h : (s.withTask i o).Reads r) :
    s.Reads r ∨ ∃ t', o = some t' ∧ t'.phase = .refreshing (.reading r) := by
  rcases h with h | h
  · rcases someTask_withTask.mp h with hi | ⟨j, t', -, hj, ht'⟩
    · exact Or.inr hi
    · exact Or.inl (Or.inl ⟨j, t', hj, ht'⟩)
  · exact Or.inl (Or.inr h)

theorem someTask_withTask_iff (hi : s.tasks i = some t) (h : P t ↔ ∃ t', o = some t' ∧ P t') :
    (s.withTask i o).SomeTask P ↔ s.SomeTask P := by
  constructor
  · exact fun hs => SomeTask.back hs fun t' ho ht' => ⟨i, t, hi, h.mpr ⟨t', ho, ht'⟩⟩
  · exact fun hs => SomeTask.step hi hs h.mp

/-- A step of one task, seen from the mirror. -/
theorem MirrorOk.withTask (h : MirrorOk s)
    (hmutated : ∀ t' b, o = some t' → t'.phase = .mutated b → t'.changed = true)
    (hfetched : ∀ t' f snap, o = some t' → t'.phase = .refreshing f → f.snap = some snap →
      snap ∈ s.taken ∧ snap.run = s.run) :
    MirrorOk (s.withTask i o) where
  mutated := by
    intro j t' b hj hphase
    rw [Net.withTask_tasks] at hj
    by_cases hji : j = i
    · rw [if_pos hji] at hj
      exact hmutated t' b hj hphase
    · rw [if_neg hji] at hj
      exact h.mutated j t' b hj hphase
  fetched := by
    intro j t' f snap hj hphase hsnap
    rw [Net.withTask_tasks] at hj
    by_cases hji : j = i
    · rw [if_pos hji] at hj
      exact hfetched t' f snap hj hphase hsnap
    · rw [if_neg hji] at hj
      exact h.fetched j t' f snap hj hphase hsnap
  known := h.known
  fresh := h.fresh

omit [DecidableEq ι] in
/-- Entries, revision and more snapshots are nothing to the mirror. -/
theorem MirrorOk.congr {n : Net ι κ} (h : MirrorOk s) (hrun : n.run = s.run)
    (htasks : n.tasks = s.tasks) (hmirror : n.mirror = s.mirror) (htaken : s.taken ⊆ n.taken) :
    MirrorOk n where
  mutated i t b hi := h.mutated i t b (htasks ▸ hi)
  fetched i t f snap hi hphase hsnap := by
    rw [htasks] at hi
    obtain ⟨hmem, hr⟩ := h.fetched i t f snap hi hphase hsnap
    exact ⟨htaken hmem, hr.trans hrun.symm⟩
  known := hmirror ▸ h.known.mono hrun htaken
  fresh := hmirror ▸ h.fresh

end Tasks

/-! ## Consumers -/

theorem ConsumerOk.mono {x : Consumer ι} (h : ConsumerOk s x) (hrun : s'.run = s.run)
    (hrev : s'.revision = s.revision) (htaken : s.taken ⊆ s'.taken)
    (htasks : (s.SomeTask fun t => t.changed = true) → s'.SomeTask fun t => t.changed = true) :
    ConsumerOk s' x where
  fetched i f snap hi hsnap := htaken (h.fetched i f snap hi hsnap)
  served := by
    refine h.served.imp_right fun ⟨hplaced, howes⟩ => ⟨?_, ?_⟩
    · exact hplaced.imp_right (Or.imp_right fun hk => hk.mono hrun htaken)
    · rw [hrev]
      refine howes.imp_right fun howes => ?_
      unfold Net.Owes
      rw [hrun, hrev]
      exact howes.imp_right (Or.imp_right htasks)

/-- A task that will publish is owed to every consumer. -/
theorem ConsumerOk.owed {x : Consumer ι} (h : ConsumerOk s x) (hrun : s'.run = s.run)
    (htaken : s.taken ⊆ s'.taken) (htask : s'.SomeTask fun t => t.changed = true) :
    ConsumerOk s' x where
  fetched i f snap hi hsnap := htaken (h.fetched i f snap hi hsnap)
  served := h.served.imp_right fun ⟨hplaced, _⟩ =>
    ⟨hplaced.imp_right (Or.imp_right fun hk => hk.mono hrun htaken), Or.inr (Or.inr (Or.inr htask))⟩

/-! ## Steps of the server -/

section Server

variable [DecidableEq ι] {i : ι} {t : ServerTask}

omit [DecidableEq ι] in
theorem reads_publish {r : Reading} (h : s.publish.Reads r) : s.Reads r := by
  rcases h with h | ⟨c, x, j, hx, hj⟩
  · exact Or.inl h
  · obtain ⟨y, hy, rfl⟩ := Option.map_eq_some_iff.mp hx
    exact Or.inr ⟨c, y, j, hy, hj⟩

omit [DecidableEq ι] in
/-- A notification to all: every consumer is owed it. -/
theorem Inv.publish (h : Inv s) : Inv s.publish where
  core := h.core.frame rfl rfl rfl (fun _ => rfl) Iff.rfl (fun _ => Iff.rfl)
    fun _ hr => Or.inl (reads_publish hr)
  mirror := h.mirror.congr rfl rfl rfl (List.Subset.refl _)
  coming := h.coming
  consumers := by
    intro c x hx
    obtain ⟨y, hy, rfl⟩ := Option.map_eq_some_iff.mp hx
    obtain ⟨hfetched, hserved⟩ := h.consumers c y hy
    exact ⟨hfetched, hserved.imp id fun ⟨hplaced, _⟩ =>
      ⟨hplaced, Or.inr (Or.inl (Nat.succ_pos _))⟩⟩

/-- A task with nothing to publish any more goes. -/
theorem Inv.returned (h : Inv s) (hi : s.tasks i = some t) (hidle : t.phase = .idle)
    (hdone : t.changed = true → ∀ c x, s.consumers c = some x → 0 < x.changed) :
    Inv (s.withTask i none) where
  core := by
    refine h.core.frame rfl rfl rfl (fun _ => rfl) (someTask_withTask_iff hi (by simp [hidle]))
      (fun k => someTask_withTask_iff hi (by simp [hidle])) fun r hr => ?_
    exact (reads_withTask hr).imp_right fun ⟨t', ho, _⟩ => by simp at ho
  mirror := h.mirror.withTask (by simp) (by simp)
  coming := by
    refine h.coming.imp_right fun hc => ?_
    exact SomeTask.step hi hc fun ⟨f, hf, _⟩ => by simp [hidle] at hf
  consumers := by
    intro c x hx
    obtain ⟨hfetched, hserved⟩ := h.consumers c x hx
    refine ⟨hfetched, hserved.imp_right fun ⟨hplaced, howes⟩ => ⟨hplaced, ?_⟩⟩
    by_cases hch : t.changed = true
    · exact Or.inr (Or.inl (hdone hch c x hx))
    · refine howes.imp_right (Or.imp_right (Or.imp_right fun htask => ?_))
      exact SomeTask.step hi htask fun hch' => absurd hch' hch

/-- A task starts. -/
theorem Inv.serve (h : Inv s) (hi : s.tasks i = none) (ops : List Op) :
    Inv (s.withTask i (some ⟨ops, false, .idle⟩)) := by
  have hkeep : ∀ P : ServerTask → Prop, s.SomeTask P →
      (s.withTask i (some ⟨ops, false, .idle⟩)).SomeTask P := by
    rintro P ⟨j, t', hj, ht'⟩
    refine someTask_withTask.mpr (Or.inr ⟨j, t', ?_, hj, ht'⟩)
    rintro rfl
    rw [hi] at hj
    cases hj
  have hback : ∀ P : ServerTask → Prop, ¬ P ⟨ops, false, .idle⟩ →
      (s.withTask i (some ⟨ops, false, .idle⟩)).SomeTask P → s.SomeTask P :=
    fun P hP hs => SomeTask.back hs fun t' ho ht' => absurd (Option.some.inj ho ▸ ht') hP
  constructor
  · refine h.core.frame rfl rfl rfl (fun _ => rfl) ⟨hback _ (by simp), hkeep _⟩
      (fun k => ⟨hback _ (by simp), hkeep _⟩) fun r hr => ?_
    exact (reads_withTask hr).imp_right fun ⟨t', ho, hp⟩ => by
      obtain rfl := (Option.some.inj ho).symm
      simp at hp
  · refine h.mirror.withTask ?_ ?_
    · intro t' b ho hp
      obtain rfl := (Option.some.inj ho).symm
      simp at hp
    · intro t' f snap ho hp
      obtain rfl := (Option.some.inj ho).symm
      simp at hp
  · exact h.coming.imp_right (hkeep _)
  · exact fun c x hx => (h.consumers c x hx).mono rfl rfl (List.Subset.refl _) (hkeep _)

/-- The first change of an operation. -/
theorem Inv.touch (h : Inv s) (hi : s.tasks i = some t) (hidle : t.phase = .idle) (op : Op)
    (ops : List Op)
    (hgood : (∃ k, shown (op.touch s.entries).1 k ≠ shown s.entries k) → ∀ r, ¬ s.Reads r) :
    Inv ({ s with entries := (op.touch s.entries).1 }.withTask i (some
      ⟨ops, t.changed || (op.touch s.entries).2 = Touched.mutated,
        (op.touch s.entries).2.phase (differ s.entries (op.touch s.entries).1)⟩)) := by
  obtain ⟨hunchanged, hevict⟩ := op.touch_spec s.entries
  generalize (op.touch s.entries).1 = entries at *
  generalize (op.touch s.entries).2 = touched at *
  have hnone : ∀ P : ServerTask → Prop, (P t → False) → s.SomeTask P →
      (Net.withTask { s with entries } i (some ⟨ops, t.changed || touched = Touched.mutated,
        touched.phase (differ s.entries entries)⟩)).SomeTask P :=
    fun P ht hs => SomeTask.step (s := { s with entries }) hi hs fun h => (ht h).elim
  constructor
  · cases hdiffer : differ s.entries entries with
    | false =>
      -- the snapshots of before and after are equal, so no revision is owed
      have hshown := differ_eq_false_iff.mp hdiffer
      have hclean : ∀ k, touched.phase false ≠ .mutated true ∧
          touched.phase false ≠ .evicting k true ∧ ∀ f, touched.phase false ≠ .refreshing f := by
        intro k
        cases touched <;> simp [Touched.phase]
      refine h.core.frame rfl rfl rfl hshown ?_ (fun k => ?_) fun r hr => ?_
      · exact someTask_withTask_iff (s := { s with entries }) hi
          (by simp [hidle, (hclean ("", "")).1])
      · exact someTask_withTask_iff (s := { s with entries }) hi (by simp [hidle, (hclean k).2.1])
      · rcases reads_withTask hr with hr | ⟨t', ho, hphase⟩
        · exact Or.inl hr
        · obtain rfl := (Option.some.inj ho).symm
          exact absurd hphase ((hclean ("", "")).2.2 _)
    | true =>
      -- something that snapshots show has changed: the task counts it, or will evict
      have hchange : ∃ k, shown entries k ≠ shown s.entries k := by
        by_contra hall
        simp only [not_exists, not_not] at hall
        rw [differ_eq_false_iff.mpr hall] at hdiffer
        cases hdiffer
      have hwhat : touched = .mutated ∨ ∃ k, touched = .evict k := by
        cases touched with
        | unchanged =>
          obtain ⟨k, hk⟩ := hchange
          exact absurd (hunchanged rfl k) hk
        | mutated => exact Or.inl rfl
        | evict k => exact Or.inr ⟨k, rfl⟩
      have hincrements : touched = .mutated → Net.Increments
          (Net.withTask { s with entries } i (some ⟨ops, t.changed || touched = Touched.mutated,
            touched.phase true⟩)) := by
        rintro rfl
        exact someTask_withTask.mpr (Or.inl ⟨_, rfl, rfl⟩)
      rw [hdiffer] at hnone
      refine h.core.changed rfl rfl rfl (fun r hr => ?_) ?_ fun k hk => ?_
      · rcases reads_withTask hr with hr | ⟨t', ho, hphase⟩
        -- a snapshot that is half read would show the old and the new
        · exact hgood hchange r hr
        · obtain rfl := (Option.some.inj ho).symm
          cases touched <;> simp [Touched.phase] at hphase
      · rcases hwhat with hm | ⟨k, rfl⟩
        · exact Or.inl (hincrements hm)
        · exact Or.inr ⟨k, someTask_withTask.mpr (Or.inl ⟨_, rfl, rfl⟩)⟩
      · rcases hwhat with hm | ⟨k₀, hk₀⟩
        · exact Or.inr (Or.inl (hincrements hm))
        -- the eviction under way is of this task or of another one
        rcases someTask_withTask.mp hk with ⟨t', ho, hphase⟩ | ⟨j, t', -, hj, hphase⟩
        · obtain rfl := (Option.some.inj ho).symm
          obtain rfl : k₀ = k := by simpa [hk₀, Touched.phase] using hphase
          exact Or.inl (hevict k₀ hk₀).1
        · rcases h.core.evict k ⟨j, t', hj, hphase⟩ with hp | hinc | hlt
          · exact Or.inl ((hevict k₀ hk₀).2 k hp)
          · exact Or.inr (Or.inl (hnone _ (by simp [hidle]) hinc))
          · exact Or.inr (Or.inr hlt)
  -- the mirror: the task holds no snapshot
  · refine (h.mirror.congr (n := { s with entries }) rfl rfl rfl
      (List.Subset.refl _)).withTask ?_ ?_
    · intro t' b ho hphase
      obtain rfl := (Option.some.inj ho).symm
      cases touched <;> simp [Touched.phase] at hphase ⊢
    · intro t' f snap ho hphase
      obtain rfl := (Option.some.inj ho).symm
      cases touched <;> simp [Touched.phase] at hphase
  -- the task was idle, so it was not the one that brings the snapshot
  · exact h.coming.imp_right fun hc => hnone _ (fun ⟨f, hf, _⟩ => by simp [hidle] at hf) hc
  · intro c x hx
    refine (h.consumers c x hx).mono rfl rfl (List.Subset.refl _) fun hs => ?_
    exact SomeTask.step (s := { s with entries }) hi hs fun hch => ⟨_, rfl, by simp [hch]⟩

/-- The instance to be evicted is removed, or gone. -/
theorem Inv.evictStep (h : Inv s) (hi : s.tasks i = some t) {key : Key} {b : Bool}
    (hphase : t.phase = .evicting key b)
    (hgood : (∃ k, shown (remove s.entries key) k ≠ shown s.entries k) → ∀ r, ¬ s.Reads r) :
    Inv (if (entryAt s.entries key).isSome then
        Net.withTask { s with entries := remove s.entries key } i
          (some ⟨t.ops, true, .mutated true⟩)
      else s.withTask i (some ⟨t.ops, t.changed, .idle⟩)) := by
  by_cases hsome : (entryAt s.entries key).isSome = true
  · rw [if_pos hsome]
    -- the instance is there: its removal shows and will be counted
    have hchange : ∃ k, shown (remove s.entries key) k ≠ shown s.entries k := by
      refine ⟨key, ?_⟩
      have hpresent : shown s.entries key ≠ none :=
        shown_ne_none.mpr (Option.isSome_iff_ne_none.mp hsome)
      rw [shown, entryAt_remove, if_pos rfl]
      exact Ne.symm hpresent
    have hinc : Net.Increments (Net.withTask { s with entries := remove s.entries key } i
        (some ⟨t.ops, true, .mutated true⟩)) :=
      someTask_withTask.mpr (Or.inl ⟨_, rfl, rfl⟩)
    constructor
    -- nobody reads meanwhile, by `hgood`
    · refine h.core.changed rfl rfl rfl (fun r hr => ?_) (Or.inl hinc)
        fun k _ => Or.inr (Or.inl hinc)
      rcases reads_withTask hr with hr | ⟨t', ho, hp⟩
      · exact hgood hchange r hr
      · obtain rfl := (Option.some.inj ho).symm
        simp at hp
    · refine (h.mirror.congr (n := { s with entries := remove s.entries key }) rfl rfl rfl
        (List.Subset.refl _)).withTask ?_ ?_
      · intro t' b ho _
        obtain rfl := (Option.some.inj ho).symm
        rfl
      · intro t' f snap ho hp
        obtain rfl := (Option.some.inj ho).symm
        simp at hp
    · refine h.coming.imp_right fun hc => ?_
      exact SomeTask.step (s := { s with entries := remove s.entries key }) hi hc
        fun ⟨f, hf, _⟩ => by simp [hphase] at hf
    · intro c x hx
      exact (h.consumers c x hx).owed rfl (List.Subset.refl _)
        (someTask_withTask.mpr (Or.inl ⟨_, rfl, rfl⟩))
  · rw [if_neg hsome]
    -- another task has removed it in the meantime, and counts or counted it
    have hgone : shown s.entries key = none := by
      have hnone : entryAt s.entries key = none := by simpa using hsome
      simp [shown, hnone]
    constructor
    · refine h.core.missed rfl rfl rfl rfl ?_ (fun k hk => ?_) (fun k hk => ?_) fun r hr => ?_
      · exact someTask_withTask_iff hi (by simp [hphase])
      · exact SomeTask.back hk fun t' ho hp => by
          obtain rfl := (Option.some.inj ho).symm
          simp at hp
      · by_cases hkey : k = key
        -- of two evictions of one key the other may still be under way
        · exact Or.inr (hkey ▸ hgone)
        · refine Or.inl (SomeTask.step hi hk fun hp => ?_)
          rw [hphase, Phase.evicting.injEq] at hp
          exact absurd hp.1.symm hkey
      · rcases reads_withTask hr with hr | ⟨t', ho, hp⟩
        · exact hr
        · obtain rfl := (Option.some.inj ho).symm
          simp at hp
    · refine h.mirror.withTask ?_ ?_
      · intro t' b ho hp
        obtain rfl := (Option.some.inj ho).symm
        simp at hp
      · intro t' f snap ho hp
        obtain rfl := (Option.some.inj ho).symm
        simp at hp
    · exact h.coming.imp_right fun hc => SomeTask.step hi hc
        fun ⟨f, hf, _⟩ => by simp [hphase] at hf
    · intro c x hx
      refine (h.consumers c x hx).mono rfl rfl (List.Subset.refl _) fun hs => ?_
      exact SomeTask.step hi hs fun hch => ⟨_, rfl, hch⟩

/-- The revision is counted up: the task will bring a snapshot of it. -/
theorem Inv.increment (h : Inv s) (hi : s.tasks i = some t) {b : Bool}
    (hphase : t.phase = .mutated b) :
    Inv (Net.withTask { s with revision := s.revision + 1 } i
      (some ⟨t.ops, t.changed, .refreshing .ask⟩)) where
  core := by
    refine h.core.increment rfl rfl rfl rfl (fun hs => ?_) (fun k hs => ?_) fun r hr => ?_
    · exact SomeTask.back (s := { s with revision := s.revision + 1 }) hs fun t' ho hp => by
        obtain rfl := (Option.some.inj ho).symm
        simp at hp
    · exact SomeTask.back (s := { s with revision := s.revision + 1 }) hs fun t' ho hp => by
        obtain rfl := (Option.some.inj ho).symm
        simp at hp
    · rcases reads_withTask hr with hr | ⟨t', ho, hp⟩
      · exact hr
      · obtain rfl := (Option.some.inj ho).symm
        simp at hp
  -- the mirror stays behind until the task has read and stored the snapshot
  mirror := by
    refine (h.mirror.congr (n := { s with revision := s.revision + 1 }) rfl rfl rfl
      (List.Subset.refl _)).withTask ?_ ?_
    · intro t' b ho hp
      obtain rfl := (Option.some.inj ho).symm
      simp at hp
    · intro t' f snap ho hp hsnap
      obtain rfl := (Option.some.inj ho).symm
      obtain rfl : Refresh.ask = f := by simpa using hp
      simp [Refresh.snap] at hsnap
  coming := Or.inr (someTask_withTask.mpr
    (Or.inl ⟨_, rfl, .ask, rfl, fun snap hsnap => by simp [Refresh.snap] at hsnap⟩))
  -- what was changed will be published at the end, which reaches every consumer
  consumers := by
    intro c x hx
    have hch := h.mirror.mutated i t b hi hphase
    exact (h.consumers c x hx).owed rfl (List.Subset.refl _)
      (someTask_withTask.mpr (Or.inl ⟨_, rfl, hch⟩))

theorem accepts_iff {reg : LocalServiceRegistry} {snap : RegistrySnapshot} :
    reg.accepts snap = true ↔ (reg.populated = true → reg.version < snap.version) := by
  unfold LocalServiceRegistry.accepts
  cases reg.populated <;> simp

/-- The check against the mirror: a snapshot of the present revision that is refused is there. -/
theorem Inv.check (h : Inv s) (hi : s.tasks i = some t) {snap : RegistrySnapshot}
    (hphase : t.phase = .refreshing (.received snap)) :
    Inv (s.withTask i (some ⟨t.ops, t.changed,
      if s.mirror.accepts snap then .refreshing (.accepted snap) else .idle⟩)) where
  core := by
    refine h.core.frame rfl rfl rfl (fun _ => rfl) ?_ (fun k => ?_) fun r hr => ?_
    · refine someTask_withTask_iff hi ?_
      by_cases hacc : s.mirror.accepts snap <;> simp [hphase, hacc]
    · refine someTask_withTask_iff hi ?_
      by_cases hacc : s.mirror.accepts snap <;> simp [hphase, hacc]
    · rcases reads_withTask hr with hr | ⟨t', ho, hp⟩
      · exact Or.inl hr
      · obtain rfl := (Option.some.inj ho).symm
        by_cases hacc : s.mirror.accepts snap <;> simp [hacc] at hp
  mirror := by
    refine h.mirror.withTask ?_ ?_
    · intro t' b ho hp
      obtain rfl := (Option.some.inj ho).symm
      by_cases hacc : s.mirror.accepts snap <;> simp [hacc] at hp
    · intro t' f snap' ho hp hsnap
      obtain rfl := (Option.some.inj ho).symm
      by_cases hacc : s.mirror.accepts snap
      · obtain rfl : Refresh.accepted snap = f := by simpa [hacc] using hp
        exact h.mirror.fetched i t _ snap' hi hphase hsnap
      · simp [hacc] at hp
  coming := by
    rcases h.coming with heq | hc
    · exact Or.inl heq
    by_cases hacc : s.mirror.accepts snap = true
    · refine Or.inr (SomeTask.step hi hc ?_)
      rintro ⟨f, hf, hcoming⟩
      obtain rfl : Refresh.received snap = f := by simpa [hphase] using hf
      exact ⟨_, rfl, .accepted snap, by simp [hacc], hcoming⟩
    · by_cases hv : snap.version = s.revision
      · -- what is refused is no newer than the mirror
        rw [accepts_iff, Classical.not_imp] at hacc
        have hle := (h.core.newest _ _ h.mirror.known).2.1
        exact Or.inl (show s.mirror.version = s.revision by omega)
      · refine Or.inr (SomeTask.step hi hc ?_)
        rintro ⟨f, hf, hcoming⟩
        obtain rfl : Refresh.received snap = f := by simpa [hphase] using hf
        exact absurd (hcoming snap rfl).2 hv
  consumers := by
    intro c x hx
    refine (h.consumers c x hx).mono rfl rfl (List.Subset.refl _) fun hs => ?_
    exact SomeTask.step hi hs fun hch => ⟨_, rfl, hch⟩

/-- The mirror takes a snapshot that is newer than its own. -/
theorem Inv.store (h : Inv s) (hi : s.tasks i = some t) {snap : RegistrySnapshot}
    (hphase : t.phase = .refreshing (.accepted snap)) (hgood : s.mirror.accepts snap = true) :
    Inv (Net.withTask { s with mirror := ⟨snap.version, snap.services, true⟩ } i
      (some ⟨t.ops, t.changed, .idle⟩)) where
  core := by
    refine h.core.frame rfl rfl rfl (fun _ => rfl) ?_ (fun k => ?_) fun r hr => ?_
    · exact someTask_withTask_iff
        (s := { s with mirror := ⟨snap.version, snap.services, true⟩ }) hi (by simp [hphase])
    · exact someTask_withTask_iff
        (s := { s with mirror := ⟨snap.version, snap.services, true⟩ }) hi (by simp [hphase])
    · rcases reads_withTask hr with hr | ⟨t', ho, hp⟩
      · exact Or.inl hr
      · obtain rfl := (Option.some.inj ho).symm
        simp at hp
  mirror := by
    obtain ⟨hmem, hrun⟩ := h.mirror.fetched i t _ snap hi hphase rfl
    have hmirror : MirrorOk { s with mirror := ⟨snap.version, snap.services, true⟩ } :=
      ⟨h.mirror.mutated, h.mirror.fetched, Or.inr ⟨snap, hmem, hrun, rfl, rfl⟩, by simp⟩
    refine hmirror.withTask ?_ ?_
    · intro t' b ho hp
      obtain rfl := (Option.some.inj ho).symm
      simp at hp
    · intro t' f snap' ho hp
      obtain rfl := (Option.some.inj ho).symm
      simp at hp
  coming := by
    by_cases hv : snap.version = s.revision
    · exact Or.inl hv
    obtain ⟨hmem, hrun⟩ := h.mirror.fetched i t _ snap hi hphase rfl
    obtain ⟨hpos, hle, -⟩ := h.core.newest _ _ (Or.inr ⟨snap, hmem, hrun, rfl, rfl⟩)
    rcases h.coming with heq | hc
    · -- the mirror was at the present revision, and nothing is newer
      rw [accepts_iff] at hgood
      by_cases hpop : s.mirror.populated = true
      · have := hgood hpop
        omega
      · have := h.mirror.fresh (by simpa using hpop)
        omega
    · refine Or.inr (SomeTask.step
        (s := { s with mirror := ⟨snap.version, snap.services, true⟩ }) hi hc ?_)
      rintro ⟨f, hf, hcoming⟩
      obtain rfl : Refresh.accepted snap = f := by simpa [hphase] using hf
      exact absurd (hcoming snap rfl).2 hv
  consumers := by
    intro c x hx
    refine (h.consumers c x hx).mono rfl rfl (List.Subset.refl _) fun hs => ?_
    exact SomeTask.step (s := { s with mirror := ⟨snap.version, snap.services, true⟩ }) hi hs
      fun hch => ⟨_, rfl, hch⟩

omit [DecidableEq ι] in
/-- What a step of a reading makes of it. -/
theorem read_coming {f : Refresh} (hsnap : f.snap = none) (k : Option Key) :
    (∀ snap, (s.read k f).snap = some snap → snap ∈ s.taken ++ completed (s.read k f)) ∧
      (s.read k f).Coming s.run s.revision := by
  cases f with
  | ask => exact ⟨fun snap h => by simp [Net.read, Refresh.snap] at h,
      fun snap h => by simp [Net.read, Refresh.snap] at h⟩
  | reading r =>
    cases k with
    | some k =>
      have hnone : (s.read (some k) (.reading r)).snap = none := by
        unfold Net.read
        by_cases hk : k ∈ r.seen <;> simp [hk, Refresh.snap]
      exact ⟨fun snap h => by simp [hnone] at h, fun snap h => by simp [hnone] at h⟩
    -- the end of the iteration, or one that still has keys to see
    | none =>
      by_cases hend : ∀ k ∈ r.todo, k ∈ r.seen
      · have hread : s.read none (.reading r) = .received ⟨s.revision, r.built, s.run⟩ :=
          if_pos hend
        rw [hread]
        constructor
        · intro snap h
          obtain rfl : _ = snap := by simpa [Refresh.snap] using h
          simp [completed]
        · intro snap h
          obtain rfl : _ = snap := by simpa [Refresh.snap] using h
          exact ⟨rfl, rfl⟩
      · have hread : s.read none (.reading r) = .reading r := if_neg hend
        rw [hread]
        exact ⟨fun snap h => by simp [Refresh.snap] at h, fun snap h => by simp [Refresh.snap] at h⟩
  | received snap => simp [Refresh.snap] at hsnap
  | accepted snap => simp [Refresh.snap] at hsnap

/-- The server reads on. -/
theorem Inv.serverRead (h : Inv s) (hi : s.tasks i = some t) {f : Refresh} (k : Option Key)
    (hphase : t.phase = .refreshing f) (hsnap : f.snap = none) (hgood : f = .ask → ¬ s.Dirty) :
    Inv (Net.withTask { s with taken := s.taken ++ completed (s.read k f) } i
      (some ⟨t.ops, t.changed, .refreshing (s.read k f)⟩)) := by
  obtain ⟨hmem, hcoming⟩ := read_coming (s := s) hsnap k
  have hsub : s.taken ⊆ s.taken ++ completed (s.read k f) := List.subset_append_left ..
  constructor
  · refine h.core.read (k := k) hgood (fun r hr => ?_) hsnap rfl rfl rfl rfl ?_ (fun k' => ?_)
      fun r hr => ?_
    · exact Or.inl ⟨i, t, hi, hr ▸ hphase⟩
    · exact someTask_withTask_iff (s := { s with taken := s.taken ++ completed (s.read k f) }) hi
        (by simp [hphase])
    · exact someTask_withTask_iff (s := { s with taken := s.taken ++ completed (s.read k f) }) hi
        (by simp [hphase])
    -- a reading is one of before, or the one that this step leaves
    · rcases reads_withTask hr with hr | ⟨t', ho, hp⟩
      · exact Or.inl hr
      · obtain rfl := (Option.some.inj ho).symm
        exact Or.inr (by simpa using hp)
  · refine (h.mirror.congr (n := { s with taken := s.taken ++ completed (s.read k f) }) rfl rfl rfl
      hsub).withTask ?_ ?_
    · intro t' b ho hp
      obtain rfl := (Option.some.inj ho).symm
      simp at hp
    -- the snapshot a task holds was completed, and is of the run
    · intro t' f' snap ho hp hf'
      obtain rfl := (Option.some.inj ho).symm
      obtain rfl : s.read k f = f' := by simpa using hp
      exact ⟨hmem snap hf', (hcoming snap hf').1⟩
  · refine h.coming.imp_right fun hc => ?_
    exact SomeTask.step (s := { s with taken := s.taken ++ completed (s.read k f) }) hi hc
      fun _ => ⟨_, rfl, s.read k f, rfl, hcoming⟩
  · intro c x hx
    refine (h.consumers c x hx).mono rfl rfl hsub fun hs => ?_
    exact SomeTask.step (s := { s with taken := s.taken ++ completed (s.read k f) }) hi hs
      fun hch => ⟨_, rfl, hch⟩

/-- **A step of the server keeps the invariant.** -/
theorem Inv.server [DecidableEq κ] (h : Inv s) {k : Option Key} (hgood : Orderly s (.server i k)) :
    Inv (s.step (.server i k)) := by
  cases hi : s.tasks i with
  | none => simpa only [Net.step, hi] using h
  | some t =>
    have hstep : s.step (.server i k) = s.serverStep i k t := by simp only [Net.step, hi]
    have hchanges := hgood.changes (by simp)
    rw [hstep] at hchanges ⊢
    obtain ⟨ops, changed, phase⟩ := t
    -- one case for each phase, in the order in which a task goes through them
    cases phase with
    | idle =>
      cases ops with
      | nil =>
        cases changed with
        -- the end of the operation: what changed is published
        | true =>
          refine h.publish.returned hi rfl fun _ c x hx => ?_
          obtain ⟨y, -, rfl⟩ := Option.map_eq_some_iff.mp hx
          exact Nat.succ_pos _
        | false => exact h.returned hi rfl (by simp)
      | cons op ops => exact h.touch hi rfl op ops hchanges
    | evicting key b =>
      refine h.evictStep hi rfl fun hchange => hchanges ?_
      -- a removal that shows removes an entry that is there
      obtain ⟨k', hk'⟩ := hchange
      have hsome : (entryAt s.entries key).isSome = true := by
        by_contra hnone
        refine hk' ?_
        rw [shown, entryAt_remove]
        by_cases hkk : k' = key
        · rw [if_pos hkk, hkk, shown, Option.not_isSome_iff_eq_none.mp hnone]
        · rw [if_neg hkk]
          rfl
      have hentries : (s.serverStep i k ⟨ops, changed, .evicting key b⟩).entries
          = remove s.entries key := by
        simp only [Net.serverStep, if_pos hsome]
        rfl
      exact ⟨k', hentries ▸ hk'⟩
    | mutated b => exact h.increment hi rfl
    | refreshing f =>
      cases f with
      | ask => exact h.serverRead hi k rfl rfl fun _ => hgood.begins i k _ rfl hi rfl
      | reading r => exact h.serverRead hi k rfl rfl (by simp)
      | received snap => exact h.check hi rfl
      | accepted snap => exact h.store hi rfl (hgood.mirrors i k _ snap rfl hi rfl)

end Server

/-! ## Steps of the consumers -/

section Consumers

variable [DecidableEq ι] {c : κ} {x : Consumer ι} {i : ι}

theorem withPull_pulls (x : Consumer ι) (i j : ι) (p : Option Pull) :
    (x.withPull i p).pulls j = if j = i then p else x.pulls j := Function.update_apply ..

/-- A consumer still awaits its reset if the task that stepped was none, or still is one. -/
theorem AwaitsReset.step {p : Option Pull} (h : x.AwaitsReset)
    (hstep : x.pulls i = some .resetting ∨ (∃ reg, x.pulls i = some (.resetStore reg)) →
      p = some .resetting ∨ ∃ reg, p = some (.resetStore reg)) : (x.withPull i p).AwaitsReset := by
  rcases h with hn | ⟨j, hj⟩
  · exact Or.inl hn
  by_cases hji : j = i
  · subst hji
    refine Or.inr ⟨j, ?_⟩
    rw [withPull_pulls, if_pos rfl]
    exact hstep hj
  · refine Or.inr ⟨j, ?_⟩
    rwa [withPull_pulls, if_neg hji]

/-- What is owed to a consumer still is after a step of one of its tasks. -/
theorem Owes.step {p : Option Pull} (h : s.Owes x)
    (hstep : ∀ f, x.pulls i = some (.refresh f) → f.Coming s.run s.revision →
      ∃ f', p = some (.refresh f') ∧ f'.Coming s.run s.revision) : s.Owes (x.withPull i p) := by
  rcases h with hn | ⟨j, f, hj, hf⟩ | htask
  · exact Or.inl hn
  · by_cases hji : j = i
    · subst hji
      obtain ⟨f', hp, hf'⟩ := hstep f hj hf
      exact Or.inr (Or.inl ⟨j, f', by rw [withPull_pulls, if_pos rfl, hp], hf'⟩)
    · exact Or.inr (Or.inl ⟨j, f, by rwa [withPull_pulls, if_neg hji], hf⟩)
  · exact Or.inr (Or.inr htask)

/-- What has arrived at a consumer was taken, after a step of one of its tasks too. -/
theorem fetched_withPull {p : Option Pull}
    (h : ∀ i f snap, x.pulls i = some (.refresh f) → f.snap = some snap → snap ∈ s.taken)
    (hp : ∀ f snap, p = some (.refresh f) → f.snap = some snap → snap ∈ s.taken) :
    ∀ j f snap, (x.withPull i p).pulls j = some (.refresh f) → f.snap = some snap →
      snap ∈ s.taken := by
  intro j f snap hj hsnap
  rw [withPull_pulls] at hj
  by_cases hji : j = i
  · rw [if_pos hji] at hj
    exact hp f snap hj hsnap
  · rw [if_neg hji] at hj
    exact h j f snap hj hsnap

theorem coming_ask (run : Nat) (revision : Int) : Refresh.ask.Coming run revision :=
  fun snap h => by simp [Refresh.snap] at h

variable [DecidableEq κ]

omit [DecidableEq ι] in
theorem reads_withConsumer {x' : Consumer ι} {r : Reading} (h : (s.withConsumer c x').Reads r) :
    s.Reads r ∨ ∃ i, x'.pulls i = some (.refresh (.reading r)) := by
  rcases h with h | ⟨d, y, j, hy, hj⟩
  · exact Or.inl (Or.inl h)
  · simp only [Net.withConsumer, Function.update_apply] at hy
    by_cases hd : d = c
    · rw [if_pos hd, Option.some.injEq] at hy
      exact Or.inr ⟨j, hy ▸ hj⟩
    · rw [if_neg hd] at hy
      exact Or.inl (Or.inr ⟨d, y, j, hy, hj⟩)

omit [DecidableEq ι] in
/-- A step of one consumer that reads nothing. -/
theorem Inv.withConsumer (h : Inv s) {x' : Consumer ι} (hok : ConsumerOk s x')
    (hreads : ∀ i r, x'.pulls i = some (.refresh (.reading r)) → s.Reads r) :
    Inv (s.withConsumer c x') where
  core := h.core.frame rfl rfl rfl (fun _ => rfl) Iff.rfl (fun _ => Iff.rfl) fun r hr =>
    Or.inl ((reads_withConsumer hr).elim id fun ⟨i, hi⟩ => hreads i r hi)
  mirror := h.mirror.congr rfl rfl rfl (List.Subset.refl _)
  coming := h.coming
  consumers := by
    intro d y hy
    simp only [Net.withConsumer, Function.update_apply] at hy
    by_cases hd : d = c
    · rw [if_pos hd, Option.some.injEq] at hy
      exact hy ▸ hok.mono rfl rfl (List.Subset.refl _) id
    · rw [if_neg hd] at hy
      exact (h.consumers d y hy).mono rfl rfl (List.Subset.refl _) id

/-- A consumer starts. -/
theorem Inv.join (h : Inv s) : Inv (s.withConsumer c
    ⟨.default, 0, 0, Function.update (fun _ => none) i (some (.refresh .ask))⟩) := by
  have hpulls : ∀ j p, Function.update (fun _ => none) i (some (Pull.refresh .ask)) j = some p →
      p = .refresh .ask := by
    intro j p hj
    rw [Function.update_apply] at hj
    by_cases hji : j = i
    · rw [if_pos hji] at hj
      exact (Option.some.inj hj).symm
    · rw [if_neg hji] at hj
      cases hj
  refine h.withConsumer ⟨?_, Or.inr ⟨Or.inr (Or.inl rfl), Or.inr (Or.inr (Or.inl ?_))⟩⟩ ?_
  · intro j f snap hj hsnap
    obtain rfl : f = .ask := by simpa using hpulls j _ hj
    simp [Refresh.snap] at hsnap
  · exact ⟨i, .ask, by simp, coming_ask _ _⟩
  · intro j r hj
    simpa using hpulls j _ hj

omit [DecidableEq κ] in
theorem reads_withPull (hx : s.consumers c = some x) {p : Option Pull} {j : ι} {r : Reading}
    (hp : p ≠ some (.refresh (.reading r)))
    (hj : (x.withPull i p).pulls j = some (.refresh (.reading r))) : s.Reads r := by
  rw [withPull_pulls] at hj
  by_cases hji : j = i
  · rw [if_pos hji] at hj
    exact absurd hj hp
  · rw [if_neg hji] at hj
    exact Or.inr ⟨c, x, j, hx, hj⟩

/-- A consumer takes a notification. -/
theorem Inv.notice (h : Inv s) (hx : s.consumers c = some x) (hfree : x.pulls i = none) :
    Inv (s.withConsumer c
        ({ x with restarted := x.restarted - 1 }.withPull i (some .resetting))) ∧
      Inv (s.withConsumer c
        ({ x with changed := x.changed - 1 }.withPull i (some (.refresh .ask)))) := by
  obtain ⟨hfetched, hserved⟩ := h.consumers c x hx
  -- after `RESTARTED` a reset is under way
  constructor
  · refine h.withConsumer ⟨?_, Or.inl (Or.inr ⟨i, Or.inl ?_⟩)⟩ fun j r hj => ?_
    · exact fetched_withPull (x := { x with restarted := x.restarted - 1 }) hfetched (by simp)
    · rw [withPull_pulls, if_pos rfl]
    · rw [withPull_pulls] at hj
      by_cases hji : j = i
      · rw [if_pos hji] at hj
        cases hj
      · rw [if_neg hji] at hj
        exact Or.inr ⟨c, x, j, hx, hj⟩
  -- after `CHANGED` a snapshot is asked for
  · refine h.withConsumer ⟨?_, ?_⟩ fun j r hj => ?_
    · refine fetched_withPull (x := { x with changed := x.changed - 1 }) hfetched ?_
      intro f snap hf hsnap
      obtain rfl : Refresh.ask = f := by simpa using hf
      simp [Refresh.snap] at hsnap
    · rcases hserved with hawaits | ⟨hplaced, -⟩
      · refine Or.inl (AwaitsReset.step (x := { x with changed := x.changed - 1 }) hawaits ?_)
        have hfree' : ({ x with changed := x.changed - 1 } : Consumer ι).pulls i = none := hfree
        rw [hfree']
        simp
      · refine Or.inr ⟨hplaced, Or.inr (Or.inr (Or.inl ⟨i, .ask, ?_, coming_ask _ _⟩))⟩
        rw [withPull_pulls, if_pos rfl]
    · rw [withPull_pulls] at hj
      by_cases hji : j = i
      · rw [if_pos hji] at hj
        simp at hj
      · rw [if_neg hji] at hj
        exact Or.inr ⟨c, x, j, hx, hj⟩

/-- The registry is reset, and the next snapshot is taken whatever its version. -/
theorem Inv.reset (h : Inv s) (hx : s.consumers c = some x) (reg : LocalServiceRegistry) :
    Inv (s.withConsumer c (x.withPull i (some (.resetStore reg)))) ∧
      Inv (s.withConsumer c
        ({ x with registry := ⟨minVersion, reg.services, reg.populated⟩ }.withPull i
          (some (.refresh .ask)))) := by
  obtain ⟨hfetched, hserved⟩ := h.consumers c x hx
  constructor
  · refine h.withConsumer ⟨fetched_withPull hfetched (by simp),
      Or.inl (Or.inr ⟨i, Or.inr ⟨reg, ?_⟩⟩)⟩ fun j r hj => reads_withPull hx (by simp) hj
    rw [withPull_pulls, if_pos rfl]
  · refine h.withConsumer ⟨?_, Or.inr ⟨Or.inl rfl, Or.inr (Or.inr (Or.inl ⟨i, .ask, ?_,
      coming_ask _ _⟩))⟩⟩ fun j r hj => ?_
    · refine fetched_withPull (x := { x with
        registry := ⟨minVersion, reg.services, reg.populated⟩ }) hfetched ?_
      intro f snap hf hsnap
      obtain rfl : Refresh.ask = f := by simpa using hf
      simp [Refresh.snap] at hsnap
    · rw [withPull_pulls, if_pos rfl]
    · exact reads_withPull (x := x) (p := some (.refresh .ask)) hx (by simp) hj

/-- The check of a consumer. -/
theorem Inv.pullCheck (h : Inv s) (hx : s.consumers c = some x) {snap : RegistrySnapshot}
    (hi : x.pulls i = some (.refresh (.received snap))) :
    Inv (s.withConsumer c (x.withPull i
      (if x.registry.accepts snap then some (.refresh (.accepted snap)) else none))) := by
  obtain ⟨hfetched, hserved⟩ := h.consumers c x hx
  refine h.withConsumer ⟨fetched_withPull hfetched ?_, ?_⟩ fun j r hj => reads_withPull hx ?_ hj
  · intro f snap' hf hsnap
    by_cases hacc : x.registry.accepts snap = true
    · obtain rfl : Refresh.accepted snap = f := by simpa [hacc] using hf
      exact hfetched i _ snap' hi hsnap
    · simp [hacc] at hf
  · rcases hserved with hawaits | ⟨hplaced, howes⟩
    · refine Or.inl (AwaitsReset.step hawaits ?_)
      rw [hi]
      simp
    refine Or.inr ⟨hplaced, ?_⟩
    rcases howes with heq | howes
    · exact Or.inl heq
    by_cases hacc : x.registry.accepts snap = true
    · refine Or.inr (Owes.step howes fun f hf hcoming => ?_)
      obtain rfl : Refresh.received snap = f := by simpa [hi] using hf
      exact ⟨.accepted snap, by rw [if_pos hacc], hcoming⟩
    by_cases hnow : snap.run = s.run ∧ snap.version = s.revision
    · -- what is refused of the present run is no newer than what is held
      rw [accepts_iff, Classical.not_imp] at hacc
      have hpos := h.core.revision
      rcases hplaced with hmin | hempty | hknown
      · rw [hmin, minVersion] at hacc
        omega
      · rw [hacc.1] at hempty
        cases hempty
      · have hle := (h.core.newest _ _ hknown).2.1
        exact Or.inl ⟨hacc.1, show x.registry.version = s.revision by omega⟩
    · refine Or.inr (Owes.step howes fun f hf hcoming => ?_)
      obtain rfl : Refresh.received snap = f := by simpa [hi] using hf
      exact absurd (hcoming snap rfl) hnow
  · by_cases hacc : x.registry.accepts snap = true <;> simp [hacc]

/-- A consumer takes a snapshot. -/
theorem Inv.pullStore (h : Inv s) (hx : s.consumers c = some x) {snap : RegistrySnapshot}
    (hi : x.pulls i = some (.refresh (.accepted snap)))
    (hgood : x.AwaitsReset ∨ snap.run = s.run ∧ x.registry.accepts snap = true) :
    Inv (s.withConsumer c
      ({ x with registry := ⟨snap.version, snap.services, true⟩ }.withPull i none)) := by
  obtain ⟨hfetched, hserved⟩ := h.consumers c x hx
  refine h.withConsumer ⟨?_, ?_⟩ fun j r hj => reads_withPull (x := x) (p := none) hx (by simp) hj
  · exact fetched_withPull (x := { x with registry := ⟨snap.version, snap.services, true⟩ })
      hfetched (by simp)
  -- a reset that is awaited still comes
  have hawaits : x.AwaitsReset → ({ x with
      registry := ⟨snap.version, snap.services, true⟩ }.withPull i none).AwaitsReset := by
    intro hawaits
    refine AwaitsReset.step (x := { x with
      registry := ⟨snap.version, snap.services, true⟩ }) hawaits ?_
    rw [show ({ x with registry := ⟨snap.version, snap.services, true⟩ } : Consumer ι).pulls i
      = _ from hi]
    simp
  rcases hgood with haw | ⟨hrun, hacc⟩
  · exact Or.inl (hawaits haw)
  refine hserved.imp hawaits fun ⟨hplaced, howes⟩ => ?_
  have hknown : s.Known snap.version snap.services :=
    Or.inr ⟨snap, hfetched i _ snap hi rfl, hrun, rfl, rfl⟩
  refine ⟨Or.inr (Or.inr hknown), ?_⟩
  -- the newest snapshot settles the consumer
  by_cases hv : snap.version = s.revision
  · exact Or.inl ⟨rfl, hv⟩
  -- an older one was taken only from further behind, and what it was owed is owed still
  have hle := (h.core.newest _ _ hknown).2.1
  rcases howes with ⟨hpop, heq⟩ | howes
  · have := accepts_iff.mp hacc hpop
    omega
  · refine Or.inr (Owes.step (x := { x with
      registry := ⟨snap.version, snap.services, true⟩ }) howes fun f hf hcoming => ?_)
    obtain rfl : Refresh.accepted snap = f := by simpa [hi] using hf
    exact absurd (hcoming snap rfl).2 hv

/-- A consumer's snapshot is read on. -/
theorem Inv.pullRead (h : Inv s) (hx : s.consumers c = some x) {f : Refresh} (k : Option Key)
    (hi : x.pulls i = some (.refresh f)) (hsnap : f.snap = none) (hgood : f = .ask → ¬ s.Dirty) :
    Inv (Net.withConsumer { s with taken := s.taken ++ completed (s.read k f) } c
      (x.withPull i (some (.refresh (s.read k f))))) := by
  obtain ⟨hmem, hcoming⟩ := read_coming (s := s) hsnap k
  have hsub : s.taken ⊆ s.taken ++ completed (s.read k f) := List.subset_append_left ..
  constructor
  -- what the reading sees, as for a task of the server
  · refine h.core.read (k := k) hgood (fun r hr => ?_) hsnap rfl rfl rfl rfl Iff.rfl
      (fun _ => Iff.rfl) fun r hr => ?_
    · exact Or.inr ⟨c, x, i, hx, hr ▸ hi⟩
    · rcases reads_withConsumer hr with hr | ⟨j, hj⟩
      · exact Or.inl hr
      · rw [withPull_pulls] at hj
        by_cases hji : j = i
        · rw [if_pos hji] at hj
          exact Or.inr (by simpa using hj)
        · rw [if_neg hji] at hj
          exact Or.inl (Or.inr ⟨c, x, j, hx, hj⟩)
  · exact h.mirror.congr rfl rfl rfl hsub
  · exact h.coming
  · intro d y hy
    simp only [Net.withConsumer, Function.update_apply] at hy
    -- the consumer that reads, and the others
    by_cases hd : d = c
    · rw [if_pos hd, Option.some.injEq] at hy
      obtain ⟨hfetched, hserved⟩ := h.consumers c x hx
      rw [← hy]
      refine ⟨fetched_withPull (s := { s with taken := s.taken ++ completed (s.read k f) })
        (fun j f' snap hj hs => hsub (hfetched j f' snap hj hs)) ?_, ?_⟩
      · intro f' snap hf' hs
        obtain rfl : s.read k f = f' := by simpa using hf'
        exact hmem snap hs
      · rcases hserved with hawaits | ⟨hplaced, -⟩
        · exact Or.inl (AwaitsReset.step hawaits (by simp [hi]))
        · refine Or.inr ⟨hplaced.imp_right (Or.imp_right fun hk => hk.mono rfl hsub), Or.inr
            (Or.inr (Or.inl ⟨i, s.read k f, ?_, hcoming⟩))⟩
          rw [withPull_pulls, if_pos rfl]
    · rw [if_neg hd] at hy
      exact (h.consumers d y hy).mono rfl rfl hsub id

/-- **A step of a consumer keeps the invariant.** -/
theorem Inv.pull (h : Inv s) {k : Option Key} (hgood : Orderly s (.pull c i k)) :
    Inv (s.step (.pull c i k)) := by
  cases hx : s.consumers c with
  | none => simpa only [Net.step, hx] using h
  | some x =>
    cases hi : x.pulls i with
    | none => simpa only [Net.step, hx, hi] using h
    | some p =>
      have hstep : s.step (.pull c i k) = s.pullStep c x i k p := by simp only [Net.step, hx, hi]
      rw [hstep]
      cases p with
      | resetting => exact (h.reset hx x.registry).1
      | resetStore reg => exact (h.reset hx reg).2
      | refresh f =>
        cases f with
        | ask => exact h.pullRead hx k hi rfl fun _ => hgood.pulls c i k x rfl hx hi
        | reading r => exact h.pullRead hx k hi rfl (by simp)
        | received snap => exact h.pullCheck hx hi
        | accepted snap => exact h.pullStore hx hi (hgood.stores c i k x snap rfl hx hi)

end Consumers

/-! ## Runs -/

section Runs

variable [DecidableEq ι] [DecidableEq κ]

/-- A restart: the run has no snapshot yet, and every consumer will be told. -/
theorem Inv.restart (h : Inv s) : Inv (s.step .restart) := by
  have hnone : ∀ P : ServerTask → Prop, ¬ (s.step .restart).SomeTask P := by
    rintro P ⟨i, t, hi, -⟩
    cases hi
  -- a fetch that was being read is cut off
  have hreads : ∀ r, ¬ (s.step .restart).Reads r := by
    rintro r (hr | ⟨c, x, i, hx, hi⟩)
    · exact hnone _ hr
    · obtain ⟨y, -, rfl⟩ := Option.map_eq_some_iff.mp hx
      unfold Consumer.cutOff at hi
      dsimp only at hi
      split at hi
      · cases hi
      · rename_i hne
        exact hne r hi
  -- no snapshot is of the new run yet
  have hknown : ∀ v services, (s.step .restart).Known v services → v = 0 ∧ services = [] := by
    rintro v services (hk | ⟨a, ha, harun, -⟩)
    · exact hk
    · have : a.run ≤ s.run := h.core.runs a ha
      have : a.run = s.run + 1 := harun
      omega
  constructor
  -- the empty registry is what snapshot 0 shows
  · refine ⟨fun a ha => Nat.le_succ_of_le (h.core.runs a ha), h.core.numbered, ?_,
      fun r hr => absurd hr (hreads r), fun k hk => absurd hk (hnone _)⟩
    intro v services hk
    obtain ⟨rfl, rfl⟩ := hknown v services hk
    exact ⟨le_refl _, le_refl _, fun _ _ _ => rfl⟩
  · refine ⟨?_, ?_, Or.inl ⟨rfl, rfl⟩, fun _ => rfl⟩
    · intro i t b hi
      cases hi
    · intro i t f snap hi
      cases hi
  · exact Or.inl rfl
  -- every consumer is told of the restart
  · intro c x hx
    obtain ⟨y, hy, rfl⟩ := Option.map_eq_some_iff.mp hx
    refine ⟨?_, Or.inl (Or.inl (Nat.succ_pos _))⟩
    intro i f snap hi hsnap
    unfold Consumer.cutOff at hi
    dsimp only at hi
    split at hi
    · cases hi
    · exact (h.consumers c y hy).fetched i f snap hi hsnap

omit [DecidableEq ι] [DecidableEq κ] in
theorem Inv.initial : Inv (.initial ι κ) where
  core :=
    { runs := by simp [Net.initial]
      numbered := by simp [Net.initial, Net.Numbered]
      newest := by
        rintro v services (⟨rfl, rfl⟩ | ⟨a, ha, -⟩)
        · exact ⟨le_refl _, le_refl _, fun _ _ _ => rfl⟩
        · simp [Net.initial] at ha
      reading := by
        rintro r (⟨i, t, hi, -⟩ | ⟨c, x, i, hx, -⟩)
        · cases hi
        · cases hx
      evict := by
        rintro k ⟨i, t, hi, -⟩
        cases hi }
  mirror :=
    { mutated := by
        intro i t b hi
        cases hi
      fetched := by
        intro i t f snap hi
        cases hi
      known := Or.inl ⟨rfl, rfl⟩
      fresh := fun _ => rfl }
  coming := Or.inl rfl
  consumers := fun c x hx => by cases hx

/-- **Every orderly step keeps the invariant.** -/
theorem Inv.step (h : Inv s) {e : Event ι κ} (hgood : Orderly s e) : Inv (s.step e) := by
  cases e with
  | serve i ops =>
    cases hi : s.tasks i with
    | some t => simpa only [Net.step, hi] using h
    | none =>
      simp only [Net.step, hi]
      exact h.serve hi ops
  | server i k => exact h.server hgood
  | join c i =>
    cases hx : s.consumers c with
    | some x => simpa only [Net.step, hx] using h
    | none =>
      simp only [Net.step, hx]
      exact h.join
  | notice c i restarted =>
    cases hx : s.consumers c with
    | none => simpa only [Net.step, hx] using h
    | some x =>
      cases hi : x.pulls i with
      | some p => simpa only [Net.step, hx, hi] using h
      | none =>
        -- a notification is taken if one is waiting
        obtain ⟨hrestarted, hchanged⟩ := h.notice hx hi
        simp only [Net.step, hx, hi]
        by_cases hr : restarted = true
        · rw [if_pos hr]
          by_cases hzero : x.restarted = 0
          · rwa [if_pos hzero]
          · rwa [if_neg hzero]
        · rw [if_neg hr]
          by_cases hzero : x.changed = 0
          · rwa [if_pos hzero]
          · rwa [if_neg hzero]
  | pull c i k => exact h.pull hgood
  | restart => exact h.restart

omit [DecidableEq ι] [DecidableEq κ] in
/-- In quiet the invariant says what is asked for. -/
theorem Inv.converged (h : Inv s) (hquiet : s.Quiet) : s.Converged := by
  have hnone : ∀ P : ServerTask → Prop, ¬ s.SomeTask P := by
    rintro P ⟨i, t, hi, -⟩
    rw [hquiet.1 i] at hi
    cases hi
  have hclean : ¬ s.Dirty := by
    rintro (hs | ⟨k, hs⟩) <;> exact hnone _ hs
  constructor
  -- the mirror: no task is left to bring a snapshot, so it has the newest
  · rcases h.coming with heq | hc
    · exact (h.core.newest _ _ h.mirror.known).2.2 heq hclean
    · exact absurd hc (hnone _)
  · intro c x hx
    obtain ⟨hchanged, hrestarted, hpulls⟩ := hquiet.2 c x hx
    -- a consumer: no reset is awaited, and nothing is owed to it
    rcases (h.consumers c x hx).served with hawaits | ⟨hplaced, howes⟩
    · rcases hawaits with hn | ⟨i, hi | ⟨reg, hi⟩⟩
      · omega
      · rw [hpulls i] at hi
        cases hi
      · rw [hpulls i] at hi
        cases hi
    rcases howes with ⟨hpop, heq⟩ | hn | ⟨i, f, hi, -⟩ | htask
    -- it has the newest version, which no snapshot but one of this run can have
    · have hpos := h.core.revision
      rcases hplaced with hmin | hempty | hknown
      · rw [hmin, minVersion] at heq
        omega
      · rw [hpop] at hempty
        cases hempty
      · exact (h.core.newest _ _ hknown).2.2 heq hclean
    · omega
    · rw [hpulls i] at hi
      cases hi
    · exact absurd htask (hnone _)

/-- **The registry is consistent and converges.** In every state that orderly steps reach, two
snapshots of one run with the same version have the same content, and if nothing is under way the
mirror and every consumer hold the instances of the server. -/
theorem registry_converges {es : List (Event ι κ)}
    (hes : Along Net.step Orderly (.initial ι κ) es) :
    (run Net.step (.initial ι κ) es).Numbered ∧
      ((run Net.step (.initial ι κ) es).Quiet → (run Net.step (.initial ι κ) es).Converged) := by
  have hinv : Inv (run Net.step (.initial ι κ) es) :=
    Along.invariant (fun s e h hgood => h.step hgood) Inv.initial hes
  exact ⟨hinv.core.numbered, hinv.converged⟩

/-- What is next stored in the registry it accepts. -/
def LocalServiceRegistry.takes (reg : LocalServiceRegistry) : Phase → Bool
  | .refreshing (.accepted snap) => reg.accepts snap
  | _ => true

/-- A task alone is orderly, if the mirror takes what it brings. -/
theorem Orderly.of_alone [Subsingleton ι] [IsEmpty κ] {i : ι} {k : Option Key}
    (h : (s.tasks i).all (fun t => s.mirror.takes t.phase) = true) : Orderly s (.server i k) where
  begins := by
    rintro _ _ t ⟨⟩ hi hphase hdirty
    have hnone : ∀ P : ServerTask → Prop, ¬ P t → ¬ s.SomeTask P := by
      rintro P hP ⟨j, t', hj, ht'⟩
      obtain rfl := Subsingleton.elim i j
      obtain rfl : t = t' := Option.some.inj (hi.symm.trans hj)
      exact hP ht'
    rcases hdirty with hs | ⟨k, hs⟩
    · exact hnone _ (by simp [hphase]) hs
    · exact hnone _ (by simp [hphase]) hs
  pulls c := isEmptyElim c
  changes := by
    rintro - ⟨k', hk'⟩ r (⟨j, t, hj, hphase⟩ | ⟨c, -⟩)
    · obtain rfl := Subsingleton.elim i j
      have hstep : s.step (.server i k) = s.serverStep i k t := by simp only [Net.step, hj]
      have hentries : (s.serverStep i k t).entries = s.entries := by
        unfold Net.serverStep
        rw [hphase]
        rfl
      rw [hstep, hentries] at hk'
      exact hk' rfl
    · exact isEmptyElim c
  mirrors := by
    rintro _ _ t snap ⟨⟩ hi hphase
    rw [hi, Option.all_some, hphase] at h
    exact h
  stores c := isEmptyElim c

/-! ## Two registrations -/

def orders : RegisterRequest := ⟨"orders", "o1", "http://o1", "1", ""⟩

def billing : RegisterRequest := ⟨"billing", "b1", "http://b1", "1", ""⟩

/-- One registration from its request to its answer. -/
def oneRegistration : List (Event Unit Empty) :=
  .serve () [.register orders] ::
    [none, none, none, some ("orders", "o1"), none, none, none, none].map (.server ())

theorem oneRegistration_orderly : Along Net.step Orderly (.initial Unit Empty) oneRegistration := by
  have hserve : Orderly (.initial Unit Empty) (.serve () [.register orders]) :=
    ⟨by simp, by simp, fun _ ⟨k, hk⟩ => absurd rfl hk, by simp, by simp⟩
  refine ⟨hserve, ?_⟩
  exact ⟨.of_alone (by decide), .of_alone (by decide), .of_alone (by decide), .of_alone (by decide),
    .of_alone (by decide), .of_alone (by decide), .of_alone (by decide), .of_alone (by decide),
    trivial⟩

/-- One registration converges. -/
theorem registry_converges_alone :
    (run Net.step (.initial Unit Empty) oneRegistration).Numbered ∧
      ((run Net.step (.initial Unit Empty) oneRegistration).Quiet →
        (run Net.step (.initial Unit Empty) oneRegistration).Converged) :=
  registry_converges oneRegistration_orderly

/-- Two registrations: the second changes the map and counts up while the first reads it. -/
def twoRegistrations : List (Event Bool Empty) :=
  [.serve false [.register orders], .serve true [.register billing],
    .server false none, .server false none, .server false none,
    .server false (some ("orders", "o1")),
    .server true none, .server true none,
    .server false none, .server false none, .server false none,
    .server true none, .server true (some ("orders", "o1")), .server true (some ("billing", "b1")),
    .server true none, .server true none,
    .server false none, .server true none]

/-- **Two registrations lose one.** Both snapshots have version 2, and the mirror keeps the one
without the second service for good. -/
theorem registration_lost :
    ¬ (run Net.step (.initial Bool Empty) twoRegistrations).Numbered ∧
      (run Net.step (.initial Bool Empty) twoRegistrations).Quiet ∧
      ¬ (run Net.step (.initial Bool Empty) twoRegistrations).Converged := by
  refine ⟨fun h => ?_, ⟨fun i => ?_, fun c => c.elim⟩, fun h => ?_⟩
  · have htaken : (run Net.step (.initial Bool Empty) twoRegistrations).taken =
        [⟨2, [(("orders", "o1"), orders.registration.info)], 0⟩,
          ⟨2, [(("billing", "b1"), billing.registration.info),
            (("orders", "o1"), orders.registration.info)], 0⟩] := by decide
    unfold Net.Numbered at h
    rw [htaken] at h
    have hsame := h _ List.mem_cons_self _ (List.mem_cons_of_mem _ List.mem_cons_self) rfl rfl
      ("billing", "b1")
    revert hsame
    decide
  · cases i <;> decide
  · have := h.1 ("billing", "b1")
    revert this
    decide

end Runs

end Invariant

end PlmCore.Platform.Environment
