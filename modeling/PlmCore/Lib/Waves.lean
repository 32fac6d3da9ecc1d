/-
A search that goes on in waves: all elements of a wave are looked at together, and those they lead to that
were not seen before are the next wave.

The search ends when a wave is empty. Then the waves together hold each element that can be reached once,
whatever the order in which a wave is looked at. Each wave has at least one new element, so there are not
more waves than elements.
-/
import PlmCore.Lib.WorkList

set_option autoImplicit false

namespace PlmCore.Lib

variable {α : Type} [DecidableEq α]

/-- What was seen, and what of it is to be looked at next. -/
structure Frontier (α : Type) where
  seen : List α
  wave : List α

/-- An element that is kept joins the wave, unless it was seen. -/
def Frontier.add (keep : α → Bool) (s : Frontier α) (a : α) : Frontier α :=
  if keep a ∧ a ∉ s.seen then ⟨s.seen ++ [a], s.wave ++ [a]⟩ else s

def Frontier.addAll (keep : α → Bool) (s : Frontier α) (as : List α) : Frontier α := as.foldl (Frontier.add keep) s

/-- The waves from a frontier on, for a number of rounds. -/
def waves (keep : α → Bool) (found : List α → List α) : Nat → Frontier α → Option (List (List α))
  | _, ⟨_, []⟩ => some []
  | 0, ⟨_, _ :: _⟩ => none
  | rounds + 1, ⟨seen, a :: wave⟩ =>
    (waves keep found rounds (Frontier.addAll keep ⟨seen, []⟩ (found (a :: wave)))).map ((a :: wave) :: ·)

variable {keep : α → Bool} {found : List α → List α} {next : α → List α}

/-- **What joins the wave**: it is new, kept and each element joins once. -/
theorem Frontier.addAll_spec (s : Frontier α) (as : List α) (hseen : s.seen.Nodup) :
    ∃ new, s.addAll keep as = ⟨s.seen ++ new, s.wave ++ new⟩ ∧ (s.seen ++ new).Nodup ∧
      (∀ a ∈ new, a ∈ as ∧ keep a = true) ∧ ∀ a ∈ as, keep a = true → a ∈ s.seen ++ new := by
  induction as generalizing s with
  | nil =>
    refine ⟨[], ?_, ?_, fun _ ha => absurd ha List.not_mem_nil, fun _ ha => absurd ha List.not_mem_nil⟩
    · simp [addAll]
    · rwa [List.append_nil]
  | cons a as ih =>
    unfold addAll
    rw [List.foldl_cons, ← addAll]
    by_cases hadd : keep a ∧ a ∉ s.seen
    · rw [add, if_pos hadd]
      have hnodup : (s.seen ++ [a]).Nodup := by
        refine List.nodup_append.mpr ⟨hseen, List.nodup_singleton a, ?_⟩
        rintro b hb c hc rfl
        rw [List.mem_singleton] at hc
        exact hadd.2 (hc ▸ hb)
      obtain ⟨new, heq, hall, hnew, hin⟩ := ih ⟨s.seen ++ [a], s.wave ++ [a]⟩ hnodup
      simp only [List.append_assoc, List.singleton_append] at heq hall hin
      refine ⟨a :: new, heq, hall, ?_, ?_⟩
      · rintro b hb
        obtain rfl | hb := List.mem_cons.mp hb
        · exact ⟨List.mem_cons_self, hadd.1⟩
        · exact ⟨List.mem_cons_of_mem _ (hnew b hb).1, (hnew b hb).2⟩
      · intro b hb hkeep
        obtain rfl | hb := List.mem_cons.mp hb
        · exact List.mem_append_right _ List.mem_cons_self
        · exact hin b hb hkeep
    · rw [add, if_neg hadd]
      obtain ⟨new, heq, hall, hnew, hin⟩ := ih s hseen
      refine ⟨new, heq, hall, fun b hb => ⟨List.mem_cons_of_mem _ (hnew b hb).1, (hnew b hb).2⟩, ?_⟩
      intro b hb hkeep
      obtain rfl | hb := List.mem_cons.mp hb
      · refine List.mem_append_left _ ?_
        by_contra hnot
        exact hadd ⟨hkeep, hnot⟩
      · exact hin b hb hkeep

/-- More rounds change nothing. -/
theorem waves_mono {rounds more : Nat} {s : Frontier α} {ws : List (List α)} (h : waves keep found rounds s = some ws)
    (hmore : rounds ≤ more) : waves keep found more s = some ws := by
  fun_induction waves keep found rounds s generalizing more ws with
  | case1 rounds seen => rwa [waves]
  | case2 seen a wave => cases h
  | case3 rounds seen a wave ih =>
    obtain ⟨more, rfl⟩ : ∃ n, more = n + 1 := ⟨more - 1, by omega⟩
    obtain ⟨rest, hrest, rfl⟩ := Option.map_eq_some_iff.mp h
    rw [waves, ih hrest (by omega), Option.map_some]

/-- The successors that are kept. -/
def keptNext (keep : α → Bool) (next : α → List α) (a : α) : List α := (next a).filter keep

omit [DecidableEq α] in
theorem mem_keptNext {a b : α} : b ∈ keptNext keep next a ↔ b ∈ next a ∧ keep b = true := List.mem_filter

/-- Where the search is: what was looked at led only to what was seen, and all can be reached. -/
structure Searching (keep : α → Bool) (next : α → List α) (start past : List α) (s : Frontier α) : Prop where
  seen : s.seen = past ++ s.wave
  nodup : s.seen.Nodup
  closed : ∀ a ∈ past, keptNext keep next a ⊆ s.seen
  reach : ∀ a ∈ s.seen, keep a = true ∧ Reach (keptNext keep next) (start.filter keep) a
  start : start.filter keep ⊆ s.seen

/-- **One wave.** -/
theorem Searching.wave {start past seen wave : List α} (h : Searching keep next start past ⟨seen, wave⟩)
    (hfound : ∀ wave b, b ∈ found wave ↔ ∃ a ∈ wave, b ∈ next a) :
    Searching keep next start (past ++ wave) (Frontier.addAll keep ⟨seen, []⟩ (found wave)) := by
  obtain ⟨new, heq, hnodup, hnew, hin⟩ := Frontier.addAll_spec ⟨seen, []⟩ (found wave) h.nodup
  rw [heq]
  have hseen : seen = past ++ wave := h.seen
  refine ⟨?_, hnodup, ?_, ?_, ?_⟩
  · rw [hseen]
    rfl
  · intro a ha b hb
    obtain ha | ha := List.mem_append.mp ha
    · exact List.mem_append_left _ (h.closed a ha hb)
    · rw [mem_keptNext] at hb
      exact hin b ((hfound wave b).mpr ⟨a, ha, hb.1⟩) hb.2
  · intro a ha
    obtain ha | ha := List.mem_append.mp ha
    · exact h.reach a ha
    · obtain ⟨hmem, hkeep⟩ := hnew a ha
      obtain ⟨b, hb, hab⟩ := (hfound wave a).mp hmem
      have hreach := (h.reach b (hseen ▸ List.mem_append_right _ hb)).2
      exact ⟨hkeep, hreach.tail (mem_keptNext.mpr ⟨hab, hkeep⟩)⟩
  · exact fun a ha => List.mem_append_left _ (h.start ha)

omit [DecidableEq α] in
/-- **An empty wave**: all that can be reached was looked at. -/
theorem Searching.mem_iff {start past seen : List α} (h : Searching keep next start past ⟨seen, []⟩) (a : α) :
    a ∈ past ↔ Reach (keptNext keep next) (start.filter keep) a := by
  have hseen : seen = past := h.seen.trans (List.append_nil past)
  constructor
  · exact fun ha => (h.reach a (hseen ▸ ha)).2
  · refine fun ha => ha.mem_of_closed (fun b hb => hseen ▸ h.start hb) ?_
    exact fun b hb c hc => hseen ▸ h.closed b hb hc

omit [DecidableEq α] in
theorem Searching.length_le {start past : List α} {s : Frontier α} (h : Searching keep next start past s) {U : List α}
    (hU : ∀ a, keep a = true → a ∈ U) : past.length + s.wave.length ≤ U.length := by
  have hle := (h.nodup.subperm fun a ha => hU a (h.reach a ha).1).length_le
  rwa [h.seen, List.length_append] at hle

/-- **The waves end**, by induction on the rounds that are left. -/
theorem Searching.ends {start past : List α} {s : Frontier α} (h : Searching keep next start past s)
    (hfound : ∀ wave b, b ∈ found wave ↔ ∃ a ∈ wave, b ∈ next a) {U : List α} (hU : ∀ a, keep a = true → a ∈ U)
    {rounds : Nat} (hrounds : U.length ≤ rounds + past.length) :
    ∃ ws, waves keep found rounds s = some ws ∧ (past ++ ws.flatten).Nodup ∧
      ∀ a, a ∈ past ++ ws.flatten ↔ Reach (keptNext keep next) (start.filter keep) a := by
  have hdone : ∀ {past : List α} {seen : List α}, Searching keep next start past ⟨seen, []⟩ →
      (past ++ ([] : List (List α)).flatten).Nodup ∧
        ∀ a, a ∈ past ++ ([] : List (List α)).flatten ↔ Reach (keptNext keep next) (start.filter keep) a := by
    intro past seen h
    rw [List.flatten_nil, List.append_nil]
    have hseen : seen = past := h.seen.trans (List.append_nil past)
    exact ⟨hseen ▸ h.nodup, h.mem_iff⟩
  induction rounds generalizing past s with
  | zero =>
    obtain ⟨seen, wave⟩ := s
    cases wave with
    | nil => exact ⟨[], rfl, hdone h⟩
    | cons a wave =>
      have hle := h.length_le hU
      rw [List.length_cons] at hle
      omega
  | succ rounds ih =>
    obtain ⟨seen, wave⟩ := s
    cases wave with
    | nil => exact ⟨[], rfl, hdone h⟩
    | cons a wave =>
      have hnext := h.wave hfound
      have hlength : U.length ≤ rounds + (past ++ a :: wave).length := by
        rw [List.length_append, List.length_cons]
        omega
      obtain ⟨ws, hws, hnodup, hmem⟩ := ih hnext hlength
      refine ⟨(a :: wave) :: ws, ?_, ?_, ?_⟩
      · rw [waves, hws, Option.map_some]
      · rwa [List.flatten_cons, ← List.append_assoc]
      · rwa [List.flatten_cons, ← List.append_assoc]

/-- **The waves from the start** end after as many rounds as there are elements at most, and hold each element
that can be reached once. -/
theorem waves_spec (hfound : ∀ wave b, b ∈ found wave ↔ ∃ a ∈ wave, b ∈ next a) {U : List α}
    (hU : ∀ a, keep a = true → a ∈ U) (start : List α) {rounds : Nat} (hrounds : U.length ≤ rounds) :
    ∃ ws, waves keep found rounds (Frontier.addAll keep ⟨[], []⟩ start) = some ws ∧ ws.flatten.Nodup ∧
      ∀ a, a ∈ ws.flatten ↔ Reach (keptNext keep next) (start.filter keep) a := by
  obtain ⟨new, heq, hnodup, hnew, hin⟩ := @Frontier.addAll_spec _ _ keep ⟨[], []⟩ start List.nodup_nil
  have hstart : Searching keep next start [] (Frontier.addAll keep ⟨[], []⟩ start) := by
    rw [heq]
    refine ⟨rfl, hnodup, fun a ha => absurd ha List.not_mem_nil, ?_, ?_⟩
    · intro a ha
      obtain ⟨hmem, hkeep⟩ := hnew a ha
      exact ⟨hkeep, .start (List.mem_filter.mpr ⟨hmem, hkeep⟩)⟩
    · intro a ha
      obtain ⟨hmem, hkeep⟩ := List.mem_filter.mp ha
      exact hin a hmem hkeep
  exact hstart.ends hfound hU hrounds

end PlmCore.Lib
