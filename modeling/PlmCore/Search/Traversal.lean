/-
`GraphTraversalService.traverse`: the levels of a walk over the edge index, one call at a time.

The iterator has emitted some levels and keeps the last one. It reads the next one ahead when it is
first asked for it, by `hasNext` or by `next`, and takes out what was visited. Whatever the calls were,
the levels emitted and those still to come are the levels of the walk, and these are the nodes by their
distance from the root.
-/
import Mathlib.Data.Finset.Dedup
import PlmCore.Lib.Distance
import PlmCore.Lib.Run
import PlmCore.Search.SearchController

set_option autoImplicit false

namespace PlmCore.Search

open Lib

/-! ## The walk -/

/-- The context at a fixed time. -/
def ConfigContext.at (ctx : ConfigContext) (t : Int) : ConfigContext := { ctx with asOfEpochMs := some t }

/-- An edge that counts in a context at a time: a constraint the edge does not have is met. -/
structure Edge.ValidIn (e : Edge) (ctx : ConfigContext) (structuralOnly : Bool) (t : Int) : Prop where
  structural : structuralOnly = true → e.structural = true
  notBefore : ∀ start ∈ e.validFrom, start ≤ t
  notAfter : ∀ stop ∈ e.validTo, t ≤ stop
  country : ∀ c ∈ ctx.country, e.countries = [] ∨ c ∈ e.countries
  profile : ∀ p ∈ ctx.profile, e.profiles = [] ∨ p ∈ e.profiles

/-- Some edge that counts leads from a node to another. -/
def LeadsTo (edges : List Edge) (ctx : ConfigContext) (structuralOnly : Bool) (t : Int) (a b : String) :
    Prop :=
  ∃ e ∈ edges, e.srcId = a ∧ e.dstId = b ∧ e.ValidIn ctx structuralOnly t

theorem optionalConstraint_iff {values : List String} {asked : Option String} :
    optionalConstraint values asked = true ↔ ∀ v ∈ asked, values = [] ∨ v ∈ values := by
  cases asked <;> simp [optionalConstraint]

variable {edges : List Edge} {ctx : ConfigContext} {structuralOnly : Bool} {t : Int}

theorem leads_iff {e : Edge} {frontier : Finset String} {clock : Int} :
    e.leads frontier (ctx.at t) structuralOnly clock = true ↔
      e.srcId ∈ frontier ∧ e.ValidIn ctx structuralOnly t := by
  simp only [Edge.leads, ConfigContext.at, Option.getD_some, Bool.and_eq_true, decide_eq_true_eq,
    optionalConstraint_iff, Bool.or_eq_true, Bool.not_eq_true', Option.all_eq_true, and_assoc]
  refine and_congr_right fun _ => ⟨?_, ?_⟩
  · rintro ⟨hstructural, hsince, huntil, hcountry, hprofile⟩
    refine ⟨fun htrue => ?_, fun start hstart => ?_, fun stop hstop => ?_, hcountry, hprofile⟩
    · exact hstructural.resolve_left (by simp [htrue])
    · exact of_decide_eq_true (hsince start hstart)
    · exact of_decide_eq_true (huntil stop hstop)
  · intro h
    refine ⟨?_, fun start hstart => ?_, fun stop hstop => ?_, h.country, h.profile⟩
    · cases structuralOnly with
      | false => exact .inl rfl
      | true => exact .inr (h.structural rfl)
    · exact decide_eq_true (h.notBefore start hstart)
    · exact decide_eq_true (h.notAfter stop hstop)

/-- A hop finds the nodes that edges lead to from the frontier. -/
theorem mem_resolveHop {frontier : Finset String} {clock : Int} {b : String} :
    b ∈ resolveHop edges frontier (ctx.at t) structuralOnly clock ↔
      ∃ a ∈ frontier, LeadsTo edges ctx structuralOnly t a b := by
  simp only [resolveHop, List.mem_toFinset, List.mem_map, List.mem_filter, leads_iff]
  constructor
  · rintro ⟨e, ⟨he, hsrc, hvalid⟩, rfl⟩
    exact ⟨e.srcId, hsrc, e, he, rfl, rfl, hvalid⟩
  · rintro ⟨a, ha, e, he, rfl, rfl, hvalid⟩
    exact ⟨e, ⟨he, ha, hvalid⟩, rfl⟩

section Levels

variable (edges ctx structuralOnly t)

/-- The nodes at a distance from the root. -/
abbrev NodeAt (rootId : String) (n : Nat) (b : String) : Prop :=
  AtDistance (LeadsTo edges ctx structuralOnly t) rootId n b

variable {edges ctx structuralOnly t}

variable {rootId : String} {clock : Nat → Int}

/-- What a hop finds that was not visited is the next level. -/
theorem mem_next_level {n : Nat} {frontier visited : Finset String} {now : Int}
    (hfrontier : ∀ b, b ∈ frontier ↔ NodeAt edges ctx structuralOnly t rootId n b)
    (hvisited : ∀ b, b ∈ visited ↔ ∃ m ≤ n, NodeAt edges ctx structuralOnly t rootId m b) (b : String) :
    b ∈ resolveHop edges frontier (ctx.at t) structuralOnly now \ visited ↔
      NodeAt edges ctx structuralOnly t rootId (n + 1) b := by
  unfold NodeAt at hfrontier hvisited ⊢
  rw [Finset.mem_sdiff, mem_resolveHop, hvisited, atDistance_succ_iff]
  simp only [hfrontier, not_exists, not_and]

/-- **The levels behind a level.** Each has the nodes at its distance, and they go on as long as there are
such nodes and hops left. -/
theorem hops_exact (left : Nat) {n : Nat} {frontier visited : Finset String}
    (hfrontier : ∀ b, b ∈ frontier ↔ NodeAt edges ctx structuralOnly t rootId n b)
    (hvisited : ∀ b, b ∈ visited ↔ ∃ m ≤ n, NodeAt edges ctx structuralOnly t rootId m b) (i : Nat) :
    (∀ level, (hops edges (ctx.at t) structuralOnly clock left n frontier visited)[i]? = some level →
      level.hop = n + 1 + i ∧
        ∀ b, b ∈ level.ids ↔ NodeAt edges ctx structuralOnly t rootId (n + 1 + i) b) ∧
    (i < (hops edges (ctx.at t) structuralOnly clock left n frontier visited).length ↔
      i < left ∧ ∃ b, NodeAt edges ctx structuralOnly t rootId (n + 1 + i) b) := by
  induction left generalizing n frontier visited i with
  | zero => exact ⟨fun level h => (nomatch h), by simp [hops]⟩
  | succ left ih =>
    have hraw := @mem_next_level edges ctx structuralOnly t rootId n frontier visited (clock n) hfrontier hvisited
    unfold hops
    dsimp only
    split
    · rename_i hempty
      refine ⟨fun level h => (nomatch h), iff_of_false (Nat.not_lt_zero _) ?_⟩
      rintro ⟨-, b, hb⟩
      obtain ⟨c, hc⟩ := hb.nearer (Nat.le_add_right (n + 1) i)
      have hmem := (hraw c).mpr hc
      rw [hempty] at hmem
      exact Finset.notMem_empty c hmem
    · rename_i hnonempty
      have hvisited' : ∀ b, b ∈ visited ∪ (resolveHop edges frontier (ctx.at t) structuralOnly (clock n) \
          visited) ↔ ∃ m ≤ n + 1, NodeAt edges ctx structuralOnly t rootId m b := by
        intro b
        rw [Finset.mem_union, hraw, hvisited]
        simp only [Nat.le_succ_iff, or_and_right, exists_or, exists_eq_left]
      cases i with
      | zero =>
        refine ⟨fun level h => ?_, iff_of_true (Nat.succ_pos _) ⟨Nat.succ_pos _, ?_⟩⟩
        · obtain rfl := Option.some.inj h
          exact ⟨rfl, hraw⟩
        · obtain ⟨b, hb⟩ := Finset.nonempty_of_ne_empty hnonempty
          exact ⟨b, (hraw b).mp hb⟩
      | succ i =>
        have hrest := ih hraw hvisited' i
        rw [Nat.add_right_comm (n + 1) 1 i] at hrest
        refine ⟨hrest.1, ?_⟩
        rw [List.length_cons, Nat.add_lt_add_iff_right, Nat.add_lt_add_iff_right]
        exact hrest.2

/-- **The walk by distance.** -/
theorem traverse_exact (maxHops n : Nat) :
    (∀ level, (traverse edges rootId (ctx.at t) structuralOnly maxHops clock)[n]? = some level →
      level.hop = n ∧ ∀ b, b ∈ level.ids ↔ NodeAt edges ctx structuralOnly t rootId n b) ∧
    (n < (traverse edges rootId (ctx.at t) structuralOnly maxHops clock).length ↔
      n ≤ maxHops ∧ ∃ b, NodeAt edges ctx structuralOnly t rootId n b) := by
  have hroot : ∀ b, b ∈ ({rootId} : Finset String) ↔ NodeAt edges ctx structuralOnly t rootId 0 b := by
    intro b
    exact Finset.mem_singleton.trans (eq_comm.trans atDistance_zero.symm)
  have hvisited : ∀ b, b ∈ ({rootId} : Finset String) ↔
      ∃ m ≤ 0, NodeAt edges ctx structuralOnly t rootId m b := by
    intro b
    rw [hroot]
    simp only [Nat.le_zero, exists_eq_left]
  unfold traverse
  cases n with
  | zero =>
    refine ⟨fun level h => ?_, iff_of_true (Nat.succ_pos _) ⟨Nat.zero_le _, rootId, ?_⟩⟩
    · obtain rfl := Option.some.inj h
      exact ⟨rfl, hroot⟩
    · exact atDistance_zero.mpr rfl
  | succ n =>
    have hrest := @hops_exact edges ctx structuralOnly t rootId clock maxHops 0 {rootId} {rootId} hroot hvisited n
    rw [Nat.zero_add, Nat.add_comm 1 n] at hrest
    refine ⟨hrest.1, ?_⟩
    rw [List.length_cons, Nat.add_lt_add_iff_right, Nat.succ_le_iff]
    exact hrest.2

end Levels

/-! ## The iterator -/

/-- The fields of the iterator that `traverse` returns. -/
structure BfsIterator where
  frontier : Finset String
  visited : Finset String
  hop : Nat
  rootEmitted : Bool
  nextFrontier : Option (Finset String)

namespace BfsIterator

/-- The iterator as `traverse` makes it. -/
def start (rootId : String) : BfsIterator := ⟨{rootId}, {rootId}, 0, false, none⟩

variable (edges : List Edge) (ctx : ConfigContext) (structuralOnly : Bool) (maxHops : Int)
  (clock : Nat → Int) (it : BfsIterator)

/-- `prefetch`, where there is nothing read ahead. -/
def prefetch : BfsIterator :=
  match it.nextFrontier with
  | some _ => it
  | none =>
    let raw := resolveHop edges it.frontier ctx structuralOnly (clock it.hop) \ it.visited
    { it with visited := it.visited ∪ raw, nextFrontier := some raw }

/-- The frontier that was read ahead; `prefetch` goes before. -/
def ahead : Finset String := it.nextFrontier.getD ∅

/-- `hasNext`. -/
def hasNext : Bool × BfsIterator :=
  if it.rootEmitted then
    let it := it.prefetch edges ctx structuralOnly clock
    (it.ahead ≠ ∅ && it.hop < maxHops, it)
  else (true, it)

/-- `next`. -/
def next : BfsLevel × BfsIterator :=
  if it.rootEmitted then
    let it := it.prefetch edges ctx structuralOnly clock
    (⟨it.hop + 1, it.ahead⟩,
      { it with frontier := it.ahead, nextFrontier := none, hop := it.hop + 1 })
  else (⟨0, it.frontier⟩, { it with rootEmitted := true })

/-- The levels behind the frontier. -/
def behind : List BfsLevel :=
  match it.nextFrontier with
  | none => hops edges ctx structuralOnly clock (maxHops.toNat - it.hop) it.hop it.frontier it.visited
  | some raw =>
    if raw ≠ ∅ ∧ it.hop < maxHops then
      ⟨it.hop + 1, raw⟩ ::
        hops edges ctx structuralOnly clock (maxHops.toNat - (it.hop + 1)) (it.hop + 1) raw it.visited
    else []

/-- The levels still to come. -/
def rest : List BfsLevel :=
  if it.rootEmitted then it.behind edges ctx structuralOnly maxHops clock
  else ⟨0, it.frontier⟩ :: it.behind edges ctx structuralOnly maxHops clock

variable {edges ctx structuralOnly maxHops clock it}

theorem rootEmitted_prefetch :
    (it.prefetch edges ctx structuralOnly clock).rootEmitted = it.rootEmitted := by
  unfold prefetch
  split <;> rfl

theorem nextFrontier_prefetch : (it.prefetch edges ctx structuralOnly clock).nextFrontier =
    some (it.prefetch edges ctx structuralOnly clock).ahead := by
  unfold ahead prefetch
  split
  · rename_i hsome
    rw [hsome]
    rfl
  · rfl

/-- Reading ahead changes nothing that is to come. -/
theorem behind_prefetch : (it.prefetch edges ctx structuralOnly clock).behind edges ctx structuralOnly
    maxHops clock = it.behind edges ctx structuralOnly maxHops clock := by
  unfold prefetch
  split
  · rfl
  · rename_i hnone
    unfold behind
    rw [hnone]
    dsimp only
    -- one hop is left exactly when the last one is before the limit
    by_cases hlt : it.hop < maxHops
    · obtain ⟨left, hleft⟩ : ∃ left, maxHops.toNat - it.hop = left + 1 :=
        Nat.exists_eq_add_one.mpr (by omega)
      have hnext : maxHops.toNat - (it.hop + 1) = left := by omega
      rw [hleft, hnext, hops]
      split
      · rename_i hboth
        rw [if_neg hboth.1]
      · rename_i hempty
        rw [if_pos (not_not.mp fun hne => hempty ⟨hne, hlt⟩)]
    · have hleft : maxHops.toNat - it.hop = 0 := by omega
      rw [if_neg fun hboth => hlt hboth.2, hleft, hops]

theorem rest_prefetch : (it.prefetch edges ctx structuralOnly clock).rest edges ctx structuralOnly
    maxHops clock = it.rest edges ctx structuralOnly maxHops clock := by
  have hfrontier : (it.prefetch edges ctx structuralOnly clock).frontier = it.frontier := by
    unfold prefetch
    split <;> rfl
  unfold rest
  rw [rootEmitted_prefetch, behind_prefetch, hfrontier]

/-- Nothing is read ahead twice. -/
theorem prefetch_idem : (it.prefetch edges ctx structuralOnly clock).prefetch edges ctx structuralOnly
    clock = it.prefetch edges ctx structuralOnly clock := by
  have hsome := @nextFrontier_prefetch edges ctx structuralOnly clock it
  generalize it.prefetch edges ctx structuralOnly clock = it' at hsome
  unfold prefetch
  rw [hsome]

/-- `hasNext` tells whether a level is to come. -/
theorem hasNext_iff : (it.hasNext edges ctx structuralOnly maxHops clock).1 = true ↔
    it.rest edges ctx structuralOnly maxHops clock ≠ [] := by
  unfold hasNext
  split
  · rename_i h
    rw [← rest_prefetch]
    unfold rest behind
    rw [rootEmitted_prefetch, if_pos h, nextFrontier_prefetch]
    dsimp only
    split <;> simp_all
  · rename_i h
    unfold rest
    rw [if_neg h]
    simp

/-- `hasNext` changes nothing that is to come. -/
theorem rest_hasNext : (it.hasNext edges ctx structuralOnly maxHops clock).2.rest edges ctx
    structuralOnly maxHops clock = it.rest edges ctx structuralOnly maxHops clock := by
  unfold hasNext
  split
  · exact rest_prefetch
  · rfl

/-- `next` gives the first of the levels to come. -/
theorem rest_next (h : it.rest edges ctx structuralOnly maxHops clock ≠ []) :
    it.rest edges ctx structuralOnly maxHops clock = (it.next edges ctx structuralOnly clock).1 ::
      (it.next edges ctx structuralOnly clock).2.rest edges ctx structuralOnly maxHops clock := by
  unfold next
  split
  · rename_i hemitted
    have hahead := @rootEmitted_prefetch edges ctx structuralOnly clock it
    rw [← rest_prefetch] at h ⊢
    unfold rest at h ⊢
    rw [hahead, if_pos hemitted] at h
    dsimp only
    rw [hahead, if_pos hemitted, if_pos hemitted]
    unfold behind at h ⊢
    rw [nextFrontier_prefetch] at h ⊢
    dsimp only at h ⊢
    split at h
    · rename_i hboth
      rw [if_pos hboth]
    · exact absurd rfl h
  · rename_i hemitted
    unfold rest
    rw [if_neg hemitted]
    rfl

/-- Asking twice is asking once. -/
theorem hasNext_hasNext : (it.hasNext edges ctx structuralOnly maxHops clock).2.hasNext edges ctx
    structuralOnly maxHops clock = it.hasNext edges ctx structuralOnly maxHops clock := by
  by_cases h : it.rootEmitted = true
  · unfold hasNext
    rw [if_pos h, if_pos (rootEmitted_prefetch.trans h), prefetch_idem]
  · unfold hasNext
    rw [if_neg h, if_neg h]

/-- Asking does not change what `next` does. -/
theorem next_hasNext : (it.hasNext edges ctx structuralOnly maxHops clock).2.next edges ctx
    structuralOnly clock = it.next edges ctx structuralOnly clock := by
  by_cases h : it.rootEmitted = true
  · unfold hasNext next
    rw [if_pos h, if_pos (rootEmitted_prefetch.trans h), if_pos h, prefetch_idem]
  · unfold hasNext
    rw [if_neg h]

end BfsIterator

/-! ## Iterating -/

inductive IteratorCall
  | hasNext
  | next

/-- An iterator, and the levels it gave. -/
structure Iteration where
  it : BfsIterator
  levels : List BfsLevel

def Iteration.start (rootId : String) : Iteration := ⟨.start rootId, []⟩

section Iterate

variable (edges : List Edge) (ctx : ConfigContext) (structuralOnly : Bool) (maxHops : Int)
  (clock : Nat → Int)

/-- One call. -/
def Iteration.call (s : Iteration) : IteratorCall → Iteration
  | .hasNext => { s with it := (s.it.hasNext edges ctx structuralOnly maxHops clock).2 }
  | .next =>
    let result := s.it.next edges ctx structuralOnly clock
    ⟨result.2, s.levels ++ [result.1]⟩

/-- `next` is called only when `hasNext` answers that there is one. -/
def Iteration.Asked (s : Iteration) (c : IteratorCall) : Prop :=
  c = .next → (s.it.hasNext edges ctx structuralOnly maxHops clock).1 = true

variable {edges ctx structuralOnly maxHops clock} {rootId : String}

/-- **The step lemma.** The levels given and those to come are the levels of the walk. -/
theorem Iteration.levels_call {s : Iteration} {levels : List BfsLevel}
    (h : s.levels ++ s.it.rest edges ctx structuralOnly maxHops clock = levels) {c : IteratorCall}
    (hc : s.Asked edges ctx structuralOnly maxHops clock c) :
    (s.call edges ctx structuralOnly maxHops clock c).levels ++ (s.call edges ctx structuralOnly maxHops
      clock c).it.rest edges ctx structuralOnly maxHops clock = levels := by
  cases c with
  | hasNext =>
    rw [← h]
    exact congrArg (s.levels ++ ·) BfsIterator.rest_hasNext
  | next =>
    have hrest := BfsIterator.rest_next (BfsIterator.hasNext_iff.mp (hc rfl))
    rw [hrest] at h
    rw [← h]
    exact List.append_assoc ..

/-- **The run lemma.** -/
theorem Iteration.levels_run {calls : List IteratorCall}
    (h : Along (Iteration.call edges ctx structuralOnly maxHops clock)
      (Iteration.Asked edges ctx structuralOnly maxHops clock) (Iteration.start rootId) calls) :
    (run (Iteration.call edges ctx structuralOnly maxHops clock) (Iteration.start rootId) calls).levels ++
      (run (Iteration.call edges ctx structuralOnly maxHops clock) (Iteration.start rootId)
        calls).it.rest edges ctx structuralOnly maxHops clock =
      traverse edges rootId ctx structuralOnly maxHops clock := by
  have hstep : ∀ (s : Iteration) (c : IteratorCall),
      s.levels ++ s.it.rest edges ctx structuralOnly maxHops clock =
        traverse edges rootId ctx structuralOnly maxHops clock →
      s.Asked edges ctx structuralOnly maxHops clock c →
      (s.call edges ctx structuralOnly maxHops clock c).levels ++ (s.call edges ctx structuralOnly
        maxHops clock c).it.rest edges ctx structuralOnly maxHops clock =
        traverse edges rootId ctx structuralOnly maxHops clock :=
    fun _ _ hs hc => Iteration.levels_call hs hc
  exact Along.invariant hstep rfl h

end Iterate

/-- What an iteration over the levels promises, however often `hasNext` was called: each level has the
nodes at its distance, all of them come within the limit, and asking changes nothing. -/
structure Iteration.BreadthFirst (edges : List Edge) (ctx : ConfigContext) (structuralOnly : Bool) (t : Int)
    (rootId : String) (maxHops : Nat) (clock : Nat → Int) (s : Iteration) : Prop where
  level : ∀ n level, s.levels[n]? = some level → level.hop = n ∧ n ≤ maxHops ∧ level.ids.Nonempty ∧
    ∀ b, b ∈ level.ids ↔ NodeAt edges ctx structuralOnly t rootId n b
  more : (s.it.hasNext edges (ctx.at t) structuralOnly maxHops clock).1 = true ↔
    s.levels.length ≤ maxHops ∧ ∃ b, NodeAt edges ctx structuralOnly t rootId s.levels.length b
  complete : (s.it.hasNext edges (ctx.at t) structuralOnly maxHops clock).1 = false →
    ∀ n ≤ maxHops, ∀ b, NodeAt edges ctx structuralOnly t rootId n b →
      ∃! i : Nat, ∃ level : BfsLevel, s.levels[i]? = some level ∧ b ∈ level.ids
  again : (s.it.hasNext edges (ctx.at t) structuralOnly maxHops clock).2.hasNext edges (ctx.at t)
    structuralOnly maxHops clock = s.it.hasNext edges (ctx.at t) structuralOnly maxHops clock
  same : (s.it.hasNext edges (ctx.at t) structuralOnly maxHops clock).2.next edges (ctx.at t)
    structuralOnly clock = s.it.next edges (ctx.at t) structuralOnly clock
  ends : s.levels.length ≤ maxHops + 1 ∧ s.levels.length ≤ edges.length + 1

/-- A node at a distance is the root or the end of an edge. -/
theorem mem_of_nodeAt {edges : List Edge} {ctx : ConfigContext} {structuralOnly : Bool} {t : Int}
    {rootId b : String} {n : Nat} (h : NodeAt edges ctx structuralOnly t rootId n b) :
    b ∈ insert rootId (edges.map (·.dstId)).toFinset := by
  cases n with
  | zero => exact Finset.mem_insert.mpr (.inl (atDistance_zero.mp h).symm)
  | succ n =>
    obtain ⟨⟨a, -, e, he, -, rfl, -⟩, -⟩ := atDistance_succ_iff.mp h
    exact Finset.mem_insert_of_mem (List.mem_toFinset.mpr (List.mem_map_of_mem he))

/-- **The traversal is breadth first and exact** for every pattern of calls in which `next` is called only
where `hasNext` says so. -/
theorem traverse_is_breadth_first (edges : List Edge) (ctx : ConfigContext) (structuralOnly : Bool)
    (t : Int) (rootId : String) (maxHops : Nat) (clock : Nat → Int) (calls : List IteratorCall)
    (h : Along (Iteration.call edges (ctx.at t) structuralOnly maxHops clock)
      (Iteration.Asked edges (ctx.at t) structuralOnly maxHops clock) (Iteration.start rootId) calls) :
    (run (Iteration.call edges (ctx.at t) structuralOnly maxHops clock) (Iteration.start rootId)
      calls).BreadthFirst edges ctx structuralOnly t rootId maxHops clock := by
  have hwalk := Iteration.levels_run h
  generalize run (Iteration.call edges (ctx.at t) structuralOnly maxHops clock) (Iteration.start rootId)
    calls = s at hwalk
  have hexact := @traverse_exact edges ctx structuralOnly t rootId clock maxHops
  rw [← hwalk] at hexact
  have hlevel : ∀ n level, s.levels[n]? = some level → level.hop = n ∧ n ≤ maxHops ∧ level.ids.Nonempty ∧
      ∀ b, b ∈ level.ids ↔ NodeAt edges ctx structuralOnly t rootId n b := by
    intro n level hn
    have hlt := (List.getElem?_eq_some_iff.mp hn).1
    obtain ⟨hhop, hids⟩ := (hexact n).1 level (List.getElem?_append_left hlt ▸ hn)
    obtain ⟨hle, b, hb⟩ := (hexact n).2.mp (List.length_append ▸ Nat.lt_add_right _ hlt)
    exact ⟨hhop, hle, ⟨b, (hids b).mpr hb⟩, hids⟩
  have hmore : (s.it.hasNext edges (ctx.at t) structuralOnly maxHops clock).1 = true ↔
      s.levels.length ≤ maxHops ∧ ∃ b, NodeAt edges ctx structuralOnly t rootId s.levels.length b := by
    rw [BfsIterator.hasNext_iff, ← (hexact s.levels.length).2, List.length_append,
      Nat.lt_add_right_iff_pos, List.length_pos_iff]
  refine ⟨hlevel, hmore, fun hdone n hn b hb => ?_, BfsIterator.hasNext_hasNext,
    BfsIterator.next_hasNext, ?_, ?_⟩
  · have hrest : s.it.rest edges (ctx.at t) structuralOnly maxHops clock = [] := by
      by_contra hne
      rw [BfsIterator.hasNext_iff.mpr hne] at hdone
      cases hdone
    have hlt := (hexact n).2.mpr ⟨hn, b, hb⟩
    rw [hrest, List.append_nil] at hlt
    have hget := List.getElem?_eq_getElem hlt
    refine ⟨n, ⟨s.levels[n], hget, ((hlevel n _ hget).2.2.2 b).mpr hb⟩, ?_⟩
    rintro i ⟨level, hi, hmem⟩
    exact (((hlevel i level hi).2.2.2 b).mp hmem).unique hb
  · by_contra hlt
    have hget := List.getElem?_eq_getElem (show maxHops + 1 < s.levels.length by omega)
    exact absurd (hlevel _ _ hget).2.1 (by omega)
  · have hcard := distances_le_card (r := LeadsTo edges ctx structuralOnly t) (a := rootId)
      (insert rootId (edges.map (·.dstId)).toFinset) fun i hi => by
        obtain ⟨-, -, ⟨b, hb⟩, hids⟩ := hlevel i _ (List.getElem?_eq_getElem hi)
        have hnode := (hids b).mp hb
        exact ⟨b, mem_of_nodeAt hnode, hnode⟩
    refine hcard.trans ((Finset.card_insert_le _ _).trans (Nat.succ_le_succ ?_))
    exact (List.toFinset_card_le _).trans (List.length_map _).le

/-- Two parts that use each other. -/
def cycleOfParts : List Edge :=
  [⟨"a", "uses", "b", true, [], [], none, none⟩, ⟨"b", "uses", "a", true, ["FR"], [], none, some 9⟩]

def askTwice : List IteratorCall := [.next, .hasNext, .hasNext, .next, .hasNext]

theorem traverse_is_breadth_first_cycle :
    (run (Iteration.call cycleOfParts (ConfigContext.empty.at 5) true (7 : Nat) fun _ => 0)
      (Iteration.start "a") askTwice).BreadthFirst cycleOfParts ConfigContext.empty true 5 "a" 7
        fun _ => 0 :=
  traverse_is_breadth_first cycleOfParts ConfigContext.empty true 5 "a" 7 (fun _ => 0) askTwice
    ⟨fun _ => rfl, nofun, nofun, fun _ => by decide, nofun, trivial⟩

end PlmCore.Search
