/-
A work list: the elements that were found, in the order in which they were found, the first of them with
their successors already looked at.

An element is put into the list at most once, so the loop ends after as many rounds as there are elements,
and then it has found what can be reached from those it began with, in whatever order successors come.
-/
import PlmCore.Lib.Search

set_option autoImplicit false

namespace PlmCore.Lib

open Relation

variable {α : Type} (next : α → List α)

/-- What can be reached from the elements of a list. -/
def Reach (start : List α) (b : α) : Prop := ∃ a ∈ start, ReflTransGen (fun x y => y ∈ next x) a b

variable {next} {a b : α}

theorem Reach.start {start : List α} (h : a ∈ start) : Reach next start a := ⟨a, h, .refl⟩

theorem Reach.tail {start : List α} (h : Reach next start a) (hb : b ∈ next a) : Reach next start b := by
  obtain ⟨c, hc, hreach⟩ := h
  exact ⟨c, hc, hreach.tail hb⟩

/-- What a closed set contains of the start, it contains of all that is reached. -/
theorem Reach.mem_of_closed {start : List α} {S : α → Prop} (hstart : ∀ a ∈ start, S a)
    (hclosed : ∀ a, S a → ∀ b ∈ next a, S b) (h : Reach next start b) : S b := by
  obtain ⟨a, ha, hreach⟩ := h
  induction hreach with
  | refl => exact hstart a ha
  | tail _ hstep ih => exact hclosed _ ih _ hstep

theorem Reach.mono {next' : α → List α} (hnext : ∀ a, next a ⊆ next' a) {start start' : List α}
    (hstart : start ⊆ start') (h : Reach next start b) : Reach next' start' b :=
  h.mem_of_closed (fun _ ha => .start (hstart ha)) fun _ ha _ hb => ha.tail (hnext _ hb)

/-! ## The loop -/

variable [DecidableEq α]

/-- The elements `done` have been looked at, those in the queue not yet. -/
def workList (next : α → List α) : Nat → List α → List α → Option (List α)
  | _, done, [] => some done
  | 0, _, _ :: _ => none
  | rounds + 1, done, a :: queue =>
    workList next rounds (done ++ [a]) (queue ++ freshKeys (done ++ a :: queue) (next a))

variable {done queue visited U : List α} {rounds : Nat}

theorem subset_freshKeys (h : done ++ a :: queue ⊆ U) (hnext : next a ⊆ U) :
    (done ++ [a]) ++ (queue ++ freshKeys (done ++ a :: queue) (next a)) ⊆ U := by
  intro b hb
  simp only [List.mem_append, List.mem_singleton, mem_freshKeys] at hb
  obtain (hb | rfl) | hb | hb := hb
  · exact h (List.mem_append_left _ hb)
  · exact h (List.mem_append_right _ List.mem_cons_self)
  · exact h (List.mem_append_right _ (List.mem_cons_of_mem _ hb))
  · exact hnext hb.1

theorem nodup_freshKeys (h : (done ++ a :: queue).Nodup) :
    ((done ++ [a]) ++ (queue ++ freshKeys (done ++ a :: queue) (next a))).Nodup := by
  have hnodup := nodup_append_freshKeys h (next a)
  simpa only [List.append_assoc, List.cons_append, List.nil_append] using hnodup

/-- **A work list ends** when it has as many rounds as there are elements. -/
theorem workList_isSome (hU : ∀ a ∈ U, next a ⊆ U) (hnodup : (done ++ queue).Nodup)
    (hsub : done ++ queue ⊆ U) (hrounds : U.length ≤ rounds + done.length) :
    ∃ visited, workList next rounds done queue = some visited := by
  induction rounds generalizing done queue with
  | zero =>
    cases queue with
    | nil => exact ⟨done, by rw [workList]⟩
    | cons a queue =>
      have hle := (hnodup.subperm hsub).length_le
      rw [List.length_append, List.length_cons] at hle
      omega
  | succ rounds ih =>
    cases queue with
    | nil => exact ⟨done, by rw [workList]⟩
    | cons a queue =>
      have ha : a ∈ U := hsub (List.mem_append_right _ List.mem_cons_self)
      rw [workList]
      refine ih (nodup_freshKeys hnodup) (subset_freshKeys hsub (hU a ha)) ?_
      rw [List.length_append, List.length_singleton]
      omega

/-- More rounds change nothing. -/
theorem workList_mono {more : Nat} (h : workList next rounds done queue = some visited)
    (hmore : rounds ≤ more) : workList next more done queue = some visited := by
  fun_induction workList next rounds done queue generalizing more with
  | case1 rounds done => rwa [workList]
  | case2 done a queue => cases h
  | case3 rounds done a queue ih =>
    obtain ⟨more, rfl⟩ : ∃ n, more = n + 1 := ⟨more - 1, by omega⟩
    rw [workList]
    exact ih h (by omega)

/-! ## What it finds -/

/-- **The loop.** What has been looked at has its successors in the list. -/
theorem workList_closed (hdone : ∀ a ∈ done, next a ⊆ done ++ queue)
    (h : workList next rounds done queue = some visited) : ∀ a ∈ visited, next a ⊆ visited := by
  fun_induction workList next rounds done queue with
  | case1 rounds done =>
    cases h
    rwa [List.append_nil] at hdone
  | case2 done a queue => cases h
  | case3 rounds done a queue ih =>
    refine ih ?_ h
    intro c hc b hb
    by_cases hseen : b ∈ done ++ a :: queue
    · simp only [List.mem_append, List.mem_cons] at hseen ⊢
      tauto
    · obtain hc | hc := List.mem_append.mp hc
      · exact absurd (hdone c hc hb) hseen
      · obtain rfl := List.mem_singleton.mp hc
        exact List.mem_append_right _ (List.mem_append_right _ (mem_freshKeys.mpr ⟨hb, hseen⟩))

theorem workList_reach {start : List α} (hstart : ∀ a ∈ done ++ queue, Reach next start a)
    (h : workList next rounds done queue = some visited) :
    done ++ queue ⊆ visited ∧ ∀ a ∈ visited, Reach next start a := by
  fun_induction workList next rounds done queue with
  | case1 rounds done =>
    cases h
    rw [List.append_nil] at hstart ⊢
    exact ⟨List.Subset.refl visited, hstart⟩
  | case2 done a queue => cases h
  | case3 rounds done a queue ih =>
    have ha : Reach next start a := hstart a (List.mem_append_right _ List.mem_cons_self)
    have hnew : ∀ b ∈ (done ++ [a]) ++ (queue ++ freshKeys (done ++ a :: queue) (next a)),
        Reach next start b := by
      intro b hb
      simp only [List.mem_append, List.mem_singleton, mem_freshKeys] at hb
      obtain (hb | rfl) | hb | hb := hb
      · exact hstart b (List.mem_append_left _ hb)
      · exact ha
      · exact hstart b (List.mem_append_right _ (List.mem_cons_of_mem _ hb))
      · exact ha.tail hb.1
    obtain ⟨hsub, hreach⟩ := ih hnew h
    refine ⟨fun b hb => hsub ?_, hreach⟩
    simp only [List.mem_append, List.mem_cons, List.not_mem_nil, or_false] at hb ⊢
    tauto

theorem workList_nodup (hnodup : (done ++ queue).Nodup) (h : workList next rounds done queue = some visited) :
    visited.Nodup := by
  fun_induction workList next rounds done queue with
  | case1 rounds done =>
    cases h
    rwa [List.append_nil] at hnodup
  | case2 done a queue => cases h
  | case3 rounds done a queue ih => exact ih (nodup_freshKeys hnodup) h

/-- **What a work list finds** is what can be reached. -/
theorem mem_workList_iff {start : List α} (h : workList next rounds [] start = some visited) :
    b ∈ visited ↔ Reach next start b := by
  obtain ⟨hsub, hreach⟩ := workList_reach (fun a ha => .start ha) h
  refine ⟨hreach b, fun hb => hb.mem_of_closed (fun a ha => hsub ha) ?_⟩
  exact workList_closed (fun a ha => absurd ha List.not_mem_nil) h

end PlmCore.Lib
