/-
Breadth-first search the way services write it: a queue of keys, the set of keys seen so
far, and for each key the rows a query returns for it. The search stops with `true` at the
first row that satisfies the goal; the rows of one query only contribute the keys that
were not seen before. The fuel bounds the number of keys the search takes from the queue.
-/
import Mathlib.Data.List.Dedup
import Mathlib.Data.List.Perm.Subperm
import Mathlib.Logic.Relation
import Mathlib.Tactic.Common

set_option autoImplicit false

namespace PlmCore.Lib

variable {κ ρ : Type} [DecidableEq κ]

/-- The keys not seen before, each once. -/
def freshKeys (visited ks : List κ) : List κ := (ks.filter (· ∉ visited)).dedup

/-- The search. `rows q` are the rows found for a key, `key r` is the key a row leads to. -/
def search (rows : κ → List ρ) (goal : ρ → Bool) (key : ρ → Option κ) :
    Nat → List κ → List κ → Bool
  | 0, _, _ => false
  | _ + 1, [], _ => false
  | fuel + 1, q :: queue, visited =>
    if (rows q).any goal then true
    else search rows goal key fuel (queue ++ freshKeys visited ((rows q).filterMap key))
      (visited ++ freshKeys visited ((rows q).filterMap key))

theorem mem_freshKeys {visited ks : List κ} {k : κ} :
    k ∈ freshKeys visited ks ↔ k ∈ ks ∧ k ∉ visited := by
  simp [freshKeys]

/-- Appending the fresh keys keeps the list free of repetitions. -/
theorem nodup_append_freshKeys {visited : List κ} (h : visited.Nodup) (ks : List κ) :
    (visited ++ freshKeys visited ks).Nodup := by
  refine List.nodup_append.mpr ⟨h, List.nodup_dedup _, ?_⟩
  rintro a ha b hb rfl
  exact (mem_freshKeys.mp hb).2 ha

end PlmCore.Lib
