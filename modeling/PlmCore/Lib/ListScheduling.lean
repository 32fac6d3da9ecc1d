/-
Sharing items out to buckets: each item in turn goes to the first of the least loaded buckets.

Where the items come in the order of their sizes, the largest first, no bucket is ahead of another by more
than any item it holds. A bucket with one item can not be better, and where a second item joins a bucket all
buckets hold one that is not smaller, so that any other way of sharing out puts two such items together. What
a bucket holds is therefore at most one and a half times what the fullest bucket holds in any other way.
-/
import Mathlib.Data.List.Sort
import Mathlib.Algebra.Order.BigOperators.Group.List
import Mathlib.Algebra.Order.Ring.Nat
import Mathlib.Tactic.Ring

set_option autoImplicit false

namespace PlmCore.Lib

variable {α : Type} (size : α → Nat)

/-- What a bucket was given, and the sizes of it together. -/
structure Bucket (α : Type) where
  load : Nat
  items : List α

/-- The place of the first least load: `best` is the place and load found so far, `place` that of the next. -/
def leastPlace (best : Nat × Nat) (place : Nat) : List (Bucket α) → Nat
  | [] => best.1
  | b :: bs => leastPlace (if b.load < best.2 then (place, b.load) else best) (place + 1) bs

/-- The bucket with one item more. -/
def Bucket.give (a : α) (b : Bucket α) : Bucket α := ⟨b.load + size a, b.items ++ [a]⟩

/-- The item goes to the first of the least loaded buckets; there must be one. -/
def shareOne (a : α) : List (Bucket α) → Option (List (Bucket α))
  | [] => none
  | b :: bs => some ((b :: bs).modify (leastPlace (0, b.load) 1 bs) (Bucket.give size a))

/-- All items, one after the other. -/
def shareOut (buckets : List (Bucket α)) (as : List α) : Option (List (Bucket α)) :=
  as.foldlM (fun bs a => shareOne size a bs) buckets

/-! ## One item -/

/-- The place found is that of a least load among those looked at. -/
theorem leastPlace_spec (before bs : List (Bucket α)) {best : Nat × Nat} {b : Bucket α}
    (hbest : before[best.1]? = some b) (hload : best.2 = b.load) (hleast : ∀ b' ∈ before, b.load ≤ b'.load) :
    ∃ c, (before ++ bs)[leastPlace best before.length bs]? = some c ∧
      ∀ b' ∈ before ++ bs, c.load ≤ b'.load := by
  induction bs generalizing before best b with
  | nil => exact ⟨b, by rwa [List.append_nil, leastPlace], by rwa [List.append_nil]⟩
  | cons d bs ih =>
    rw [leastPlace, List.append_cons before d bs, ← @List.length_concat _ before d, List.concat_eq_append]
    by_cases hlt : d.load < best.2
    · rw [if_pos hlt]
      refine @ih (before ++ [d]) _ d (by simp) rfl fun b' hb' => ?_
      obtain hb' | hb' := List.mem_append.mp hb'
      · have hle := hleast b' hb'
        omega
      · rw [List.mem_singleton.mp hb']
    · rw [if_neg hlt]
      have hplace : best.1 < before.length := (List.getElem?_eq_some_iff.mp hbest).1
      refine @ih (before ++ [d]) _ b (by rwa [List.getElem?_append_left hplace]) hload fun b' hb' => ?_
      obtain hb' | hb' := List.mem_append.mp hb'
      · exact hleast b' hb'
      · rw [List.mem_singleton.mp hb']
        omega

/-- **One item**: it joins a bucket whose load is least, and the others stay as they are. -/
theorem shareOne_spec {a : α} {bs bs' : List (Bucket α)} (h : shareOne size a bs = some bs') :
    ∃ before b after, bs = before ++ b :: after ∧ bs' = before ++ b.give size a :: after ∧
      ∀ b' ∈ bs, b.load ≤ b'.load := by
  cases bs with
  | nil => cases h
  | cons d bs =>
    obtain ⟨b, hb, hleast⟩ := @leastPlace_spec _ [d] bs (0, d.load) d rfl rfl (by simp)
    obtain ⟨hplace, hget⟩ := List.getElem?_eq_some_iff.mp hb
    refine ⟨(d :: bs).take (leastPlace (0, d.load) 1 bs), b, (d :: bs).drop (leastPlace (0, d.load) 1 bs + 1),
      ?_, ?_, hleast⟩
    · rw [← hget]
      exact (List.take_append_drop _ _).symm.trans (congrArg _ (List.drop_eq_getElem_cons hplace))
    · rw [← hget]
      exact (Option.some.inj h).symm.trans (List.modify_eq_take_cons_drop hplace)

/-! ## Items in the order of their sizes -/

/-- What sharing out keeps when the largest items come first. -/
structure Shared (bs : List (Bucket α)) : Prop where
  load : ∀ b ∈ bs, b.load = (b.items.map size).sum
  ahead : ∀ b ∈ bs, ∀ a ∈ b.items, ∀ b' ∈ bs, b.load ≤ b'.load + size a
  met : ∀ b ∈ bs, 2 ≤ b.items.length →
    ∃ a ∈ b.items, 0 < size a → bs.length < (bs.flatMap Bucket.items).countP fun x => size a ≤ size x

variable {size}

theorem shared_empty (m : Nat) : Shared size (List.replicate m (⟨0, []⟩ : Bucket α)) where
  load b hb := by rw [List.eq_of_mem_replicate hb]; rfl
  ahead b hb a ha := by
    rw [List.eq_of_mem_replicate hb] at ha
    exact absurd ha List.not_mem_nil
  met b hb htwo := by
    rw [List.eq_of_mem_replicate hb] at htwo
    exact absurd htwo (by simp)

theorem shareOne_perm {a : α} {bs bs' : List (Bucket α)} (h : shareOne size a bs = some bs') :
    bs'.length = bs.length ∧ (bs'.flatMap Bucket.items).Perm (bs.flatMap Bucket.items ++ [a]) := by
  obtain ⟨before, b, after, rfl, rfl, -⟩ := shareOne_spec size h
  refine ⟨by simp, ?_⟩
  simp only [List.flatMap_append, List.flatMap_cons, Bucket.give, List.append_assoc]
  exact (List.perm_append_comm.append_left _).append_left _

/-- Buckets that hold something each hold at least as many items as there are buckets. -/
theorem length_le_items {bs : List (Bucket α)} (h : ∀ b ∈ bs, b.items ≠ []) :
    bs.length ≤ (bs.flatMap Bucket.items).length := by
  induction bs with
  | nil => exact Nat.le_refl 0
  | cons b bs ih =>
    obtain ⟨hb, hbs⟩ := List.forall_mem_cons.mp h
    have hone := List.length_pos_iff.mpr hb
    have hrest := ih hbs
    rw [List.flatMap_cons, List.length_append, List.length_cons]
    omega

/-- A bucket with a load holds something. -/
theorem Shared.items_ne_nil {bs : List (Bucket α)} (h : Shared size bs) {b : Bucket α} (hb : b ∈ bs)
    (hload : 0 < b.load) : b.items ≠ [] := by
  intro hnil
  rw [h.load b hb, hnil] at hload
  exact absurd hload (Nat.lt_irrefl 0)

/-- **One item**, not larger than those shared out before. -/
theorem Shared.shareOne {a : α} {bs bs' : List (Bucket α)} (h : Shared size bs)
    (hlast : ∀ x ∈ bs.flatMap Bucket.items, size a ≤ size x) (heq : shareOne size a bs = some bs') :
    Shared size bs' := by
  obtain ⟨hlength, hperm⟩ := shareOne_perm heq
  obtain ⟨before, b, after, rfl, rfl, hleast⟩ := shareOne_spec size heq
  have hmem : ∀ c ∈ before ++ b.give size a :: after,
      c = b.give size a ∨ c ∈ before ++ b :: after := by
    intro c hc
    simp only [List.mem_append, List.mem_cons] at hc ⊢
    tauto
  have hb : b ∈ before ++ b :: after := by simp
  have hlastOf : ∀ c ∈ before ++ b :: after, ∀ x ∈ c.items, size a ≤ size x :=
    fun c hc x hx => hlast x (List.mem_flatMap.mpr ⟨c, hc, hx⟩)
  have hcount : ∀ p : α → Bool, ((before ++ b.give size a :: after).flatMap Bucket.items).countP p =
      ((before ++ b :: after).flatMap Bucket.items).countP p + [a].countP p :=
    fun p => (hperm.countP_eq p).trans List.countP_append
  refine ⟨fun c hc => ?_, fun c hc x hx c' hc' => ?_, fun c hc htwo => ?_⟩
  · obtain rfl | hc := hmem c hc
    · simp [Bucket.give, h.load b hb]
    · exact h.load c hc
  · have hgive : (b.give size a).load = b.load + size a := rfl
    have hsmall : size a ≤ size x := by
      obtain rfl | hc := hmem c hc
      · obtain hx | hx := List.mem_append.mp hx
        · exact hlastOf b hb x hx
        · rw [List.mem_singleton.mp hx]
      · exact hlastOf c hc x hx
    obtain rfl | hc := hmem c hc <;> obtain rfl | hc' := hmem c' hc'
    · omega
    · have hle := hleast c' hc'
      omega
    · have hle := h.ahead c hc x hx b hb
      omega
    · exact h.ahead c hc x hx c' hc'
  · rw [hlength]
    obtain rfl | hc := hmem c hc
    · -- The item is a second one: no bucket is empty, and it is the smallest item of all.
      refine ⟨a, by simp [Bucket.give], fun hpos => ?_⟩
      have hb2 : b.items ≠ [] := by
        rintro hnil
        simp [Bucket.give, hnil] at htwo
      obtain ⟨x, hx⟩ := List.exists_mem_of_ne_nil _ hb2
      have hload : 0 < b.load := by
        have hle : size x ≤ b.load := by
          rw [h.load b hb]
          exact List.le_sum_of_mem (List.mem_map_of_mem hx)
        have hsmall := hlastOf b hb x hx
        omega
      have hall := length_le_items fun c hc =>
        h.items_ne_nil hc (Nat.lt_of_lt_of_le hload (hleast c hc))
      have hevery : ((before ++ b :: after).flatMap Bucket.items).countP (fun x => size a ≤ size x) =
          ((before ++ b :: after).flatMap Bucket.items).length :=
        List.countP_eq_length.mpr fun x hx => decide_eq_true (hlast x hx)
      have hself : [a].countP (fun x => size a ≤ size x) = 1 := by simp
      rw [hcount, hevery, hself]
      omega
    · obtain ⟨x, hx, hmet⟩ := h.met c hc htwo
      refine ⟨x, hx, fun hpos => Nat.lt_of_lt_of_le (hmet hpos) ?_⟩
      rw [hcount]
      exact Nat.le_add_right _ _

/-- **All items**, the largest first. -/
theorem Shared.shareOut {as : List α} {bs bs' : List (Bucket α)} (h : Shared size bs)
    (hsorted : as.Pairwise fun a b => size b ≤ size a)
    (hlast : ∀ a ∈ as, ∀ x ∈ bs.flatMap Bucket.items, size a ≤ size x)
    (heq : shareOut size bs as = some bs') :
    Shared size bs' ∧ bs'.length = bs.length ∧
      (bs'.flatMap Bucket.items).Perm (bs.flatMap Bucket.items ++ as) := by
  induction as generalizing bs with
  | nil =>
    cases heq
    exact ⟨h, rfl, by rw [List.append_nil]⟩
  | cons a as ih =>
    obtain ⟨hfirst, hrest⟩ := List.pairwise_cons.mp hsorted
    obtain ⟨halast, hlast⟩ := List.forall_mem_cons.mp hlast
    rw [PlmCore.Lib.shareOut, List.foldlM_cons] at heq
    obtain ⟨next, hnext, heq⟩ := Option.bind_eq_some_iff.mp heq
    obtain ⟨hlength, hperm⟩ := shareOne_perm hnext
    obtain ⟨hshared, hlengthRest, hpermRest⟩ := ih (h.shareOne halast hnext) hrest
      (fun b hb x hx => by
        obtain hx | hx := List.mem_append.mp (hperm.subset hx)
        · exact hlast b hb x hx
        · rw [List.mem_singleton.mp hx]
          exact hfirst b hb) heq
    refine ⟨hshared, hlengthRest.trans hlength, hpermRest.trans ?_⟩
    have hcons := hperm.append_right as
    rwa [List.append_assoc, List.singleton_append] at hcons

/-- With a bucket to give to, all items are given. -/
theorem shareOut_isSome {bs : List (Bucket α)} (h : bs ≠ []) (as : List α) : (shareOut size bs as).isSome := by
  induction as generalizing bs with
  | nil => rfl
  | cons a as ih =>
    rw [shareOut, List.foldlM_cons]
    cases bs with
    | nil => exact absurd rfl h
    | cons b bs =>
      refine ih fun hnil => ?_
      have hlength := (@shareOne_perm _ size a (b :: bs) _ rfl).1
      rw [hnil] at hlength
      exact absurd hlength (by simp)

/-! ## Other ways to share out -/

/-- Where every group holds at most one item of a kind, there are not more of the kind than groups. -/
theorem exists_two_of_length_lt {p : α → Bool} {groups : List (List α)}
    (h : groups.length < groups.flatten.countP p) : ∃ g ∈ groups, 2 ≤ g.countP p := by
  induction groups with
  | nil => simp at h
  | cons g groups ih =>
    by_cases hg : 2 ≤ g.countP p
    · exact ⟨g, List.mem_cons_self, hg⟩
    · rw [List.flatten_cons, List.countP_append, List.length_cons] at h
      obtain ⟨g', hg', htwo⟩ := ih (by omega)
      exact ⟨g', List.mem_cons_of_mem g hg', htwo⟩

/-- So many items of at least a size have together so many times the size. -/
theorem countP_mul_le_sum (k : Nat) (as : List α) :
    (as.countP fun x => k ≤ size x) * k ≤ (as.map size).sum := by
  induction as with
  | nil => simp
  | cons a as ih =>
    rw [List.countP_cons, List.map_cons, List.sum_cons, Nat.add_mul]
    by_cases hk : k ≤ size a
    · simp only [hk, decide_true, if_true, Nat.one_mul]
      omega
    · simp only [hk, decide_false, Bool.false_eq_true, if_false, Nat.zero_mul]
      omega

/-- Groups of at most a load have together at most so many times the load. -/
theorem sum_flatten_le {groups : List (List α)} {most : Nat} (h : ∀ g ∈ groups, (g.map size).sum ≤ most) :
    (groups.flatten.map size).sum ≤ groups.length * most := by
  induction groups with
  | nil => simp
  | cons g groups ih =>
    obtain ⟨hg, hgroups⟩ := List.forall_mem_cons.mp h
    have hrest := ih hgroups
    rw [List.flatten_cons, List.map_append, List.sum_append, List.length_cons, Nat.add_mul, Nat.one_mul]
    omega

/-- Where no bucket is behind by more than `k`. -/
theorem length_mul_le_sum {bs : List (Bucket α)} {load k : Nat} (hahead : ∀ b ∈ bs, load ≤ b.load + k) :
    bs.length * load ≤ (bs.map Bucket.load).sum + bs.length * k := by
  induction bs with
  | nil => simp
  | cons b bs ih =>
    obtain ⟨hb, hbs⟩ := List.forall_mem_cons.mp hahead
    have hrest := ih hbs
    rw [List.length_cons, List.map_cons, List.sum_cons, Nat.add_mul, Nat.add_mul]
    omega

/-- The bucket itself needs no allowance. -/
theorem length_mul_load_le {bs : List (Bucket α)} {b : Bucket α} {k : Nat} (hb : b ∈ bs)
    (hahead : ∀ b' ∈ bs, b.load ≤ b'.load + k) :
    bs.length * b.load ≤ (bs.map Bucket.load).sum + (bs.length - 1) * k := by
  obtain ⟨before, after, rfl⟩ := List.append_of_mem hb
  have hothers := @length_mul_le_sum _ (before ++ after) b.load k fun b' hb' =>
    hahead b' (by simp only [List.mem_append, List.mem_cons] at hb' ⊢; tauto)
  have hlength : (before ++ b :: after).length = (before ++ after).length + 1 := by simp; omega
  rw [hlength, Nat.add_sub_cancel, Nat.add_mul, Nat.one_mul]
  simp only [List.map_append, List.map_cons, List.sum_append, List.sum_cons] at hothers ⊢
  omega

theorem Shared.sum_load {bs : List (Bucket α)} (h : Shared size bs) :
    (bs.map Bucket.load).sum = ((bs.flatMap Bucket.items).map size).sum := by
  have hload := h.load
  clear h
  induction bs with
  | nil => rfl
  | cons b bs ih =>
    obtain ⟨hb, hbs⟩ := List.forall_mem_cons.mp hload
    rw [List.map_cons, List.sum_cons, List.flatMap_cons, List.map_append, List.sum_append, hb, ih hbs]

/-- **No other way is much better**: where the items are shared out in any other way to as many groups, and
none of these is larger than `most`, no bucket is larger than one and a half times that. -/
theorem Shared.load_le {bs : List (Bucket α)} (h : Shared size bs) {groups : List (List α)} {most : Nat}
    (hlength : groups.length = bs.length) (hperm : groups.flatten.Perm (bs.flatMap Bucket.items))
    (hmost : ∀ g ∈ groups, (g.map size).sum ≤ most) {b : Bucket α} (hb : b ∈ bs) :
    2 * bs.length * b.load ≤ (3 * bs.length - 1) * most := by
  have htotal : (bs.map Bucket.load).sum ≤ bs.length * most := by
    rw [h.sum_load, ← (hperm.map size).sum_eq, ← hlength]
    exact sum_flatten_le hmost
  have hpos : 0 < bs.length := List.length_pos_of_mem hb
  obtain ⟨m, hm⟩ : ∃ m, bs.length = m + 1 := ⟨bs.length - 1, by omega⟩
  -- It is enough that the load is that of the groups or half an item more.
  have hfinish : ∀ k, 2 * k ≤ most → (∀ b' ∈ bs, b.load ≤ b'.load + k) →
      2 * bs.length * b.load ≤ (3 * bs.length - 1) * most := by
    intro k hk hahead
    have hload := length_mul_load_le hb hahead
    have hhalf : m * (2 * k) ≤ m * most := Nat.mul_le_mul_left m hk
    rw [hm] at hload htotal ⊢
    have hbound : 3 * (m + 1) - 1 = 3 * m + 2 := by omega
    rw [hbound]
    rw [Nat.add_sub_cancel] at hload
    calc 2 * (m + 1) * b.load
        = 2 * ((m + 1) * b.load) := Nat.mul_assoc _ _ _
      _ ≤ 2 * ((bs.map Bucket.load).sum + m * k) := Nat.mul_le_mul_left 2 hload
      _ = 2 * (bs.map Bucket.load).sum + m * (2 * k) := by ring
      _ ≤ 2 * ((m + 1) * most) + m * most := Nat.add_le_add (Nat.mul_le_mul_left 2 htotal) hhalf
      _ = (3 * m + 2) * most := by ring
  have hin : ∀ a ∈ b.items, ∃ g ∈ groups, a ∈ g := fun a ha =>
    List.mem_flatten.mp (hperm.symm.subset (List.mem_flatMap.mpr ⟨b, hb, ha⟩))
  by_cases htwo : 2 ≤ b.items.length
  · obtain ⟨a, ha, hmet⟩ := h.met b hb htwo
    obtain hzero | hpositive := Nat.eq_zero_or_pos (size a)
    · exact hfinish 0 (Nat.zero_le _) fun b' hb' => hzero ▸ h.ahead b hb a ha b' hb'
    · -- One group holds two items of the size of `a`.
      have hmany := hmet hpositive
      rw [← hlength, ← hperm.countP_eq] at hmany
      obtain ⟨g, hg, hgtwo⟩ := exists_two_of_length_lt hmany
      have htwice := (Nat.mul_le_mul_right (size a) hgtwo).trans (countP_mul_le_sum (size a) g)
      exact hfinish (size a) (htwice.trans (hmost g hg)) (h.ahead b hb a ha)
  · have hle : b.load ≤ most := by
      rw [h.load b hb]
      obtain hnil | ⟨a, ha⟩ : b.items = [] ∨ ∃ a, b.items = [a] := by
        match hitems : b.items with
        | [] => exact Or.inl rfl
        | [a] => exact Or.inr ⟨a, rfl⟩
        | a :: c :: rest =>
          rw [hitems] at htwo
          exact absurd (by simp) htwo
      · rw [hnil]
        exact Nat.zero_le most
      · obtain ⟨g, hg, hag⟩ := hin a (by simp [ha])
        rw [ha, List.map_singleton, List.sum_singleton]
        exact (List.le_sum_of_mem (List.mem_map_of_mem hag)).trans (hmost g hg)
    have hfactor : 2 * bs.length ≤ 3 * bs.length - 1 := by omega
    exact Nat.mul_le_mul hfactor hle

end PlmCore.Lib
