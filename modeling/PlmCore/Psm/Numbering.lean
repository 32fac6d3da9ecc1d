/-
The numbering of versions, `AlphaNumericNumberingStrategy`.

A revision is a numeral over the letters A, …, Z, and `nextRevision` counts on: the revisions are the words
in the order of their length and then of the alphabet, each once. A major change takes the next revision and
begins its iterations again, a minor change takes the next iteration, so a version is always numbered behind
the one it was made from. The iteration is an `int`, and `NumberingResult` rejects what the largest of them
overflows to.
-/
import PlmCore.Lib.BijectiveNumeral
import PlmCore.Psm.Version

set_option autoImplicit false

namespace PlmCore.Psm

open PlmCore.Lib

/-! ## Revisions are numerals -/

/-- A word over A, …, Z. -/
def IsRevision (w : String) : Prop := w.toList ≠ [] ∧ ∀ c ∈ w.toList, 'A' ≤ c ∧ c ≤ 'Z'

/-- Shorter revisions come first, and those of one length in the order of the alphabet. -/
def RevisionPrecedes (u v : String) : Prop := List.Shortlex (· < ·) u.toList v.toList

/-- The place of a letter in the alphabet. -/
def letterDigit (c : Char) : ℕ := c.toNat - 64

/-- The number of a revision: A is 1, Z is 26, AA is 27. -/
def revisionNumber (w : String) : ℕ := numeral 26 (w.toList.map letterDigit)

variable {u v w : String}

/-- The code of a letter. -/
theorem letter_bounds {c : Char} (h : 'A' ≤ c ∧ c ≤ 'Z') : 65 ≤ c.toNat ∧ c.toNat ≤ 90 := h

theorem areDigits_letters {cs : List Char} (h : ∀ c ∈ cs, 'A' ≤ c ∧ c ≤ 'Z') :
    AreDigits 26 (cs.map letterDigit) := by
  intro d hd
  obtain ⟨c, hc, rfl⟩ := List.mem_map.mp hd
  have hbounds := letter_bounds (h c hc)
  unfold letterDigit
  omega

/-- **The order of revisions** is the order of their numbers. -/
theorem revisionPrecedes_iff (hu : IsRevision u) (hv : IsRevision v) :
    RevisionPrecedes u v ↔ revisionNumber u < revisionNumber v := by
  have hlt : ∀ a ∈ u.toList, ∀ b ∈ v.toList, letterDigit a < letterDigit b ↔ a < b := by
    intro a ha b hb
    have hbounds := letter_bounds (hu.2 a ha)
    have hbounds' := letter_bounds (hv.2 b hb)
    change a.toNat - 64 < b.toNat - 64 ↔ a.toNat < b.toNat
    omega
  have hinj : ∀ a ∈ u.toList, ∀ b ∈ v.toList, letterDigit a = letterDigit b ↔ a = b := by
    intro a ha b hb
    have hbounds := letter_bounds (hu.2 a ha)
    have hbounds' := letter_bounds (hv.2 b hb)
    rw [← Char.toNat_inj]
    unfold letterDigit
    omega
  unfold RevisionPrecedes revisionNumber
  rw [numeral_lt_iff (areDigits_letters hu.2) (areDigits_letters hv.2), shortlex_map_iff hlt hinj]

theorem revisionNumber_inj (hu : IsRevision u) (hv : IsRevision v) (h : revisionNumber u = revisionNumber v) :
    u = v := by
  obtain hlt | heq | hgt := trichotomous_of (List.Shortlex (· < ·)) u.toList v.toList
  · exact absurd h ((revisionPrecedes_iff hu hv).mp hlt).ne
  · exact String.toList_inj.mp heq
  · exact absurd h.symm ((revisionPrecedes_iff hv hu).mp hgt).ne

/-! ## The next revision -/

theorem letterDigit_succ {c : Char} (h : c.toNat < 90) : (Char.ofNat (c.toNat + 1)).toNat = c.toNat + 1 := by
  have hvalid : (c.toNat + 1).isValidChar := .inl (by omega)
  rw [Char.ofNat, dif_pos hvalid]
  rfl

/-- **The carry** counts on. -/
theorem map_bumpLetters {cs : List Char} (h : ∀ c ∈ cs, 'A' ≤ c ∧ c ≤ 'Z') :
    (bumpLetters cs).map letterDigit = increment 26 (cs.map letterDigit) := by
  induction cs with
  | nil => rfl
  | cons c cs ih =>
    obtain ⟨hc, hcs⟩ := List.forall_mem_cons.mp h
    have hbounds := letter_bounds hc
    rw [bumpLetters, List.map_cons, increment]
    by_cases hZ : c < 'Z'
    · have hcode : c.toNat < 90 := hZ
      have hdigit : letterDigit c < 26 := by
        unfold letterDigit
        omega
      rw [if_pos hZ, if_pos hdigit, List.map_cons]
      congr 1
      unfold letterDigit
      rw [letterDigit_succ hcode]
      omega
    · have hcode : ¬ c.toNat < 90 := hZ
      have hdigit : ¬ letterDigit c < 26 := by
        unfold letterDigit
        omega
      rw [if_neg hZ, if_neg hdigit, List.map_cons, ih hcs]
      rfl

theorem bumpLetters_letters {cs : List Char} (h : ∀ c ∈ cs, 'A' ≤ c ∧ c ≤ 'Z') :
    bumpLetters cs ≠ [] ∧ ∀ c ∈ bumpLetters cs, 'A' ≤ c ∧ c ≤ 'Z' := by
  induction cs with
  | nil => exact ⟨List.cons_ne_nil _ _, List.forall_mem_singleton.mpr (by decide)⟩
  | cons c cs ih =>
    obtain ⟨hc, hcs⟩ := List.forall_mem_cons.mp h
    rw [bumpLetters]
    by_cases hZ : c < 'Z'
    · have hcode := letterDigit_succ hZ
      have hbounds := letter_bounds hc
      have hnext : 'A' ≤ Char.ofNat (c.toNat + 1) ∧ Char.ofNat (c.toNat + 1) ≤ 'Z' := by
        change 65 ≤ (Char.ofNat (c.toNat + 1)).toNat ∧ (Char.ofNat (c.toNat + 1)).toNat ≤ 90
        have hlt : c.toNat < 90 := hZ
        omega
      rw [if_pos hZ]
      exact ⟨List.cons_ne_nil _ _, List.forall_mem_cons.mpr ⟨hnext, hcs⟩⟩
    · rw [if_neg hZ]
      exact ⟨List.cons_ne_nil _ _, List.forall_mem_cons.mpr ⟨by decide, (ih hcs).2⟩⟩

theorem isRevision_A : IsRevision "A" := ⟨by decide, List.forall_mem_singleton.mpr (by decide)⟩

theorem IsRevision.next (h : IsRevision w) : IsRevision (nextRevision w) := by
  obtain ⟨hne, hletters⟩ := bumpLetters_letters fun c hc => h.2 c (List.mem_reverse.mp hc)
  unfold IsRevision nextRevision
  rw [String.toList_ofList]
  exact ⟨List.reverse_ne_nil_iff.mpr hne, fun c hc => hletters c (List.mem_reverse.mp hc)⟩

/-- **`nextRevision` counts on.** -/
theorem revisionNumber_next (h : IsRevision w) :
    revisionNumber (nextRevision w) = revisionNumber w + 1 := by
  have hletters : ∀ c ∈ w.toList.reverse, 'A' ≤ c ∧ c ≤ 'Z' := fun c hc => h.2 c (List.mem_reverse.mp hc)
  unfold revisionNumber numeral nextRevision
  rw [String.toList_ofList, ← List.map_reverse, List.reverse_reverse, map_bumpLetters hletters,
    ofDigits_increment (areDigits_letters hletters), List.map_reverse]

/-- The revision after `n` major changes. -/
def revisionAfter (n : ℕ) : String := nextRevision^[n] "A"

theorem revisionAfter_spec (n : ℕ) : IsRevision (revisionAfter n) ∧ revisionNumber (revisionAfter n) = n + 1 := by
  induction n with
  | zero => exact ⟨isRevision_A, by decide⟩
  | succ n ih =>
    have hstep : revisionAfter (n + 1) = nextRevision (revisionAfter n) := Function.iterate_succ_apply' _ _ _
    rw [hstep, revisionNumber_next ih.1, ih.2]
    exact ⟨ih.1.next, rfl⟩

/-- **Every word is a revision.** -/
theorem IsRevision.eq_revisionAfter (h : IsRevision w) : ∃ n, revisionAfter n = w := by
  have hpos : revisionNumber w ≠ 0 := by
    intro hzero
    have hnil := (numeral_inj (areDigits_letters h.2) fun _ hd => absurd hd List.not_mem_nil).mp hzero
    exact h.1 (List.map_eq_nil_iff.mp hnil)
  obtain ⟨hafter, hnumber⟩ := revisionAfter_spec (revisionNumber w - 1)
  exact ⟨_, revisionNumber_inj hafter h (by omega)⟩

theorem isRevision_iff : IsRevision w ↔ ∃ n, revisionAfter n = w := by
  refine ⟨IsRevision.eq_revisionAfter, ?_⟩
  rintro ⟨n, rfl⟩
  exact (revisionAfter_spec n).1

/-- `v` is the revision that comes next after `u`. -/
structure IsSuccessor (u v : String) : Prop where
  precedes : RevisionPrecedes u v
  next : ∀ w, IsRevision w → RevisionPrecedes u w → w = v ∨ RevisionPrecedes v w

/-- **`nextRevision` is the successor.** -/
theorem isSuccessor_nextRevision (h : IsRevision u) : IsSuccessor u (nextRevision u) := by
  have hnext := revisionNumber_next h
  refine ⟨(revisionPrecedes_iff h h.next).mpr (by omega), fun w hw huw => ?_⟩
  rw [revisionPrecedes_iff h hw] at huw
  rw [revisionPrecedes_iff h.next hw]
  by_cases heq : revisionNumber w = revisionNumber (nextRevision u)
  · exact .inl (revisionNumber_inj hw h.next heq)
  · exact .inr (by omega)

example : nextRevision "AZ" = "BA" ∧ nextRevision "ZZ" = "AAA" := by decide

/-! ## Numbering a version -/

/-- `NumberingResult`, with the checks of its constructor. -/
structure NumberingResult where
  revision : String
  iteration : Int32
  notBlank : isBlank revision = false
  nonneg : ¬ iteration < 0

/-- `new NumberingResult(revision, iteration)`. -/
def NumberingResult.new (revision : String) (iteration : Int32) : Except PlmError NumberingResult :=
  if hblank : isBlank revision = true then .error (.illegalArgument "revision must not be blank")
  else if hneg : iteration < 0 then .error (.illegalArgument "iteration must be >= 0")
  else .ok ⟨revision, iteration, Bool.eq_false_iff.mpr hblank, hneg⟩

/-- `AlphaNumericNumberingStrategy.compute`. -/
def AlphaNumericNumberingStrategy.compute (versionStrategy : VersionStrategy) (previousRevision : String)
    (previousIteration : Int32) : Except PlmError NumberingResult :=
  let effIteration := max previousIteration 1
  match versionStrategy with
  | .REVISE => NumberingResult.new (nextRevision previousRevision) 1
  | .ITERATE => NumberingResult.new previousRevision (effIteration + 1)
  | .NONE => NumberingResult.new previousRevision effIteration

namespace NumberingResult

/-- `A.1`. -/
def initial : NumberingResult := ⟨"A", 1, by decide, by decide⟩

/-- The numbering of the versions that changes make one after the other, up to a change that is refused. -/
def numberings (r : NumberingResult) : List VersionStrategy → List NumberingResult
  | [] => []
  | s :: history =>
    match AlphaNumericNumberingStrategy.compute s r.revision r.iteration with
    | .ok next => next :: next.numberings history
    | .error _ => []

/-- Versions are ordered by their revisions, and those of one revision by their iterations. -/
def Precedes (a b : NumberingResult) : Prop :=
  RevisionPrecedes a.revision b.revision ∨ a.revision = b.revision ∧ a.iteration < b.iteration

variable {r r' : NumberingResult} {s : VersionStrategy} {history : List VersionStrategy}

theorem not_blank_of_isRevision (h : IsRevision w) : isBlank w = false := by
  refine List.all_eq_false.mpr ?_
  obtain ⟨c, cs, hw⟩ := List.exists_cons_of_ne_nil h.1
  have hc := letter_bounds (h.2 c (hw ▸ List.mem_cons_self))
  refine ⟨c, hw ▸ List.mem_cons_self, ?_⟩
  simp [isWhitespace]
  omega

/-- The iterations of a version are at most the largest `int`. -/
theorem iteration_bounds (r : NumberingResult) : 0 ≤ r.iteration.toInt ∧ r.iteration.toInt < 2 ^ 31 := by
  refine ⟨?_, r.iteration.toInt_lt⟩
  have hnonneg := r.nonneg
  rw [Int32.lt_iff_toInt_lt] at hnonneg
  exact Int.not_lt.mp hnonneg

/-- The iteration that counts: 0 is what a collapse leaves. -/
theorem toInt_max (r : NumberingResult) : (max r.iteration 1).toInt = max r.iteration.toInt 1 := by
  have hmax : max r.iteration 1 = if r.iteration ≤ 1 then 1 else r.iteration := rfl
  rw [hmax]
  split
  case isTrue hle =>
    rw [Int32.le_iff_toInt_le] at hle
    exact (max_eq_right hle).symm
  case isFalse hgt =>
    rw [Int32.le_iff_toInt_le, Int.not_le] at hgt
    exact (max_eq_left hgt.le).symm

/-- The iteration after it, when there is one. -/
theorem toInt_next (r : NumberingResult) (hlt : max r.iteration.toInt 1 + 1 < 2 ^ 31) :
    (max r.iteration 1 + 1).toInt = max r.iteration.toInt 1 + 1 := by
  rw [Int32.toInt_add, toInt_max, Int32.toInt_one]
  exact Int.bmod_eq_of_le (by omega) (by omega)

/-- **A major change** takes the next revision and begins its iterations. -/
theorem compute_revise (h : IsRevision r.revision) :
    ∃ next : NumberingResult, AlphaNumericNumberingStrategy.compute .REVISE r.revision r.iteration = .ok next ∧
      next.revision = nextRevision r.revision ∧ next.iteration = 1 := by
  have hblank := not_blank_of_isRevision h.next
  have hone : ¬ (1 : Int32) < 0 := by decide
  refine ⟨⟨_, 1, hblank, hone⟩, ?_, rfl, rfl⟩
  rw [AlphaNumericNumberingStrategy.compute]
  exact (dif_neg (Bool.eq_false_iff.mp hblank)).trans (dif_neg hone)

/-- **A minor change** takes the next iteration. -/
theorem compute_iterate (hlt : max r.iteration.toInt 1 + 1 < 2 ^ 31) :
    ∃ next : NumberingResult, AlphaNumericNumberingStrategy.compute .ITERATE r.revision r.iteration = .ok next ∧
      next.revision = r.revision ∧ next.iteration.toInt = max r.iteration.toInt 1 + 1 := by
  have hsum := r.toInt_next hlt
  have hnonneg : ¬ max r.iteration 1 + 1 < 0 := by
    rw [Int32.lt_iff_toInt_lt, hsum, Int32.toInt_zero]
    omega
  refine ⟨⟨r.revision, _, r.notBlank, hnonneg⟩, ?_, rfl, hsum⟩
  rw [AlphaNumericNumberingStrategy.compute]
  exact (dif_neg (Bool.eq_false_iff.mp r.notBlank)).trans (dif_neg hnonneg)

/-- The largest iteration has none after it: the sum overflows and is refused. -/
theorem compute_iterate_overflow (heq : r.iteration.toInt + 1 = 2 ^ 31) :
    AlphaNumericNumberingStrategy.compute .ITERATE r.revision r.iteration =
      .error (.illegalArgument "iteration must be >= 0") := by
  have hmax : max r.iteration.toInt 1 = 2 ^ 31 - 1 := by omega
  have hneg : max r.iteration 1 + 1 < 0 := by
    rw [Int32.lt_iff_toInt_lt, Int32.toInt_add, toInt_max, hmax]
    decide
  rw [AlphaNumericNumberingStrategy.compute]
  exact (dif_neg (Bool.eq_false_iff.mp r.notBlank)).trans (dif_pos hneg)

/-- **One change** numbers a version behind the one it was made from. -/
theorem compute_precedes (h : IsRevision r.revision) (hs : s ≠ .NONE)
    (hr : AlphaNumericNumberingStrategy.compute s r.revision r.iteration = .ok r') :
    IsRevision r'.revision ∧ r.Precedes r' := by
  cases s with
  | NONE => exact absurd rfl hs
  | REVISE =>
    obtain ⟨next, hnext, hrevision, -⟩ := compute_revise h
    obtain rfl := Except.ok.inj (hnext.symm.trans hr)
    rw [hrevision]
    refine ⟨h.next, .inl ?_⟩
    rw [hrevision]
    exact (isSuccessor_nextRevision h).precedes
  | ITERATE =>
    have hbounds := r.iteration_bounds
    by_cases hlt : max r.iteration.toInt 1 + 1 < 2 ^ 31
    · obtain ⟨next, hnext, hrevision, hiteration⟩ := compute_iterate hlt
      obtain rfl := Except.ok.inj (hnext.symm.trans hr)
      refine ⟨hrevision ▸ h, .inr ⟨hrevision.symm, ?_⟩⟩
      rw [Int32.lt_iff_toInt_lt, hiteration]
      omega
    · rw [compute_iterate_overflow (by omega)] at hr
      cases hr

theorem map_new {revision : String} {iteration : Int32} (hnonneg : ¬ iteration < 0) :
    (NumberingResult.new revision iteration).map (fun next => (next.revision, next.iteration.toInt.toNat)) =
      if isBlank revision then .error (.illegalArgument "revision must not be blank")
      else .ok (revision, iteration.toInt.toNat) := by
  unfold NumberingResult.new
  split
  case isTrue => rfl
  case isFalse => rfl

/-- Below the largest iteration this is the numbering that `createVersion` gives. -/
theorem computeNumbering_eq (s : VersionStrategy) (r : NumberingResult)
    (hlt : max r.iteration.toInt 1 + 1 < 2 ^ 31) :
    computeNumbering s r.revision r.iteration.toInt.toNat =
      (AlphaNumericNumberingStrategy.compute s r.revision r.iteration).map fun next =>
        (next.revision, next.iteration.toInt.toNat) := by
  have hmax := r.toInt_max
  have hbounds := r.iteration_bounds
  have hsum := r.toInt_next hlt
  unfold computeNumbering AlphaNumericNumberingStrategy.compute
  cases s with
  | REVISE =>
    dsimp only
    rw [map_new (by decide)]
    rfl
  | ITERATE =>
    dsimp only
    rw [map_new (by rw [Int32.lt_iff_toInt_lt, hsum, Int32.toInt_zero]; omega), hsum]
    have hnat : (max r.iteration.toInt 1 + 1).toNat = max r.iteration.toInt.toNat 1 + 1 := by omega
    rw [hnat]
  | NONE =>
    dsimp only
    rw [map_new (by rw [Int32.lt_iff_toInt_lt, hmax, Int32.toInt_zero]; omega), hmax]
    have hnat : (max r.iteration.toInt 1).toNat = max r.iteration.toInt.toNat 1 := by omega
    rw [hnat]

/-! ## Histories -/

theorem Precedes.trans {a b c : NumberingResult} (ha : IsRevision a.revision) (hb : IsRevision b.revision)
    (hc : IsRevision c.revision) (hab : a.Precedes b) (hbc : b.Precedes c) : a.Precedes c := by
  unfold Precedes at *
  rw [revisionPrecedes_iff ha hb] at hab
  rw [revisionPrecedes_iff hb hc] at hbc
  rw [revisionPrecedes_iff ha hc]
  obtain hab | ⟨hab, hitab⟩ := hab
  · obtain hbc | ⟨hbc, -⟩ := hbc
    · exact .inl (hab.trans hbc)
    · exact .inl (hbc ▸ hab)
  · obtain hbc | ⟨hbc, hitbc⟩ := hbc
    · exact .inl (hab ▸ hbc)
    · rw [Int32.lt_iff_toInt_lt] at *
      exact .inr ⟨hab.trans hbc, hitab.trans hitbc⟩

/-- **A history** numbers every version behind all that came before it. -/
theorem numberings_spec (h : IsRevision r.revision) (hhistory : .NONE ∉ history) :
    (∀ x ∈ r.numberings history, IsRevision x.revision ∧ r.Precedes x) ∧
      (r.numberings history).Pairwise Precedes := by
  induction history generalizing r with
  | nil => exact ⟨fun x hx => absurd hx List.not_mem_nil, .nil⟩
  | cons s history ih =>
    rw [List.mem_cons, not_or] at hhistory
    rw [numberings]
    cases hnext : AlphaNumericNumberingStrategy.compute s r.revision r.iteration with
    | error e => exact ⟨fun x hx => absurd hx List.not_mem_nil, .nil⟩
    | ok next =>
      obtain ⟨hrevision, hprecedes⟩ := compute_precedes h (Ne.symm hhistory.1) hnext
      obtain ⟨hlater, hpairwise⟩ := ih hrevision hhistory.2
      refine ⟨List.forall_mem_cons.mpr ⟨⟨hrevision, hprecedes⟩, fun x hx => ?_⟩,
        List.pairwise_cons.mpr ⟨fun x hx => (hlater x hx).2, hpairwise⟩⟩
      obtain ⟨hx, hnextx⟩ := hlater x hx
      exact ⟨hx, hprecedes.trans h hrevision hx hnextx⟩

/-- **A history is numbered to its end** when it has not more minor changes in a row than there are
iterations. The iterations that are left at its beginning are those behind the one it begins with. -/
theorem length_numberings_iff (h : IsRevision r.revision) (hpos : 1 ≤ r.iteration.toInt) {left full : ℕ}
    (hleft : (left : ℤ) + r.iteration.toInt = 2 ^ 31 - 1) (hfull : full = 2 ^ 31 - 2)
    (hhistory : .NONE ∉ history) :
    (r.numberings history).length = history.length ↔
      ¬ List.replicate (left + 1) .ITERATE <+: history ∧
        ¬ List.replicate (full + 1) .ITERATE <:+: history := by
  induction history generalizing r left with
  | nil =>
    rw [List.replicate_succ, List.replicate_succ]
    simp [numberings]
  | cons s history ih =>
    rw [List.mem_cons, not_or] at hhistory
    rw [numberings, List.infix_cons_iff]
    cases s with
    | NONE => exact absurd rfl hhistory.1
    | REVISE =>
      obtain ⟨next, hnext, hrevision, hiteration⟩ := compute_revise h
      have hone : next.iteration.toInt = 1 := hiteration ▸ Int32.toInt_one
      have hlater := ih (hrevision ▸ h.next) (by omega) (show (full : ℤ) + _ = _ by omega) hhistory.2
      have hstart : ∀ n, ¬ List.replicate (n + 1) VersionStrategy.ITERATE <+: .REVISE :: history := by
        intro n hprefix
        rw [List.replicate_succ, List.cons_prefix_cons] at hprefix
        cases hprefix.1
      rw [hnext, List.length_cons, List.length_cons, Nat.add_right_cancel_iff, hlater]
      constructor
      · rintro ⟨-, hinfix⟩
        exact ⟨hstart left, not_or.mpr ⟨hstart full, hinfix⟩⟩
      · rintro ⟨-, hinfix⟩
        have hinfix := (not_or.mp hinfix).2
        exact ⟨fun hprefix => hinfix hprefix.isInfix, hinfix⟩
    | ITERATE =>
      have hbounds := r.iteration_bounds
      cases left with
      | zero =>
        rw [compute_iterate_overflow (by omega)]
        simp
      | succ left =>
        obtain ⟨next, hnext, hrevision, hiteration⟩ := compute_iterate (r := r) (by omega)
        have hlater := ih (hrevision ▸ h) (by omega) (show (left : ℤ) + _ = _ by omega) hhistory.2
        have hcons : ∀ n, List.replicate (n + 1) VersionStrategy.ITERATE <+: .ITERATE :: history ↔
            List.replicate n .ITERATE <+: history := by
          intro n
          rw [List.replicate_succ, List.cons_prefix_cons]
          exact and_iff_right rfl
        -- a run that fills all iterations is longer than one that fills those that are left
        have hlonger : List.replicate full VersionStrategy.ITERATE <+: history →
            List.replicate (left + 1) .ITERATE <+: history := by
          intro hprefix
          obtain ⟨more, rfl⟩ : ∃ more, full = left + 1 + more := ⟨full - (left + 1), by omega⟩
          rw [List.replicate_add] at hprefix
          exact (List.prefix_append _ _).trans hprefix
        rw [hnext, List.length_cons, List.length_cons, Nat.add_right_cancel_iff, hlater, hcons, hcons, not_or]
        exact ⟨fun hno => ⟨hno.1, fun hprefix => hno.1 (hlonger hprefix), hno.2⟩, fun hno => ⟨hno.1, hno.2.2⟩⟩

theorem numberings_initial_iff (hhistory : .NONE ∉ history) :
    (initial.numberings history).length = history.length ↔
      ¬ List.replicate (2 ^ 31 - 1) .ITERATE <:+: history := by
  generalize hfull : 2 ^ 31 - 2 = full
  have hsucc : 2 ^ 31 - 1 = full + 1 := by omega
  have hone : initial.iteration.toInt = 1 := Int32.toInt_one
  rw [hsucc, length_numberings_iff isRevision_A (by omega) (show (full : ℤ) + _ = _ by omega) hfull.symm hhistory]
  exact ⟨And.right, fun hno => ⟨fun hprefix => hno hprefix.isInfix, hno⟩⟩

end NumberingResult

open NumberingResult in
/-- **Main result.** The revisions are the words over A, …, Z, each once, in the order of their lengths and
then of the alphabet, and `nextRevision` is the successor; and along a history of major and minor changes
every version is numbered behind all that came before it, where a minor change is refused only when all
iterations of an `int` have been used. -/
theorem revisions_and_iterations_increase :
    (∀ w, IsRevision w ↔ ∃ n, revisionAfter n = w) ∧
      (∀ w, IsRevision w → IsSuccessor w (nextRevision w) ∧
        revisionNumber (nextRevision w) = revisionNumber w + 1) ∧
      (∀ m n, m < n → RevisionPrecedes (revisionAfter m) (revisionAfter n)) ∧
      Function.Injective revisionAfter ∧
      ∀ history, .NONE ∉ history →
        (initial :: initial.numberings history).Pairwise Precedes ∧
          (∀ r ∈ initial.numberings history, IsRevision r.revision) ∧
          ((initial.numberings history).length = history.length ↔
            ¬ List.replicate (2 ^ 31 - 1) .ITERATE <:+: history) := by
  refine ⟨fun w => isRevision_iff, fun w hw => ⟨isSuccessor_nextRevision hw, revisionNumber_next hw⟩,
    fun m n hmn => ?_, fun m n hmn => ?_, fun history hhistory => ?_⟩
  · obtain ⟨hm, hmNumber⟩ := revisionAfter_spec m
    obtain ⟨hn, hnNumber⟩ := revisionAfter_spec n
    rw [revisionPrecedes_iff hm hn]
    omega
  · have hm := (revisionAfter_spec m).2
    have hn := (revisionAfter_spec n).2
    rw [show revisionAfter m = revisionAfter n from hmn] at hm
    omega
  · have hstart : IsRevision initial.revision := isRevision_A
    obtain ⟨hlater, hpairwise⟩ := numberings_spec hstart hhistory
    exact ⟨List.pairwise_cons.mpr ⟨fun r hr => (hlater r hr).2, hpairwise⟩, fun r hr => (hlater r hr).1,
      numberings_initial_iff hhistory⟩

open NumberingResult in
/-- After 2³¹ − 2 minor changes of `A.1` there is no iteration left, and the next minor change is refused. -/
theorem minor_change_of_last_iteration_is_refused :
    (initial.numberings (List.replicate (2 ^ 31 - 1) .ITERATE)).length ≠
        (List.replicate (2 ^ 31 - 1) VersionStrategy.ITERATE).length ∧
      AlphaNumericNumberingStrategy.compute .ITERATE "A" Int32.maxValue =
        .error (.illegalArgument "iteration must be >= 0") := by
  have hminor : .NONE ∉ List.replicate (2 ^ 31 - 1) VersionStrategy.ITERATE := fun hmem =>
    nomatch List.eq_of_mem_replicate hmem
  refine ⟨fun heq => (numberings_initial_iff hminor).mp heq (List.infix_refl _), ?_⟩
  have hlast : Int32.maxValue.toInt + 1 = 2 ^ 31 := by decide
  exact compute_iterate_overflow (r := ⟨"A", Int32.maxValue, by decide, by decide⟩) hlast

end PlmCore.Psm
