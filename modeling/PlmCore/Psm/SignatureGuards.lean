/-
`AllSignaturesDoneGuard` and `SignatureRejectionGuard`: what they let through, and what the
signature requirements of a transition ask for.

A requirement names a role. What the list asks for is an assignment: each requirement gets a user of
its own, who holds the role and whose signature is on the current version as it is now. The guard
counts the users who signed and compares the number with the length of the list. Counting and
assigning part when enough users signed and some of the requirements have too few candidates: a
signer without the role, or one whose signature came from another version with the collapse of the
history, counts like any other.
-/
import Mathlib.Combinatorics.Hall.Basic
import PlmCore.Platform.GuardEvaluation
import PlmCore.Psm.VersionChain

set_option autoImplicit false

namespace PlmCore.Psm

open PlmCore.Lib

/-! ## The configuration the guards read -/

/-- `SignatureRequirementConfig`. -/
structure SignatureRequirementConfig where
  id : String
  lifecycleTransitionId : String
  roleRequired : String
  displayOrder : Int
  deriving DecidableEq

/-- `LifecycleTransitionConfig`, with its signature requirements; the list may be null. -/
structure SignedTransitionConfig extends LifecycleTransitionConfig where
  signatureRequirements : Option (List SignatureRequirementConfig)

/-- `LifecycleConfig`, with the requirements of its transitions; the list may be null. -/
structure SignedLifecycleConfig where
  id : String
  transitions : Option (List SignedTransitionConfig)

/-- `LifecycleGuardContext`: what the two guards read of it. -/
structure LifecycleGuardContext where
  nodeId : Uuid
  transitionId : Option String
  parameters : List (String × String)

/-- The first transition with the id, over all lifecycles that have transitions. -/
def findTransition (lifecycles : List SignedLifecycleConfig) (transitionId : String) :
    Option SignedTransitionConfig :=
  (lifecycles.flatMap fun lc => lc.transitions.getD []).find? (·.id = transitionId)

/-- The signature requirements of a transition. -/
def signatureRequirements (lifecycles : List SignedLifecycleConfig) (transitionId : String) :
    List SignatureRequirementConfig :=
  ((findTransition lifecycles transitionId).bind (·.signatureRequirements)).getD []

/-- `AllSignaturesDoneGuard.countSignatureRequirements`. -/
def countSignatureRequirements (lifecycles : List SignedLifecycleConfig) (transitionId : String) : Nat :=
  match findTransition lifecycles transitionId with
  | none => 0
  | some t => (t.signatureRequirements.map (·.length)).getD 0

theorem countSignatureRequirements_eq (lifecycles : List SignedLifecycleConfig) (transitionId : String) :
    countSignatureRequirements lifecycles transitionId =
      (signatureRequirements lifecycles transitionId).length := by
  rw [countSignatureRequirements, signatureRequirements]
  cases findTransition lifecycles transitionId with
  | none => rfl
  | some t =>
    simp only [Option.bind_some]
    cases t.signatureRequirements with
    | none => rfl
    | some requirements => rfl

/-! ## The two guards -/

/-- `UPPER(ns.meaning) = 'REJECTED'`. -/
def SignatureRow.isRejected (g : SignatureRow) : Bool :=
  g.meaning.toList.map Char.toUpper = "REJECTED".toList

namespace Tables

variable (t : Tables)

/-- `node_signature` rows of a version. -/
def signaturesOn (versionId : Uuid) : List SignatureRow :=
  t.signatures.filter (·.nodeVersionId = versionId)

/-- `COUNT(DISTINCT ns.signed_by)`. -/
def countSigners (versionId : Uuid) : Nat := ((t.signaturesOn versionId).map (·.signedBy)).dedup.length

/-- The number of rejected signatures of a version. -/
def countRejected (versionId : Uuid) : Nat := (t.signaturesOn versionId).countP (·.isRejected)

end Tables

/-- A violation of the guard `code`: what blocks, with the numbers it found. -/
def blockViolation (code message : String) (details : List (String × Nat)) :
    Platform.GuardViolation Nat :=
  ⟨code, message, .BLOCK, none, details⟩

/-- `AllSignaturesDoneGuard.evaluate`. -/
def allSignaturesDone (lifecycles : List SignedLifecycleConfig) (t : Tables)
    (ctx : LifecycleGuardContext) : List (Platform.GuardViolation Nat) :=
  match ctx.transitionId with
  | none => []
  | some transitionId =>
    let required := countSignatureRequirements lifecycles transitionId
    if required = 0 then []
    else match t.getLastCommittedVersion ctx.nodeId with
      | none => [blockViolation "all_signatures_done" "No current version found" []]
      | some current =>
        let signed := t.countSigners current.id
        if signed < required then
          [blockViolation "all_signatures_done" ("Missing signatures: " ++ toString signed ++ " of "
            ++ toString required ++ " required signature(s) collected")
            [("signed", signed), ("required", required)]]
        else []

/-- The mode of `SignatureRejectionGuard`. -/
def LifecycleGuardContext.mode (ctx : LifecycleGuardContext) : String :=
  (ctx.parameters.lookup "mode").getD "NO_REJECTED"

/-- `SignatureRejectionGuard.evaluate`. -/
def signatureRejectionCheck (t : Tables) (ctx : LifecycleGuardContext) :
    List (Platform.GuardViolation Nat) :=
  match t.getLastCommittedVersion ctx.nodeId with
  | none => []
  | some current =>
    let rejectedCount := t.countRejected current.id
    if ctx.mode = "NO_REJECTED" then
      if rejectedCount > 0 then
        [blockViolation "signature_rejection_check" ("Cannot release: " ++ toString rejectedCount
          ++ " rejected signature(s) found") []]
      else []
    else if ctx.mode = "HAS_REJECTED" then
      if rejectedCount = 0 then
        [blockViolation "signature_rejection_check" "Unfreeze requires at least one rejected signature" []]
      else []
    else []

/-- Neither guard finds anything. -/
def SignaturesPass (lifecycles : List SignedLifecycleConfig) (t : Tables) (ctx : LifecycleGuardContext) :
    Prop :=
  allSignaturesDone lifecycles t ctx = [] ∧ signatureRejectionCheck t ctx = []

/-! ## What the requirements ask for -/

section Requirements

variable (env : Env) (holdsRole : String → String → Bool) (t : Tables) (nodeId : Uuid)
  (requirements : List SignatureRequirementConfig)

/-- The signatures on the current version of a node. -/
def Tables.currentSignatures : List SignatureRow :=
  ((t.getLastCommittedVersion nodeId).map fun v => t.signaturesOn v.id).getD []

/-- A signature that approves the current version of a node as it is now. -/
def Tables.ApprovesCurrent (g : SignatureRow) : Prop :=
  g.isRejected = false ∧ ∃ v ∈ t.getLastCommittedVersion nodeId,
    g.signedVersionFingerprint = some (fingerprintOf env t v)

instance : DecidablePred (t.ApprovesCurrent env nodeId) := fun g =>
  inferInstanceAs (Decidable (g.isRejected = false ∧ ∃ v ∈ t.getLastCommittedVersion nodeId,
    g.signedVersionFingerprint = some (fingerprintOf env t v)))

/-- The requirements can be assigned to pairwise distinct users who hold the role and approved. -/
def Tables.RequirementsMet : Prop :=
  ∃ signer : Fin requirements.length → String, Function.Injective signer ∧
    ∀ i, holdsRole (signer i) (requirements.get i).roleRequired = true ∧
      ∃ g ∈ t.currentSignatures nodeId, g.signedBy = signer i ∧ t.ApprovesCurrent env nodeId g

/-- No signature on the current version is rejected. -/
def Tables.NothingRejected : Prop := ∀ g ∈ t.currentSignatures nodeId, g.isRejected = false

instance : Decidable (t.NothingRejected nodeId) :=
  inferInstanceAs (Decidable (∀ g ∈ t.currentSignatures nodeId, g.isRejected = false))

/-- The users a requirement can be assigned to. -/
def Tables.candidates (i : Fin requirements.length) : Finset String :=
  (((t.currentSignatures nodeId).filter (t.ApprovesCurrent env nodeId ·)).map (·.signedBy)).toFinset.filter
    (holdsRole · (requirements.get i).roleRequired = true)

/-- Every set of requirements has at least as many candidates. -/
def Tables.EnoughCandidates : Prop :=
  ∀ K : Finset (Fin requirements.length),
    K.card ≤ (K.biUnion (t.candidates env holdsRole nodeId requirements)).card

/-- The users who signed the current version. -/
def Tables.signers : Finset String := ((t.currentSignatures nodeId).map (·.signedBy)).toFinset

end Requirements

section

variable {env : Env} {holdsRole : String → String → Bool} {t : Tables} {nodeId : Uuid}
  {requirements : List SignatureRequirementConfig}

theorem mem_candidates {i : Fin requirements.length} {user : String} :
    user ∈ t.candidates env holdsRole nodeId requirements i ↔
      holdsRole user (requirements.get i).roleRequired = true ∧
        ∃ g ∈ t.currentSignatures nodeId, g.signedBy = user ∧ t.ApprovesCurrent env nodeId g := by
  simp only [Tables.candidates, Finset.mem_filter, List.mem_toFinset, List.mem_map, List.mem_filter,
    decide_eq_true_eq]
  constructor
  · rintro ⟨⟨g, ⟨hg, happroves⟩, hby⟩, hrole⟩
    exact ⟨hrole, g, hg, hby, happroves⟩
  · rintro ⟨hrole, g, hg, hby, happroves⟩
    exact ⟨⟨g, ⟨hg, happroves⟩, hby⟩, hrole⟩

/-- **Assigning is a marriage problem**: it succeeds when no set of requirements is short of
candidates. -/
theorem requirementsMet_iff : t.RequirementsMet env holdsRole nodeId requirements ↔
    t.EnoughCandidates env holdsRole nodeId requirements := by
  unfold Tables.EnoughCandidates
  rw [Finset.all_card_le_biUnion_card_iff_exists_injective]
  refine exists_congr fun signer => and_congr_right fun _ => forall_congr' fun i => ?_
  exact mem_candidates.symm

/-- A candidate signed. -/
theorem candidates_subset_signers (i : Fin requirements.length) :
    t.candidates env holdsRole nodeId requirements i ⊆ t.signers nodeId := by
  intro user huser
  obtain ⟨-, g, hg, hby, -⟩ := mem_candidates.mp huser
  rw [Tables.signers, List.mem_toFinset, ← hby]
  exact List.mem_map_of_mem hg

/-- **Assigning implies counting**: the list of requirements is a set of requirements. -/
theorem length_le_signers (h : t.EnoughCandidates env holdsRole nodeId requirements) :
    requirements.length ≤ (t.signers nodeId).card := by
  calc requirements.length
      = (Finset.univ : Finset (Fin requirements.length)).card := by
        rw [Finset.card_univ, Fintype.card_fin]
    _ ≤ (Finset.univ.biUnion (t.candidates env holdsRole nodeId requirements)).card := h Finset.univ
    _ ≤ (t.signers nodeId).card := by
        refine Finset.card_le_card ?_
        rw [Finset.biUnion_subset]
        exact fun i _ => candidates_subset_signers i

/-! ## What the guards let through -/

/-- Without a version there is no signer. -/
theorem signers_eq_empty (h : t.getLastCommittedVersion nodeId = none) : t.signers nodeId = ∅ := by
  rw [Tables.signers, Tables.currentSignatures, h]
  rfl

theorem countSigners_eq {v : VersionRow} (h : t.getLastCommittedVersion nodeId = some v) :
    t.countSigners v.id = (t.signers nodeId).card := by
  rw [Tables.signers, Tables.currentSignatures, h, List.card_toFinset]
  rfl

theorem countRejected_eq_zero_iff {v : VersionRow} (h : t.getLastCommittedVersion nodeId = some v) :
    t.countRejected v.id = 0 ↔ t.NothingRejected nodeId := by
  rw [Tables.NothingRejected, Tables.currentSignatures, h, Tables.countRejected, List.countP_eq_zero]
  simp only [Option.map_some, Option.getD_some, Bool.not_eq_true]

/-- **`AllSignaturesDoneGuard` counts**: it lets a transition pass when at least as many users signed
as there are requirements. -/
theorem allSignaturesDone_iff {lifecycles : List SignedLifecycleConfig} {transitionId : String}
    {parameters : List (String × String)} :
    allSignaturesDone lifecycles t ⟨nodeId, some transitionId, parameters⟩ = [] ↔
      (signatureRequirements lifecycles transitionId).length ≤ (t.signers nodeId).card := by
  simp only [allSignaturesDone, countSignatureRequirements_eq]
  generalize (signatureRequirements lifecycles transitionId).length = required
  by_cases hzero : required = 0
  · simp [hzero]
  · rw [if_neg hzero]
    cases hv : t.getLastCommittedVersion nodeId with
    | none =>
      rw [signers_eq_empty hv, Finset.card_empty]
      simp only [List.cons_ne_nil, false_iff]
      omega
    | some v =>
      simp only [countSigners_eq hv]
      by_cases hshort : (t.signers nodeId).card < required
      · rw [if_pos hshort]
        simp only [List.cons_ne_nil, false_iff]
        omega
      · rw [if_neg hshort]
        simp only [true_iff]
        omega

/-- **`SignatureRejectionGuard` looks for rejected signatures**: it forbids them in one mode and asks
for one in the other. -/
theorem signatureRejectionCheck_iff {ctx : LifecycleGuardContext} :
    signatureRejectionCheck t ctx = [] ↔
      (ctx.mode = "NO_REJECTED" → t.NothingRejected ctx.nodeId) ∧
      (ctx.mode = "HAS_REJECTED" → t.getLastCommittedVersion ctx.nodeId = none ∨
        ¬ t.NothingRejected ctx.nodeId) := by
  unfold signatureRejectionCheck
  cases hv : t.getLastCommittedVersion ctx.nodeId with
  | none =>
    have hnothing : t.NothingRejected ctx.nodeId := by
      rw [Tables.NothingRejected, Tables.currentSignatures, hv]
      exact fun g hg => absurd hg List.not_mem_nil
    simp [hnothing]
  | some v =>
    have hcount := countRejected_eq_zero_iff hv
    by_cases hno : ctx.mode = "NO_REJECTED"
    · simp [hno, Nat.pos_iff_ne_zero, hcount]
    · by_cases hhas : ctx.mode = "HAS_REJECTED"
      · simp [hhas, hcount]
      · simp [hno, hhas]

end

/-! ## When counting is as good as assigning -/

/-- Where the guards let a transition pass exactly when its requirements are met and nothing is
rejected. With a rejected signature that is so when the rejection guard forbids it, or when too few users
signed. Without one it is so when too few users signed, or when no set of requirements is short of
candidates; in the mode that asks for a rejected signature, when some set is. -/
def Tables.CountingSuffices (env : Env) (holdsRole : String → String → Bool) (t : Tables)
    (ctx : LifecycleGuardContext) (requirements : List SignatureRequirementConfig) : Prop :=
  if ¬ t.NothingRejected ctx.nodeId then
    ctx.mode = "NO_REJECTED" ∨ (t.signers ctx.nodeId).card < requirements.length
  else if ctx.mode = "HAS_REJECTED" then
    t.getLastCommittedVersion ctx.nodeId = none ∨
      ¬ t.EnoughCandidates env holdsRole ctx.nodeId requirements
  else
    (t.signers ctx.nodeId).card < requirements.length ∨
      t.EnoughCandidates env holdsRole ctx.nodeId requirements

/-- Without a version only the empty list of requirements has enough candidates. -/
theorem enoughCandidates_of_no_version {env : Env} {holdsRole : String → String → Bool} {t : Tables}
    {nodeId : Uuid} {requirements : List SignatureRequirementConfig}
    (hv : t.getLastCommittedVersion nodeId = none) (h : requirements.length ≤ (t.signers nodeId).card) :
    t.EnoughCandidates env holdsRole nodeId requirements := by
  rw [signers_eq_empty hv, Finset.card_empty] at h
  intro K
  have hcard : K.card ≤ requirements.length := by
    calc K.card ≤ Fintype.card (Fin requirements.length) := Finset.card_le_univ K
      _ = requirements.length := Fintype.card_fin _
  omega

/-- **The guards are exact where counting suffices**, for every content of the store. -/
theorem signaturesPass_iff_met_iff (env : Env) (holdsRole : String → String → Bool) (t : Tables)
    (lifecycles : List SignedLifecycleConfig) (nodeId : Uuid) (transitionId : String)
    (parameters : List (String × String)) :
    (SignaturesPass lifecycles t ⟨nodeId, some transitionId, parameters⟩ ↔
      t.RequirementsMet env holdsRole nodeId (signatureRequirements lifecycles transitionId)
        ∧ t.NothingRejected nodeId) ↔
    t.CountingSuffices env holdsRole ⟨nodeId, some transitionId, parameters⟩
      (signatureRequirements lifecycles transitionId) := by
  unfold SignaturesPass Tables.CountingSuffices
  rw [allSignaturesDone_iff, signatureRejectionCheck_iff, requirementsMet_iff]
  generalize signatureRequirements lifecycles transitionId = requirements
  have hcount : t.EnoughCandidates env holdsRole nodeId requirements →
      requirements.length ≤ (t.signers nodeId).card := length_le_signers
  have hempty : t.getLastCommittedVersion nodeId = none →
      requirements.length ≤ (t.signers nodeId).card →
        t.EnoughCandidates env holdsRole nodeId requirements := enoughCandidates_of_no_version
  generalize LifecycleGuardContext.mode _ = mode
  by_cases hnothing : t.NothingRejected nodeId
  · by_cases hhas : mode = "HAS_REJECTED"
    · -- unfreezing: nothing is rejected, so the guard blocks as soon as there is a version
      simp only [hnothing, hhas, not_true_eq_false, if_false, if_true]
      tauto
    · simp only [hnothing, hhas, not_true_eq_false, if_false]
      rw [← not_le]
      tauto
  · simp only [hnothing, not_false_eq_true, if_true]
    rw [← not_le]
    tauto

/-! ## Runs -/

/-- **Main result.** After every run of the store, the guards let a transition pass exactly when its
requirements are met and nothing is rejected, if and only if counting suffices in the state reached. -/
theorem signature_guards_exact_iff (env : Env) (holdsRole : String → String → Bool)
    (lifecycles : List SignedLifecycleConfig) (start : Db) (rs : List StoreRequest) (nodeId : Uuid)
    (transitionId : String) (parameters : List (String × String)) :
    (SignaturesPass lifecycles (run (Db.step env) start rs).toTables
        ⟨nodeId, some transitionId, parameters⟩ ↔
      (run (Db.step env) start rs).toTables.RequirementsMet env holdsRole nodeId
          (signatureRequirements lifecycles transitionId)
        ∧ (run (Db.step env) start rs).toTables.NothingRejected nodeId) ↔
    (run (Db.step env) start rs).toTables.CountingSuffices env holdsRole
      ⟨nodeId, some transitionId, parameters⟩ (signatureRequirements lifecycles transitionId) :=
  signaturesPass_iff_met_iff env holdsRole _ lifecycles nodeId transitionId parameters

/-! ## Signatures that count and cannot be assigned -/

/-- A part is released and retired with the signature of a reviewer. -/
def reviewedLifecycle : List SignedLifecycleConfig :=
  [⟨"lc", some [
    ⟨⟨"release", "draft", "released", none⟩, some [⟨"release|reviewer", "release", "reviewer", 1⟩]⟩,
    ⟨⟨"retire", "released", "retired", none⟩, some [⟨"retire|reviewer", "retire", "reviewer", 1⟩]⟩]⟩]

def inspector : Caller := ⟨"inspector", false, 0⟩

/-- The assembly is committed, and the inspector approves it. -/
def approvedAssembly : List StoreRequest :=
  [.authoring engineer 1 1 (.createNode none "nt-assembly" (some "A") none),
    .authoring engineer 1 1 (.commit (some "first") []),
    .authoring inspector 1 1 (.sign 0 (some "APPROVED") none)]

def approvedDb : Db := run (Db.step collapsingEnv) Db.empty approvedAssembly

/-- The approved assembly is released, with its history collapsed. -/
def collapsedDb : Db :=
  run (Db.step collapsingEnv) Db.empty (approvedAssembly ++
    [.openTransaction engineer, .authoring engineer 2 4 (.transition 0 "release"),
      .authoring engineer 1 4 (.commit (some "released") [])])

/-- The signature of a designer lets a transition pass that asks for a reviewer, and so does a signature that
the collapse of the history moved to a version with another content. -/
theorem unassignable_signatures_pass :
    (SignaturesPass reviewedLifecycle approvedDb.toTables ⟨0, some "release", []⟩ ∧
      ¬ approvedDb.RequirementsMet collapsingEnv (fun _ role => role = "designer") 0
        (signatureRequirements reviewedLifecycle "release")) ∧
    (SignaturesPass reviewedLifecycle collapsedDb.toTables ⟨0, some "retire", []⟩ ∧
      ¬ collapsedDb.RequirementsMet collapsingEnv (fun _ _ => true) 0
        (signatureRequirements reviewedLifecycle "retire")) := by
  refine ⟨⟨⟨by decide +kernel, by decide +kernel⟩, ?_⟩, ⟨by decide +kernel, by decide +kernel⟩, ?_⟩
  · rintro ⟨signer, -, hsigner⟩
    have hrole : decide ("reviewer" = "designer") = true := (hsigner ⟨0, by decide⟩).1
    exact absurd hrole (by decide)
  · have hstale : ∀ g ∈ collapsedDb.currentSignatures 0,
        ¬ collapsedDb.ApprovesCurrent collapsingEnv 0 g := by
      decide +kernel
    rintro ⟨signer, -, hsigner⟩
    obtain ⟨-, g, hg, -, happroves⟩ := hsigner ⟨0, by decide⟩
    exact hstale g hg happroves

end PlmCore.Psm
