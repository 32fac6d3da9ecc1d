/-
The chain of the versions of a node, in every state of the store.

`createVersion` numbers a version from what its transaction sees: the transaction's own last
version, or the last committed one. As long as no other open transaction holds a version of the
node, that number is above all others, the open versions of the node are of one transaction and
above the committed ones, and what a user sees as current is the last version in sight. Nothing
but the lock keeps two open transactions apart, and two transactions of one user share it.
-/
import PlmCore.Lib.Run
import PlmCore.Psm.CascadeCalls
import PlmCore.Psm.Immutability
import PlmCore.Psm.Store

set_option autoImplicit false

namespace PlmCore.Psm

open PlmCore.Lib Relation

/-! ## The rules of a chain -/

namespace Tables

variable (t : Tables)

/-- What a transaction sees of a node: the committed versions and its own. -/
def visible (nodeId x : Uuid) : List VersionRow :=
  t.versions.filter fun v => v.nodeId = nodeId ∧ (t.isCommitted v.txId ∨ v.txId = x)

/-- The unique constraint of `node_version` on the number. -/
def UniqueNumbers : Prop := (t.versions.map fun v => (v.nodeId, v.versionNumber)).Nodup

/-- The transaction is the only open one with a version of the node. -/
def IsAlone (nodeId x : Uuid) : Prop :=
  ∀ v ∈ t.versions, v.nodeId = nodeId → t.isOpen v.txId = true → v.txId = x

end Tables

/-- The rules of the chains of all nodes. -/
structure ChainRules (t : Tables) : Prop where
  oneTransaction : ∀ v ∈ t.versions, ∀ w ∈ t.versions, v.nodeId = w.nodeId →
    t.isOpen v.txId = true → t.isOpen w.txId = true → v.txId = w.txId
  increasing : ∀ v ∈ t.versions, ∀ p ∈ v.previousVersionId,
    ∃ w ∈ t.versions, w.id = p ∧ w.nodeId = v.nodeId ∧ w.versionNumber < v.versionNumber
  openLast : ∀ v ∈ t.versions, ∀ w ∈ t.versions, v.nodeId = w.nodeId →
    t.isOpen v.txId = true → t.isCommitted w.txId = true → w.versionNumber < v.versionNumber
  currentLast : ∀ nodeId x, t.isOpen x = true →
    t.getCurrentVersionForTx nodeId x = Tables.latest (t.visible nodeId x)
  numbersFree : ∀ nodeId x, t.isOpen x = true → t.IsAlone nodeId x →
    ∀ ctx vid changeType stateId description numbering,
      (t.insertVersion (nextVersion ctx vid nodeId x changeType stateId description
        (t.getCurrentVersionForTx nodeId x) numbering)).UniqueNumbers

/-! ## Links of a chain -/

/-- What the chain is read off: the columns of a version that place it. -/
structure ChainKey where
  id : Uuid
  nodeId : Uuid
  versionNumber : Nat
  txId : Uuid
  previousVersionId : Option Uuid

def VersionRow.chainKey (v : VersionRow) : ChainKey :=
  ⟨v.id, v.nodeId, v.versionNumber, v.txId, v.previousVersionId⟩

def Tables.chainKeys (t : Tables) : List ChainKey := t.versions.map VersionRow.chainKey

/-- The invariant behind the rules. -/
structure Chained (t : Tables) : Prop where
  oneTransaction : ∀ k ∈ t.chainKeys, ∀ k' ∈ t.chainKeys, k.nodeId = k'.nodeId →
    t.isCommitted k.txId = false → t.isCommitted k'.txId = false → k.txId = k'.txId
  increasing : ∀ k ∈ t.chainKeys, ∀ p ∈ k.previousVersionId,
    ∃ k' ∈ t.chainKeys, k'.id = p ∧ k'.nodeId = k.nodeId ∧ k'.versionNumber < k.versionNumber
  openLast : ∀ k ∈ t.chainKeys, ∀ k' ∈ t.chainKeys, k.nodeId = k'.nodeId →
    t.isCommitted k.txId = false → t.isCommitted k'.txId = true → k'.versionNumber < k.versionNumber

/-- A version is of a transaction that is open or committed. -/
theorem isOpen_iff {s : Db} {v : VersionRow} (hv : v ∈ s.versions) :
    s.isOpen v.txId = true ↔ s.isCommitted v.txId = false := by
  obtain ⟨row, hrow, hid⟩ := List.mem_map.mp (s.valid.fk_version_tx v hv)
  have hfind : s.tx? v.txId = some row := by
    rw [← hid]
    exact find?_eq_some_of_nodup TransactionRow.id s.valid.pk_tx hrow
  simp only [Tables.isOpen, Tables.isCommitted, Tables.txStatus?, hfind, Option.map_some]
  cases row.status <;> decide

theorem mem_chainKeys {t : Tables} {v : VersionRow} (hv : v ∈ t.versions) : v.chainKey ∈ t.chainKeys :=
  List.mem_map_of_mem hv

/-- An id names one link of the chain. -/
theorem chainKey_eq {s : Db} {k k' : ChainKey} (hk : k ∈ s.chainKeys) (hk' : k' ∈ s.chainKeys)
    (hid : k.id = k'.id) : k = k' := by
  obtain ⟨v, hv, rfl⟩ := List.mem_map.mp hk
  obtain ⟨w, hw, rfl⟩ := List.mem_map.mp hk'
  rw [List.inj_on_of_nodup_map s.valid.pk_version hv hw hid]

/-- The row with the greatest number is the last one. -/
theorem latest_eq_some {rows : List VersionRow} {v : VersionRow} (hv : v ∈ rows)
    (hlast : ∀ w ∈ rows, w ≠ v → w.versionNumber < v.versionNumber) : Tables.latest rows = some v := by
  cases hl : Tables.latest rows with
  | none =>
    rw [List.argmax_eq_none.mp hl] at hv
    cases hv
  | some w =>
    have hle : v.versionNumber ≤ w.versionNumber := List.le_of_mem_argmax hv hl
    by_cases hne : w = v
    · rw [hne]
    · have hlt := hlast w (List.argmax_mem hl) hne
      omega

namespace Chained

variable {s : Db} {nodeId x : Uuid}

/-- **The current version of a transaction** is the last one it sees. -/
theorem getCurrentVersionForTx (h : Chained s.toTables) (hx : s.isOpen x = true) :
    s.getCurrentVersionForTx nodeId x = Tables.latest (s.visible nodeId x) := by
  have hopen := Tables.not_isCommitted_of_isOpen hx
  cases hfind : s.findOpenVersionInTx nodeId x with
  | none =>
    -- without a version of its own the transaction sees the committed ones
    have hnone := List.argmax_eq_none.mp hfind
    rw [Tables.getCurrentVersionForTx, hfind, Option.none_or, Tables.getLastCommittedVersion,
      Tables.visible]
    congr 1
    refine List.filter_congr fun v hv => ?_
    have hnot := List.filter_eq_nil_iff.mp hnone v hv
    simp only [decide_eq_true_eq, not_and] at hnot
    by_cases hnode : v.nodeId = nodeId
    · simp [hnode, hnot hnode]
    · simp [hnode]
  | some v =>
    obtain ⟨hv, hnode, htx⟩ := Tables.findOpenVersionInTx_ok hfind
    rw [Tables.getCurrentVersionForTx, hfind, Option.some_or]
    refine (latest_eq_some ?_ ?_).symm
    · exact List.mem_filter.mpr ⟨hv, by simp [hnode, htx]⟩
    · intro w hw hne
      obtain ⟨hw, hsees⟩ := List.mem_filter.mp hw
      rw [decide_eq_true_eq] at hsees
      obtain ⟨hwnode, hcommitted | hwx⟩ := hsees
      · refine h.openLast v.chainKey (mem_chainKeys hv) w.chainKey (mem_chainKeys hw) ?_ ?_ hcommitted
        · exact hnode.trans hwnode.symm
        · change s.isCommitted v.txId = false
          rw [htx]
          exact hopen
      · have hle : w.versionNumber ≤ v.versionNumber :=
          List.le_of_mem_argmax (List.mem_filter.mpr ⟨hw, by simp [hwnode, hwx]⟩) hfind
        refine lt_of_le_of_ne hle fun hsame => hne ?_
        refine List.inj_on_of_nodup_map s.valid.uq_node_version hw hv ?_
        rw [Prod.mk.injEq]
        exact ⟨hwnode.trans hnode.symm, hsame⟩

/-- **A number that is free**: alone with the node, the transaction numbers above all its versions. -/
theorem number_lt (h : Chained s.toTables) (hx : s.isOpen x = true) (halone : s.IsAlone nodeId x)
    {v : VersionRow} (hv : v ∈ s.versions) (hnode : v.nodeId = nodeId) :
    v.versionNumber < ((s.getCurrentVersionForTx nodeId x).map (·.versionNumber)).getD 0 + 1 := by
  have hsees : v ∈ s.visible nodeId x := by
    refine List.mem_filter.mpr ⟨hv, ?_⟩
    rw [decide_eq_true_eq]
    refine ⟨hnode, ?_⟩
    cases hcommitted : s.isCommitted v.txId with
    | true => exact .inl rfl
    | false => exact .inr (halone v hv hnode ((isOpen_iff hv).mpr hcommitted))
  rw [h.getCurrentVersionForTx hx]
  cases hl : Tables.latest (s.visible nodeId x) with
  | none =>
    rw [List.argmax_eq_none.mp hl] at hsees
    cases hsees
  | some w =>
    have hle : v.versionNumber ≤ w.versionNumber := List.le_of_mem_argmax hsees hl
    simp only [Option.map_some, Option.getD_some]
    omega

/-- **The rules follow from the invariant.** -/
theorem rules (h : Chained s.toTables) : ChainRules s.toTables where
  oneTransaction v hv w hw hnode hvopen hwopen :=
    h.oneTransaction v.chainKey (mem_chainKeys hv) w.chainKey (mem_chainKeys hw) hnode
      ((isOpen_iff hv).mp hvopen) ((isOpen_iff hw).mp hwopen)
  increasing v hv p hp := by
    obtain ⟨k, hk, hid, hnode, hlt⟩ := h.increasing v.chainKey (mem_chainKeys hv) p hp
    obtain ⟨w, hw, rfl⟩ := List.mem_map.mp hk
    exact ⟨w, hw, hid, hnode, hlt⟩
  openLast v hv w hw hnode hvopen hcommitted :=
    h.openLast v.chainKey (mem_chainKeys hv) w.chainKey (mem_chainKeys hw) hnode
      ((isOpen_iff hv).mp hvopen) hcommitted
  currentLast nodeId x hx := h.getCurrentVersionForTx hx
  numbersFree nodeId x hx halone ctx vid changeType stateId description numbering := by
    rw [Tables.UniqueNumbers, Tables.insertVersion, List.map_append, List.nodup_append]
    refine ⟨s.valid.uq_node_version, List.nodup_singleton _, fun a ha b hb hab => ?_⟩
    obtain ⟨v, hv, rfl⟩ := List.mem_map.mp ha
    rw [List.map_singleton, List.mem_singleton] at hb
    rw [hb, Prod.mk.injEq] at hab
    have hlt := h.number_lt hx halone hv hab.1
    have hsame : v.versionNumber =
        ((s.getCurrentVersionForTx nodeId x).map (·.versionNumber)).getD 0 + 1 := hab.2
    omega

end Chained

/-! ## Steps of the invariant -/

namespace Chained

variable {s s' : Db}

/-- Versions may go, and lose the version before them when it goes. -/
theorem kept (h : Chained s.toTables)
    (hkept : ∀ k' ∈ s'.chainKeys, ∃ k ∈ s.chainKeys,
      k' = k ∨ k' = { k with previousVersionId := none })
    (hcommitted : ∀ k' ∈ s'.chainKeys, s'.isCommitted k'.txId = s.isCommitted k'.txId) :
    Chained s'.toTables := by
  -- the columns other than the previous version are those of a link of the chain before
  have hsame : ∀ k' ∈ s'.chainKeys, ∃ k ∈ s.chainKeys, k'.id = k.id ∧ k'.nodeId = k.nodeId ∧
      k'.versionNumber = k.versionNumber ∧ k'.txId = k.txId ∧
      ∀ p ∈ k'.previousVersionId, p ∈ k.previousVersionId := by
    intro k' hk'
    obtain ⟨k, hk, rfl | rfl⟩ := hkept k' hk'
    · exact ⟨k', hk, rfl, rfl, rfl, rfl, fun p hp => hp⟩
    · exact ⟨k, hk, rfl, rfl, rfl, rfl, fun p hp => by cases hp⟩
  constructor
  · intro k₁ hk₁ k₂ hk₂ hnode hopen₁ hopen₂
    rw [hcommitted _ hk₁] at hopen₁
    rw [hcommitted _ hk₂] at hopen₂
    obtain ⟨k₁', hk₁', -, hnode₁, -, htx₁, -⟩ := hsame k₁ hk₁
    obtain ⟨k₂', hk₂', -, hnode₂, -, htx₂, -⟩ := hsame k₂ hk₂
    rw [htx₁] at hopen₁ ⊢
    rw [htx₂] at hopen₂ ⊢
    exact h.oneTransaction k₁' hk₁' k₂' hk₂' (hnode₁.symm.trans (hnode.trans hnode₂)) hopen₁ hopen₂
  · intro k hk p hp
    obtain ⟨k₀, hk₀, -, hnode, hnumber, -, hprevious⟩ := hsame k hk
    obtain ⟨j₀, hj₀, hjid, hjnode, hjlt⟩ := h.increasing k₀ hk₀ p (hprevious p hp)
    -- the schema lets no version go that another one names
    obtain ⟨v, hv, hvk⟩ := List.mem_map.mp hk
    rw [← hvk] at hp
    obtain ⟨w, hw, hwid⟩ := List.mem_map.mp (s'.valid.fk_version_previous v hv p hp)
    obtain ⟨j, hj, hwj, hwnode, hwnumber, -, -⟩ := hsame w.chainKey (mem_chainKeys hw)
    obtain rfl := chainKey_eq hj hj₀ (hwj.symm.trans (hwid.trans hjid.symm))
    refine ⟨w.chainKey, mem_chainKeys hw, hwid, ?_, ?_⟩
    · rw [hwnode, hjnode, hnode]
    · rw [hwnumber, hnumber]
      exact hjlt
  · intro k₁ hk₁ k₂ hk₂ hnode hopen₁ hcommitted₂
    rw [hcommitted _ hk₁] at hopen₁
    rw [hcommitted _ hk₂] at hcommitted₂
    obtain ⟨k₁', hk₁', -, hnode₁, hnumber₁, htx₁, -⟩ := hsame k₁ hk₁
    obtain ⟨k₂', hk₂', -, hnode₂, hnumber₂, htx₂, -⟩ := hsame k₂ hk₂
    rw [htx₁] at hopen₁
    rw [htx₂] at hcommitted₂
    rw [hnumber₁, hnumber₂]
    exact h.openLast k₁' hk₁' k₂' hk₂' (hnode₁.symm.trans (hnode.trans hnode₂)) hopen₁ hcommitted₂

/-- The chain is the same, and so are the transactions. -/
theorem same (h : Chained s.toTables) (hkeys : s'.chainKeys = s.chainKeys) (htxs : s'.txs = s.txs) :
    Chained s'.toTables :=
  h.kept (fun k hk => ⟨k, hkeys ▸ hk, .inl rfl⟩) fun _ _ => Tables.isCommitted_congr htxs _

/-- A version comes, above all others of its node and of the only open transaction there. -/
theorem add {k : ChainKey} (h : Chained s.toTables) (hkeys : s'.chainKeys = s.chainKeys ++ [k])
    (hcommitted : ∀ y, s'.isCommitted y = s.isCommitted y) (hopen : s.isCommitted k.txId = false)
    (halone : ∀ j ∈ s.chainKeys, j.nodeId = k.nodeId → s.isCommitted j.txId = false → j.txId = k.txId)
    (hlast : ∀ j ∈ s.chainKeys, j.nodeId = k.nodeId → j.versionNumber < k.versionNumber)
    (hprevious : ∀ p ∈ k.previousVersionId, ∃ j ∈ s.chainKeys, j.id = p ∧ j.nodeId = k.nodeId) :
    Chained s'.toTables := by
  -- the new version is the only key that is new
  have hmem : ∀ j, j ∈ s'.chainKeys ↔ j ∈ s.chainKeys ∨ j = k := by
    intro j
    rw [hkeys, List.mem_append, List.mem_singleton]
  constructor
  · intro k₁ hk₁ k₂ hk₂ hnode hopen₁ hopen₂
    rw [hcommitted] at hopen₁ hopen₂
    -- two open versions of a node: each is old or the new one
    obtain hk₁ | rfl := (hmem k₁).mp hk₁ <;> obtain hk₂ | rfl := (hmem k₂).mp hk₂
    · exact h.oneTransaction k₁ hk₁ k₂ hk₂ hnode hopen₁ hopen₂
    · exact halone k₁ hk₁ hnode hopen₁
    · exact (halone k₂ hk₂ hnode.symm hopen₂).symm
    · rfl
  -- its predecessor is a version of the node, and all of them have smaller numbers
  · intro j hj p hp
    obtain hj | rfl := (hmem j).mp hj
    · obtain ⟨i, hi, hid, hnode, hlt⟩ := h.increasing j hj p hp
      exact ⟨i, (hmem i).mpr (.inl hi), hid, hnode, hlt⟩
    · obtain ⟨i, hi, hid, hnode⟩ := hprevious p hp
      exact ⟨i, (hmem i).mpr (.inl hi), hid, hnode, hlast i hi hnode⟩
  -- a committed version is an old one, since the new one is open
  · intro k₁ hk₁ k₂ hk₂ hnode hopen₁ hcommitted₂
    rw [hcommitted] at hopen₁ hcommitted₂
    obtain hk₁ | rfl := (hmem k₁).mp hk₁ <;> obtain hk₂ | rfl := (hmem k₂).mp hk₂
    · exact h.openLast k₁ hk₁ k₂ hk₂ hnode hopen₁ hcommitted₂
    · rw [hopen] at hcommitted₂
      cases hcommitted₂
    · exact hlast k₂ hk₂ hnode.symm
    · rw [hopen] at hcommitted₂
      cases hcommitted₂

/-- A transaction is opened. -/
theorem openTransaction {ctx : Caller} {y : Uuid} (h : Chained s.toTables)
    (hr : Returns (Psm.openTransaction ctx) s y s') : Chained s'.toTables := by
  have hs' := (openTransaction_ok hr).2
  refine h.kept (fun k hk => ⟨k, ?_, .inl rfl⟩) fun k _ => ?_
  · rw [hs'] at hk
    exact hk
  · rw [hs', isCommitted_insertTransaction]

theorem discards {p : VersionSelection} {gone : List Uuid} (h : Chained s.toTables)
    (hd : Discards p gone s.toTables s'.toTables) : Chained s'.toTables := by
  refine h.kept (fun k hk => ⟨k, ?_, .inl rfl⟩) fun k hk => ?_
  · rw [Tables.chainKeys, hd.versions] at hk
    exact List.map_subset _ List.filter_sublist.subset hk
  · obtain ⟨v, hv, rfl⟩ := List.mem_map.mp hk
    exact hd.committed v hv

theorem collapse {env : Env} {a : StateActionContext} (h : Chained s.toTables)
    (hr : Returns (collapseHistory env a) s () s') : Chained s'.toTables := by
  obtain rfl | hcollapsed := collapseHistory_cases hr
  · exact h
  refine h.kept (fun k hk => ?_) fun k _ => Tables.isCommitted_congr hcollapsed.txs _
  rw [Tables.chainKeys, hcollapsed.versions] at hk
  obtain ⟨v', hv', rfl⟩ := List.mem_map.mp hk
  obtain ⟨v, hv, rfl⟩ := List.mem_map.mp hv'
  refine ⟨v.chainKey, mem_chainKeys (List.mem_of_mem_filter hv), ?_⟩
  by_cases hgone : ∃ p ∈ v.previousVersionId, p ∈ s.collapsedIds a
  · exact .inr (by simp only [VersionRow.chainKey, keptRow, if_pos hgone])
  · exact .inl (by simp only [VersionRow.chainKey, keptRow, if_neg hgone])

/-- **A commit**: the versions of the other open transactions are of other nodes, so nothing that is
committed now comes above one that stays open. -/
theorem commits {x y : Uuid} {deferred : List Uuid} (h : Chained s.toTables)
    (hx : s.isCommitted x = false) (hc : Commits x y deferred s.toTables s'.toTables) :
    Chained s'.toTables := by
  have hkey : ∀ k' ∈ s'.chainKeys, ∃ k ∈ s.chainKeys, k'.id = k.id ∧ k'.nodeId = k.nodeId ∧
      k'.versionNumber = k.versionNumber ∧ k'.previousVersionId = k.previousVersionId ∧
      k'.txId = (if k.txId = x ∧ k.nodeId ∈ deferred then y else k.txId) ∧
      s'.isCommitted k'.txId = (s.isCommitted k.txId || decide (k.txId = x ∧ k.nodeId ∉ deferred)) := by
    intro k' hk'
    rw [Tables.chainKeys, hc.versions] at hk'
    obtain ⟨v', hv', rfl⟩ := List.mem_map.mp hk'
    obtain ⟨v, hv, rfl⟩ := List.mem_map.mp hv'
    have htx : (v.deferTo x y deferred).txId = if v.txId = x ∧ v.nodeId ∈ deferred then y else v.txId := by
      unfold VersionRow.deferTo
      split <;> rfl
    refine ⟨v.chainKey, mem_chainKeys hv, ?_, ?_, ?_, ?_, htx, hc.committed v hv⟩ <;>
    · simp only [VersionRow.chainKey, VersionRow.deferTo]
      split <;> rfl
  constructor
  · intro k₁ hk₁ k₂ hk₂ hnode hopen₁ hopen₂
    obtain ⟨j₁, hj₁, -, hnode₁, -, -, htx₁, hcommitted₁⟩ := hkey k₁ hk₁
    obtain ⟨j₂, hj₂, -, hnode₂, -, -, htx₂, hcommitted₂⟩ := hkey k₂ hk₂
    rw [hcommitted₁, Bool.or_eq_false_iff] at hopen₁
    rw [hcommitted₂, Bool.or_eq_false_iff] at hopen₂
    have hnode' : j₁.nodeId = j₂.nodeId := by rw [← hnode₁, hnode, hnode₂]
    have htx := h.oneTransaction j₁ hj₁ j₂ hj₂ hnode' hopen₁.1 hopen₂.1
    rw [htx₁, htx₂, htx, hnode']
  · intro k hk p hp
    obtain ⟨j, hj, -, hnode, hnumber, hprevious, -, -⟩ := hkey k hk
    rw [hprevious] at hp
    obtain ⟨i, hi, hid, hinode, hlt⟩ := h.increasing j hj p hp
    obtain ⟨v, hv, rfl⟩ := List.mem_map.mp hi
    have hv' : v.deferTo x y deferred ∈ s'.versions := by
      rw [hc.versions]
      exact List.mem_map_of_mem hv
    have hsame : (v.deferTo x y deferred).id = v.id ∧ (v.deferTo x y deferred).nodeId = v.nodeId ∧
        (v.deferTo x y deferred).versionNumber = v.versionNumber := by
      unfold VersionRow.deferTo
      split <;> exact ⟨rfl, rfl, rfl⟩
    refine ⟨_, mem_chainKeys hv', hsame.1.trans hid, hsame.2.1.trans (hinode.trans hnode.symm), ?_⟩
    rw [hnumber]
    change (v.deferTo x y deferred).versionNumber < j.versionNumber
    rw [hsame.2.2]
    exact hlt
  · intro k₁ hk₁ k₂ hk₂ hnode hopen₁ hcommitted₂'
    obtain ⟨j₁, hj₁, -, hnode₁, hnumber₁, -, -, hcommitted₁⟩ := hkey k₁ hk₁
    obtain ⟨j₂, hj₂, -, hnode₂, hnumber₂, -, -, hcommitted₂⟩ := hkey k₂ hk₂
    rw [hcommitted₁, Bool.or_eq_false_iff] at hopen₁
    rw [hcommitted₂, Bool.or_eq_true] at hcommitted₂'
    have hnode' : j₁.nodeId = j₂.nodeId := by rw [← hnode₁, hnode, hnode₂]
    rw [hnumber₁, hnumber₂]
    obtain hold | hnew := hcommitted₂'
    · exact h.openLast j₁ hj₁ j₂ hj₂ hnode' hopen₁.1 hold
    · -- a version of the same node that stays open would be of the same transaction
      obtain ⟨htx₂, hnot⟩ := of_decide_eq_true hnew
      have htx := h.oneTransaction j₁ hj₁ j₂ hj₂ hnode' hopen₁.1 (htx₂ ▸ hx)
      have hsettled : j₁.txId = x ∧ j₁.nodeId ∉ deferred := ⟨htx.trans htx₂, hnode' ▸ hnot⟩
      exact absurd hsettled (of_decide_eq_false hopen₁.2)

end Chained

/-! ## When requests keep apart -/

namespace AuthoringOp

/-- The nodes of which the request may create a version, when they have one already: those of a
transition are the ones its cascade leads to. -/
def Versions (env : Env) (t : Tables) (x : Uuid) : AuthoringOp → Uuid → Prop
  | checkout nodeId _, n => n = nodeId
  | modifyNode nodeId _ _ _, n => n = nodeId
  | createLink _ nodeId _ _ _ _, n => n = nodeId
  | transition nodeId transitionId, n => t.isOpen x = true ∧ ∃ p : Applied,
    ReflTransGen (Leads env t) (nodeId, transitionId) p ∧ Applicable env t p ∧ p.1 = n
  | _, _ => False

/-- The open transactions the request may work in. -/
def transactions (t : Tables) (ctx : Caller) (x : Uuid) : AuthoringOp → List Uuid
  | checkout _ false => (t.openTransactionsOf ctx.userId).map (·.id)
  | _ => [x]

/-- The request takes the lock of the node before it creates a version, and another user has it. -/
def MeetsLock (t : Tables) (ctx : Caller) (n : Uuid) : AuthoringOp → Prop
  | checkout _ _ | modifyNode _ _ _ _ => ∃ row, t.node? n = some row ∧
    ∃ owner, row.lockedBy = some owner ∧ owner ≠ ctx.userId
  | _ => False

end AuthoringOp

/-- A node the request may create a version of is locked by another user, or no other open
transaction holds a version of it. -/
def StoreRequest.KeepsApart (env : Env) (t : Tables) : StoreRequest → Prop
  | .authoring ctx _ x op => ∀ n, op.Versions env t x n → op.MeetsLock t ctx n ∨
    ∀ v ∈ t.versions, v.nodeId = n → t.isOpen v.txId = true → v.txId ∈ op.transactions t ctx x
  | _ => True

/-! ## Requests -/

section Requests

variable {env : Env} {ctx : Caller} {x nodeId : Uuid} {s s' : Db}

/-- What other transactions hold of a node is what they held. -/
theorem isAlone_mono {t t' : Tables} {n : Uuid} (h : t.IsAlone n x) (htxs : t'.txs = t.txs)
    (hkeys : ∀ v' ∈ t'.versions, v'.txId = x ∨
      ∃ v ∈ t.versions, v.nodeId = v'.nodeId ∧ v.txId = v'.txId) : t'.IsAlone n x := by
  intro v' hv' hnode hopen
  obtain hx | ⟨v, hv, hvnode, hvtx⟩ := hkeys v' hv'
  · exact hx
  · rw [Tables.isOpen_congr htxs, ← hvtx] at hopen
    exact hvtx ▸ h v hv (hvnode.trans hnode) hopen

theorem chainKeys_updateVersion {vid : Uuid} {f : VersionRow → VersionRow} (t : Tables)
    (hf : ∀ v, (f v).chainKey = v.chainKey) : (t.updateVersion vid f).chainKeys = t.chainKeys := by
  simp only [Tables.chainKeys, Tables.updateVersion, List.map_map]
  refine List.map_congr_left fun v _ => ?_
  simp only [Function.comp_apply]
  split
  · exact hf v
  · rfl

theorem chainKeys_refresh (env : Env) (nodeId : Uuid) (v : VersionRow) (t : Tables) :
    (t.refresh env nodeId v).chainKeys = t.chainKeys := chainKeys_updateVersion t fun _ => rfl

/-- Storing a digest and publishing events leaves the chain as it is. -/
theorem chainKeys_told (env : Env) (t : Tables) (nodeId : Uuid) (v : VersionRow) (es : List PlmEvent) :
    ((t.refresh env nodeId v).withEvents es).chainKeys = t.chainKeys :=
  chainKeys_refresh env nodeId v t

theorem chainKeys_describe (vid : Uuid) (description : Option String) (t : Tables) :
    (t.describe vid description).chainKeys = t.chainKeys := by
  unfold Tables.describe
  split
  · rfl
  · exact chainKeys_updateVersion t fun _ => rfl

theorem chainKeys_addVersion (env : Env) (row : VersionRow) (as : List (String × Option String))
    (ds : List DomainRow) (t : Tables) :
    (t.addVersion env row as ds).chainKeys = t.chainKeys ++ [row.chainKey] := by
  rw [Tables.addVersion, chainKeys_refresh]
  simp [Tables.chainKeys, Tables.insertVersionRows, Tables.insertVersion, Tables.insertAttributes,
    Tables.insertDomains, Tables.takeId]

theorem chained_tryLock (h : Chained s.toTables) (hr : Returns (tryLock ctx nodeId) s () s') :
    Chained s'.toTables := by
  have hframe := tryLock_frame hr
  exact h.same (by rw [hframe]; rfl) (by rw [hframe])

theorem isAlone_tryLock {n y : Uuid} (h : s.IsAlone n y) (hr : Returns (tryLock ctx nodeId) s () s') :
    s'.IsAlone n y := by
  have hframe := tryLock_frame hr
  refine isAlone_mono h (by rw [hframe]) fun v hv => .inr ⟨v, ?_, rfl, rfl⟩
  rw [hframe] at hv
  exact hv

/-- The current version is a version of the node. -/
theorem current_mem {t : Tables} {v : VersionRow} (h : t.getCurrentVersionForTx nodeId x = some v) :
    v ∈ t.versions ∧ v.nodeId = nodeId := by
  rw [Tables.getCurrentVersionForTx, Option.or_eq_some_iff] at h
  obtain hfound | ⟨-, hlast⟩ := h
  · obtain ⟨hv, hnode, -⟩ := Tables.findOpenVersionInTx_ok hfound
    exact ⟨hv, hnode⟩
  · obtain ⟨hv, hnode, -⟩ := Tables.getLastCommittedVersion_ok hlast
    exact ⟨hv, hnode⟩

/-- **A new version continues the chain**, when its transaction is alone with the node. -/
theorem chained_createVersion {vid : Uuid} {ct : ChangeType} {strategy : Option VersionStrategy}
    {st : Option String} {attrs : List (String × Option String)} {desc : Option String}
    (h : Chained s.toTables) (halone : s.IsAlone nodeId x)
    (hr : Returns (createVersion env ctx nodeId x ct strategy st attrs desc) s vid s') :
    Chained s'.toTables := by
  obtain ⟨hopen, numbering, row, rfl, -, hs'⟩ := createVersion_ok hr
  have htxs : s'.txs = s.txs := by
    rw [hs']
    rfl
  refine h.add (by rw [hs', chainKeys_addVersion]) (fun y => Tables.isCommitted_congr htxs y)
    (Tables.not_isCommitted_of_isOpen hopen) ?_ ?_ ?_
  · intro j hj hnode huncommitted
    obtain ⟨v, hv, rfl⟩ := List.mem_map.mp hj
    exact halone v hv hnode ((isOpen_iff hv).mpr huncommitted)
  · intro j hj hnode
    obtain ⟨v, hv, rfl⟩ := List.mem_map.mp hj
    exact h.number_lt hopen halone hv hnode
  · intro p hp
    obtain ⟨v, hv, rfl⟩ := Option.map_eq_some_iff.mp hp
    obtain ⟨hmem, hnode⟩ := current_mem hv
    exact ⟨v.chainKey, mem_chainKeys hmem, rfl, hnode⟩

/-- The caller's transaction, found or opened, is the only open one with a version of the node. -/
theorem isAlone_findOrOpenTransaction {y : Uuid}
    (honly : ∀ v ∈ s.versions, v.nodeId = nodeId → s.isOpen v.txId = true →
      v.txId ∈ (s.openTransactionsOf ctx.userId).map (·.id))
    (hr : Returns (findOrOpenTransaction ctx) s y s') : s'.IsAlone nodeId y := by
  obtain ⟨rfl, hone⟩ | ⟨hnil, hopen⟩ := findOrOpenTransaction_ok hr
  · intro v hv hnode hopen
    have hmem := honly v hv hnode hopen
    rw [hone] at hmem
    exact List.mem_singleton.mp hmem
  · -- the caller had no transaction, so no open one has a version of the node
    intro v hv hnode hvopen
    have hs' := (openTransaction_ok hopen).2
    have hv₀ : v ∈ s.versions := by
      rw [hs'] at hv
      exact hv
    have huncommitted := (isOpen_iff hv).mp hvopen
    rw [hs', isCommitted_insertTransaction] at huncommitted
    have hmem := honly v hv₀ hnode ((isOpen_iff hv₀).mpr huncommitted)
    rw [hnil] at hmem
    cases hmem

theorem chained_findOrOpenTransaction {y : Uuid} (h : Chained s.toTables)
    (hr : Returns (findOrOpenTransaction ctx) s y s') : Chained s'.toTables := by
  obtain ⟨rfl, -⟩ | ⟨-, hopen⟩ := findOrOpenTransaction_ok hr
  · exact h
  · exact h.openTransaction hopen

/-- The caller's transaction is open. -/
theorem isOpen_findOrOpenTransaction {y : Uuid} (hr : Returns (findOrOpenTransaction ctx) s y s') :
    s'.isCommitted y = false := by
  obtain ⟨rfl, hone⟩ | ⟨-, hopen⟩ := findOrOpenTransaction_ok hr
  · have hmem : y ∈ (s'.openTransactionsOf ctx.userId).map (·.id) := by simp [hone]
    obtain ⟨row, hrow, rfl⟩ := List.mem_map.mp hmem
    obtain ⟨hrow, hstatus⟩ := List.mem_filter.mp hrow
    have hfind : s'.tx? row.id = some row := find?_eq_some_of_nodup TransactionRow.id s'.valid.pk_tx hrow
    rw [decide_eq_true_eq] at hstatus
    simp [Tables.isCommitted, Tables.txStatus?, hfind, hstatus.2]
  · rw [(openTransaction_ok hopen).2, isCommitted_insertTransaction]
    exact isCommitted_of_not_mem (fresh_of_openTransaction hopen)

theorem chained_createNode {projectSpaceId : Option String} {nodeTypeId : String}
    {logicalId externalId : Option String} (h : Chained s.toTables)
    (hr : Returns (createNode env ctx projectSpaceId nodeTypeId logicalId externalId) s nodeId s') :
    Chained s'.toTables := by
  obtain ⟨y, s₁, s₂, s₃, row, es, -, -, hins, hlock, htx, ⟨state, rfl⟩, hs'⟩ := createNode_ok hr
  have hs₁ : Chained s₁.toTables := h.same (by rw [hins]; rfl) (by rw [hins]; rfl)
  have hs₃ := chained_findOrOpenTransaction (chained_tryLock hs₁ hlock) htx
  have htxs : s'.txs = s₃.txs := by
    rw [hs']
    rfl
  -- the node is new, so it has no version
  have hfresh : nodeId ∉ s.nodeIds := by
    have hnodup := s₁.valid.pk_node
    rw [hins, Tables.nodeIds] at hnodup
    change ((s.nodes ++ [_]).map NodeRow.id).Nodup at hnodup
    rw [List.map_append] at hnodup
    exact fun hmem => (List.nodup_append.mp hnodup).2.2 _ hmem _ (List.mem_singleton_self _) rfl
  have hversions : s₃.versions = s.versions := by
    have hsame : s₃.versions = s₂.versions := by
      obtain ⟨rfl, -⟩ | ⟨-, hopen⟩ := findOrOpenTransaction_ok htx
      · rfl
      · rw [(openTransaction_ok hopen).2]
        rfl
    rw [hsame, tryLock_frame hlock, hins]
    rfl
  have hnone : ∀ j ∈ s₃.chainKeys, j.nodeId ≠ nodeId := by
    intro j hj hnode
    obtain ⟨v, hv, rfl⟩ := List.mem_map.mp hj
    rw [hversions] at hv
    exact hfresh (hnode ▸ s.valid.fk_version_node v hv)
  have hkeys : s'.chainKeys = s₃.chainKeys ++ [(initialVersion ctx s₃.nextId nodeId y state).chainKey] := by
    rw [hs']
    exact chainKeys_addVersion env _ _ _ _
  refine hs₃.add hkeys (fun z => Tables.isCommitted_congr htxs z) (isOpen_findOrOpenTransaction htx) ?_ ?_
    ?_
  · exact fun j hj hnode => absurd hnode (hnone j hj)
  · exact fun j hj hnode => absurd hnode (hnone j hj)
  · intro p hp
    cases hp

theorem chained_ensureOpenVersion {sv : Uuid} (h : Chained s.toTables) (halone : s.IsAlone nodeId x)
    (hr : Returns (ensureOpenVersion env ctx nodeId x) s sv s') : Chained s'.toTables := by
  simp only [ensureOpenVersion, returns_bind, returns_query, and_assoc, exists_and_left,
    exists_eq_left] at hr
  split at hr
  · obtain ⟨-, rfl⟩ := returns_pure.mp hr
    exact h
  · exact chained_createVersion h halone hr

theorem chained_checkout {vid : Uuid} {txId : Option Uuid} (h : Chained s.toTables)
    (honly : ∀ v ∈ s.versions, v.nodeId = nodeId → s.isOpen v.txId = true →
      v.txId ∈ txId.elim ((s.openTransactionsOf ctx.userId).map (·.id)) fun y => [y])
    (hr : Returns (checkout env ctx nodeId txId) s vid s') : Chained s'.toTables := by
  obtain ⟨y, s₁, s₂, hlock, htx, hr⟩ := checkout_ok hr
  have hs₁ := chained_tryLock h hlock
  have hframe := tryLock_frame hlock
  obtain ⟨hs₂, halone⟩ : Chained s₂.toTables ∧ s₂.IsAlone nodeId y := by
    cases txId with
    | none =>
      refine ⟨chained_findOrOpenTransaction hs₁ htx, isAlone_findOrOpenTransaction ?_ htx⟩
      rw [hframe]
      exact honly
    | some z =>
      obtain ⟨rfl, rfl⟩ := returns_pure.mp htx
      refine ⟨hs₁, isAlone_tryLock (fun v hv hnode hopen => ?_) hlock⟩
      exact List.mem_singleton.mp (honly v hv hnode hopen)
  obtain ⟨v, -, -, rfl⟩ | ⟨-, strategy, s₃, es, hcreate, hs'⟩ := hr
  · exact hs₂
  · exact (chained_createVersion hs₂ halone hcreate).same (by rw [hs']; rfl) (by rw [hs']; rfl)

theorem chained_domainAction {domainId : Option String} {change : String → Uuid → Plm Nat}
    (h : Chained s.toTables)
    (hchange : ∀ d vid s k s', Returns (change d vid) s k s' → RowsWritten vid s.toTables s'.toTables)
    (hr : Returns (domainAction env ctx nodeId x domainId change) s () s') : Chained s'.toTables := by
  obtain ⟨v, t, es, -, hrows, hs'⟩ := domainAction_ok hchange hr
  refine h.same ?_ ?_
  · rw [hs', chainKeys_told, hrows.tables]
    rfl
  · rw [hs']
    change t.txs = s.txs
    rw [hrows.tables]

theorem chained_modifyNode {vid : Uuid} {attributes : List (String × Option String)}
    {description : Option String} {strategy : Option VersionStrategy} (h : Chained s.toTables)
    (halone : s.IsAlone nodeId x)
    (hr : Returns (modifyNode env ctx nodeId x attributes description strategy) s vid s') :
    Chained s'.toTables := by
  obtain ⟨s₁, s₂, es, hlock, hs', hr⟩ := modifyNode_ok hr
  have hs₁ := chained_tryLock h hlock
  have hs₂ : Chained s₂.toTables := by
    obtain ⟨v, values, -, -, hs₂⟩ | ⟨-, strategy, hcreate⟩ := hr
    · refine hs₁.same ?_ ?_
      · rw [hs₂, chainKeys_refresh, chainKeys_describe]
        rfl
      · rw [hs₂]
        unfold Tables.describe
        split <;> rfl
    · exact chained_createVersion hs₁ (isAlone_tryLock halone hlock) hcreate
  exact hs₂.same (by rw [hs']; rfl) (by rw [hs']; rfl)

theorem chained_createLink {linkTypeId : String} {linkId : Uuid}
    {sourceCode type key linkLogicalId : Option String} (h : Chained s.toTables)
    (halone : s.IsAlone nodeId x)
    (hr : Returns (createLink env ctx linkTypeId nodeId sourceCode type key x linkLogicalId) s linkId
      s') : Chained s'.toTables := by
  obtain ⟨target, sv, s₁, s₂, v, es, hensure, hlock, -, -, -, -, hs'⟩ := createLink_ok hr
  have hs₂ := chained_tryLock (chained_ensureOpenVersion h halone hensure) hlock
  refine hs₂.same ?_ ?_
  · rw [hs', chainKeys_told]
    rfl
  · rw [hs']
    rfl

/-- **A transition** whose transaction is alone with every node the cascade leads to. -/
theorem chained_transition {depth : Nat} {vid : Uuid} {transitionId : String} (h : Chained s.toTables)
    (halone : ∀ n, (AuthoringOp.transition nodeId transitionId).Versions env s.toTables x n →
      s.IsAlone n x)
    (hr : Returns (applyTransition env ctx depth nodeId transitionId x) s vid s') :
    Chained s'.toTables := by
  -- the invariant of the cascade: chains, and `x` alone with every node it still leads to
  have hrule : CallInvariant env ctx x s.toTables (nodeId, transitionId) fun s₁ =>
      Chained s₁.toTables ∧ Later s.toTables s₁.toTables ∧
        ∀ n, (AuthoringOp.transition nodeId transitionId).Versions env s.toTables x n →
          s₁.IsAlone n x := by
    constructor
    · exact fun hP => hP.2.1
    -- a node of the cascade gets a version
    · intro s₁ s₂ p vid state strategy description hP hp happlicable hcreate
      obtain ⟨hs₁, hlater, hothers⟩ := hP
      have hopen : s.isOpen x = true := by
        rw [← Tables.isOpen_congr hlater.txs]
        exact (createVersion_ok hcreate).1
      refine ⟨chained_createVersion hs₁ (hothers p.1 ⟨hopen, p, hp, happlicable, rfl⟩) hcreate,
        hlater.entered ((createVersion_outcome s₁).1 _ _ hcreate), fun n hn => ?_⟩
      obtain ⟨hkeys, -, htxs, -⟩ := createVersion_keys hcreate
      refine isAlone_mono (hothers n hn) htxs fun v' hv' => ?_
      have hkey : v'.key ∈ s₂.versionKeys := List.mem_map_of_mem hv'
      rw [hkeys, List.mem_append, List.mem_singleton] at hkey
      obtain hold | hnew := hkey
      · obtain ⟨v, hv, hvkey⟩ := List.mem_map.mp hold
        exact .inr ⟨v, hv, congrArg VersionKey.nodeId hvkey, congrArg VersionKey.txId hvkey⟩
      · exact .inl (congrArg VersionKey.txId hnew)
    -- a state action collapses the history of a node
    · intro s₁ s₂ a hP hcollapse
      obtain ⟨hs₁, hlater, hothers⟩ := hP
      have hcut := (collapseHistory_cut env a s₁.toTables s₁ (.refl _)).1 _ _ hcollapse
      refine ⟨hs₁.collapse hcollapse, hlater.cut hcut, fun n hn => ?_⟩
      obtain rfl | hcollapsed := collapseHistory_cases hcollapse
      · exact hothers n hn
      refine isAlone_mono (hothers n hn) hcollapsed.txs fun v' hv' => .inr ?_
      rw [hcollapsed.versions] at hv'
      obtain ⟨v, hv, rfl⟩ := List.mem_map.mp hv'
      exact ⟨v, List.mem_of_mem_filter hv, rfl, rfl⟩
    -- the lock of a node
    · intro s₁ s₂ n hP hlock
      obtain ⟨hs₁, hlater, hothers⟩ := hP
      refine ⟨chained_tryLock hs₁ hlock, hlater.sameView ?_, fun n hn => isAlone_tryLock (hothers n hn) hlock⟩
      exact (tryLock_sameView ctx n s₁.toTables s₁ (.refl _)).1 _ _ hlock
    -- an event
    · intro s₁ s₂ es hP hs₂
      obtain ⟨hs₁, hlater, hothers⟩ := hP
      refine ⟨hs₁.same (by rw [hs₂]; rfl) (by rw [hs₂]; rfl), hlater.sameView ?_, fun n hn => ?_⟩
      · rw [hs₂]
        exact sameView_withEvents es _
      · rw [hs₂]
        exact hothers n hn
  exact (hrule.applyTransition ⟨h, .refl _, halone⟩ hr).1

/-- The lock of a node that another user has is not taken. -/
theorem not_meetsLock {op : AuthoringOp} (h : Returns (tryLock ctx nodeId) s () s') :
    ¬ op.MeetsLock s.toTables ctx nodeId := by
  obtain ⟨n, hn, hfree⟩ := tryLock_ok h
  intro hmeets
  -- only a checkout and a change of attributes ask for the lock before they make a version
  obtain ⟨row, hrow, owner, howner, hother⟩ : ∃ row, s.node? nodeId = some row ∧
      ∃ owner, row.lockedBy = some owner ∧ owner ≠ ctx.userId := by
    cases op with
    | checkout _ _ => exact hmeets
    | modifyNode _ _ _ _ => exact hmeets
    | _ => exact hmeets.elim
  rw [hn] at hrow
  obtain rfl := Option.some.inj hrow
  obtain ⟨hmine, -⟩ | ⟨hnone, -⟩ := hfree
  · rw [hmine] at howner
    exact hother (Option.some.inj howner).symm
  · rw [hnone] at howner
    cases howner

/-- **A request of a user** that keeps apart from the other transactions keeps the chains. -/
theorem chained_authoring {depth : Nat} {op : AuthoringOp} (h : Chained s.toTables)
    (hr : Returns (op.run env ctx depth x) s () s')
    (hapart : (StoreRequest.authoring ctx depth x op).KeepsApart env s.toTables) :
    Chained s'.toTables := by
  cases op with
  | createNode projectSpaceId nodeTypeId logicalId externalId =>
    obtain ⟨nodeId, hr⟩ := returns_void.mp hr
    exact chained_createNode h hr
  | checkout nodeId namesTransaction =>
    obtain ⟨vid, hr⟩ := returns_void.mp hr
    obtain ⟨y, s₁, s₂, hlock, -⟩ := checkout_ok hr
    -- the lock is taken, so the node is in no other open transaction
    have honly := (hapart nodeId rfl).resolve_left (not_meetsLock hlock)
    refine chained_checkout h ?_ hr
    cases namesTransaction with
    | true => exact honly
    | false => exact honly
  | modifyNode nodeId attributes description strategy =>
    obtain ⟨vid, hr⟩ := returns_void.mp hr
    obtain ⟨s₁, s₂, es, hlock, -⟩ := modifyNode_ok hr
    have honly := (hapart nodeId rfl).resolve_left (not_meetsLock hlock)
    refine chained_modifyNode h (fun v hv hnode hopen => ?_) hr
    exact List.mem_singleton.mp (honly v hv hnode hopen)
  | createLink linkTypeId nodeId sourceCode type key linkLogicalId =>
    obtain ⟨linkId, hr⟩ := returns_void.mp hr
    have honly := (hapart nodeId rfl).resolve_left id
    refine chained_createLink h (fun v hv hnode hopen => ?_) hr
    exact List.mem_singleton.mp (honly v hv hnode hopen)
  | updateLink linkId update =>
    obtain ⟨link, source, s₁, target, logicalId, rows, v, es, -, -, -, -, hlock, -, -, -, -, hs'⟩ :=
      updateLink_ok hr
    -- link rows are no part of the chain
    refine (chained_tryLock h hlock).same ?_ ?_
    · rw [hs', chainKeys_told]
      rfl
    · rw [hs']
      rfl
  | deleteLink linkId =>
    obtain ⟨link, source, s₁, es, -, -, -, -, hlock, hs'⟩ := deleteLink_ok hr
    refine (chained_tryLock h hlock).same ?_ ?_
    · rw [hs', chainKeys_told]
      rfl
    · rw [hs']
      rfl
  | assignDomain nodeId domainId =>
    exact chained_domainAction h (fun _ _ _ _ _ => assignDomain_ok) hr
  | unassignDomain nodeId domainId =>
    exact chained_domainAction h (fun _ _ _ _ _ => unassignDomain_ok) hr
  | transition nodeId transitionId =>
    obtain ⟨vid, hr⟩ := returns_void.mp hr
    refine chained_transition h (fun n hn v hv hnode hopen => ?_) hr
    exact List.mem_singleton.mp ((hapart n hn).resolve_left id v hv hnode hopen)
  | commit comment selectedNodeIds =>
    obtain ⟨o, hr⟩ := returns_void.mp hr
    -- the commit moves keys from open to committed, and defers some to the continuation
    obtain ⟨⟨y, hcommits⟩, hopen, -⟩ := commitTransaction_commits hr
    exact h.commits (Tables.not_isCommitted_of_isOpen hopen) hcommits
  | addComment nodeId nodeVersionId text parentCommentId attributeName =>
    obtain ⟨id, hr⟩ := returns_void.mp hr
    obtain ⟨v, c, es, -, -, -, -, -, hs'⟩ := addComment_ok hr
    exact h.same (by rw [hs']; rfl) (by rw [hs']; rfl)
  | sign nodeId meaning comment =>
    obtain ⟨id, hr⟩ := returns_void.mp hr
    obtain ⟨v, g, es, -, -, -, hs'⟩ := sign_ok hr
    exact h.same (by rw [hs']; rfl) (by rw [hs']; rfl)

/-- **Every request** that keeps apart from the other transactions keeps the chains. -/
theorem chained_method {r : StoreRequest} (h : Chained s.toTables) (hr : Returns (r.method env) s () s')
    (hapart : r.KeepsApart env s.toTables) : Chained s'.toTables := by
  cases r with
  | openTransaction ctx =>
    obtain ⟨y, hr⟩ := returns_void.mp hr
    exact h.openTransaction hr
  | authoring ctx depth txId op => exact chained_authoring h hr hapart
  | rollback ctx txId => exact h.discards (rollbackTransaction_discards hr).1
  | release ctx txId nodeIds => exact h.discards (releaseNodes_discards hr).1
  | cleanStale now => exact h.discards (cleanStaleTransactions_discards hr).1
  | lock ctx nodeId => exact chained_tryLock h hr
  | unlock nodeId =>
    obtain ⟨es, hs'⟩ := unlock_ok hr
    exact h.same (by rw [hs']; rfl) (by rw [hs']; rfl)
  | createBaseline ctx depth rootNodeId name description =>
    obtain ⟨id, hr⟩ := returns_void.mp hr
    obtain ⟨-, entries, hs'⟩ := createBaseline_ok hr
    exact h.same (by rw [hs']; rfl) (by rw [hs'])

end Requests

/-! ## Runs -/

/-- **The chains keep their rules** in every state of a run from a store without versions whose
requests keep apart. -/
theorem chain_rules_hold {env : Env} {start : Db} {rs : List StoreRequest} (hstart : start.versions = [])
    (h : Along (Db.step env) (fun s r => r.KeepsApart env s.toTables) start rs)
    (past : List StoreRequest) (hpast : past <+: rs) :
    ChainRules (run (Db.step env) start past).toTables := by
  have hfirst : Chained start.toTables := by
    constructor <;> simp [Tables.chainKeys, hstart]
  have hstep : ∀ (s : Db) (r : StoreRequest), Chained s.toTables → r.KeepsApart env s.toTables →
      Chained (s.step env r).toTables := fun s r hs hapart =>
    Db.step_invariant (fun s => Chained s.toTables) hs fun s' hrun => chained_method hs hrun hapart
  obtain ⟨rest, rfl⟩ := hpast
  exact (Along.invariant hstep hfirst (Along.append.mp h).1).rules

/-! ## Two transactions of one user -/

/-- The nodes with an open version, and whose it is. -/
def Tables.openHolders (t : Tables) : List (Uuid × Uuid) :=
  (t.versions.filter fun v => t.isOpen v.txId).map fun v => (v.nodeId, v.txId)

/-- An assembly that is committed, after which the user opens two transactions. -/
def assemblyAndTwoTransactions : List StoreRequest :=
  [.authoring engineer 1 1 (.createNode none "nt-assembly" (some "A") none),
    .authoring engineer 1 1 (.commit (some "first") []), .openTransaction engineer,
    .openTransaction engineer]

/-- One of the two modifies the assembly and commits, then the other one checks it out. -/
theorem chain_rules_hold_two_transactions :
    ChainRules (run (Db.step collapsingEnv) Db.empty (assemblyAndTwoTransactions ++
      [.authoring engineer 1 3 (.modifyNode 0 [("weight", some "5")] none none),
        .authoring engineer 1 3 (.commit (some "second") []),
        .authoring engineer 1 4 (.checkout 0 true)])).toTables := by
  have halone : ∀ (s : Db) (x : Uuid) (op : AuthoringOp), s.openHolders = [] →
      (StoreRequest.authoring engineer 1 x op).KeepsApart collapsingEnv s.toTables := by
    intro s x op h n _
    refine .inr fun v hv hnode hopen => ?_
    have hmem : (v.nodeId, v.txId) ∈ s.openHolders :=
      List.mem_map_of_mem (List.mem_filter.mpr ⟨hv, hopen⟩)
    rw [h] at hmem
    cases hmem
  have hnothing : ∀ (s : Db) (x : Uuid) (comment : Option String),
      (StoreRequest.authoring engineer 1 x (.commit comment [])).KeepsApart collapsingEnv s.toTables :=
    fun _ _ _ n hn => hn.elim
  refine chain_rules_hold rfl ?_ _ (List.prefix_refl _)
  refine ⟨?_, ?_, trivial, trivial, ?_, ?_, ?_, trivial⟩
  · exact fun n hn => hn.elim
  · exact hnothing _ _ _
  · exact halone _ _ _ (by decide +kernel)
  · exact hnothing _ _ _
  · exact halone _ _ _ (by decide +kernel)

/-- **Two transactions hold a version**: a release in the first one collapses the committed version,
and the second one, which shares the lock, starts the chain again. -/
theorem second_transaction_starts_again : Db.empty.versions = [] ∧
    ¬ ChainRules (run (Db.step collapsingEnv) Db.empty (assemblyAndTwoTransactions ++
      [.authoring engineer 2 3 (.transition 0 "release"),
        .authoring engineer 1 4 (.checkout 0 true)])).toTables := by
  refine ⟨rfl, fun h => ?_⟩
  have hholders : (run (Db.step collapsingEnv) Db.empty (assemblyAndTwoTransactions ++
      [.authoring engineer 2 3 (.transition 0 "release"),
        .authoring engineer 1 4 (.checkout 0 true)])).openHolders = [(0, 3), (0, 4)] := by
    decide +kernel
  generalize run (Db.step collapsingEnv) Db.empty (assemblyAndTwoTransactions ++
      [.authoring engineer 2 3 (.transition 0 "release"),
        .authoring engineer 1 4 (.checkout 0 true)]) = s at h hholders
  have hmem (k : Uuid × Uuid) (hk : k ∈ [((0 : Uuid), (3 : Uuid)), (0, 4)]) : k ∈ s.openHolders := by
    rw [hholders]
    exact hk
  obtain ⟨v, hv, hvkey⟩ := List.mem_map.mp (hmem (0, 3) List.mem_cons_self)
  obtain ⟨w, hw, hwkey⟩ := List.mem_map.mp (hmem (0, 4) (List.mem_cons_of_mem _ List.mem_cons_self))
  obtain ⟨hv, hvopen⟩ := List.mem_filter.mp hv
  obtain ⟨hw, hwopen⟩ := List.mem_filter.mp hw
  obtain ⟨hvnode, hvtx⟩ := Prod.mk.inj hvkey
  obtain ⟨hwnode, hwtx⟩ := Prod.mk.inj hwkey
  have hsame := h.oneTransaction v hv w hw (hvnode.trans hwnode.symm) hvopen hwopen
  rw [hvtx, hwtx] at hsame
  cases hsame

end PlmCore.Psm
