/-
Attributes that are locked in the state of their node.

`modifyNode` asks whether its keys are attributes of the node, and a commit whether the values are
well formed; neither asks whether the attribute may be edited. So a locked attribute keeps its
committed value as long as no call gives it another one.
-/
import PlmCore.Lib.Run
import PlmCore.Psm.CascadeView
import PlmCore.Psm.Store
import PlmCore.Psm.Validation

set_option autoImplicit false

namespace PlmCore.Psm

open PlmCore.Lib

/-! ## Values -/

namespace Tables

variable (t : Tables)

/-- The value a version has of an attribute. -/
def valueOf (versionId : Uuid) (attr : String) : Option String := (getKey (t.attributeMap versionId) attr).join

/-- The value of the last committed version. -/
def committedValue (nodeId : Uuid) (attr : String) : Option String :=
  (t.getLastCommittedVersion nodeId).bind fun v => t.valueOf v.id attr

/-- The value a transaction sees. -/
def valueSeen (nodeId x : Uuid) (attr : String) : Option String :=
  (t.getCurrentVersionForTx nodeId x).bind fun v => t.valueOf v.id attr

end Tables

/-! ## Calls -/

/-- A call of `modifyNode` in a transaction. -/
structure ModifyCall where
  ctx : Caller
  txId : Uuid
  nodeId : Uuid
  attributes : List (String × Option String)
  description : Option String
  strategy : Option VersionStrategy

/-- One call. -/
def Db.modify (env : Env) (s : Db) (c : ModifyCall) : Db :=
  s.step env (.authoring c.ctx 0 c.txId (.modifyNode c.nodeId c.attributes c.description c.strategy))

/-- A call of `commitTransaction`. -/
structure CommitCall where
  ctx : Caller
  txId : Uuid
  comment : Option String
  selectedNodeIds : List Uuid

/-- The commit. -/
def Db.commit (env : Env) (s : Db) (c : CommitCall) : Db :=
  s.step env (.authoring c.ctx 0 c.txId (.commit c.comment c.selectedNodeIds))

namespace ValidationModel

variable (m : ValidationModel) (base : Env)

/-- The attribute is not editable in the state of the version the transaction sees of the node. -/
def IsLocked (t : Tables) (nodeId x : Uuid) (attr : String) : Prop :=
  m.isEditable base ((t.node? nodeId).map (·.nodeTypeId))
    ((t.getCurrentVersionForTx nodeId x).bind (·.lifecycleStateId)) attr = false

/-- The attribute is locked for the transaction of each call when the call is made, and for the one
that commits at the end. -/
def LockedThroughout (s : Db) (calls : List ModifyCall) (commit : CommitCall) (nodeId : Uuid)
    (attr : String) : Prop :=
  Along (Db.modify (m.configure base)) (fun s c => m.IsLocked base s.toTables nodeId c.txId attr) s calls ∧
    m.IsLocked base (run (Db.modify (m.configure base)) s calls).toTables nodeId commit.txId attr

/-- To the locked ones among its attributes the call gives the value they have. -/
def RespectsLocks (s : Db) (c : ModifyCall) : Prop :=
  ∀ e ∈ c.attributes, m.IsLocked base s.toTables c.nodeId c.txId e.1 →
    e.2 = s.committedValue c.nodeId e.1

end ValidationModel

/-! ## The last version of a kind -/

/-- The last of the versions with a property. -/
structure IsLast (keys : List StateKey) (p : StateKey → Prop) (k : StateKey) : Prop where
  mem : k ∈ keys
  prop : p k
  le : ∀ j ∈ keys, p j → j.versionNumber ≤ k.versionNumber

theorem isLast_of_latest {t : Tables} {p : StateKey → Prop} [DecidablePred p] {v : VersionRow}
    (h : Tables.latest (t.versions.filter fun v => p v.stateKey) = some v) :
    IsLast t.stateKeys p v.stateKey := by
  obtain ⟨hv, hp⟩ := List.mem_filter.mp (List.argmax_mem h)
  refine ⟨List.mem_map_of_mem hv, of_decide_eq_true hp, fun j hj hpj => ?_⟩
  obtain ⟨w, hw, rfl⟩ := List.mem_map.mp hj
  have hmem : w ∈ t.versions.filter fun v => p v.stateKey := List.mem_filter.mpr ⟨hw, decide_eq_true hpj⟩
  have hle : w.versionNumber ≤ v.versionNumber := List.le_of_mem_argmax hmem h
  exact hle

/-- Of the versions of one node one is the last. -/
theorem IsLast.unique {s : Db} {p : StateKey → Prop} {nodeId : Uuid} {j k : StateKey}
    (hnode : ∀ k, p k → k.nodeId = nodeId) (hj : IsLast s.stateKeys p j) (hk : IsLast s.stateKeys p k) :
    j = k := by
  obtain ⟨v, hv, rfl⟩ := List.mem_map.mp hj.mem
  obtain ⟨w, hw, rfl⟩ := List.mem_map.mp hk.mem
  have hnumber : v.versionNumber = w.versionNumber :=
    le_antisymm (hk.le _ hj.mem hj.prop) (hj.le _ hk.mem hk.prop)
  refine congrArg VersionRow.stateKey (List.inj_on_of_nodup_map s.valid.uq_node_version hv hw ?_)
  rw [Prod.mk.injEq]
  exact ⟨(hnode _ hj.prop).trans (hnode _ hk.prop).symm, hnumber⟩

/-! ## The value stays -/

/-- The committed value of the attribute is `c`, and so is the one of the version the transaction
holds of the node. -/
structure HasValue (nodeId x : Uuid) (attr : String) (c : Option String) (t : Tables) : Prop where
  committed : ∀ k, IsLast t.stateKeys (fun k => k.nodeId = nodeId ∧ t.isCommitted k.txId = true) k →
    t.valueOf k.id attr = c
  uncommitted : (∀ k ∈ t.stateKeys, k.nodeId = nodeId → t.isCommitted k.txId = false) → c = none
  held : ∀ k, IsLast t.stateKeys (fun k => k.nodeId = nodeId ∧ k.txId = x) k → t.valueOf k.id attr = c

variable {m : ValidationModel} {env base : Env} {s s' : Db} {nodeId x : Uuid} {attr : String} {c : Option String}

theorem HasValue.committedValue (h : HasValue nodeId x attr c s.toTables) :
    s.committedValue nodeId attr = c := by
  rw [Tables.committedValue]
  cases hlast : s.getLastCommittedVersion nodeId with
  | none =>
    refine (h.uncommitted fun k hk hnode => ?_).symm
    obtain ⟨v, hv, rfl⟩ := List.mem_map.mp hk
    have hnot := List.filter_eq_nil_iff.mp (List.argmax_eq_none.mp hlast) v hv
    rw [decide_eq_true_eq, not_and, Bool.not_eq_true] at hnot
    exact hnot hnode
  | some v => exact h.committed v.stateKey (isLast_of_latest hlast)

/-- At the start the transaction sees the committed value. -/
theorem hasValue_of_seen (h : s.valueSeen nodeId x attr = s.committedValue nodeId attr) :
    HasValue nodeId x attr (s.committedValue nodeId attr) s.toTables := by
  constructor
  · intro k hk
    rw [Tables.committedValue]
    cases hlast : s.getLastCommittedVersion nodeId with
    | none =>
      obtain ⟨v, hv, rfl⟩ := List.mem_map.mp hk.mem
      exact absurd (decide_eq_true hk.prop) (List.filter_eq_nil_iff.mp (List.argmax_eq_none.mp hlast) v hv)
    | some v => rw [hk.unique (fun _ hp => hp.1) (isLast_of_latest hlast), Option.bind_some]; rfl
  · intro hnone
    rw [Tables.committedValue]
    cases hlast : s.getLastCommittedVersion nodeId with
    | none => rfl
    | some v =>
      obtain ⟨hv, hnode, hcommitted⟩ := Tables.getLastCommittedVersion_ok hlast
      have hnot : s.isCommitted v.txId = false := hnone v.stateKey (List.mem_map_of_mem hv) hnode
      rw [hcommitted] at hnot
      cases hnot
  · intro k hk
    rw [← h, Tables.valueSeen, Tables.getCurrentVersionForTx]
    cases hlast : s.findOpenVersionInTx nodeId x with
    | none =>
      obtain ⟨v, hv, rfl⟩ := List.mem_map.mp hk.mem
      exact absurd (decide_eq_true hk.prop) (List.filter_eq_nil_iff.mp (List.argmax_eq_none.mp hlast) v hv)
    | some v =>
      rw [hk.unique (fun _ hp => hp.1) (isLast_of_latest hlast), Option.some_or, Option.bind_some]
      rfl

/-- A step that moves no version leaves the value of each as it is, or gives it `c`. -/
theorem HasValue.rewrite (h : HasValue nodeId x attr c s.toTables) (hkeys : s'.stateKeys = s.stateKeys)
    (htxs : s'.txs = s.txs)
    (hvalue : ∀ k ∈ s.stateKeys, k.nodeId = nodeId →
      s'.valueOf k.id attr = s.valueOf k.id attr ∨ s'.valueOf k.id attr = c) :
    HasValue nodeId x attr c s'.toTables := by
  have hcommitted : s'.isCommitted = s.isCommitted := funext (Tables.isCommitted_congr htxs)
  have hsame : ∀ k ∈ s.stateKeys, k.nodeId = nodeId → s.valueOf k.id attr = c → s'.valueOf k.id attr = c := by
    intro k hk hnode hc
    obtain hkept | hnew := hvalue k hk hnode
    · rw [hkept, hc]
    · exact hnew
  constructor
  · rw [hkeys, hcommitted]
    exact fun k hk => hsame k hk.mem hk.prop.1 (h.committed k hk)
  · rw [hkeys, hcommitted]
    exact h.uncommitted
  · rw [hkeys]
    exact fun k hk => hsame k hk.mem hk.prop.1 (h.held k hk)

/-- A version comes that is not committed, with the value `c` when the transaction has it. -/
theorem HasValue.add {k : StateKey} (h : HasValue nodeId x attr c s.toTables)
    (hkeys : s'.stateKeys = s.stateKeys ++ [k]) (htxs : s'.txs = s.txs)
    (hopen : s.isCommitted k.txId = false)
    (hvalue : ∀ j ∈ s.stateKeys, s'.valueOf j.id attr = s.valueOf j.id attr)
    (hnew : k.nodeId = nodeId → k.txId = x → s'.valueOf k.id attr = c) :
    HasValue nodeId x attr c s'.toTables := by
  have hcommitted : s'.isCommitted = s.isCommitted := funext (Tables.isCommitted_congr htxs)
  have hmem : ∀ j, j ∈ s'.stateKeys ↔ j ∈ s.stateKeys ∨ j = k := by
    intro j
    rw [hkeys, List.mem_append, List.mem_singleton]
  -- what is last of the versions there are now was last before, unless it is the new one
  have hlast : ∀ {p : StateKey → Prop} {j}, IsLast s'.stateKeys p j → j ≠ k → IsLast s.stateKeys p j := by
    intro p j hj hne
    exact ⟨((hmem j).mp hj.mem).resolve_right hne, hj.prop, fun i hi => hj.le i ((hmem i).mpr (.inl hi))⟩
  constructor
  · intro j hj
    rw [hcommitted] at hj
    have hne : j ≠ k := by
      rintro rfl
      have hnot : s.isCommitted j.txId = true := hj.prop.2
      rw [hopen] at hnot
      cases hnot
    rw [hvalue j (hlast hj hne).mem]
    exact h.committed j (hlast hj hne)
  · intro hnone
    rw [hcommitted] at hnone
    exact h.uncommitted fun j hj => hnone j ((hmem j).mpr (.inl hj))
  · intro j hj
    by_cases hne : j = k
    · rw [hne] at hj ⊢
      exact hnew hj.prop.1 hj.prop.2
    · rw [hvalue j (hlast hj hne).mem]
      exact h.held j (hlast hj hne)

/-! ## Values of attribute rows -/

/-- When the values put over the others are `c` for the key, it has `c` or the value it had. -/
theorem getKey_putAll {base new : List (String × Option String)} (hnew : ∀ e ∈ new, e.1 = attr → e.2 = c) :
    (getKey (putAll base new) attr).join = (getKey base attr).join ∨
      (getKey (putAll base new) attr).join = c := by
  rw [getKey, putAll, List.find?_append]
  -- keys that are written leave the base, so an entry of the key is old or new
  by_cases hkey : attr ∈ new.map (·.1)
  · have hnone : (base.filter fun a => a.1 ∉ new.map (·.1)).find? (·.1 = attr) = none := by
      rw [List.find?_eq_none]
      intro e he hattr
      rw [decide_eq_true_eq] at hattr
      have hnot := (List.mem_filter.mp he).2
      rw [decide_eq_true_eq, hattr] at hnot
      exact hnot hkey
    right
    rw [hnone, Option.none_or]
    obtain ⟨e, he, hattr⟩ := List.mem_map.mp hkey
    cases hfind : new.find? (·.1 = attr) with
    | none =>
      have hnot := List.find?_eq_none.mp hfind e he
      rw [decide_eq_true_eq] at hnot
      exact absurd hattr hnot
    | some f =>
      have hf := List.find?_some hfind
      rw [decide_eq_true_eq] at hf
      rw [Option.map_some, Option.join_some]
      exact hnew f (List.mem_of_find?_eq_some hfind) hf
  · have hsame : (base.filter fun a => a.1 ∉ new.map (·.1)).find? (·.1 = attr) = base.find? (·.1 = attr) := by
      rw [List.find?_filter]
      congr 1
      funext a
      by_cases ha : a.1 = attr
      · rw [ha]
        simp [hkey]
      · simp [ha]
    have hnone : new.find? (·.1 = attr) = none := by
      rw [List.find?_eq_none]
      intro e he hattr
      rw [decide_eq_true_eq] at hattr
      exact hkey (List.mem_map.mpr ⟨e, he, hattr⟩)
    left
    rw [hsame, hnone, Option.or_none]
    rfl

/-- The values after those of one version were written. -/
theorem valueOf_written {t t' : Tables} {vid : Uuid} {values : List (String × Option String)}
    (h : t'.attributes = t.attributes.filter (·.nodeVersionId ≠ vid) ++
      values.map fun a => ⟨vid, a.1, a.2⟩) (w : Uuid) :
    t'.valueOf w attr = if w = vid then (getKey values attr).join else t.valueOf w attr := by
  have hrows : t'.attributesOf w = (if w = vid then [] else t.attributesOf w) ++
      (if w = vid then values.map fun a => ⟨vid, a.1, a.2⟩ else []) := by
    rw [Tables.attributesOf, h, List.filter_append, List.filter_filter, List.filter_map]
    by_cases hw : w = vid
    · rw [if_pos hw, if_pos hw, hw]
      simp [Function.comp_def]
    · rw [if_neg hw, if_neg hw, Tables.attributesOf]
      have hne : ∀ a : AttributeRow, a.nodeVersionId = w → a.nodeVersionId ≠ vid := fun a ha => ha ▸ hw
      have hsame : (t.attributes.filter fun a => decide (a.nodeVersionId = w) && decide (a.nodeVersionId ≠ vid)) =
          t.attributes.filter (·.nodeVersionId = w) := by
        refine List.filter_congr fun a _ => ?_
        by_cases ha : a.nodeVersionId = w
        · simp [ha, hw]
        · simp [ha]
      rw [hsame]
      simp [Function.comp_def, Ne.symm hw]
  rw [Tables.valueOf, Tables.attributeMap, hrows]
  by_cases hw : w = vid
  · simp [hw, Function.comp_def]
  · simp [hw, Tables.valueOf, Tables.attributeMap]

/-! ## One call -/

theorem stateKeys_refresh (n : Uuid) (v : VersionRow) (t : Tables) :
    (t.refresh env n v).stateKeys = t.stateKeys := by
  have hkey : ∀ fp, ∀ w : VersionRow, ({ w with fingerprint := some fp } : VersionRow).stateKey = w.stateKey :=
    fun _ _ => rfl
  exact (sameView_updateVersion v.id (hkey _) t).keys

theorem stateKeys_describe (vid : Uuid) (description : Option String) (t : Tables) :
    (t.describe vid description).stateKeys = t.stateKeys := by
  unfold Tables.describe
  split
  · rfl
  · have hkey : ∀ w : VersionRow,
        ({ w with changeDescription := description } : VersionRow).stateKey = w.stateKey := fun _ => rfl
    exact (sameView_updateVersion vid hkey t).keys

/-- The attribute rows of a step that only takes a lock. -/
theorem hasValue_tryLock {ctx : Caller} {n : Uuid} (h : HasValue nodeId x attr c s.toTables)
    (hr : Returns (tryLock ctx n) s () s') : HasValue nodeId x attr c s'.toTables := by
  have hframe := tryLock_frame hr
  refine h.rewrite (by rw [hframe]; rfl) (by rw [hframe]) fun k _ _ => .inl ?_
  rw [hframe]
  rfl

theorem hasValue_createVersion {ctx : Caller} {n y vid : Uuid} {ct : ChangeType}
    {strategy : Option VersionStrategy} {attributes : List (String × Option String)} {desc : Option String}
    (h : HasValue nodeId x attr c s.toTables)
    (hnew : n = nodeId → y = x → ∀ e ∈ attributes, e.1 = attr → e.2 = c)
    (hnone : s.findOpenVersionInTx n y = none)
    (hr : Returns (createVersion env ctx n y ct strategy none attributes desc) s vid s') :
    HasValue nodeId x attr c s'.toTables := by
  obtain ⟨hopen, numbering, row, hrow, hvid, hs'⟩ := createVersion_ok hr
  have hid : row.id = vid := by
    rw [hrow]
    rfl
  -- the id of the version is new
  have hfresh : ∀ v ∈ s.versions, v.id ≠ row.id := by
    intro v hv
    have hlt := s.valid.generated v hv
    rw [hid, hvid]
    exact ne_of_lt hlt
  have hattributes : s'.attributes = s.attributes.filter (·.nodeVersionId ≠ row.id) ++
      (putAll (s.currentAttributes n y) attributes).map fun a => ⟨row.id, a.1, a.2⟩ := by
    have hall : s.attributes.filter (·.nodeVersionId ≠ row.id) = s.attributes := by
      rw [List.filter_eq_self]
      intro a ha
      obtain ⟨v, hv, hva⟩ := List.mem_map.mp (s.valid.fk_attribute_version a ha)
      rw [decide_eq_true_eq, ← hva]
      exact hfresh v hv
    rw [hall, hs']
    rfl
  refine h.add (k := row.stateKey) ?_ ?_ ?_ ?_ ?_
  · rw [hs', Tables.addVersion, stateKeys_refresh]
    simp [Tables.stateKeys, Tables.insertVersionRows, Tables.insertVersion, Tables.insertAttributes,
      Tables.insertDomains, Tables.takeId]
  · rw [hs']
    rfl
  · rw [hrow]
    exact Tables.not_isCommitted_of_isOpen hopen
  · intro k hk
    obtain ⟨v, hv, rfl⟩ := List.mem_map.mp hk
    have hother : v.stateKey.id ≠ row.id := hfresh v hv
    rw [valueOf_written hattributes, if_neg hother]
  · intro hnode htx
    have hn : n = nodeId := by
      rw [← hnode, hrow]
      rfl
    have hy : y = x := by
      rw [← htx, hrow]
      rfl
    have hself : row.stateKey.id = row.id := rfl
    rw [valueOf_written hattributes, if_pos hself]
    refine (getKey_putAll (hnew hn hy)).elim (fun hkept => hkept.trans ?_) id
    -- the transaction has no version of the node, so it starts from the committed one
    have hcommitted := h.committedValue
    rw [hn] at hnone ⊢
    rw [Tables.currentAttributes, Tables.getCurrentVersionForTx, hnone, Option.none_or]
    rw [Tables.committedValue] at hcommitted
    cases hlast : s.getLastCommittedVersion nodeId with
    | none =>
      rw [hlast] at hcommitted
      exact hcommitted
    | some v =>
      rw [hlast] at hcommitted
      exact hcommitted

/-- **A call that gives the attribute no other value** leaves it the value. -/
theorem hasValue_modifyNode {ctx : Caller} {n y vid : Uuid} {attributes : List (String × Option String)}
    {description : Option String} {strategy : Option VersionStrategy}
    (h : HasValue nodeId x attr c s.toTables)
    (hnew : n = nodeId → ∀ e ∈ attributes, e.1 = attr → e.2 = c)
    (hr : Returns (modifyNode env ctx n y attributes description strategy) s vid s') :
    HasValue nodeId x attr c s'.toTables := by
  obtain ⟨s₁, s₂, es, hlock, hs', hr⟩ := modifyNode_writes hr
  have h₁ := hasValue_tryLock h hlock
  have h₂ : HasValue nodeId x attr c s₂.toTables := by
    obtain ⟨v, hv, rfl, hs₂⟩ | ⟨hnone, strategy, hcreate⟩ := hr
    · have hattributes : s₂.attributes = s₁.attributes.filter (·.nodeVersionId ≠ v.id) ++
          (putAll (s₁.attributeMap v.id) attributes).map fun a => ⟨v.id, a.1, a.2⟩ := by
        rw [hs₂]
        unfold Tables.describe
        split <;> rfl
      refine h₁.rewrite ?_ ?_ fun k hk hnode => ?_
      · rw [hs₂, stateKeys_refresh, stateKeys_describe]
        rfl
      · rw [hs₂]
        unfold Tables.describe
        split <;> rfl
      · rw [valueOf_written hattributes]
        by_cases hid : k.id = v.id
        · rw [if_pos hid]
          -- the version that is written is one of the node of the call
          obtain ⟨hvmem, hvnode, -⟩ := Tables.findOpenVersionInTx_ok hv
          obtain ⟨w, hw, rfl⟩ := List.mem_map.mp hk
          have hsame := List.inj_on_of_nodup_map s₁.valid.pk_version hw hvmem hid
          have hn : n = nodeId := by
            rw [← hvnode, ← hsame]
            exact hnode
          rw [hid]
          exact getKey_putAll (hnew hn)
        · rw [if_neg hid]
          exact .inl rfl
    · exact hasValue_createVersion h₁ (fun hn _ => hnew hn) hnone hcreate
  refine h₂.rewrite (by rw [hs']; rfl) (by rw [hs']; rfl) fun k _ _ => .inl ?_
  rw [hs']
  rfl

/-- The commit leaves the committed version its value, or makes the one of the transaction the
committed one. -/
theorem committedValue_of_commits {y : Uuid} {deferred : List Uuid} (h : HasValue nodeId x attr c s.toTables)
    (hc : Commits x y deferred s.toTables s'.toTables) : s'.committedValue nodeId attr = c := by
  have hnode : ∀ v : VersionRow, (v.deferTo x y deferred).nodeId = v.nodeId := by
    intro v
    rw [VersionRow.deferTo]
    split <;> rfl
  have hnumber : ∀ v : VersionRow, (v.deferTo x y deferred).versionNumber = v.versionNumber := by
    intro v
    rw [VersionRow.deferTo]
    split <;> rfl
  have hmem : ∀ v ∈ s.versions, v.deferTo x y deferred ∈ s'.versions := by
    intro v hv
    rw [hc.versions]
    exact List.mem_map_of_mem hv
  rw [Tables.committedValue]
  cases hlast : s'.getLastCommittedVersion nodeId with
  | none =>
    refine (h.uncommitted fun k hk hk' => ?_).symm
    obtain ⟨v, hv, rfl⟩ := List.mem_map.mp hk
    have hnot := List.filter_eq_nil_iff.mp (List.argmax_eq_none.mp hlast) _ (hmem v hv)
    rw [decide_eq_true_eq, not_and, Bool.not_eq_true, hc.committed v hv, Bool.or_eq_false_iff] at hnot
    exact (hnot ((hnode v).trans hk')).1
  | some w' =>
    obtain ⟨hw', hw'node, hw'committed⟩ := Tables.getLastCommittedVersion_ok hlast
    have hlastOf : IsLast s'.stateKeys (fun k => k.nodeId = nodeId ∧ s'.isCommitted k.txId = true) w'.stateKey :=
      isLast_of_latest hlast
    rw [hc.versions] at hw'
    obtain ⟨w, hw, rfl⟩ := List.mem_map.mp hw'
    -- a version that the commit makes a committed one is not newer than the last of them
    have hle : ∀ v ∈ s.versions, v.nodeId = nodeId → (s.isCommitted v.txId || settled x deferred v) = true →
        v.versionNumber ≤ w.versionNumber := by
      intro v hv hvnode hvcommitted
      rw [← hnumber v, ← hnumber w]
      refine hlastOf.le _ (List.mem_map_of_mem (hmem v hv)) ⟨(hnode v).trans hvnode, ?_⟩
      rw [← hvcommitted, ← hc.committed v hv]
      rfl
    have hvalue : s'.valueOf (w.deferTo x y deferred).id attr = s.valueOf w.id attr := by
      have hid : (w.deferTo x y deferred).id = w.id := by
        rw [VersionRow.deferTo]
        split <;> rfl
      rw [hid, Tables.valueOf, Tables.attributeMap, Tables.attributesOf, hc.attributes]
      rfl
    rw [Option.bind_some, hvalue]
    rw [hnode w] at hw'node
    rw [hc.committed w hw, Bool.or_eq_true] at hw'committed
    obtain hcommitted | hsettled := hw'committed
    · refine h.committed w.stateKey ⟨List.mem_map_of_mem hw, ⟨hw'node, hcommitted⟩, fun j hj hj' => ?_⟩
      obtain ⟨v, hv, rfl⟩ := List.mem_map.mp hj
      refine hle v hv hj'.1 ?_
      rw [Bool.or_eq_true]
      exact .inl hj'.2
    · obtain ⟨htx, hnot⟩ := of_decide_eq_true hsettled
      refine h.held w.stateKey ⟨List.mem_map_of_mem hw, ⟨hw'node, htx⟩, fun j hj hj' => ?_⟩
      obtain ⟨v, hv, rfl⟩ := List.mem_map.mp hj
      refine hle v hv hj'.1 ?_
      rw [Bool.or_eq_true]
      have hvnode : v.nodeId = nodeId := hj'.1
      exact .inr (decide_eq_true ⟨hj'.2, by rw [hvnode, ← hw'node]; exact hnot⟩)

/-! ## A sequence of calls -/

/-- A call keeps the value when it gives the attribute no other one. -/
theorem hasValue_modify {call : ModifyCall} (h : HasValue nodeId x attr c s.toTables)
    (hnew : call.nodeId = nodeId → ∀ e ∈ call.attributes, e.1 = attr → e.2 = c) :
    HasValue nodeId x attr c (s.modify env call).toTables := by
  refine Db.step_invariant (fun s => HasValue nodeId x attr c s.toTables) h fun s' hr => ?_
  obtain ⟨vid, hmodify⟩ := returns_void.mp hr
  exact hasValue_modifyNode h hnew hmodify

/-- A commit of the transaction keeps the committed value. -/
theorem committedValue_commit {call : CommitCall} (h : HasValue nodeId call.txId attr c s.toTables) :
    (s.commit env call).committedValue nodeId attr = c := by
  refine Db.step_invariant (fun s => s.committedValue nodeId attr = c) h.committedValue fun s' hr => ?_
  obtain ⟨o, hcommit⟩ := returns_void.mp hr
  obtain ⟨⟨y, hcommits⟩, -⟩ := commitTransaction_commits hcommit
  exact committedValue_of_commits h hcommits

/-- **Locked attributes hold** in a sequence of `modifyNode` calls and a commit of a transaction that
starts from the committed value, when each call gives to the locked ones among its attributes only
the value that is committed. -/
theorem locked_attributes_hold {calls : List ModifyCall} {commit : CommitCall}
    (hlocked : m.LockedThroughout base s calls commit nodeId attr)
    (hstart : s.valueSeen nodeId commit.txId attr = s.committedValue nodeId attr)
    (hcalls : Along (Db.modify (m.configure base)) (m.RespectsLocks base) s calls) :
    ∀ past, past <+: calls →
      let reached := run (Db.modify (m.configure base)) s past
      reached.committedValue nodeId attr = s.committedValue nodeId attr ∧
        (reached.commit (m.configure base) commit).committedValue nodeId attr =
          s.committedValue nodeId attr := by
  have hvalue : ∀ past, past <+: calls → HasValue nodeId commit.txId attr (s.committedValue nodeId attr)
      (run (Db.modify (m.configure base)) s past).toTables := by
    rintro past ⟨rest, rfl⟩
    have halong := (Along.append.mp (hlocked.1.and hcalls)).1
    have hstep : ∀ (s' : Db) (call : ModifyCall),
        HasValue nodeId commit.txId attr (s.committedValue nodeId attr) s'.toTables →
        m.IsLocked base s'.toTables nodeId call.txId attr ∧ m.RespectsLocks base s' call →
        HasValue nodeId commit.txId attr (s.committedValue nodeId attr)
          (s'.modify (m.configure base) call).toTables := by
      rintro s' call h ⟨hnow, hrespects⟩
      refine hasValue_modify h fun hnode e he hattr => ?_
      have hgiven := hrespects e he
      rw [hnode, hattr] at hgiven
      rw [hgiven hnow, h.committedValue]
    exact Along.invariant hstep (hasValue_of_seen hstart) halong
  intro past hpast
  exact ⟨(hvalue past hpast).committedValue, committedValue_commit (hvalue past hpast)⟩

/-! ## A weight that is locked -/

/-- A metamodel whose parts have a weight that is locked once they are released, and a color. -/
def lockedWeight : ValidationModel where
  entityMetadata := [("ATTR_VALIDATOR:nt-part__weight:released__locked", "")]
  algorithms := [⟨"editable_attribute_validator", [⟨"locked", []⟩]⟩]
  beans := builtInValidators fun _ _ => true
  nodeTypeAttributes := fun _ =>
    [⟨⟨"weight", "Weight", none⟩, none, none, none⟩, ⟨⟨"color", "Color", none⟩, none, none, none⟩]
  domainAttributes := fun _ => []
  parsesDouble := fun _ => true
  parsesLong := fun _ => true
  parsesDate := fun _ => true
  parsesDateTime := fun _ => true

/-- A part that was released with its weight, after which a transaction is opened. -/
def releasedPart : Db :=
  run (Db.step (lockedWeight.configure partsEnv)) Db.empty
    [.authoring engineer 1 1 (.createNode none "nt-part" (some "P") none),
      .authoring engineer 1 1 (.modifyNode 0 [("weight", some "1")] none none),
      .authoring engineer 1 1 (.commit (some "first") []), .openTransaction engineer,
      .authoring engineer 2 3 (.transition 0 "release"),
      .authoring engineer 1 3 (.commit (some "second") []), .openTransaction engineer]

/-- The transaction changes the color, and gives the weight again. -/
theorem locked_attributes_hold_color :
    let changed := releasedPart.modify (lockedWeight.configure partsEnv)
      ⟨engineer, 5, 0, [("color", some "red"), ("weight", some "1")], none, none⟩
    (changed.commit (lockedWeight.configure partsEnv) ⟨engineer, 5, some "third", []⟩).committedValue 0
      "weight" = releasedPart.committedValue 0 "weight" := by
  have hlocked : lockedWeight.LockedThroughout partsEnv releasedPart
      [⟨engineer, 5, 0, [("color", some "red"), ("weight", some "1")], none, none⟩]
      ⟨engineer, 5, some "third", []⟩ 0 "weight" := by
    refine ⟨⟨?_, trivial⟩, ?_⟩
    · unfold ValidationModel.IsLocked
      decide +kernel
    · unfold ValidationModel.IsLocked
      decide +kernel
  refine (locked_attributes_hold hlocked (by decide +kernel) ⟨?_, trivial⟩ _ (List.prefix_refl _)).2
  intro e he hnow
  obtain rfl | hweight := List.mem_cons.mp he
  · unfold ValidationModel.IsLocked at hnow
    revert hnow
    decide +kernel
  · rw [List.mem_singleton.mp hweight]
    decide +kernel

/-- **The weight of a released part is changed**: `modifyNode` writes it, and the commit asks whether
it is well formed, not whether it may be edited. -/
theorem locked_weight_is_changed :
    let call : ModifyCall := ⟨engineer, 5, 0, [("weight", some "5")], none, none⟩
    let commit : CommitCall := ⟨engineer, 5, some "third", []⟩
    lockedWeight.LockedThroughout partsEnv releasedPart [call] commit 0 "weight" ∧
      releasedPart.valueSeen 0 5 "weight" = releasedPart.committedValue 0 "weight" ∧
      ((run (Db.modify (lockedWeight.configure partsEnv)) releasedPart [call]).commit
        (lockedWeight.configure partsEnv) commit).committedValue 0 "weight" ≠
          releasedPart.committedValue 0 "weight" := by
  refine ⟨⟨⟨?_, trivial⟩, ?_⟩, ?_, ?_⟩
  · unfold ValidationModel.IsLocked
    decide +kernel
  · unfold ValidationModel.IsLocked
    decide +kernel
  · decide +kernel
  · decide +kernel

end PlmCore.Psm
