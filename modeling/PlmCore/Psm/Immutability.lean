/-
What a request in an open transaction can do to committed versions.

`SameVersion` says that a version is still there with everything it owns: its row (the pointer
to its predecessor apart), its attribute values, its domains, its links and their attributes.
Requests that work inside a transaction leave every version outside it so, because they leave
the whole outside so. The two exceptions address what they write by other means. A link is
addressed by its own id, so the version that owns it is affected whatever its transaction. A
transition into a release state runs the collapse, which deletes committed versions on purpose;
the versions it leaves are the same.
-/
import PlmCore.Psm.Authoring
import PlmCore.Psm.LifecycleEffect

set_option autoImplicit false

namespace PlmCore.Psm

open PlmCore.Lib

/-! ## The same version -/

/-- The version is still stored, with everything it owns. -/
structure SameVersion (v : VersionRow) (t t' : Tables) : Prop where
  row : ∃ v' ∈ t'.versions, v' = { v with previousVersionId := v'.previousVersionId }
  attributes : t'.attributesOf v.id = t.attributesOf v.id
  domains : t'.domainsOf v.id = t.domainsOf v.id
  links : t'.linksOwnedBy v.id = t.linksOwnedBy v.id
  linkAttributes : ∀ l ∈ t.linksOwnedBy v.id, t'.attributesOfLink l.id = t.attributesOfLink l.id

namespace SameVersion

variable {v : VersionRow} {t t₁ t₂ t₃ : Tables}

theorem refl (hv : v ∈ t.versions) : SameVersion v t t :=
  ⟨⟨v, hv, rfl⟩, rfl, rfl, rfl, fun _ _ => rfl⟩

/-- The version as a later store has it. -/
theorem mem_versionIds (h : SameVersion v t₁ t₂) : v.id ∈ t₂.versionIds := by
  obtain ⟨v', hv', heq⟩ := h.row
  refine List.mem_map.mpr ⟨v', hv', ?_⟩
  rw [heq]

theorem trans (h₁ : SameVersion v t₁ t₂)
    (h₂ : ∀ v' ∈ t₂.versions, v' = { v with previousVersionId := v'.previousVersionId } →
      SameVersion v' t₂ t₃) : SameVersion v t₁ t₃ := by
  obtain ⟨v', hv', heq⟩ := h₁.row
  have h₂ := h₂ v' hv' heq
  have hid : v'.id = v.id := by rw [heq]
  obtain ⟨v'', hv'', heq'⟩ := h₂.row
  refine ⟨⟨v'', hv'', ?_⟩, ?_, ?_, ?_, fun l hl => ?_⟩
  · rw [heq', heq]
  · rw [← h₁.attributes, ← hid, h₂.attributes]
  · rw [← h₁.domains, ← hid, h₂.domains]
  · rw [← h₁.links, ← hid, h₂.links]
  · rw [← h₁.linkAttributes l hl]
    refine h₂.linkAttributes l ?_
    rw [hid, h₁.links]
    exact hl

end SameVersion

/-! ## Outside a transaction -/

section Outside

variable {x : Uuid} {t t' : Tables} {v : VersionRow}

/-- What a version outside the transaction owns can be read off the outside. -/
theorem outside_owned (ht : t.Valid) (hv : v ∈ t.versions) (hx : v.txId ≠ x) :
    (t.outside x).attributesOf v.id = t.attributesOf v.id
      ∧ (t.outside x).domainsOf v.id = t.domainsOf v.id
      ∧ (t.outside x).linksOwnedBy v.id = t.linksOwnedBy v.id
      ∧ ∀ l ∈ t.linksOwnedBy v.id, (t.outside x).attributesOfLink l.id = t.attributesOfLink l.id := by
  have hout : v.id ∉ t.selectVersionIds (ofTx x) := fun h => hx ((id_mem_ofTx ht hv).mp h)
  refine ⟨?_, ?_, ?_, fun l hl => ?_⟩
  · exact filter_filter_of_imp fun a ha => decide_eq_true (of_decide_eq_true ha ▸ hout)
  · exact filter_filter_of_imp fun d hd => decide_eq_true (of_decide_eq_true hd ▸ hout)
  · exact filter_filter_of_imp fun l hl => decide_eq_true (of_decide_eq_true hl ▸ hout)
  · obtain ⟨hl, howner⟩ := List.mem_filter.mp hl
    have hlink : l.id ∉ t.selectLinkIds (ofTx x) := by
      rw [id_mem_selectLinkIds ht hl, of_decide_eq_true howner]
      exact hout
    exact filter_filter_of_imp fun a ha => decide_eq_true (of_decide_eq_true ha ▸ hlink)

/-- **A step that leaves the outside of a transaction as it is leaves every version outside it
the same.** -/
theorem sameVersion_of_outside (ht : t.Valid) (ht' : t'.Valid) (h : t'.outside x = t.outside x)
    (hv : v ∈ t.versions) (hx : v.txId ≠ x) : SameVersion v t t' := by
  have hv' : v ∈ t'.versions := by
    have hmem : v ∈ (t.outside x).versions := List.mem_filter.mpr ⟨hv, decide_eq_true hx⟩
    rw [← h] at hmem
    exact List.mem_of_mem_filter hmem
  obtain ⟨ha, hd, hl, hla⟩ := outside_owned ht hv hx
  obtain ⟨ha', hd', hl', hla'⟩ := outside_owned ht' hv' hx
  have hlinks : t'.linksOwnedBy v.id = t.linksOwnedBy v.id := by rw [← hl', h, hl]
  refine ⟨⟨v, hv', rfl⟩, by rw [← ha', h, ha], by rw [← hd', h, hd], hlinks, fun l hmem => ?_⟩
  rw [← hla' l (hlinks ▸ hmem), h, hla l hmem]

end Outside

/-! ## Through a transition -/

/-- The versions with an id of the store before are versions of it, in the same transaction, and
those outside the transaction `x` are the same. -/
structure Kept (x : Uuid) (t t' : Tables) : Prop where
  nextId : t.nextId ≤ t'.nextId
  versions : ∀ v' ∈ t'.versions, v'.id < t.nextId → ∃ v ∈ t.versions, v.id = v'.id
    ∧ v.txId = v'.txId ∧ (v.txId ≠ x → SameVersion v t t')

namespace Kept

variable {x : Uuid} {t t' : Tables}

theorem refl (x : Uuid) (t : Tables) : Kept x t t :=
  ⟨Nat.le_refl _, fun v hv _ => ⟨v, hv, rfl, rfl, fun _ => .refl hv⟩⟩

theorem trans {t₃ : Tables} (ht' : t'.Valid) (h₁ : Kept x t t') (h₂ : Kept x t' t₃) :
    Kept x t t₃ := by
  refine ⟨Nat.le_trans h₁.nextId h₂.nextId, fun v₃ hv₃ hid₃ => ?_⟩
  obtain ⟨v', hv', hid', htx', hsame'⟩ := h₂.versions v₃ hv₃ (Nat.lt_of_lt_of_le hid₃ h₁.nextId)
  obtain ⟨v, hv, hid, htx, hsame⟩ := h₁.versions v' hv' (hid' ▸ hid₃)
  refine ⟨v, hv, hid.trans hid', htx.trans htx', fun hx => (hsame hx).trans ?_⟩
  intro w hw heq
  have hwid : w.id = v'.id := by rw [heq, hid]
  rw [List.inj_on_of_nodup_map ht'.pk_version hw hv' hwid]
  exact hsame' (htx ▸ hx)

theorem withEvents (h : Kept x t t') (es : List PlmEvent) : Kept x t (t'.withEvents es) := by
  refine ⟨h.nextId, fun v' hv' hid => ?_⟩
  obtain ⟨v, hv, hvid, htx, hsame⟩ := h.versions v' hv' hid
  refine ⟨v, hv, hvid, htx, fun hx => ?_⟩
  obtain ⟨hrow, hattributes, hdomains, hlinks, hlinkAttributes⟩ := hsame hx
  exact ⟨hrow, hattributes, hdomains, hlinks, hlinkAttributes⟩

/-- A step that leaves the outside as it is, and moves no version. -/
theorem of_outside (ht : t.Valid) (ht' : t'.Valid) (houtside : t'.outside x = t.outside x)
    (hnext : t.nextId ≤ t'.nextId)
    (hkeys : ∀ k ∈ t'.versionKeys, k ∈ t.versionKeys ∨ t.nextId ≤ k.id) : Kept x t t' := by
  refine ⟨hnext, fun v' hv' hid => ?_⟩
  obtain hold | hnew := hkeys v'.key (List.mem_map_of_mem hv')
  · obtain ⟨v, hv, hkey⟩ := List.mem_map.mp hold
    refine ⟨v, hv, congrArg VersionKey.id hkey, congrArg VersionKey.txId hkey, fun hx => ?_⟩
    exact sameVersion_of_outside ht ht' houtside hv hx
  · exact absurd hid (Nat.not_lt.mpr hnew)

theorem of_tryLock {ctx : Caller} {nodeId : Uuid} {s s' : Db}
    (h : Returns (tryLock ctx nodeId) s () s') : Kept x s.toTables s'.toTables := by
  refine of_outside s.valid s'.valid (outside_tryLock h) ?_ fun k hk => .inl ?_
  · rw [tryLock_frame h]
  · rw [tryLock_frame h] at hk
    exact hk

theorem of_createVersion {env : Env} {ctx : Caller} {nodeId vid : Uuid} {ct : ChangeType}
    {strategy : Option VersionStrategy} {st : Option String}
    {attrs : List (String × Option String)} {desc : Option String} {s s' : Db}
    (h : Returns (createVersion env ctx nodeId x ct strategy st attrs desc) s vid s') :
    Kept x s.toTables s'.toTables := by
  obtain ⟨-, numbering, row, -, hvid, hs'⟩ := createVersion_ok h
  refine of_outside s.valid s'.valid (outside_createVersion h) ?_ fun k hk => ?_
  · rw [hs']
    exact Nat.le_succ _
  · rw [(createVersion_keys h).1] at hk
    obtain hold | hnew := List.mem_append.mp hk
    · exact .inl hold
    · rw [List.mem_singleton.mp hnew, ← hvid]
      exact .inr (Nat.le_refl _)

/-- A collapse into a version of the transaction deletes versions and leaves the others. -/
theorem of_collapse {a : StateActionContext} (ht : t.Valid) (h : CollapsedTo a t t')
    (hcurrent : ∀ v ∈ t.versions, v.id = a.versionId → v.txId = x) : Kept x t t' := by
  refine ⟨Nat.le_of_eq h.nextId.symm, fun v' hv' _ => ?_⟩
  have hmem := hv'
  rw [h.versions] at hmem
  obtain ⟨v, hv, rfl⟩ := List.mem_map.mp hmem
  obtain ⟨hv, hkept⟩ := List.mem_filter.mp hv
  have hkept : v.id ∉ t.collapsedIds a := of_decide_eq_true hkept
  refine ⟨v, hv, rfl, rfl, fun hx => ?_⟩
  have hother : v.id ≠ a.versionId := fun hid => hx (hcurrent v hv hid)
  refine ⟨⟨_, hv', ?_⟩, ?_, ?_, ?_, fun l hl => ?_⟩
  · simp only [keptRow, if_neg hother]
  · rw [Tables.attributesOf, h.attributes]
    exact filter_filter_of_imp fun r hr => decide_eq_true (of_decide_eq_true hr ▸ hkept)
  · rw [Tables.domainsOf, h.domains]
    exact filter_filter_of_imp fun r hr => decide_eq_true (of_decide_eq_true hr ▸ hkept)
  · rw [Tables.linksOwnedBy, h.links]
    exact filter_filter_of_imp fun r hr => decide_eq_true (of_decide_eq_true hr ▸ hkept)
  · obtain ⟨hl, howner⟩ := List.mem_filter.mp hl
    rw [Tables.attributesOfLink, h.linkAttributes]
    refine filter_filter_of_imp fun r hr => decide_eq_true fun l' hl' hid => ?_
    have hsame : l'.id = l.id := hid.trans (of_decide_eq_true hr)
    rw [List.inj_on_of_nodup_map ht.pk_link hl' hl hsame, of_decide_eq_true howner]
    exact hkept

end Kept

/-- The version an action is about is one of the transaction. -/
def EntersIn (x : Uuid) (s : Db) (a : StateActionContext) : Prop :=
  a.versionId < s.nextId ∧ ∀ v ∈ s.versions, v.id = a.versionId → v.txId = x

section Transition

variable {env : Env} {ctx : Caller} {x : Uuid}

theorem EntersIn.mono {s s' : Db} {a : StateActionContext} (h : Kept x s.toTables s'.toTables)
    (ha : EntersIn x s a) : EntersIn x s' a := by
  refine ⟨Nat.lt_of_lt_of_le ha.1 h.nextId, fun v' hv' hid => ?_⟩
  obtain ⟨v, hv, hvid, htx, -⟩ := h.versions v' hv' (hid ▸ ha.1)
  rw [← htx]
  exact ha.2 v hv (hvid.trans hid)

theorem kept_collapseHistory {s s' : Db} {a : StateActionContext} (ha : EntersIn x s a)
    (h : Returns (collapseHistory env a) s () s') : Kept x s.toTables s'.toTables := by
  obtain rfl | hcollapsed := collapseHistory_cases h
  · exact .refl _ _
  · exact .of_collapse s.valid hcollapsed ha.2

/-- The actions of a state, one after the other. -/
theorem kept_executeTransactionalActions {stateId : String} {trigger : StateActionTrigger}
    {a : StateActionContext} {s s' : Db} (ha : EntersIn x s a)
    (h : Returns (executeTransactionalActions env stateId trigger a) s () s') :
    Kept x s.toTables s'.toTables := by
  unfold executeTransactionalActions at h
  revert h
  generalize env.effectiveActions stateId trigger .TRANSACTIONAL = actions
  intro h
  induction actions generalizing s with
  | nil =>
    obtain rfl := returns_forM_nil.mp h
    exact .refl _ _
  | cons action actions ih =>
    obtain ⟨s₁, hfirst, hrest⟩ := returns_forM_cons.mp h
    have haction : EntersIn x s { a with parameters := action.parameters } := ha
    have hkept : Kept x s.toTables s₁.toTables := kept_collapseHistory haction hfirst
    exact hkept.trans s₁.valid (ih (ha.mono hkept) hrest)

/-- One level of a transition. -/
theorem kept_level {s s' : Db} {a : StateActionContext} (h : TransitionLevel env ctx x s s' a) :
    Kept x s.toTables s'.toTables ∧ EntersIn x s' a := by
  obtain ⟨transition, description, s₁, s₂, s₃, hcreate, -, hexit, henter, hlock⟩ := h
  have hcreated := Kept.of_createVersion hcreate
  have hentered : EntersIn x s₁ a := by
    obtain ⟨-, numbering, row, -, hvid, hs₁⟩ := createVersion_ok hcreate
    refine ⟨?_, fun v hv hid => ?_⟩
    · rw [hvid, hs₁]
      exact Nat.lt_succ_self _
    · have hkey : v.key ∈ s₁.versionKeys := List.mem_map_of_mem hv
      rw [(createVersion_keys hcreate).1] at hkey
      obtain hold | hnew := List.mem_append.mp hkey
      · obtain ⟨w, hw, hwkey⟩ := List.mem_map.mp hold
        have hwid : w.id = s.nextId := (congrArg VersionKey.id hwkey).trans (hid.trans hvid)
        exact absurd (s.valid.generated w hw) (hwid ▸ Nat.lt_irrefl _)
      · exact congrArg VersionKey.txId (List.mem_singleton.mp hnew)
  have hexited := kept_executeTransactionalActions hentered hexit
  have hacted := kept_executeTransactionalActions (hentered.mono hexited) henter
  have hlocked : Kept x s₃.toTables s'.toTables := .of_tryLock hlock
  refine ⟨hcreated.trans s₁.valid (hexited.trans s₂.valid (hacted.trans s₃.valid hlocked)), ?_⟩
  exact ((hentered.mono hexited).mono hacted).mono hlocked

/-- **A transition leaves the versions outside its transaction the same**, as far as its collapses
leave them at all. -/
theorem kept_transition {depth : Nat} {nodeId vid : Uuid} {transitionId : String} {s s' : Db}
    (h : Returns (applyTransition env ctx depth nodeId transitionId x) s vid s') :
    Kept x s.toTables s'.toTables := by
  have hrule : TransitionRule env ctx x (fun s s' => Kept x s.toTables s'.toTables) (EntersIn x) :=
    { refl := fun s => .refl _ _
      trans := fun {_ s₂ _} h₁ h₂ => h₁.trans s₂.valid h₂
      events := fun {s _ es} hs' => hs' ▸ (Kept.refl x s.toTables).withEvents es
      level := fun hlevel => (kept_level hlevel).1
      registers := fun _ hlevel => (kept_level hlevel).2
      keeps := fun hkept ha => ha.mono hkept
      action := fun ha hrun => kept_collapseHistory ha hrun }
  exact hrule.applyTransition h

end Transition

/-! ## Through the other requests -/

section Requests

variable {env : Env} {ctx : Caller} {x : Uuid} {s s' : Db} {v : VersionRow}

/-- A committed version is not in an open transaction. -/
theorem txId_ne_of_isOpen (hv : s.isCommitted v.txId = true) (hx : s.isOpen x = true) :
    v.txId ≠ x := by
  rintro rfl
  rw [Tables.not_isCommitted_of_isOpen hx] at hv
  cases hv

/-- Nor in one that is found or opened for the user. -/
theorem txId_ne_of_findOrOpenTransaction {s₁ s₂ : Db} (hmem : v ∈ s.versions)
    (hv : s.isCommitted v.txId = true) (htxs : s₁.txs = s.txs)
    (h : Returns (findOrOpenTransaction ctx) s₁ x s₂) : v.txId ≠ x := by
  obtain ⟨-, hfound⟩ | ⟨-, hopened⟩ := findOrOpenTransaction_ok h
  · have hx : x ∈ (s₁.openTransactionsOf ctx.userId).map (·.id) := by
      rw [hfound]
      exact List.mem_singleton_self x
    obtain ⟨row, hrow, rfl⟩ := List.mem_map.mp hx
    obtain ⟨hrow, hopen⟩ := List.mem_filter.mp hrow
    intro hsame
    rw [htxs] at hrow
    rw [hsame, Tables.isCommitted, Tables.txStatus?, Tables.tx?] at hv
    obtain ⟨row', hfind, hstatus⟩ := Option.map_eq_some_iff.mp (of_decide_eq_true hv)
    have hid : row'.id = row.id := by simpa using List.find?_some hfind
    rw [List.inj_on_of_nodup_map s.valid.pk_tx (List.mem_of_find?_eq_some hfind) hrow hid,
      (of_decide_eq_true hopen).2] at hstatus
    cases hstatus
  · rintro rfl
    have hfresh := fresh_of_openTransaction hopened
    rw [Tables.txIds, htxs] at hfresh
    exact hfresh (s.valid.fk_version_tx v hmem)

/-- Taking the lock and writing events changes no version. -/
theorem sameVersion_of_frame {t t' : Tables} (hmem : v ∈ t.versions)
    (hversions : t'.versions = t.versions) (hattributes : t'.attributes = t.attributes)
    (hdomains : t'.domains = t.domains) (hlinks : t'.links = t.links)
    (hlinkAttributes : t'.linkAttributes = t.linkAttributes) : SameVersion v t t' := by
  refine ⟨⟨v, hversions ▸ hmem, rfl⟩, ?_, ?_, ?_, fun l _ => ?_⟩
  · rw [Tables.attributesOf, hattributes, Tables.attributesOf]
  · rw [Tables.domainsOf, hdomains, Tables.domainsOf]
  · rw [Tables.linksOwnedBy, hlinks, Tables.linksOwnedBy]
  · rw [Tables.attributesOfLink, hlinkAttributes, Tables.attributesOfLink]

/-- Deleting a link of another version. -/
theorem sameVersion_deleteLink {linkId : Uuid} (hmem : v ∈ s.versions)
    (hlink : ∀ l ∈ s.linksOwnedBy v.id, l.id ≠ linkId)
    (h : Returns (deleteLink env ctx linkId) s () s') : SameVersion v s.toTables s'.toTables := by
  obtain ⟨link, source, s₁, es, hl, hlid, -, hsid, hlock, hs'⟩ := deleteLink_ok h
  have hframe := tryLock_frame hlock
  -- the version is not the one whose link goes, since it does not own that link
  have howner : v.id ≠ source.id := by
    intro hid
    exact hlink link (List.mem_filter.mpr ⟨hl, decide_eq_true (hsid.symm.trans hid.symm)⟩) hlid
  have hversions : v ∈ s'.versions := by
    have hmem₁ : v ∈ (s₁.deleteLink linkId).versions := by
      rw [hframe]
      exact hmem
    rw [hs']
    -- the fingerprint is cleared of the owner only
    exact List.mem_map.mpr ⟨v, hmem₁, if_neg howner⟩
  have hattributes : s'.attributes = s.attributes := by
    rw [hs', hframe]
    rfl
  have hdomains : s'.domains = s.domains := by
    rw [hs', hframe]
    rfl
  have hlinks : s'.links = s.links.filter (·.id ≠ linkId) := by
    rw [hs', hframe]
    rfl
  have hlinkAttributes : s'.linkAttributes = s.linkAttributes.filter (·.nodeLinkId ≠ linkId) := by
    rw [hs', hframe]
    rfl
  refine ⟨⟨v, hversions, rfl⟩, ?_, ?_, ?_, fun l hmine => ?_⟩
  · rw [Tables.attributesOf, hattributes, Tables.attributesOf]
  · rw [Tables.domainsOf, hdomains, Tables.domainsOf]
  · rw [Tables.linksOwnedBy, hlinks, List.filter_filter, Tables.linksOwnedBy]
    apply List.filter_congr
    intro l hl
    -- a link of the version is another link, so its row and its attributes stay
    by_cases hmine : l.sourceNodeVersionId = v.id
    · have hne := hlink l (List.mem_filter.mpr ⟨hl, decide_eq_true hmine⟩)
      simp [hmine, hne]
    · simp [hmine]
  · have hne := hlink l hmine
    rw [Tables.attributesOfLink, hlinkAttributes]
    refine filter_filter_of_imp fun a ha => decide_eq_true ?_
    rw [of_decide_eq_true ha]
    exact hne

/-- Updating a link of another version. -/
theorem sameVersion_updateLink {linkId : Uuid} {u : LinkUpdate} (hmem : v ∈ s.versions)
    (hcommitted : s.isCommitted v.txId = true) (hlink : ∀ l ∈ s.linksOwnedBy v.id, l.id ≠ linkId)
    (h : Returns (updateLink env ctx linkId u) s () s') : SameVersion v s.toTables s'.toTables := by
  obtain ⟨link, source, s₁, target, logicalId, rows, w, es, hl, hlid, -, hsid, hlock, -, hrows, -,
    hwid, hs'⟩ := updateLink_ok h
  have hframe := tryLock_frame hlock
  have howner : v.id ≠ source.id := by
    intro hid
    exact hlink link (List.mem_filter.mpr ⟨hl, decide_eq_true (hsid.symm.trans hid.symm)⟩) hlid
  -- the digest is stored on the newest open version, or else on the owner of the link
  have hother : v.id ≠ w.id := by
    rw [hwid]
    cases ho : s₁.newestOpenVersion source.nodeId with
    | none => exact howner
    | some open? =>
      obtain ⟨hopenMem, hopen⟩ := List.mem_filter.mp (List.argmax_mem ho)
      rw [hframe] at hopenMem hopen
      intro hid
      rw [List.inj_on_of_nodup_map s.valid.pk_version hmem hopenMem hid] at hcommitted
      rw [Tables.not_isCommitted_of_isOpen (t := s.toTables) (of_decide_eq_true hopen).2]
        at hcommitted
      cases hcommitted
  have hversions : v ∈ s'.versions := by
    have hmem₁ : v ∈ (s₁.writeLink linkId target logicalId rows).versions := by
      rw [hframe]
      exact hmem
    rw [hs']
    exact List.mem_map.mpr ⟨v, hmem₁, if_neg hother⟩
  have hattributes : s'.attributes = s.attributes := by
    rw [hs', hframe]
    rfl
  have hdomains : s'.domains = s.domains := by
    rw [hs', hframe]
    rfl
  have hlinks : s'.links
      = s.links.map fun l => if l.id = linkId then l.pointingAt target logicalId else l := by
    rw [hs', hframe]
    rfl
  have hlinkAttributes : s'.linkAttributes = rows := by
    rw [hs']
    rfl
  rw [hframe] at hrows
  refine ⟨⟨v, hversions, rfl⟩, ?_, ?_, ?_, fun l hmine => ?_⟩
  · rw [Tables.attributesOf, hattributes, Tables.attributesOf]
  · rw [Tables.domainsOf, hdomains, Tables.domainsOf]
  · rw [Tables.linksOwnedBy, hlinks, Tables.linksOwnedBy]
    refine filter_map_of_not (fun l _ => ?_) fun l hl hmine => ?_
    · split <;> rfl
    · exact if_neg (hlink l (List.mem_filter.mpr ⟨hl, hmine⟩))
  · have hne : ∀ a : LinkAttributeRow, decide (a.nodeLinkId = l.id) = true →
        decide (a.nodeLinkId ≠ linkId) = true := by
      intro a ha
      rw [of_decide_eq_true ha]
      exact decide_eq_true (hlink l hmine)
    rw [Tables.attributesOfLink, hlinkAttributes, Tables.attributesOfLink,
      ← filter_filter_of_imp hne, hrows, filter_filter_of_imp hne]

/-- Committing another transaction. -/
theorem sameVersion_commit {comment : Option String} {selected : List Uuid} {o : Option Uuid}
    (hmem : v ∈ s.versions) (hx : v.txId ≠ x)
    (h : Returns (commitTransaction env ctx x comment selected) s o s') :
    SameVersion v s.toTables s'.toTables := by
  obtain ⟨-, s₁, es, hdefer, -, hs'⟩ := commitTransaction_ok h
  have hdeferred : SameVersion v s.toTables s₁.toTables := by
    obtain ⟨-, -, rfl⟩ | ⟨-, y, s₂, -, hopened, hs₁⟩ := deferNodes_ok hdefer
    · exact .refl hmem
    · rw [hs₁, (openTransaction_ok hopened).2]
      refine ⟨⟨v, List.mem_map.mpr ⟨v, hmem, if_neg fun hin => hx hin.1⟩, rfl⟩, rfl, rfl, rfl,
        fun _ _ => rfl⟩
  rw [hs']
  obtain ⟨hrow, hattributes, hdomains, hlinks, hlinkAttributes⟩ := hdeferred
  exact ⟨hrow, hattributes, hdomains, hlinks, hlinkAttributes⟩

end Requests

/-! ## Committed versions -/

section Runs

/-- Entering a release state collapses the history. -/
def collapsingEnv : Env :=
  { partsEnv with stateActions := [⟨"released", "collapse_history", .ON_ENTER, .TRANSACTIONAL, []⟩] }

/-- The first version of an assembly. -/
def firstVersion : VersionRow :=
  ⟨0, 0, 1, "A", 1, some "draft", .CONTENT, none, 0, none, none, none, "main", 0, "engineer"⟩

/-- The assembly is committed, and a transaction is open. -/
def assemblyTables : Tables where
  txs := [⟨0, "engineer", .COMMITTED, some "created", 0, some 0⟩,
    ⟨1, "engineer", .OPEN, none, 0, none⟩]
  nodes := [⟨0, "nt-assembly", none, some "A", none, none, none, 0, "engineer"⟩]
  versions := [firstVersion]
  attributes := []
  links := []
  linkAttributes := []
  domains := []
  signatures := []
  baselines := []
  baselineEntries := []
  comments := []
  outbox := []
  nextId := 2

def assemblyDb : Db := ⟨assemblyTables, by decide⟩

end Runs

end PlmCore.Psm
