/-
Rolling back a transaction restores the store it was opened from.

A session is a sequence of requests of one user in one transaction, each of them keeping to
the transaction (`KeepsTo`). The invariant `Session.Inv` says what every request of it leaves
true: the store without the transaction is the store it was opened from, together with the
signatures and comments the session added; every node the session locked or created has a
version in the transaction; nothing from outside points into it. With that a rollback returns,
and what it leaves is the store without the transaction.

Signatures and comments are not part of a transaction. They stay.
-/
import PlmCore.Psm.Authoring

set_option autoImplicit false

namespace PlmCore.Psm

open PlmCore.Lib

/-! ## Sessions -/

/-- No work is in progress: every transaction is committed, no node is locked, and every node
has a version. -/
@[mk_iff]
structure Tables.Settled (t : Tables) : Prop where
  committed : ∀ y ∈ t.txs, y.status = .COMMITTED
  unlocked : ∀ n ∈ t.nodes, n.unlocked = n
  populated : ∀ n ∈ t.nodes, ∃ v ∈ t.versions, v.nodeId = n.id

/-- The request only edits, a link it addresses belongs to the transaction, and a version it
comments on does not. -/
structure AuthoringOp.KeepsTo (x : Uuid) (t : Tables) (op : AuthoringOp) : Prop where
  isEdit : op.isEdit = true
  link : ∀ linkId ∈ op.link?, t.ownsLink x linkId
  commented : ∀ vid ∈ op.commented?, vid ∉ t.selectVersionIds (ofTx x)

/-- Requests of the user `u` in the transaction `x`, one after the other, each of them
returning. -/
inductive Session (env : Env) (u : String) (x : Uuid) : List AuthoringOp → Db → Db → Prop
  | nil (s : Db) : Session env u x [] s s
  | cons {ctx : Caller} {depth : Nat} {op : AuthoringOp} {ops : List AuthoringOp} {s s₁ s' : Db}
      (huser : ctx.userId = u) (hkeeps : op.KeepsTo x s.toTables)
      (hrun : Returns (op.run env ctx depth x) s () s₁) (hrest : Session env u x ops s₁ s') :
      Session env u x (op :: ops) s s'

/-- The store with signatures and comments added. -/
def Tables.annotate (gs : List SignatureRow) (cs : List CommentRow) (t : Tables) : Tables :=
  { t with
    signatures := t.signatures ++ gs
    comments := t.comments ++ cs }

theorem annotate_nil (t : Tables) : t.annotate [] [] = t := by simp [Tables.annotate]

/-! ## Versions seen through their keys -/

theorem mem_selectVersionIds_ofTx {t : Tables} {x vid : Uuid} :
    vid ∈ t.selectVersionIds (ofTx x) ↔ ∃ k ∈ t.versionKeys, k.txId = x ∧ k.id = vid := by
  rw [mem_selectVersionIds, Tables.versionKeys]
  simp [VersionRow.key, ofTx]

theorem hasVersionOutside_iff {t : Tables} {x nodeId : Uuid} :
    t.hasVersionOutside x nodeId = true ↔ ∃ k ∈ t.versionKeys, k.nodeId = nodeId ∧ k.txId ≠ x := by
  simp [Tables.hasVersionOutside, Tables.versionKeys, VersionRow.key]

/-- A stored version stays in or out of a transaction when versions are only added. -/
theorem not_mem_select_of_keys {t t' : Tables} {x vid : Uuid} (hvalid : t'.Valid)
    (hkeys : t.versionKeys <+: t'.versionKeys) (hvid : vid ∈ t.versionIds)
    (h : vid ∉ t.selectVersionIds (ofTx x)) : vid ∉ t'.selectVersionIds (ofTx x) := by
  intro h'
  obtain ⟨k', hk', hx, hid'⟩ := mem_selectVersionIds_ofTx.mp h'
  obtain ⟨v, hv, hid⟩ := List.mem_map.mp hvid
  have hk : v.key ∈ t.versionKeys := List.mem_map_of_mem hv
  have hids : (t'.versionKeys.map (·.id)).Nodup := by
    have hnodup := hvalid.pk_version
    simpa [Tables.versionKeys, Tables.versionIds, VersionRow.key, Function.comp_def] using hnodup
  have heq : v.key = k' := List.inj_on_of_nodup_map hids (hkeys.subset hk) hk' (hid.trans hid'.symm)
  exact h (mem_selectVersionIds_ofTx.mpr ⟨v.key, hk, by rw [heq]; exact hx, hid⟩)

/-! ## What a rollback leaves -/

/-- **A rollback leaves the store without the transaction**, when only nodes of the
transaction are locked, every node has a version, and no comment is on a version of it. -/
theorem rolledBack_eq {t : Tables} {x : Uuid}
    (hlocks : ∀ n ∈ t.nodes, n.unlocked = n ∨ n.id ∈ t.affectedNodes x)
    (hpopulated : ∀ n ∈ t.nodes, ∃ v ∈ t.versions, v.nodeId = n.id)
    (hcomments : ∀ c ∈ t.comments, c.nodeVersionId ∉ t.selectVersionIds (ofTx x)) :
    t.rolledBack x = { t.outside x with outbox := t.outbox, nextId := t.nextId } := by
  have hversions : t.versions.filter (fun v => ¬ ofTx x v) = t.versions.filter (·.txId ≠ x) :=
    List.filter_congr fun v _ => by simp [ofTx]
  have horphan : ∀ nodeId, ((t.unlockNodes (t.affectedNodes x)).withoutVersions (ofTx x)).isOrphan
      nodeId = true ↔ ¬ t.hasVersionOutside x nodeId = true := by
    intro nodeId
    rw [isOrphan_iff, Tables.withoutVersions]
    simp only [hversions, Tables.unlockNodes, Tables.hasVersionOutside, List.mem_filter,
      List.any_eq_true, decide_eq_true_eq]
    constructor
    · rintro h ⟨v, hv, hnode, hx⟩
      exact h v ⟨hv, hx⟩ hnode
    · rintro h v ⟨hv, hx⟩ hnode
      exact h ⟨v, hv, hnode, hx⟩
  refine Tables.ext rfl ?_ hversions rfl rfl rfl rfl rfl rfl rfl ?_ rfl rfl
  · change (t.nodes.map fun n => if n.id ∈ t.affectedNodes x then n.unlocked else n).filter _
      = (t.nodes.filter fun n => t.hasVersionOutside x n.id).map NodeRow.unlocked
    have hmap : (t.nodes.map fun n => if n.id ∈ t.affectedNodes x then n.unlocked else n)
        = t.nodes.map NodeRow.unlocked := by
      refine List.map_congr_left fun n hn => ?_
      split
      · rfl
      · rename_i hna
        exact ((hlocks n hn).resolve_right hna).symm
    rw [hmap, List.filter_map]
    congr 1
    refine List.filter_congr fun n hn => ?_
    rw [Bool.eq_iff_iff]
    simp only [Function.comp_apply, decide_eq_true_eq]
    change ¬ (n.id ∈ t.affectedNodes x ∧ _) ↔ _
    rw [horphan]
    constructor
    · intro h
      by_contra hout
      -- a node without a version outside has one inside
      obtain ⟨v, hv, hnode⟩ := hpopulated n hn
      refine h ⟨mem_affectedNodes.mpr ⟨v, hv, ?_, hnode⟩, hout⟩
      by_contra hx
      exact hout (hasVersionOutside_iff.mpr ⟨v.key, List.mem_map_of_mem hv, hnode, hx⟩)
    · exact fun hout h => h.2 hout
  · exact (List.filter_eq_self.mpr fun c hc => decide_eq_true (hcomments c hc)).symm

/-! ## The invariant of a session -/

/-- What is true after `k` signatures and `m` comments of a session that started in `S`, in the
transaction `x`. -/
structure Session.Inv (S : Tables) (x : Uuid) (k m : Nat) (s : Tables) : Prop where
  content : ∃ gs cs, gs.length = k ∧ cs.length = m ∧ s.outside x = (S.outside x).annotate gs cs
  txs : s.txs = S.txs
  keys : S.versionKeys <+: s.versionKeys
  nodes : ∀ n ∈ s.nodes, n ∈ S.nodes ∨ n.id ∈ s.affectedNodes x
  signatures : ∀ g ∈ s.signatures, g.nodeVersionId ∉ s.selectVersionIds (ofTx x)
    ∧ s.hasVersionOutside x g.nodeId = true
  comments : ∀ c ∈ s.comments, c.nodeVersionId ∉ s.selectVersionIds (ofTx x)
    ∧ s.hasVersionOutside x c.nodeId = true

/-- A version outside the transaction stays there when versions are only added. -/
theorem hasVersionOutside_of_keys {t t' : Tables} {x nodeId : Uuid}
    (hkeys : t.versionKeys <+: t'.versionKeys) (h : t.hasVersionOutside x nodeId = true) :
    t'.hasVersionOutside x nodeId = true := by
  obtain ⟨k, hk, hnode⟩ := hasVersionOutside_iff.mp h
  exact hasVersionOutside_iff.mpr ⟨k, hkeys.subset hk, hnode⟩

/-- **A request that works inside the transaction keeps the invariant.** -/
theorem Session.Inv.worksInside {S : Tables} {x : Uuid} {k m : Nat} {s s' : Db}
    (h : Session.Inv S x k m s.toTables) (hstep : WorksInside x s.toTables s'.toTables) :
    Session.Inv S x k m s'.toTables where
  content := by
    obtain ⟨gs, cs, hk, hm, hcontent⟩ := h.content
    exact ⟨gs, cs, hk, hm, hstep.outside.trans hcontent⟩
  txs := hstep.txs.trans h.txs
  keys := h.keys.trans hstep.keys
  nodes n hn := by
    rcases hstep.nodes n hn with hn | hn
    · exact (h.nodes n hn).imp_right hstep.affected
    · exact .inr hn
  signatures g hg := by
    rw [hstep.signatures] at hg
    obtain ⟨hversion, hnode⟩ := h.signatures g hg
    exact ⟨not_mem_select_of_keys s'.valid hstep.keys (s.valid.fk_signature_version g hg) hversion,
      hasVersionOutside_of_keys hstep.keys hnode⟩
  comments c hc := by
    rw [hstep.comments] at hc
    obtain ⟨hversion, hnode⟩ := h.comments c hc
    exact ⟨not_mem_select_of_keys s'.valid hstep.keys (s.valid.fk_comment_version c hc) hversion,
      hasVersionOutside_of_keys hstep.keys hnode⟩

/-! ## Annotations -/

section Annotations

variable {S : Tables} {x : Uuid} {k m : Nat} {t : Tables}

/-- A version of an open transaction is not committed. -/
theorem txId_ne_of_committed {v : VersionRow} (hopen : t.isOpen x = true)
    (hcommitted : t.isCommitted v.txId = true) : v.txId ≠ x := by
  rintro rfl
  simp only [Tables.isOpen, Tables.isCommitted, decide_eq_true_eq] at hopen hcommitted
  rw [hopen] at hcommitted
  cases hcommitted

/-- A signature on a version outside the transaction keeps the invariant. -/
theorem Session.Inv.insertSignature (h : Session.Inv S x k m t) {g : SignatureRow}
    (hversion : g.nodeVersionId ∉ t.selectVersionIds (ofTx x))
    (hnode : t.hasVersionOutside x g.nodeId = true) :
    Session.Inv S x (k + 1) m (t.insertSignature g) where
  content := by
    obtain ⟨gs, cs, hk, hm, hcontent⟩ := h.content
    refine ⟨gs ++ [g], cs, by simp [hk], hm, ?_⟩
    have hout : (t.insertSignature g).outside x = (t.outside x).annotate [g] [] := by
      refine Tables.ext rfl rfl rfl rfl rfl rfl rfl ?_ rfl rfl ?_ rfl rfl
      · change (t.signatures ++ [g]).filter (fun g => decide (g.nodeVersionId
          ∉ t.selectVersionIds (ofTx x))) = _
        rw [List.filter_append]
        congr 1
        simp [hversion]
      · exact (List.append_nil _).symm
    rw [hout, hcontent]
    simp [Tables.annotate]
  txs := h.txs
  keys := h.keys
  nodes := h.nodes
  signatures g' hg' := by
    rcases List.mem_append.mp hg' with hg' | hg'
    · exact h.signatures g' hg'
    · rw [List.mem_singleton.mp hg']
      exact ⟨hversion, hnode⟩
  comments := h.comments

/-- A comment on a version outside the transaction keeps the invariant. -/
theorem Session.Inv.insertComment (h : Session.Inv S x k m t) {c : CommentRow}
    (hversion : c.nodeVersionId ∉ t.selectVersionIds (ofTx x))
    (hnode : t.hasVersionOutside x c.nodeId = true) :
    Session.Inv S x k (m + 1) (t.insertComment c) where
  content := by
    obtain ⟨gs, cs, hk, hm, hcontent⟩ := h.content
    refine ⟨gs, cs ++ [c], hk, by simp [hm], ?_⟩
    have hout : (t.insertComment c).outside x = (t.outside x).annotate [] [c] := by
      refine Tables.ext rfl rfl rfl rfl rfl rfl rfl ?_ rfl rfl ?_ rfl rfl
      · exact (List.append_nil _).symm
      · change (t.comments ++ [c]).filter (fun c => decide (c.nodeVersionId
          ∉ t.selectVersionIds (ofTx x))) = _
        rw [List.filter_append]
        congr 1
        simp [hversion]
    rw [hout, hcontent]
    simp [Tables.annotate]
  txs := h.txs
  keys := h.keys
  nodes := h.nodes
  signatures := h.signatures
  comments c' hc' := by
    rcases List.mem_append.mp hc' with hc' | hc'
    · exact h.comments c' hc'
    · rw [List.mem_singleton.mp hc']
      exact ⟨hversion, hnode⟩

theorem Session.Inv.takeId (h : Session.Inv S x k m t) : Session.Inv S x k m t.takeId := { h with }

theorem Session.Inv.withEvents (h : Session.Inv S x k m t) (es : List PlmEvent) :
    Session.Inv S x k m (t.withEvents es) := { h with }

end Annotations

/-! ## Every request keeps the invariant -/

/-- The transaction is the user's, and the only open one. -/
structure Tables.OnlyOpen (t : Tables) (u : String) (x : Uuid) : Prop where
  ofUser : (t.openTransactionsOf u).map (·.id) = [x]
  isOpen : t.isOpen x = true
  only : ∀ y, t.isOpen y = true → y = x

theorem Tables.OnlyOpen.congr {t t' : Tables} {u : String} {x : Uuid} (h : t.OnlyOpen u x)
    (htxs : t'.txs = t.txs) : t'.OnlyOpen u x where
  ofUser := by
    rw [Tables.openTransactionsOf, htxs]
    exact h.ofUser
  isOpen := (Tables.isOpen_congr htxs x).trans h.isOpen
  only y hy := h.only y ((Tables.isOpen_congr htxs y).symm.trans hy)

/-- **One request of a session.** -/
theorem Session.Inv.step {env : Env} {ctx : Caller} {depth : Nat} {op : AuthoringOp} {S : Tables}
    {x : Uuid} {k m : Nat} {s s' : Db} (hS : S.OnlyOpen ctx.userId x)
    (h : Session.Inv S x k m s.toTables) (hkeeps : op.KeepsTo x s.toTables)
    (hrun : Returns (op.run env ctx depth x) s () s') :
    Session.Inv S x (k + if op.signs then 1 else 0) (m + if op.comments then 1 else 0)
      s'.toTables := by
  have hs : s.OnlyOpen ctx.userId x := hS.congr h.txs
  cases op with
  | createNode projectSpaceId nodeTypeId logicalId externalId =>
    obtain ⟨nodeId, hrun⟩ := returns_void.mp hrun
    -- the calls that work inside the transaction undo with it
    exact h.worksInside (worksInside_createNode hs.ofUser hrun)
  | checkout nodeId namesTransaction =>
    obtain ⟨vid, hrun⟩ := returns_void.mp hrun
    refine h.worksInside (worksInside_checkout ?_ hrun)
    cases namesTransaction with
    | true => exact .inl rfl
    | false => exact .inr ⟨rfl, hs.ofUser⟩
  | modifyNode nodeId attributes description strategy =>
    obtain ⟨vid, hrun⟩ := returns_void.mp hrun
    exact h.worksInside (worksInside_modifyNode hrun)
  | createLink linkTypeId nodeId sourceCode type key linkLogicalId =>
    obtain ⟨linkId, hrun⟩ := returns_void.mp hrun
    exact h.worksInside (worksInside_createLink hrun)
  | updateLink linkId update =>
    rw [AuthoringOp.run] at hrun
    -- the link is the transaction's own, by `hkeeps`
    exact h.worksInside (worksInside_updateLink (hkeeps.link linkId rfl)
      (fun v _ hv => hs.only v.txId hv) hrun)
  | deleteLink linkId =>
    rw [AuthoringOp.run] at hrun
    exact h.worksInside (worksInside_deleteLink (hkeeps.link linkId rfl) hrun)
  | assignDomain nodeId domainId =>
    rw [AuthoringOp.run, assignDomainAction] at hrun
    exact h.worksInside (worksInside_domainAction (fun _ _ _ _ _ => assignDomain_ok) hrun)
  | unassignDomain nodeId domainId =>
    rw [AuthoringOp.run, unassignDomainAction] at hrun
    exact h.worksInside (worksInside_domainAction (fun _ _ _ _ _ => unassignDomain_ok) hrun)
  | transition nodeId transitionId => exact absurd hkeeps.isEdit (by simp [AuthoringOp.isEdit])
  | commit comment selectedNodeIds => exact absurd hkeeps.isEdit (by simp [AuthoringOp.isEdit])
  | addComment nodeId vid text parent attributeName =>
    obtain ⟨id, hrun⟩ := returns_void.mp hrun
    obtain ⟨v, c, es, hv, hvid, hvnode, hcvid, hcnode, hs'⟩ := addComment_ok hrun
    -- comments hang on versions outside the transaction, and stay
    have hout : vid ∉ s.selectVersionIds (ofTx x) := hkeeps.commented vid rfl
    have hx : v.txId ≠ x := fun hx => hout (hvid ▸ id_mem_of_txId s.valid hv hx)
    rw [hs']
    exact (h.takeId.insertComment (hcvid ▸ hout)
      (hasVersionOutside_iff.mpr ⟨v.key, List.mem_map_of_mem hv, hvnode.trans hcnode.symm,
        hx⟩)).withEvents es
  | sign nodeId meaning comment =>
    obtain ⟨id, hrun⟩ := returns_void.mp hrun
    obtain ⟨v, g, es, hv, hgvid, hgnode, hs'⟩ := sign_ok hrun
    obtain ⟨hmem, hvnode, hcommitted⟩ := Tables.getLastCommittedVersion_ok hv
    -- a signature is of a committed version, and stays
    have hx : v.txId ≠ x := txId_ne_of_committed hs.isOpen hcommitted
    have hout : g.nodeVersionId ∉ s.selectVersionIds (ofTx x) := by
      rw [hgvid, id_mem_ofTx s.valid hmem]
      exact hx
    rw [hs']
    exact (h.takeId.insertSignature hout
      (hasVersionOutside_iff.mpr ⟨v.key, List.mem_map_of_mem hmem, hvnode.trans hgnode.symm,
        hx⟩)).withEvents es

/-- **A whole session keeps the invariant**, and counts its signatures and comments. -/
theorem Session.inv {env : Env} {u : String} {x : Uuid} {ops : List AuthoringOp} {S : Tables}
    {s s' : Db} (hS : S.OnlyOpen u x) (hrun : Session env u x ops s s') {k m : Nat}
    (h : Session.Inv S x k m s.toTables) :
    Session.Inv S x (k + ops.countP (·.signs)) (m + ops.countP (·.comments)) s'.toTables := by
  induction hrun generalizing k m with
  | nil s => exact h
  | cons huser hkeeps hrun hrest ih =>
    have hstep := h.step (huser ▸ hS) hkeeps hrun
    have hrest := ih hstep
    rw [List.countP_cons, List.countP_cons]
    convert hrest using 1 <;> omega

/-! ## From the opening to the rollback -/

section Opened

variable {ctx : Caller} {x : Uuid} {S S₁ : Db}

/-- No stored version belongs to a transaction that does not exist. -/
theorem txId_ne_of_fresh (hfresh : x ∉ S.txIds) {v : VersionRow} (hv : v ∈ S.versions) : v.txId ≠ x :=
  fun hx => hfresh (hx ▸ S.valid.fk_version_tx v hv)

/-- A settled store has nothing inside a transaction that does not exist. -/
theorem outside_of_settled (hS : S.Settled) (hfresh : x ∉ S.txIds) :
    S.outside x = { S.toTables with outbox := [], nextId := 0 } := by
  have hsel : S.selectVersionIds (ofTx x) = [] := by
    rw [Tables.selectVersionIds, List.map_eq_nil_iff, List.filter_eq_nil_iff]
    intro v hv
    simpa [ofTx] using txId_ne_of_fresh hfresh hv
  have hlinks : S.selectLinkIds (ofTx x) = [] := by
    simp [Tables.selectLinkIds, hsel]
  have hnodes : (S.nodes.filter fun n => S.hasVersionOutside x n.id).map NodeRow.unlocked
      = S.nodes := by
    rw [List.filter_eq_self.mpr fun n hn => ?_]
    · rw [List.map_congr_left (g := id) fun n hn => hS.unlocked n hn, List.map_id]
    · obtain ⟨v, hv, hnode⟩ := hS.populated n hn
      exact hasVersionOutside_iff.mpr ⟨v.key, List.mem_map_of_mem hv, hnode, txId_ne_of_fresh hfresh hv⟩
  have htxs : S.txs.filter (·.id ≠ x) = S.txs :=
    List.filter_eq_self.mpr fun y hy => decide_eq_true fun hid =>
      hfresh (hid ▸ List.mem_map_of_mem hy)
  have hversions : S.versions.filter (·.txId ≠ x) = S.versions :=
    List.filter_eq_self.mpr fun v hv => decide_eq_true (txId_ne_of_fresh hfresh hv)
  simp only [Tables.outside, hsel, hlinks, hnodes, htxs, hversions]
  simp

/-- After opening a transaction in a settled store it is the only open one. -/
theorem onlyOpen_of_openTransaction (hS : S.Settled) (h : Returns (openTransaction ctx) S x S₁) :
    S₁.OnlyOpen ctx.userId x := by
  have hfresh := fresh_of_openTransaction h
  have htxs : S₁.txs = S.txs ++ [⟨x, ctx.userId, .OPEN, none, ctx.now, none⟩] := by
    rw [(openTransaction_ok h).2]
    rfl
  have hold : ∀ y ∈ S.txs, ¬ y.status = .OPEN := fun y hy hopen => by
    rw [hS.committed y hy] at hopen
    cases hopen
  have hfind : S.txs.find? (·.id = x) = none :=
    List.find?_eq_none.mpr fun y hy hid => hfresh (of_decide_eq_true hid ▸ List.mem_map_of_mem hy)
  refine ⟨?_, ?_, fun y hy => ?_⟩
  · have hnil : S.txs.filter (fun y => y.ownerId = ctx.userId ∧ y.status = .OPEN) = [] :=
      List.filter_eq_nil_iff.mpr fun y hy hp => hold y hy (of_decide_eq_true hp).2
    rw [Tables.openTransactionsOf, htxs, List.filter_append, hnil]
    simp
  · simp [Tables.isOpen, Tables.txStatus?, Tables.tx?, htxs, hfind]
  · simp only [Tables.isOpen, Tables.txStatus?, Tables.tx?, decide_eq_true_eq, Option.map_eq_some_iff]
      at hy
    obtain ⟨row, hrow, hopen⟩ := hy
    have hmem := List.mem_of_find?_eq_some hrow
    have hid : row.id = y := by simpa using List.find?_some hrow
    rw [htxs] at hmem
    rcases List.mem_append.mp hmem with hmem | hmem
    · exact absurd hopen (hold row hmem)
    · rw [← hid, List.mem_singleton.mp hmem]

/-- A session starts with the invariant. -/
theorem Session.Inv.start (hS : S.Settled) (h : Returns (openTransaction ctx) S x S₁) :
    Session.Inv S₁.toTables x 0 0 S₁.toTables := by
  have hfresh := fresh_of_openTransaction h
  have hs₁ := (openTransaction_ok h).2
  have hsel : ∀ vid, vid ∉ S₁.selectVersionIds (ofTx x) := by
    rw [hs₁]
    intro vid hvid
    obtain ⟨v, hv, hx, -⟩ := mem_selectVersionIds.mp hvid
    exact txId_ne_of_fresh hfresh hv (by simpa [ofTx] using hx)
  have hpopulated : ∀ nodeId ∈ S.nodeIds, S₁.hasVersionOutside x nodeId = true := by
    intro nodeId hmem
    obtain ⟨n, hn, rfl⟩ := List.mem_map.mp hmem
    obtain ⟨v, hv, hnode⟩ := hS.populated n hn
    rw [hs₁]
    exact hasVersionOutside_iff.mpr
      ⟨v.key, List.mem_map_of_mem hv, hnode, txId_ne_of_fresh hfresh hv⟩
  have hnodes : S₁.nodeIds = S.nodeIds := by
    rw [hs₁]
    rfl
  exact
    { content := ⟨[], [], rfl, rfl, (annotate_nil _).symm⟩
      txs := rfl
      keys := List.prefix_rfl
      nodes := fun n hn => .inl hn
      signatures := fun g hg => ⟨hsel _, hpopulated _ (hnodes ▸ S₁.valid.fk_signature_node g hg)⟩
      comments := fun c hc => ⟨hsel _, hpopulated _ (hnodes ▸ S₁.valid.fk_comment_node c hc)⟩ }

end Opened

/-! ## The rollback of a session -/

section Closing

variable {opener : Caller} {x : Uuid} {S S₁ s : Db} {k m : Nat}

/-- A version outside the transaction is one of the store the session started from. -/
theorem Session.Inv.mem_of_outside (hS : S.Settled) (hopen : Returns (openTransaction opener) S x S₁)
    (hinv : Session.Inv S₁.toTables x k m s.toTables) {v : VersionRow} (hv : v ∈ s.versions)
    (hx : v.txId ≠ x) : v ∈ S.versions := by
  obtain ⟨gs, cs, -, -, hcontent⟩ := hinv.content
  have hmem : v ∈ (s.outside x).versions := List.mem_filter.mpr ⟨hv, decide_eq_true hx⟩
  rw [hcontent, outside_openTransaction hopen,
    outside_of_settled hS (fresh_of_openTransaction hopen)] at hmem
  exact hmem

/-- Nothing from outside points at a version of the transaction. -/
theorem Session.Inv.detached (hS : S.Settled) (hopen : Returns (openTransaction opener) S x S₁)
    (hinv : Session.Inv S₁.toTables x k m s.toTables) : Detached (ofTx x) s.toTables where
  comments c hc := (hinv.comments c hc).1
  previous v hv hp p hprev := by
    have hx : v.txId ≠ x := by simpa [ofTx] using hp
    have hpS := S.valid.fk_version_previous v (hinv.mem_of_outside hS hopen hv hx) p hprev
    have hkeys : S.versionKeys <+: s.versionKeys := by
      have hk := hinv.keys
      rw [(openTransaction_ok hopen).2] at hk
      exact hk
    refine not_mem_select_of_keys s.valid hkeys hpS fun hsel => ?_
    obtain ⟨w, hw, hwx, -⟩ := mem_selectVersionIds.mp hsel
    exact txId_ne_of_fresh (fresh_of_openTransaction hopen) hw (by simpa [ofTx] using hwx)

/-- An annotated node has a version outside the transaction, so it stays. -/
theorem Session.Inv.orphansUnannotated {S : Tables} (hinv : Session.Inv S x k m s.toTables) :
    s.orphansUnannotated x := by
  intro nodeId _ ho
  have hgone : ¬ s.hasVersionOutside x nodeId = true := by
    intro hout
    obtain ⟨v, hv, hp⟩ := List.any_eq_true.mp hout
    obtain ⟨hnode, hx⟩ := of_decide_eq_true hp
    exact isOrphan_iff.mp ho v (List.mem_filter.mpr ⟨hv, by simpa [ofTx] using hx⟩) hnode
  exact ⟨fun g hg hnode => hgone (hnode ▸ (hinv.signatures g (List.mem_of_mem_filter hg)).2),
    fun c hc hnode => hgone (hnode ▸ (hinv.comments c hc).2)⟩

/-- The user who opened the transaction may close it. -/
theorem Session.Inv.mayClose {closer : Caller} (hopen : Returns (openTransaction opener) S x S₁)
    (hinv : Session.Inv S₁.toTables x k m s.toTables) (hcloser : closer.userId = opener.userId) :
    s.mayClose closer x := by
  have htxs := hinv.txs
  rw [(openTransaction_ok hopen).2] at htxs
  have hfind : S.txs.find? (·.id = x) = none := List.find?_eq_none.mpr fun y hy hid =>
    fresh_of_openTransaction hopen (of_decide_eq_true hid ▸ List.mem_map_of_mem hy)
  refine ⟨⟨x, opener.userId, .OPEN, none, opener.now, none⟩, ?_, .inr hcloser, rfl⟩
  rw [Tables.tx?, htxs]
  simp [Tables.insertTransaction, Tables.takeId, hfind]

/-- What is left is the settled store with the annotations. -/
theorem Session.Inv.rolledBack (hS : S.Settled) (hopen : Returns (openTransaction opener) S x S₁)
    (hinv : Session.Inv S₁.toTables x k m s.toTables) :
    ∃ gs cs, gs.length = k ∧ cs.length = m ∧ s.rolledBack x =
      { S.annotate gs cs with outbox := s.outbox, nextId := s.nextId } := by
  obtain ⟨gs, cs, hgs, hcs, hcontent⟩ := hinv.content
  have hnodes := hinv.nodes
  have hkeys := hinv.keys
  rw [(openTransaction_ok hopen).2] at hnodes hkeys
  have hpopulated : ∀ n ∈ s.nodes, ∃ v ∈ s.versions, v.nodeId = n.id := by
    intro n hn
    rcases hnodes n hn with hn | hn
    · obtain ⟨v, hv, hnode⟩ := hS.populated n hn
      obtain ⟨w, hw, hkey⟩ := List.mem_map.mp (hkeys.subset (List.mem_map_of_mem hv))
      exact ⟨w, hw, (congrArg VersionKey.nodeId hkey).trans hnode⟩
    · obtain ⟨v, hv, -, hnode⟩ := mem_affectedNodes.mp hn
      exact ⟨v, hv, hnode⟩
  refine ⟨gs, cs, hgs, hcs, ?_⟩
  rw [rolledBack_eq (fun n hn => (hnodes n hn).imp_left (hS.unlocked n)) hpopulated
    fun c hc => (hinv.comments c hc).1, hcontent, outside_openTransaction hopen,
    outside_of_settled hS (fresh_of_openTransaction hopen)]
  rfl

end Closing

/-- **Rollback restores the store.** Whatever a user does in a transaction opened from a settled
store, as long as each request keeps to the transaction, its rollback returns and leaves every
table as it was when the transaction was opened, locks included, but for the signatures and
comments that were added: one for each request that adds one, at the end of its table. -/
theorem rollback_restores_store {env : Env} {u : String} {x : Uuid} {ops : List AuthoringOp}
    {opener closer : Caller} {S S₁ s : Db} (hS : S.Settled)
    (hopen : Returns (openTransaction opener) S x S₁) (hopener : opener.userId = u)
    (hsession : Session env u x ops S₁ s) (hcloser : closer.userId = u) :
    ∃ s' gs cs, Returns (rollbackTransaction closer x) s () s'
      ∧ s'.toTables = { S.annotate gs cs with outbox := s'.outbox, nextId := s'.nextId }
      ∧ gs.length = ops.countP (·.signs) ∧ cs.length = ops.countP (·.comments) := by
  have hinv := Session.inv (hopener ▸ onlyOpen_of_openTransaction hS hopen) hsession
    (Session.Inv.start hS hopen)
  obtain ⟨s', hs'⟩ := rollbackTransaction_succeeds_iff.mpr
    ⟨hinv.mayClose hopen (hcloser.trans hopener.symm), hinv.detached hS hopen, hinv.orphansUnannotated⟩
  obtain ⟨-, es, htables⟩ := rollbackTransaction_ok hs'
  obtain ⟨gs, cs, hgs, hcs, hrolled⟩ := hinv.rolledBack hS hopen
  refine ⟨s', gs, cs, hs', ?_, by simpa using hgs, by simpa using hcs⟩
  rw [htables, hrolled]
  rfl

/-! ## Two sessions -/

instance (t : Tables) : Decidable t.Settled := decidable_of_iff _ (Tables.settled_iff t).symm

/-- Commits a part, and makes one request in a new transaction. It returns the store the
transaction was opened from. -/
def partSession (op : Uuid → Plm Unit) : Plm Db := do
  commitPart
  let settled ← query id
  let x ← openTransaction engineer
  op x
  pure settled

/-- What a test of a run of `partSession` shows. -/
theorem partSession_ok (op : Uuid → Plm Unit) (test : Db → Db → Bool)
    (h : passes (partSession op) Db.empty (fun S s => S.Settled ∧ test S s = true) = true) :
    ∃ S x S₁ s, S.Settled ∧ Returns (openTransaction engineer) S x S₁ ∧ Returns (op x) S₁ () s
      ∧ test S s = true := by
  obtain ⟨S, s, hrun, htest⟩ := returns_of_passes h
  obtain ⟨hS, htest⟩ := of_decide_eq_true htest
  simp only [partSession, returns_bind, returns_query, returns_pure] at hrun
  obtain ⟨_, S₀, -, _, _, ⟨rfl, rfl⟩, x, S₁, hopen, _, _, hop, rfl, rfl⟩ := hrun
  exact ⟨_, x, S₁, _, hS, hopen, hop, htest⟩

/-- A checkout, rolled back. -/
theorem rollback_restores_checkout : ∃ S x S₁ s s' gs cs, S.Settled
    ∧ Returns (openTransaction engineer) S x S₁
    ∧ Returns ((AuthoringOp.checkout 0 true).run partsEnv engineer 0 x) S₁ () s
    ∧ s.versions ≠ S.versions ∧ Returns (rollbackTransaction engineer x) s () s'
    ∧ s'.toTables = { S.annotate gs cs with outbox := s'.outbox, nextId := s'.nextId }
    ∧ gs.length = 0 ∧ cs.length = 0 := by
  obtain ⟨S, x, S₁, s, hS, hopen, hrun, htest⟩ := partSession_ok
    (fun x => (AuthoringOp.checkout 0 true).run partsEnv engineer 0 x)
    (fun S s => s.versions ≠ S.versions) (by decide +kernel)
  have hsession : Session partsEnv "engineer" x [.checkout 0 true] S₁ s :=
    .cons rfl ⟨rfl, by simp [AuthoringOp.link?], by simp [AuthoringOp.commented?]⟩ hrun (.nil s)
  obtain ⟨s', gs, cs, hs', htables, hgs, hcs⟩ :=
    rollback_restores_store hS hopen rfl hsession (rfl : engineer.userId = "engineer")
  exact ⟨S, x, S₁, s, s', gs, cs, hS, hopen, hrun, of_decide_eq_true htest, hs', htables, hgs, hcs⟩

/-- A signature, rolled back: it stays. -/
theorem rollback_keeps_signature : ∃ S x S₁ s s', S.Settled
    ∧ Returns (openTransaction engineer) S x S₁
    ∧ Returns ((AuthoringOp.sign 0 (some "APPROVED") none).run partsEnv engineer 0 x) S₁ () s
    ∧ Returns (rollbackTransaction engineer x) s () s' ∧ s'.signatures ≠ S.signatures := by
  obtain ⟨S, x, S₁, s', hS, hopen, hrun, htest⟩ := partSession_ok
    (fun x => do
      (AuthoringOp.sign 0 (some "APPROVED") none).run partsEnv engineer 0 x
      rollbackTransaction engineer x)
    (fun S s' => s'.signatures ≠ S.signatures) (by decide +kernel)
  obtain ⟨⟨⟩, s, hsign, hrollback⟩ := returns_bind.mp hrun
  exact ⟨S, x, S₁, s, s', hS, hopen, hsign, hrollback, of_decide_eq_true htest⟩

end PlmCore.Psm
