/-
The part files of `/split`: `writePart` of worker-split.js, and the byte ranges it is given.

A part file is a copy of the ranges of its records between a header and an end. The ranges are sorted by
their offsets, ranges that touch are joined into runs, and the runs are written in batches. The scanner
delivers records whose ranges lie one behind the other, whatever the chunks are, so each record of the part
is written once, in the order of the file.
-/
import Mathlib.Data.List.Sort
import PlmCore.CadParser.PartClosure
import PlmCore.CadParser.ScanReading

set_option autoImplicit false

namespace PlmCore.CadParser

open PlmCore.Lib

/-! ## `writePart` -/

/-- A range of bytes. -/
structure ByteRange where
  offset : Nat
  length : Nat
  deriving DecidableEq

/-- Bytes of the file that are written together. -/
structure ByteRun where
  start : Nat
  stop : Nat
  deriving DecidableEq

/-- The ranges of a part in `partJobs`. -/
def partRanges (es : List ScannedEntity) (closureArr : List Id) : List ByteRange :=
  closureArr.filterMap fun id => (entity es id).map fun e => ⟨e.offset, e.length⟩

/-- `fileBuf.subarray(start, stop)`. -/
def subarray (fileBuf : List UInt8) (start stop : Nat) : List UInt8 := (fileBuf.drop start).take (stop - start)

/-- One turn of the loop that joins ranges. -/
def coalesceStep (runs : List ByteRun) (r : ByteRange) : List ByteRun :=
  match runs.getLast? with
  | some last =>
    if last.stop = r.offset then runs.dropLast ++ [⟨last.start, r.offset + r.length⟩]
    else runs ++ [⟨r.offset, r.offset + r.length⟩]
  | none => runs ++ [⟨r.offset, r.offset + r.length⟩]

/-- The chunks that wait, their size, and what the stream was given. -/
structure PartWriter where
  pending : List (List UInt8)
  pendingSize : Nat
  written : List UInt8

/-- `push`. -/
def PartWriter.push (ws : PartWriter) (chunk : List UInt8) : PartWriter :=
  { ws with pending := ws.pending ++ [chunk], pendingSize := ws.pendingSize + chunk.length }

/-- `flush`. -/
def PartWriter.flush (ws : PartWriter) : PartWriter :=
  if ws.pendingSize = 0 then ws else ⟨[], 0, ws.written ++ ws.pending.flatten⟩

/-- `FLUSH`: 8 MB. -/
def flushSize : Nat := 8 * 1024 * 1024

/-- One turn of the loop that writes runs. -/
def PartWriter.pushRun (fileBuf : List UInt8) (ws : PartWriter) (r : ByteRun) : PartWriter :=
  let ws := ws.push (subarray fileBuf r.start r.stop)
  if ws.pendingSize ≥ flushSize then ws.flush else ws

/-- What stands before the records. -/
def partHead (headerSection : List UInt8) : List UInt8 :=
  asciiBytes "ISO-10303-21;\n" ++ headerSection ++ asciiBytes "\nDATA;\n"

/-- What stands behind the records. -/
def partEnd : List UInt8 := asciiBytes "\nENDSEC;\nEND-ISO-10303-21;\n"

/-- `writePart`: the bytes of the part file. The header section is given as UTF-8. -/
def writePart (fileBuf headerSection : List UInt8) (ranges : List ByteRange) : List UInt8 :=
  let order := ranges.insertionSort fun a b => a.offset ≤ b.offset
  let runs := order.foldl coalesceStep []
  let ws := runs.foldl (PartWriter.pushRun fileBuf) (PartWriter.push ⟨[], 0, []⟩ (partHead headerSection))
  (ws.push partEnd).flush.written

/-! ## What is written -/

namespace PartWriter

/-- What has been written, and what waits. -/
def bytes (ws : PartWriter) : List UInt8 := ws.written ++ ws.pending.flatten

/-- The size is that of the chunks that wait. -/
def Sized (ws : PartWriter) : Prop := ws.pendingSize = ws.pending.flatten.length

variable {ws : PartWriter}

theorem bytes_push (chunk : List UInt8) : (ws.push chunk).bytes = ws.bytes ++ chunk := by
  simp [bytes, push]

theorem Sized.push (h : ws.Sized) (chunk : List UInt8) : (ws.push chunk).Sized := by
  unfold Sized at *
  simp [PartWriter.push, h]

/-- Nothing waits after a flush. -/
theorem Sized.written_flush (h : ws.Sized) : ws.flush.written = ws.bytes ∧ ws.flush.pending.flatten = [] := by
  unfold flush bytes
  split
  case isTrue hzero =>
    have hempty : ws.pending.flatten = [] := List.length_eq_zero_iff.mp (h ▸ hzero)
    rw [hempty, List.append_nil]
    exact ⟨rfl, rfl⟩
  case isFalse => exact ⟨rfl, rfl⟩

theorem Sized.flush (h : ws.Sized) : ws.flush.Sized ∧ ws.flush.bytes = ws.bytes := by
  obtain ⟨hwritten, hpending⟩ := h.written_flush
  refine ⟨?_, by rw [bytes, hpending, hwritten, List.append_nil]⟩
  unfold Sized PartWriter.flush
  split
  case isTrue => exact h
  case isFalse => rfl

theorem Sized.pushRun (h : ws.Sized) (fileBuf : List UInt8) (r : ByteRun) : (ws.pushRun fileBuf r).Sized ∧
    (ws.pushRun fileBuf r).bytes = ws.bytes ++ subarray fileBuf r.start r.stop := by
  have hpush := h.push (subarray fileBuf r.start r.stop)
  unfold PartWriter.pushRun
  dsimp only
  split
  case isTrue => exact ⟨hpush.flush.1, hpush.flush.2.trans (bytes_push _)⟩
  case isFalse => exact ⟨hpush, bytes_push _⟩

/-- **The batches** make no difference. -/
theorem Sized.pushRuns (h : ws.Sized) (fileBuf : List UInt8) (runs : List ByteRun) :
    (runs.foldl (PartWriter.pushRun fileBuf) ws).Sized ∧
    (runs.foldl (PartWriter.pushRun fileBuf) ws).bytes =
      ws.bytes ++ runs.flatMap fun r => subarray fileBuf r.start r.stop := by
  induction runs generalizing ws with
  | nil => exact ⟨h, by simp⟩
  | cons r runs ih =>
    obtain ⟨hsized, hbytes⟩ := h.pushRun fileBuf r
    obtain ⟨hall, hallBytes⟩ := ih hsized
    rw [List.foldl_cons, List.flatMap_cons, ← List.append_assoc, ← hbytes]
    exact ⟨hall, hallBytes⟩

end PartWriter

/-- The bytes of a range. -/
def ByteRange.bytes (fileBuf : List UInt8) (r : ByteRange) : List UInt8 := (fileBuf.drop r.offset).take r.length

theorem subarray_append (fileBuf : List UInt8) {start mid : Nat} (hle : start ≤ mid) (length : Nat) :
    subarray fileBuf start mid ++ subarray fileBuf mid (mid + length) =
      subarray fileBuf start (mid + length) := by
  unfold subarray
  have hsum : mid + length - start = (mid - start) + (mid + length - mid) := by omega
  rw [hsum, List.take_add, List.drop_drop, Nat.add_sub_cancel' hle]

theorem subarray_range (fileBuf : List UInt8) (r : ByteRange) :
    subarray fileBuf r.offset (r.offset + r.length) = r.bytes fileBuf := by
  rw [subarray, ByteRange.bytes, Nat.add_sub_cancel_left]

/-- One range joins the run before it or is one of its own. -/
theorem coalesceStep_spec (fileBuf : List UInt8) {runs : List ByteRun} (hruns : ∀ r ∈ runs, r.start ≤ r.stop)
    (range : ByteRange) : (∀ r ∈ coalesceStep runs range, r.start ≤ r.stop) ∧
      ((coalesceStep runs range).flatMap fun r => subarray fileBuf r.start r.stop) =
        (runs.flatMap fun r => subarray fileBuf r.start r.stop) ++ range.bytes fileBuf := by
  have hown : range.offset ≤ range.offset + range.length := Nat.le_add_right _ _
  obtain rfl | ⟨before, last, rfl⟩ := List.eq_nil_or_concat runs
  · exact ⟨List.forall_mem_singleton.mpr hown, by simp [coalesceStep, subarray_range]⟩
  · rw [List.concat_eq_append] at hruns ⊢
    obtain ⟨hbefore, hlast⟩ := List.forall_mem_append.mp hruns
    have hle := List.forall_mem_singleton.mp hlast
    rw [coalesceStep, List.getLast?_concat, List.dropLast_concat]
    dsimp only
    by_cases htouch : last.stop = range.offset
    · rw [if_pos htouch]
      rw [htouch] at hle
      refine ⟨List.forall_mem_append.mpr ⟨hbefore, List.forall_mem_singleton.mpr (hle.trans hown)⟩, ?_⟩
      rw [List.flatMap_append, List.flatMap_append, List.flatMap_singleton, List.flatMap_singleton,
        List.append_assoc, htouch, ← subarray_range, subarray_append fileBuf hle]
    · rw [if_neg htouch]
      refine ⟨List.forall_mem_append.mpr ⟨hruns, List.forall_mem_singleton.mpr hown⟩, ?_⟩
      rw [List.flatMap_append, List.flatMap_singleton, subarray_range]

/-- **Joining ranges** makes no difference. -/
theorem flatMap_coalesce (fileBuf : List UInt8) (ranges : List ByteRange) {runs : List ByteRun}
    (hruns : ∀ r ∈ runs, r.start ≤ r.stop) :
    ((ranges.foldl coalesceStep runs).flatMap fun r => subarray fileBuf r.start r.stop) =
      (runs.flatMap fun r => subarray fileBuf r.start r.stop) ++ ranges.flatMap (ByteRange.bytes fileBuf) := by
  induction ranges generalizing runs with
  | nil => simp
  | cons range ranges ih =>
    obtain ⟨hnext, hbytes⟩ := coalesceStep_spec fileBuf hruns range
    rw [List.foldl_cons, ih hnext, hbytes, List.flatMap_cons, List.append_assoc]

/-- **A part file** holds the bytes of its ranges in the order of their offsets. -/
theorem writePart_eq (fileBuf headerSection : List UInt8) (ranges : List ByteRange) :
    writePart fileBuf headerSection ranges = partHead headerSection ++
      (ranges.insertionSort fun a b => a.offset ≤ b.offset).flatMap (ByteRange.bytes fileBuf) ++ partEnd := by
  have hstart : PartWriter.Sized ⟨[], 0, []⟩ := rfl
  obtain ⟨hsized, hbytes⟩ := (hstart.push (partHead headerSection)).pushRuns fileBuf
    ((ranges.insertionSort fun a b => a.offset ≤ b.offset).foldl coalesceStep [])
  unfold writePart
  dsimp only
  rw [((hsized.push partEnd).written_flush).1, PartWriter.bytes_push, hbytes, PartWriter.bytes_push,
    flatMap_coalesce fileBuf _ (fun r hr => absurd hr List.not_mem_nil)]
  rfl

/-! ## Records in the order of the file -/

/-- The ranges of records lie one behind the other, and none is empty. -/
structure InFileOrder (es : List ScannedEntity) : Prop where
  behind : es.Pairwise fun a b => a.offset + a.length ≤ b.offset
  nonempty : ∀ e ∈ es, 1 ≤ e.length

/-- The bytes of a record. -/
def ScannedEntity.bytes (fileBuf : List UInt8) (e : ScannedEntity) : List UInt8 :=
  (fileBuf.drop e.offset).take e.length

/-- The record is the one that a part takes for one of its ids. -/
def IsTaken (es : List ScannedEntity) (part : List Id) (e : ScannedEntity) : Prop :=
  ∃ id ∈ part, entity es id = some e

instance (es : List ScannedEntity) (part : List Id) (e : ScannedEntity) : Decidable (IsTaken es part e) :=
  inferInstanceAs (Decidable (∃ id ∈ part, entity es id = some e))

variable {es : List ScannedEntity} {part : List Id}

theorem InFileOrder.lt (h : InFileOrder es) : es.Pairwise fun a b => a.offset < b.offset := by
  refine h.behind.imp_of_mem fun {a b} ha _ hle => ?_
  have hlength := h.nonempty a ha
  omega

/-- The records of a part, in the order of its ids and in the order of the file. -/
theorem perm_taken (h : InFileOrder es) (hpart : part.Nodup) :
    (part.filterMap (entity es)).Perm (es.filter fun e => IsTaken es part e) := by
  have hnodup : es.Nodup := h.lt.imp fun {a b} hlt heq => absurd (heq ▸ hlt) (Nat.lt_irrefl _)
  refine (List.perm_ext_iff_of_nodup ?_ (hnodup.filter _)).mpr fun e => ?_
  · refine hpart.filterMap fun id id' e he he' => ?_
    have hid := (mem_of_entity he).2
    have hid' := (mem_of_entity he').2
    exact Option.some.inj (hid.symm.trans hid')
  · rw [List.mem_filterMap, List.mem_filter, decide_eq_true_eq]
    constructor
    · rintro ⟨id, hid, he⟩
      exact ⟨(mem_of_entity he).1, id, hid, he⟩
    · rintro ⟨-, htaken⟩
      exact htaken

/-- **Each record of a part is written once**, in the order of the file. -/
theorem writePart_records (h : InFileOrder es) (hpart : part.Nodup) (fileBuf headerSection : List UInt8) :
    writePart fileBuf headerSection (partRanges es part) = partHead headerSection ++
      (es.filter fun e => IsTaken es part e).flatMap (ScannedEntity.bytes fileBuf) ++ partEnd := by
  have hmap : partRanges es part =
      (part.filterMap (entity es)).map fun e => (⟨e.offset, e.length⟩ : ByteRange) := by
    rw [partRanges, List.map_filterMap]
  have hsorted : ((es.filter fun e => IsTaken es part e).map fun e =>
      (⟨e.offset, e.length⟩ : ByteRange)).Pairwise fun a b => a.offset < b.offset :=
    List.pairwise_map.mpr (h.lt.filter _)
  have hsort : ((partRanges es part).insertionSort fun a b => a.offset ≤ b.offset) =
      (es.filter fun e => IsTaken es part e).map fun e => ⟨e.offset, e.length⟩ := by
    have hperm : ((partRanges es part).insertionSort fun a b => a.offset ≤ b.offset).Perm
        ((es.filter fun e => IsTaken es part e).map fun e => ⟨e.offset, e.length⟩) :=
      (List.perm_insertionSort _ _).trans (hmap ▸ (perm_taken h hpart).map _)
    have htotal : Std.Total fun a b : ByteRange => a.offset ≤ b.offset :=
      ⟨fun a b => Nat.le_total a.offset b.offset⟩
    have htrans : IsTrans ByteRange fun a b => a.offset ≤ b.offset := ⟨fun _ _ _ => Nat.le_trans⟩
    have hoffsets : (((es.filter fun e => IsTaken es part e).map fun e =>
        (⟨e.offset, e.length⟩ : ByteRange)).map ByteRange.offset).Nodup :=
      List.pairwise_map.mpr (hsorted.imp Nat.ne_of_lt)
    refine hperm.eq_of_pairwise (fun a b ha hb hab hba => ?_) (List.pairwise_insertionSort _ _)
      (hsorted.imp Nat.le_of_lt)
    exact List.inj_on_of_nodup_map hoffsets (hperm.subset ha) hb (Nat.le_antisymm hab hba)
  rw [writePart_eq, hsort, List.flatMap_map]
  rfl

/-! ## The scanner delivers records in the order of the file -/

/-- The records that were delivered lie before the segment that is being read, and that has begun before
the cursor. -/
structure Placed (s : Scanner) : Prop where
  order : InFileOrder s.delivery.entities
  before : ∀ e ∈ s.delivery.entities, e.offset + e.length ≤ s.segStart
  started : s.segStart ≤ s.workBase + s.cursor
  cursor : s.cursor ≤ s.work.length
  comment : s.inComment = false → ∀ cp, s.commentPos = some (some cp) →
    s.cursor ≤ cp + 1 ∧ cp + 2 ≤ s.work.length
  chunks : s.segChunks ≠ [] → s.segStart < s.workBase + s.cursor

/-- A segment is handed over as a record at its place, or not as a record. -/
theorem handleSegment_entities (d : Delivery) (text : List Char) (offset length : Nat) :
    (d.handleSegment text offset length).entities = d.entities ∨
      ∃ e : ScannedEntity, e.offset = offset ∧ e.length = length ∧
        (d.handleSegment text offset length).entities = d.entities ++ [e] := by
  unfold Delivery.handleSegment
  repeat' split
  all_goals first
    | exact .inl rfl
    | exact .inr ⟨_, rfl, rfl, rfl⟩

/-- A record behind the others. -/
theorem InFileOrder.concat {e : ScannedEntity} (h : InFileOrder es)
    (hbefore : ∀ a ∈ es, a.offset + a.length ≤ e.offset) (hlength : 1 ≤ e.length) :
    InFileOrder (es ++ [e]) where
  behind := by
    refine List.pairwise_append.mpr ⟨h.behind, List.pairwise_singleton _ _, fun a ha b hb => ?_⟩
    exact List.mem_singleton.mp hb ▸ hbefore a ha
  nonempty := List.forall_mem_append.mpr ⟨h.nonempty, List.forall_mem_singleton.mpr hlength⟩

/-- A segment up to a position behind its beginning. -/
theorem InFileOrder.handleSegment {d : Delivery} (h : InFileOrder d.entities) {segStart stop : Nat}
    (hbefore : ∀ e ∈ d.entities, e.offset + e.length ≤ segStart) (hlt : segStart < stop) (text : List Char) :
    InFileOrder (d.handleSegment text segStart (stop - segStart)).entities ∧
      ∀ e ∈ (d.handleSegment text segStart (stop - segStart)).entities, e.offset + e.length ≤ stop := by
  obtain heq | ⟨e, hoffset, hlength, heq⟩ := handleSegment_entities d text segStart (stop - segStart)
  · rw [heq]
    exact ⟨h, fun e he => (hbefore e he).trans hlt.le⟩
  · rw [heq]
    refine ⟨h.concat (fun a ha => hoffset ▸ hbefore a ha) (by omega), ?_⟩
    refine List.forall_mem_append.mpr ⟨fun a ha => (hbefore a ha).trans hlt.le, ?_⟩
    exact List.forall_mem_singleton.mpr (by omega)

/-- A place that was found lies behind the cursor, with the pattern in the work. -/
theorem indexOf_bounds {pattern work : List UInt8} {cursor i : Nat} (hpattern : pattern ≠ [])
    (h : indexOf pattern work cursor = some i) : cursor ≤ i ∧ i + pattern.length ≤ work.length := by
  obtain ⟨hle, hprefix, -⟩ := (indexOf_eq_some hpattern).mp h
  have hlength := hprefix.length_le
  have hpos := List.length_pos_iff.mpr hpattern
  rw [List.length_drop] at hlength
  exact ⟨hle, by omega⟩

namespace Placed

variable {s : Scanner}

/-- **A segment ends** where the next one begins. -/
theorem endSegment (h : Placed s) {sp : Nat} (hle : s.cursor ≤ sp) (hwork : sp + 1 ≤ s.work.length)
    (hcomment : ∀ cp, s.commentPos = some (some cp) → sp ≤ cp ∧ cp + 2 ≤ s.work.length) :
    Placed (s.endSegment sp) := by
  have hstarted := h.started
  have hlength : s.workBase + sp - s.segStart + 1 = s.workBase + (sp + 1) - s.segStart := by omega
  obtain ⟨horder, hbefore⟩ := h.order.handleSegment h.before
    (show s.segStart < s.workBase + (sp + 1) by omega)
    (segmentText (s.pushPiece (s.before sp)).segChunks.flatten)
  rw [← hlength] at horder hbefore
  unfold Scanner.endSegment Scanner.emitSegment
  rw [pushPiece_eq]
  refine ⟨horder, hbefore, Nat.le_refl _, hwork, fun _ cp hcp => ?_, fun hne => absurd rfl hne⟩
  obtain ⟨hsp, hcpWork⟩ := hcomment cp hcp
  exact ⟨Nat.succ_le_succ hsp, hcpWork⟩

/-- A comment begins. -/
theorem enterComment (h : Placed s) {cp : Nat} (hle : s.cursor ≤ cp + 1) (hwork : cp + 2 ≤ s.work.length) :
    Placed (s.enterComment cp) := by
  have hstarted := h.started
  unfold Scanner.enterComment
  rw [pushPiece_eq]
  have hlt : s.segStart < s.workBase + (cp + 2) := by omega
  exact ⟨h.order, h.before, hlt.le, hwork, fun hout => (nomatch hout), fun _ => hlt⟩

/-- The rest is text. -/
theorem keepRest (h : Placed s) (hnone : ∀ cp, s.commentPos ≠ some (some cp)) : Placed s.keepRest := by
  have hstarted := h.started
  have hcursor := h.cursor
  have hchunks : (s.pushPiece (s.work.drop s.cursor)).segChunks ≠ [] →
      s.segStart < s.workBase + s.work.length := by
    unfold Scanner.pushPiece
    split
    case isTrue hpos =>
      intro _
      rw [List.length_drop] at hpos
      omega
    case isFalse =>
      intro hne
      have hlt := h.chunks hne
      omega
  unfold Scanner.keepRest
  rw [pushPiece_eq]
  refine ⟨h.order, h.before, ?_, Nat.le_refl _, fun _ cp hcp => absurd hcp (hnone cp), hchunks⟩
  change s.segStart ≤ s.workBase + s.work.length
  omega

/-- **One pass** of the loop. -/
theorem iterate (h : Placed s) : Placed s.iterate.1 := by
  have hstarted := h.started
  unfold Scanner.iterate
  split
  case isTrue =>
    split
    case h_1 => exact h
    case h_2 stop hstop =>
      obtain ⟨hle, hlength⟩ := indexOf_bounds (List.cons_ne_nil _ _) hstop
      have hlt : s.segStart < s.workBase + (stop + 2) := by omega
      exact ⟨h.order, h.before, hlt.le, hlength, (fun _ cp hcp => by cases hcp), fun _ => hlt⟩
  case isFalse hout =>
    have hin : s.inComment = false := Bool.eq_false_iff.mpr hout
    have hcomment : ∀ cp, s.commentPos.getD (indexOf [slash, star] s.work s.cursor) = some cp →
        s.cursor ≤ cp + 1 ∧ cp + 2 ≤ s.work.length := by
      intro cp hcp
      cases hpos : s.commentPos with
      | none =>
        rw [hpos, Option.getD_none] at hcp
        obtain ⟨hle, hlength⟩ := indexOf_bounds (List.cons_ne_nil _ _) hcp
        exact ⟨hle.trans (Nat.le_succ cp), hlength⟩
      | some cached =>
        rw [hpos, Option.getD_some] at hcp
        exact h.comment hin cp (hpos.trans (congrArg some hcp))
    generalize s.commentPos.getD (indexOf [slash, star] s.work s.cursor) = cp at hcomment
    have hcached : Placed { s with commentPos := some cp } :=
      ⟨h.order, h.before, h.started, h.cursor, fun _ c hc => hcomment c (Option.some.inj hc), h.chunks⟩
    have hstop : ∀ sp, indexOf [semi] s.work s.cursor = some sp → s.cursor ≤ sp ∧ sp + 1 ≤ s.work.length :=
      fun sp hsp => indexOf_bounds (List.cons_ne_nil _ _) hsp
    cases hsp : indexOf [semi] s.work s.cursor with
    | none =>
      cases cp with
      | none => exact hcached.keepRest fun c hc => by cases hc
      | some cp => exact hcached.enterComment (hcomment cp rfl).1 (hcomment cp rfl).2
    | some sp =>
      obtain ⟨hle, hwork⟩ := hstop sp hsp
      cases cp with
      | none => exact hcached.endSegment hle hwork fun c hc => by cases hc
      | some cp =>
        dsimp only
        by_cases hlt : cp < sp
        · rw [if_pos hlt]
          exact hcached.enterComment (hcomment cp rfl).1 (hcomment cp rfl).2
        · rw [if_neg hlt]
          refine hcached.endSegment hle hwork fun c hc => ?_
          cases hc
          exact ⟨Nat.le_of_not_lt hlt, (hcomment cp rfl).2⟩

/-- All passes. -/
theorem scanLoop (h : Placed s) (passes : Nat) : Placed (Scanner.scanLoop passes s) := by
  induction passes generalizing s with
  | zero => exact h
  | succ passes ih =>
    rw [Scanner.scanLoop]
    split
    case isTrue => exact ih h.iterate
    case isFalse => exact h.iterate

/-- A chunk joins what was not consumed. -/
theorem load (h : Placed s) (chunk : List UInt8) : Placed (s.load chunk) := by
  have hstarted := h.started
  have hcursor := h.cursor
  -- what the work begins with moves with the cursor
  have hmoved : ∀ (workBase cursor : Nat) (work : List UInt8), workBase + cursor = s.workBase + s.cursor →
      cursor ≤ work.length → Placed { s with
        workBase := workBase, work := work, cursor := cursor, commentPos := none } := by
    intro workBase cursor work hsum hwork
    refine ⟨h.order, h.before, ?_, hwork, fun _ cp hcp => (nomatch hcp), fun hne => ?_⟩
    · change s.segStart ≤ workBase + cursor
      omega
    · change s.segStart < workBase + cursor
      have hlt := h.chunks hne
      omega
  unfold Scanner.load
  by_cases hempty : s.work.length = 0
  · rw [if_pos hempty]
    exact hmoved s.workBase s.cursor chunk rfl (by omega)
  · rw [if_neg hempty]
    by_cases hread : s.cursor ≥ s.work.length
    · rw [if_pos hread]
      exact hmoved (s.workBase + s.work.length) 0 chunk (by omega) (Nat.zero_le _)
    · rw [if_neg hread]
      by_cases hpart : s.cursor > 0
      · rw [if_pos hpart]
        exact hmoved _ _ _ rfl (Nat.zero_le _)
      · rw [if_neg hpart]
        refine hmoved s.workBase s.cursor (s.work ++ chunk) rfl ?_
        rw [List.length_append]
        omega

end Placed

/-- **The records lie one behind the other**, whatever the chunks are. -/
theorem scanStep_inFileOrder (chunks : List (List UInt8)) : InFileOrder (scanStep chunks).entities := by
  have hstart : Placed Scanner.start :=
    ⟨⟨.nil, fun e he => absurd he List.not_mem_nil⟩, fun e he => absurd he List.not_mem_nil, Nat.le_refl _,
      Nat.le_refl _, fun _ cp hcp => (nomatch hcp), fun hne => absurd rfl hne⟩
  have hchunks : ∀ {s : Scanner}, Placed s → Placed (chunks.foldl Scanner.onData s) := by
    induction chunks with
    | nil => exact fun h => h
    | cons chunk chunks ih => exact fun h => ih ((h.load chunk).scanLoop _)
  have h := hchunks hstart
  unfold scanStep
  generalize chunks.foldl Scanner.onData Scanner.start = s at h
  have hcursor := h.cursor
  unfold Scanner.onEnd
  by_cases hnone : s.segChunks = []
  · rw [if_pos hnone]
    exact h.order
  · rw [if_neg hnone]
    have hlt := h.chunks hnone
    dsimp only
    split
    case isTrue => exact h.order
    case isFalse => exact (h.order.handleSegment h.before (by omega) _).1

end PlmCore.CadParser
