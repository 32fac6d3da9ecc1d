/-
`ConvertPool`: the worker threads of cad-parser that convert parts.

A call of `run` makes a task and a promise for it. Tasks wait in a queue until a worker is idle, and
the callbacks of a worker settle the promise of the task the worker had. Between events every live
worker that has no task is idle, and every promise is settled, or its task is with one live worker or
in the queue. Two events break this: a worker that ends without an error event, for which there is no
callback, and a failure without a text, which the callback takes for a result.
-/
import Mathlib.Data.List.Nodup
import Mathlib.Data.List.Perm.Basic
import Mathlib.Logic.Function.Basic
import PlmCore.Lib.Run

set_option autoImplicit false

namespace PlmCore.CadParser

open Lib

/-! ## The pool -/

/-- A task of the queue: the call of `run` whose promise it settles, and what is to be converted. -/
structure Task (Buffer : Type) where
  call : Nat
  stepBuffer : Buffer

/-- What `worker-convert.js` posts for a task: a binary glTF with the number of its meshes, or the
message of what was thrown, if that has one. -/
inductive Message (Glb : Type)
  | converted (glb : Glb) (meshCount : Nat)
  | failed (error : Option String)

/-- How a promise is settled. -/
inductive Outcome (Glb : Type)
  | resolved (glb : Glb) (meshCount : Nat)
  | rejected (error : Option String)
  deriving DecidableEq

/-- A promise settled with what a worker made of its task. -/
structure Settlement (Glb : Type) where
  call : Nat
  worker : Nat
  outcome : Outcome Glb
  deriving DecidableEq

variable {Buffer Glb : Type}

/-- What the worker makes of its task. -/
def Message.outcome : Message Glb → Outcome Glb
  | converted glb meshCount => .resolved glb meshCount
  | failed error => .rejected error

/-- What the callback settles the promise with: a failure counts when its text is not empty, and what
does not count is read as a result. Where that has no bytes, `Buffer.from` throws. -/
def Message.read : Message Glb → Option (Outcome Glb)
  | converted glb meshCount => some (.resolved glb meshCount)
  | failed (some error) => if error = "" then none else some (.rejected (some error))
  | failed none => none

/-- What the callback settles the promise with is what the worker made of the task. -/
theorem Message.read_eq {msg : Message Glb} {outcome : Outcome Glb} (h : msg.read = some outcome) :
    outcome = msg.outcome := by
  cases msg with
  | converted glb meshCount => exact (Option.some.inj h).symm
  | failed error =>
    cases error with
    | none => exact nomatch h
    | some text =>
      change (if text = "" then none else some (Outcome.rejected (some text))) = some outcome at h
      split at h
      · cases h
      · exact (Option.some.inj h).symm

/-- The pool and its workers. Of the pool: the idle workers, the last one first, the queue, the task of
each worker, and the promises it settled. Of the workers: how many were started, which of them are
alive, and the tasks posted to each that it has not answered. The number of calls and the workers'
answers are history. -/
structure ConvertPool (Buffer Glb : Type) where
  idle : List Nat
  queue : List (Task Buffer)
  task : Nat → Option (Task Buffer)
  settled : List (Settlement Glb)
  spawned : Nat
  live : List Nat
  mail : Nat → List (Task Buffer)
  calls : Nat
  answers : List (Settlement Glb)

namespace ConvertPool

/-- `this.idle.push(this._spawn())`. -/
def spawnIdle (s : ConvertPool Buffer Glb) : ConvertPool Buffer Glb :=
  { s with
    idle := s.spawned :: s.idle
    spawned := s.spawned + 1
    live := s.spawned :: s.live }

/-- `new ConvertPool(size)`. -/
def start (Buffer Glb : Type) : Nat → ConvertPool Buffer Glb
  | 0 => ⟨[], [], fun _ => none, [], 0, [], fun _ => [], 0, []⟩
  | size + 1 => (start Buffer Glb size).spawnIdle

/-- A worker gets a task and its message. -/
def dispatch (s : ConvertPool Buffer Glb) (w : Nat) (t : Task Buffer) : ConvertPool Buffer Glb :=
  { s with
    task := Function.update s.task w (some t)
    mail := Function.update s.mail w (s.mail w ++ [t]) }

/-- The loop of `_pump`. -/
def pumpLoop : List Nat → List (Task Buffer) → ConvertPool Buffer Glb → ConvertPool Buffer Glb
  | w :: idle, t :: queue, s => pumpLoop idle queue (s.dispatch w t)
  | idle, queue, s => { s with idle := idle, queue := queue }

/-- `_pump`. -/
def pump (s : ConvertPool Buffer Glb) : ConvertPool Buffer Glb := pumpLoop s.idle s.queue s

/-- `run`. -/
def run (s : ConvertPool Buffer Glb) (stepBuffer : Buffer) : ConvertPool Buffer Glb :=
  pump { s with queue := s.queue ++ [⟨s.calls, stepBuffer⟩], calls := s.calls + 1 }

/-- The callback for `message`. -/
def onMessage (s : ConvertPool Buffer Glb) (w : Nat) (msg : Message Glb) : ConvertPool Buffer Glb :=
  let freed := { s with task := Function.update s.task w none, idle := w :: s.idle }
  match s.task w with
  | none => freed.pump
  | some t =>
    match msg.read with
    | some outcome => pump { freed with settled := s.settled ++ [⟨t.call, w, outcome⟩] }
    | none => freed

/-- The callback for `error`. -/
def onError (s : ConvertPool Buffer Glb) (w : Nat) (err : String) : ConvertPool Buffer Glb :=
  let failed : ConvertPool Buffer Glb := match s.task w with
    | some t => { s with
        settled := s.settled ++ [⟨t.call, w, .rejected (some err)⟩]
        task := Function.update s.task w none }
    | none => s
  pump (spawnIdle { failed with idle := failed.idle.erase w })

/-! ## Events -/

/-- The worker ends: what it had to do is answered with the failure. -/
def stop (s : ConvertPool Buffer Glb) (w : Nat) (error : Option String) : ConvertPool Buffer Glb :=
  { s with
    live := s.live.erase w
    mail := Function.update s.mail w []
    answers := s.answers ++ (s.mail w).map fun t => Settlement.mk t.call w (.rejected error) }

/-- The worker posts what it has made of the first of its tasks. -/
def answer (s : ConvertPool Buffer Glb) (w : Nat) (msg : Message Glb) : ConvertPool Buffer Glb :=
  { s with
    mail := Function.update s.mail w (s.mail w).tail
    answers := s.answers ++ (s.mail w).head?.toList.map fun t => Settlement.mk t.call w msg.outcome }

inductive Event (Buffer Glb : Type)
  | run (stepBuffer : Buffer)
  | message (w : Nat) (msg : Message Glb)
  | error (w : Nat) (err : String)
  | exit (w : Nat)

/-- An event. A worker that does not live reports nothing, and one that has no task posts nothing; the
exit of a worker after its error is of the first kind. No callback is set for an exit. -/
def step (s : ConvertPool Buffer Glb) : Event Buffer Glb → ConvertPool Buffer Glb
  | .run stepBuffer => s.run stepBuffer
  | .message w msg => if w ∈ s.live ∧ s.mail w ≠ [] then (s.answer w msg).onMessage w msg else s
  | .error w err => if w ∈ s.live then (s.stop w (some err)).onError w err else s
  | .exit w => if w ∈ s.live then s.stop w none else s

/-- The tasks the live workers have. -/
def working (s : ConvertPool Buffer Glb) : List (Task Buffer) := s.live.flatMap s.mail

/-- The calls of `run` by where their tasks are. -/
def places (s : ConvertPool Buffer Glb) : List Nat :=
  s.settled.map Settlement.call ++ s.working.map Task.call ++ s.queue.map Task.call

/-- What the pool is for: as many workers live as it was made for, no task waits for an idle one,
exactly what the workers answered is what the promises are settled with, and every task is in one place. -/
structure Kept (size : Nat) (s : ConvertPool Buffer Glb) : Prop where
  live : s.live.length = size
  busy : s.queue ≠ [] → ∀ w ∈ s.live, s.mail w ≠ []
  settled : s.settled = s.answers
  once : s.places.Perm (List.range s.calls)

/-- The events the callbacks are ready for: no worker ends without an error, and no answer is a failure
without a text. -/
def Handled (s : ConvertPool Buffer Glb) : Event Buffer Glb → Prop
  | .message w msg => w ∈ s.live → s.mail w ≠ [] → msg.read ≠ none
  | .exit w => w ∉ s.live
  | _ => True

/-! ## What the callbacks keep -/

/-- Between events: a worker is idle exactly when it lives and has no task, what was posted to a live
worker is its task, and every promise is where the pool thinks it is. -/
structure Consistent (s : ConvertPool Buffer Glb) : Prop where
  live : s.live.Nodup
  spawned : ∀ w ∈ s.live, w < s.spawned
  fresh : ∀ w, s.spawned ≤ w → s.task w = none ∧ s.mail w = []
  nodup : s.idle.Nodup
  idle : ∀ w, w ∈ s.idle ↔ w ∈ s.live ∧ s.task w = none
  mail : ∀ w ∈ s.live, s.mail w = (s.task w).toList
  settled : s.settled = s.answers
  once : s.places.Perm (List.range s.calls)

/-- The tasks of the live workers, when those of one of them are replaced. -/
theorem flatMap_update_perm {live : List Nat} (hlive : live.Nodup) {w : Nat} (hw : w ∈ live)
    (mail : Nat → List (Task Buffer)) (ts : List (Task Buffer)) :
    (live.flatMap (Function.update mail w ts)).Perm (ts ++ (live.erase w).flatMap mail) := by
  have hothers : (live.erase w).flatMap (Function.update mail w ts) = (live.erase w).flatMap mail :=
    List.flatMap_congr fun v hv => Function.update_of_ne (hlive.mem_erase_iff.mp hv).1 ts mail
  have hperm := (List.perm_cons_erase hw).flatMap_right (Function.update mail w ts)
  rwa [List.flatMap_cons, Function.update_self, hothers] at hperm

/-- The tasks of the live workers, those of one of them first. -/
theorem working_perm {s : ConvertPool Buffer Glb} (h : s.Consistent) {w : Nat} (hw : w ∈ s.live) :
    s.working.Perm (s.mail w ++ (s.live.erase w).flatMap s.mail) := by
  have hperm := flatMap_update_perm h.live hw s.mail (s.mail w)
  rwa [Function.update_eq_self] at hperm

theorem Consistent.spawnIdle {s : ConvertPool Buffer Glb} (h : s.Consistent) :
    s.spawnIdle.Consistent := by
  have hnew : s.spawned ∉ s.live := fun hmem => Nat.lt_irrefl _ (h.spawned _ hmem)
  have hidle : s.spawned ∉ s.idle := fun hmem => hnew ((h.idle _).mp hmem).1
  refine ⟨List.nodup_cons.mpr ⟨hnew, h.live⟩, ?_, ?_, List.nodup_cons.mpr ⟨hidle, h.nodup⟩, ?_, ?_,
    h.settled, ?_⟩
  · intro w hw
    obtain rfl | hw := List.mem_cons.mp hw
    · exact Nat.lt_succ_self _
    · exact Nat.lt_succ_of_lt (h.spawned w hw)
  · intro w hw
    exact h.fresh w (Nat.le_of_succ_le hw)
  · intro w
    have hfresh := (h.fresh s.spawned (Nat.le_refl _)).1
    change w ∈ s.spawned :: s.idle ↔ w ∈ s.spawned :: s.live ∧ s.task w = none
    rw [List.mem_cons, List.mem_cons, h.idle, or_and_right]
    refine or_congr ⟨fun heq => ⟨heq, heq ▸ hfresh⟩, And.left⟩ Iff.rfl
  · intro w hw
    obtain rfl | hw := List.mem_cons.mp hw
    · change s.mail s.spawned = (s.task s.spawned).toList
      rw [(h.fresh _ (Nat.le_refl _)).1, (h.fresh _ (Nat.le_refl _)).2]
      rfl
    · exact h.mail w hw
  · have hworking : s.spawnIdle.working = s.working := by
      change (s.spawned :: s.live).flatMap s.mail = s.live.flatMap s.mail
      rw [List.flatMap_cons, (h.fresh _ (Nat.le_refl _)).2, List.nil_append]
    unfold places
    rw [hworking]
    exact h.once

theorem Consistent.dispatch {s : ConvertPool Buffer Glb} {w : Nat} {idle : List Nat} {t : Task Buffer}
    {queue : List (Task Buffer)} (h : { s with idle := w :: idle, queue := t :: queue }.Consistent) :
    { s.dispatch w t with idle := idle, queue := queue }.Consistent := by
  obtain ⟨hlive, hnone⟩ := (h.idle w).mp List.mem_cons_self
  obtain ⟨hout, hnodup⟩ := List.nodup_cons.mp h.nodup
  have hempty : s.mail w = [] := by
    have hmail := h.mail w hlive
    rwa [hnone] at hmail
  refine ⟨h.live, h.spawned, ?_, hnodup, ?_, ?_, h.settled, ?_⟩
  · intro v hv
    have hne : v ≠ w := fun heq => Nat.lt_irrefl _ (Nat.lt_of_lt_of_le (heq ▸ h.spawned w hlive) hv)
    refine ⟨(Function.update_of_ne hne ..).trans (h.fresh v hv).1, ?_⟩
    exact (Function.update_of_ne hne ..).trans (h.fresh v hv).2
  · intro v
    change v ∈ idle ↔ v ∈ s.live ∧ Function.update s.task w (some t) v = none
    by_cases heq : v = w
    · subst heq
      rw [Function.update_self]
      exact iff_of_false hout fun hboth => nomatch hboth.2
    · rw [Function.update_of_ne heq, ← h.idle v, List.mem_cons]
      exact (or_iff_right heq).symm
  · intro v hv
    change Function.update s.mail w (s.mail w ++ [t]) v = (Function.update s.task w (some t) v).toList
    by_cases heq : v = w
    · subst heq
      rw [Function.update_self, Function.update_self, hempty]
      rfl
    · rw [Function.update_of_ne heq, Function.update_of_ne heq]
      exact h.mail v hv
  · -- the task goes from the queue to the worker
    have hbefore := working_perm h hlive
    have hafter := flatMap_update_perm h.live hlive s.mail (s.mail w ++ [t])
    have hworking : (s.live.flatMap (Function.update s.mail w (s.mail w ++ [t]))).Perm
        (t :: s.working) := by
      refine hafter.trans ?_
      rw [hempty, List.nil_append, List.singleton_append]
      refine List.Perm.cons t ?_
      have hrest : s.working.Perm (s.mail w ++ (s.live.erase w).flatMap s.mail) := hbefore
      rw [hempty, List.nil_append] at hrest
      exact hrest.symm
    have honce : (s.settled.map Settlement.call ++ s.working.map Task.call ++
        (t :: queue).map Task.call).Perm (List.range s.calls) := h.once
    refine List.Perm.trans ?_ honce
    change (s.settled.map Settlement.call ++
      (s.live.flatMap (Function.update s.mail w (s.mail w ++ [t]))).map Task.call ++
      queue.map Task.call).Perm _
    refine (((hworking.map Task.call).append_left _).append_right _).trans ?_
    simp only [List.map_cons, List.append_assoc, List.cons_append]
    exact (List.perm_middle.symm).append_left _

/-- The pump leaves either no task or no idle worker. -/
theorem pumpLoop_spec (idle : List Nat) (queue : List (Task Buffer)) (s : ConvertPool Buffer Glb)
    (h : { s with idle := idle, queue := queue }.Consistent) :
    (pumpLoop idle queue s).Consistent ∧ (pumpLoop idle queue s).live = s.live ∧
      ((pumpLoop idle queue s).queue = [] ∨ (pumpLoop idle queue s).idle = []) := by
  induction idle generalizing queue s with
  | nil =>
    unfold pumpLoop
    exact ⟨h, rfl, .inr rfl⟩
  | cons w idle ih =>
    cases queue with
    | nil =>
      unfold pumpLoop
      exact ⟨h, rfl, .inl rfl⟩
    | cons t queue => exact ih queue (s.dispatch w t) h.dispatch

/-- The states between events. -/
structure Ready (size : Nat) (s : ConvertPool Buffer Glb) : Prop where
  consistent : s.Consistent
  size : s.live.length = size
  pumped : s.queue = [] ∨ s.idle = []

theorem Consistent.pump {s : ConvertPool Buffer Glb} (h : s.Consistent) :
    s.pump.Ready s.live.length := by
  obtain ⟨hconsistent, hlive, hpumped⟩ := pumpLoop_spec s.idle s.queue s h
  exact ⟨hconsistent, congrArg List.length hlive, hpumped⟩

theorem ready_start (size : Nat) : (start Buffer Glb size).Ready size := by
  induction size with
  | zero =>
    refine ⟨⟨List.nodup_nil, ?_, fun _ _ => ⟨rfl, rfl⟩, List.nodup_nil, ?_, ?_, rfl, ?_⟩, rfl, .inl rfl⟩
    · exact fun w hw => nomatch hw
    · exact fun w => iff_of_false List.not_mem_nil fun h => List.not_mem_nil h.1
    · exact fun w hw => nomatch hw
    · exact List.Perm.refl _
  | succ size ih =>
    refine ⟨ih.consistent.spawnIdle, congrArg Nat.succ ih.size, .inl ?_⟩
    have hqueue : ∀ n, (start Buffer Glb n).queue = [] := by
      intro n
      induction n with
      | zero => rfl
      | succ n ih => exact ih
    exact hqueue (size + 1)

theorem Ready.kept {size : Nat} {s : ConvertPool Buffer Glb} (h : s.Ready size) : s.Kept size := by
  refine ⟨h.size, fun hqueue w hw hmail => ?_, h.consistent.settled, h.consistent.once⟩
  have hidle := h.pumped.resolve_left hqueue
  have htask : s.task w = none := Option.toList_eq_nil_iff.mp ((h.consistent.mail w hw).symm.trans hmail)
  have hmem := (h.consistent.idle w).mpr ⟨hw, htask⟩
  rw [hidle] at hmem
  exact List.not_mem_nil hmem

/-! ## One event -/

theorem Ready.run {size : Nat} {s : ConvertPool Buffer Glb} (h : s.Ready size) (stepBuffer : Buffer) :
    (s.run stepBuffer).Ready size := by
  have hqueued : Consistent
      { s with queue := s.queue ++ [⟨s.calls, stepBuffer⟩], calls := s.calls + 1 } := by
    refine { h.consistent with once := ?_ }
    change (s.settled.map Settlement.call ++ s.working.map Task.call ++
      (s.queue ++ [Task.mk s.calls stepBuffer]).map Task.call).Perm (List.range (s.calls + 1))
    rw [List.map_append, ← List.append_assoc, List.range_succ]
    exact h.consistent.once.append_right _
  exact h.size ▸ hqueued.pump

theorem mail_of_task {s : ConvertPool Buffer Glb} (h : s.Consistent) {w : Nat} (hw : w ∈ s.live)
    (hmail : s.mail w ≠ []) : ∃ t, s.task w = some t ∧ s.mail w = [t] := by
  have heq := h.mail w hw
  cases htask : s.task w with
  | none =>
    rw [htask] at heq
    exact absurd heq hmail
  | some t =>
    rw [htask] at heq
    exact ⟨t, rfl, heq⟩

/-- A worker that is rid of its task is idle. -/
theorem Consistent.freed {s : ConvertPool Buffer Glb} (h : s.Consistent) {w : Nat} (hw : w ∈ s.live)
    {t : Task Buffer} (htask : s.task w = some t) (outcome : Outcome Glb) :
    Consistent { s with
      task := Function.update s.task w none
      mail := Function.update s.mail w []
      idle := w :: s.idle
      settled := s.settled ++ [⟨t.call, w, outcome⟩]
      answers := s.answers ++ [⟨t.call, w, outcome⟩] } := by
  have hmail : s.mail w = [t] := (h.mail w hw).trans (congrArg Option.toList htask)
  have hout : w ∉ s.idle := fun hmem => by
    have hnone := ((h.idle w).mp hmem).2
    rw [htask] at hnone
    cases hnone
  refine ⟨h.live, h.spawned, ?_, List.nodup_cons.mpr ⟨hout, h.nodup⟩, ?_, ?_, ?_, ?_⟩
  · intro v hv
    have hne : v ≠ w := fun heq => Nat.lt_irrefl _ (Nat.lt_of_lt_of_le (heq ▸ h.spawned w hw) hv)
    refine ⟨(Function.update_of_ne hne ..).trans (h.fresh v hv).1, ?_⟩
    exact (Function.update_of_ne hne ..).trans (h.fresh v hv).2
  · intro v
    change v ∈ w :: s.idle ↔ v ∈ s.live ∧ Function.update s.task w none v = none
    by_cases heq : v = w
    · subst heq
      exact iff_of_true List.mem_cons_self ⟨hw, Function.update_self ..⟩
    · rw [Function.update_of_ne heq, ← h.idle v, List.mem_cons, or_iff_right heq]
  · intro v hv
    change Function.update s.mail w [] v = (Function.update s.task w none v).toList
    by_cases heq : v = w
    · subst heq
      rw [Function.update_self, Function.update_self]
      rfl
    · rw [Function.update_of_ne heq, Function.update_of_ne heq]
      exact h.mail v hv
  · change s.settled ++ _ = s.answers ++ _
    rw [h.settled]
  · -- the task goes from the worker to the settled ones
    have hbefore := working_perm h hw
    rw [hmail, List.singleton_append] at hbefore
    have hafter := flatMap_update_perm h.live hw s.mail []
    rw [List.nil_append] at hafter
    have hworking : s.working.Perm (t :: s.live.flatMap (Function.update s.mail w [])) :=
      hbefore.trans (hafter.symm.cons t)
    refine List.Perm.trans ?_ h.once
    change ((s.settled ++ [Settlement.mk t.call w outcome]).map Settlement.call ++
      (s.live.flatMap (Function.update s.mail w [])).map Task.call ++ s.queue.map Task.call).Perm
      (s.settled.map Settlement.call ++ s.working.map Task.call ++ s.queue.map Task.call)
    refine List.Perm.append_right _ ?_
    rw [List.map_append, List.append_assoc]
    exact ((hworking.map Task.call).symm).append_left _

/-- An idle worker that is gone. -/
theorem Consistent.lost {s : ConvertPool Buffer Glb} (h : s.Consistent) {w : Nat} (hw : w ∈ s.live)
    (hmail : s.mail w = []) :
    Consistent { s with live := s.live.erase w, idle := s.idle.erase w } := by
  refine ⟨h.live.erase w, fun v hv => h.spawned v (List.mem_of_mem_erase hv), h.fresh, h.nodup.erase w, ?_,
    fun v hv => h.mail v (List.mem_of_mem_erase hv), h.settled, ?_⟩
  · intro v
    change v ∈ s.idle.erase w ↔ v ∈ s.live.erase w ∧ s.task v = none
    rw [h.nodup.mem_erase_iff, h.live.mem_erase_iff, h.idle v, and_assoc]
  · have hworking := working_perm h hw
    rw [hmail, List.nil_append] at hworking
    refine List.Perm.trans ?_ h.once
    exact (((hworking.symm.map Task.call).append_left _).append_right _)

theorem Ready.message {size : Nat} {s : ConvertPool Buffer Glb} (h : s.Ready size) {w : Nat}
    (hw : w ∈ s.live) (hmail : s.mail w ≠ []) {msg : Message Glb} (hread : msg.read ≠ none) :
    ((s.answer w msg).onMessage w msg).Ready size := by
  obtain ⟨t, htask, hone⟩ := mail_of_task h.consistent hw hmail
  obtain ⟨outcome, houtcome⟩ := Option.ne_none_iff_exists'.mp hread
  have heq := Message.read_eq houtcome
  have hfreed := (h.consistent.freed hw htask outcome).pump
  have hstep : (s.answer w msg).onMessage w msg = ConvertPool.pump { s with
      task := Function.update s.task w none
      mail := Function.update s.mail w []
      idle := w :: s.idle
      settled := s.settled ++ [⟨t.call, w, outcome⟩]
      answers := s.answers ++ [⟨t.call, w, outcome⟩] } := by
    have htask' : (s.answer w msg).task w = some t := htask
    unfold onMessage
    rw [htask', houtcome, heq]
    unfold answer
    rw [hone]
    rfl
  rw [hstep]
  exact h.size ▸ hfreed

theorem Ready.error {size : Nat} {s : ConvertPool Buffer Glb} (h : s.Ready size) {w : Nat}
    (hw : w ∈ s.live) (err : String) : ((s.stop w (some err)).onError w err).Ready size := by
  have hlength : (s.live.erase w).length + 1 = size := by
    rw [List.length_erase_of_mem hw, ← h.size]
    exact Nat.sub_add_cancel (List.length_pos_of_mem hw)
  cases htask : s.task w with
  | none =>
    have hmail : s.mail w = [] := (h.consistent.mail w hw).trans (congrArg Option.toList htask)
    have hlost := (h.consistent.lost hw hmail).spawnIdle.pump
    have hstep : (s.stop w (some err)).onError w err = ConvertPool.pump (ConvertPool.spawnIdle
        { s with live := s.live.erase w, idle := s.idle.erase w }) := by
      have htask' : (s.stop w (some err)).task w = none := htask
      have hsame : Function.update s.mail w [] = s.mail := by
        rw [← hmail, Function.update_eq_self]
      unfold onError
      rw [htask']
      unfold stop
      rw [hmail, hsame, List.map_nil, List.append_nil]
    rw [hstep, ← hlength]
    exact hlost
  | some t =>
    have hmail : s.mail w = [t] := (h.consistent.mail w hw).trans (congrArg Option.toList htask)
    -- freed of its task, the worker is an idle one that is gone
    have hfreed := h.consistent.freed hw htask (.rejected (some err))
    have hout : w ∉ s.idle := fun hmem => by
      have hnone := ((h.consistent.idle w).mp hmem).2
      rw [htask] at hnone
      cases hnone
    have hlost := (hfreed.lost hw (Function.update_self ..)).spawnIdle.pump
    have hstep : (s.stop w (some err)).onError w err = ConvertPool.pump (ConvertPool.spawnIdle { s with
        task := Function.update s.task w none
        mail := Function.update s.mail w []
        live := s.live.erase w
        idle := (w :: s.idle).erase w
        settled := s.settled ++ [⟨t.call, w, .rejected (some err)⟩]
        answers := s.answers ++ [⟨t.call, w, .rejected (some err)⟩] }) := by
      have htask' : (s.stop w (some err)).task w = some t := htask
      unfold onError
      rw [htask', List.erase_cons_head]
      unfold stop
      rw [hmail]
      simp only [List.map_cons, List.map_nil, List.erase_of_not_mem hout]
    rw [hstep, ← hlength]
    exact hlost

/-- **The step lemma.** -/
theorem Ready.step {size : Nat} {s : ConvertPool Buffer Glb} (h : s.Ready size)
    {e : Event Buffer Glb} (he : s.Handled e) : (s.step e).Ready size := by
  cases e with
  | run stepBuffer => exact h.run stepBuffer
  | message w msg =>
    by_cases hposts : w ∈ s.live ∧ s.mail w ≠ []
    · have hstep : s.step (.message w msg) = (s.answer w msg).onMessage w msg := if_pos hposts
      rw [hstep]
      exact h.message hposts.1 hposts.2 (he hposts.1 hposts.2)
    · have hstep : s.step (.message w msg) = s := if_neg hposts
      rwa [hstep]
  | error w err =>
    by_cases hw : w ∈ s.live
    · have hstep : s.step (.error w err) = (s.stop w (some err)).onError w err := if_pos hw
      rw [hstep]
      exact h.error hw err
    · have hstep : s.step (.error w err) = s := if_neg hw
      rwa [hstep]
  | exit w =>
    have hstep : s.step (.exit w) = s := if_neg he
    rwa [hstep]

/-- A worker that ends without an error is not replaced, and a failure without a text settles no promise. -/
theorem Ready.not_kept {size : Nat} {s : ConvertPool Buffer Glb} (h : s.Ready size)
    {e : Event Buffer Glb} (he : ¬ s.Handled e) : ¬ (s.step e).Kept size := by
  intro hkept
  cases e with
  | run stepBuffer => exact he trivial
  | error w err => exact he trivial
  | exit w =>
    have hw : w ∈ s.live := not_not.mp he
    have hstep : s.step (.exit w) = s.stop w none := if_pos hw
    have hlive : (s.live.erase w).length = size := (hstep ▸ hkept).live
    have hless : (s.live.erase w).length < s.live.length :=
      List.length_erase_of_mem hw ▸ Nat.sub_lt (List.length_pos_of_mem hw) Nat.one_pos
    rw [h.size] at hless
    exact Nat.ne_of_lt hless hlive
  | message w msg =>
    obtain ⟨hw, hmail, hread⟩ : w ∈ s.live ∧ s.mail w ≠ [] ∧ msg.read = none := by
      simpa [Handled] using he
    obtain ⟨t, htask, hone⟩ := mail_of_task h.consistent hw hmail
    have hstep : s.step (.message w msg) = (s.answer w msg).onMessage w msg := if_pos ⟨hw, hmail⟩
    have hsettled := (hstep ▸ hkept).settled
    have htask' : (s.answer w msg).task w = some t := htask
    unfold onMessage at hsettled
    rw [htask', hread] at hsettled
    have hanswers : s.settled = s.answers ++ [⟨t.call, w, msg.outcome⟩] := by
      unfold answer at hsettled
      rwa [hone] at hsettled
    rw [h.consistent.settled] at hanswers
    exact absurd hanswers (by simp)

/-! ## Runs -/

/-- **The pool keeps its tasks apart** in every state of a run exactly when no worker of the run ends
without an error and none answers with a failure that has no text. -/
theorem pool_keeps_tasks_iff (size : Nat) (events : List (Event Buffer Glb)) :
    (∀ past, past <+: events → (Lib.run step (start Buffer Glb size) past).Kept size) ↔
      Along step Handled (start Buffer Glb size) events :=
  have hkept : ∀ s : ConvertPool Buffer Glb, s.Ready size → s.Kept size := fun _ h => h.kept
  Along.iff_of_invariant hkept (fun _ _ h he => h.step he) (fun _ _ h he => h.not_kept he)
    (ready_start size) events

/-- A worker that exits with the only task is not replaced, and the promise stays open. -/
theorem exited_worker_is_not_replaced : ¬ ∀ (size : Nat) (events : List (Event Unit Unit)),
    (Lib.run step (start Unit Unit size) events).Kept size := by
  intro hall
  have hkept := hall 1 [.run (), .exit 0]
  exact absurd hkept.live (by decide)

/-- Once no worker has anything left to do, every promise is settled once. -/
theorem Kept.all_settled {size : Nat} {s : ConvertPool Buffer Glb} (h : s.Kept size) (hsize : 0 < size)
    (hdone : ∀ w ∈ s.live, s.mail w = []) :
    (s.settled.map Settlement.call).Perm (List.range s.calls) := by
  obtain ⟨w, hw⟩ := List.exists_mem_of_length_pos (h.live.symm ▸ hsize)
  have hqueue : s.queue = [] := not_not.mp fun hne => h.busy hne w hw (hdone w hw)
  have hworking : s.working = [] := List.flatMap_eq_nil_iff.mpr hdone
  have honce := h.once
  unfold places at honce
  simpa only [hqueue, hworking, List.map_nil, List.append_nil] using honce

end ConvertPool
end PlmCore.CadParser
