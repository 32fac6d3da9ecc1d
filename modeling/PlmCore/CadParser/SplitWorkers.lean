/-
The second pass of `/split`: the jobs of the parts, their distribution to worker threads, and the files.

A small file is written by the main thread, part after part. Otherwise the parts are shared out to workers,
the largest first and each to the worker that has the fewest records, and the workers write their parts at
the same time. Each part has a file of its own, so the order in which the steps of the workers come makes no
difference: when all workers are done the directory holds what the main thread would have written.
-/
import Mathlib.Data.List.GetD
import PlmCore.CadParser.SplitParts
import PlmCore.Lib.Interleaving
import PlmCore.Lib.ListScheduling

set_option autoImplicit false

namespace PlmCore.CadParser

open PlmCore.Lib

attribute [local instance] instLawfulBEqId

/-! ## The jobs and the workers they go to -/

/-- An element of `partJobs`: the number of the part, and its byte ranges. -/
structure PartJob where
  partIndex : Nat
  ranges : List ByteRange
  deriving DecidableEq

/-- `count`. -/
def PartJob.count (job : PartJob) : Nat := job.ranges.length

/-- `partJobs`, from the closures of the parts. -/
def partJobs (es : List ScannedEntity) (closures : List (List Id)) : List PartJob :=
  closures.zipIdx.map fun part => ⟨part.2, partRanges es part.1⟩

/-- `PARALLEL_PASS2_THRESHOLD`. -/
def parallelThreshold : Nat := 200000

/-- The main thread writes the parts itself. -/
def writesInline (es : List ScannedEntity) (jobs : List PartJob) : Bool :=
  decide ((entityIds es).length < parallelThreshold) || decide (jobs.length < 2)

/-- `buckets`: the parts in the order of their sizes, each given to the first worker with the least load.
Where the machine reports no processor there is no bucket, and `reduce` throws. -/
def partBuckets (cpus : Nat) (jobs : List PartJob) : Option (List (Bucket PartJob)) :=
  shareOut PartJob.count (List.replicate (min cpus jobs.length) ⟨0, []⟩)
    (jobs.insertionSort fun a b => b.count ≤ a.count)

/-- The parts of the workers that are started: a bucket without parts has none. -/
def startedWorkers (buckets : List (Bucket PartJob)) : List (List PartJob) :=
  (buckets.map Bucket.items).filter fun parts => !parts.isEmpty

/-! ## What a worker does -/

/-- A worker: it takes its next part or is done, or is at the runs of a part, or has failed. -/
inductive SplitWorker
  | next (parts : List PartJob)
  | writing (partIndex : Nat) (ws : PartWriter) (runs : List ByteRun) (parts : List PartJob)
  | failed

def SplitWorker.isFailed : SplitWorker → Bool
  | .failed => true
  | _ => false

/-- The worker has posted `done`. -/
def SplitWorker.isDone : SplitWorker → Bool
  | .next [] => true
  | _ => false

/-- A worker goes on, or something it calls fails. -/
inductive WorkerEvent
  | proceed
  | fail
  deriving DecidableEq

/-- The runs of a part. -/
def PartJob.runs (job : PartJob) : List ByteRun :=
  (job.ranges.insertionSort fun a b => a.offset ≤ b.offset).foldl coalesceStep []

/-- The next state of a worker, which is in `writePart` or between two calls of it. -/
def SplitWorker.step (fileBuf headerSection : List UInt8) : SplitWorker → WorkerEvent → SplitWorker
  | .next [], _ => .next []
  | .failed, _ => .failed
  | _, .fail => .failed
  | .next (job :: parts), .proceed =>
    .writing job.partIndex (PartWriter.push ⟨[], 0, []⟩ (partHead headerSection)) job.runs parts
  | .writing partIndex ws (r :: runs) parts, .proceed => .writing partIndex (ws.pushRun fileBuf r) runs parts
  | .writing _ _ [] parts, .proceed => .next parts

/-- The file of a part is made empty, grows, and is whole with the last step of `writePart`. -/
def SplitWorker.write (fileBuf : List UInt8) : SplitWorker → WorkerEvent → Option (Nat × Option (List UInt8))
  | .next (job :: _), .proceed => some (job.partIndex, some [])
  | .writing partIndex ws (r :: _) _, .proceed => some (partIndex, some (ws.pushRun fileBuf r).written)
  | .writing partIndex ws [] _, .proceed => some (partIndex, some (ws.push partEnd).flush.written)
  | _, _ => none

/-- A worker thread, and the files of the job directory. -/
def splitProcess (fileBuf headerSection : List UInt8) :
    Process SplitWorker WorkerEvent Nat (Option (List UInt8)) where
  next := SplitWorker.step fileBuf headerSection
  write := SplitWorker.write fileBuf

/-- All workers at their start, and an empty job directory. -/
def startSplit (workers : List (List PartJob)) : Joint Nat SplitWorker Nat (Option (List UInt8)) where
  states i := .next (workers.getD i [])
  store _ := none

/-- `Promise.all`: it is rejected when a worker fails and resolved when all are done. -/
def allSettled (workers : Nat) (states : Nat → SplitWorker) : Option Bool :=
  if (List.range workers).any fun i => (states i).isFailed then some false
  else if (List.range workers).all fun i => (states i).isDone then some true
  else none

/-- `writeParts` on the main thread: the files of the parts, one after the other. -/
def writeParts (fileBuf headerSection : List UInt8) (files : Nat → Option (List UInt8)) (jobs : List PartJob) :
    Nat → Option (List UInt8) :=
  jobs.foldl (fun files job =>
    Function.update files job.partIndex (some (writePart fileBuf headerSection job.ranges))) files

/-- Pass 2: how it ends, and the files of the job directory. Of the workers, `steps` are taken. -/
def passTwo (cpus : Nat) (es : List ScannedEntity) (jobs : List PartJob) (fileBuf headerSection : List UInt8)
    (steps : List (Nat × WorkerEvent)) : Option (Option Bool × (Nat → Option (List UInt8))) :=
  if writesInline es jobs then some (some true, writeParts fileBuf headerSection (fun _ => none) jobs)
  else (partBuckets cpus jobs).map fun buckets =>
    let workers := startedWorkers buckets
    let s := run (splitProcess fileBuf headerSection).joint (startSplit workers) steps
    (allSettled workers.length s.states, s.store)

/-! ## A worker alone -/

section Alone

variable {fileBuf headerSection : List UInt8}

/-- The files as a worker will leave them if it does not fail. -/
def SplitWorker.complete (fileBuf headerSection : List UInt8) (files : Nat → Option (List UInt8)) :
    SplitWorker → Nat → Option (List UInt8)
  | .next parts => writeParts fileBuf headerSection files parts
  | .writing partIndex ws runs parts => writeParts fileBuf headerSection (Function.update files partIndex
      (some (((runs.foldl (PartWriter.pushRun fileBuf) ws).push partEnd).flush.written))) parts
  | .failed => files

/-- The parts a worker has before it. -/
def SplitWorker.ahead : SplitWorker → List Nat
  | .next parts => parts.map PartJob.partIndex
  | .writing partIndex _ _ parts => partIndex :: parts.map PartJob.partIndex
  | .failed => []

/-- The steps a worker has before it. -/
def SplitWorker.stepsLeft : SplitWorker → Nat
  | .next parts => (parts.map fun job => job.runs.length + 2).sum
  | .writing _ _ runs parts => runs.length + 1 + (parts.map fun job => job.runs.length + 2).sum
  | .failed => 0

/-- **One step of a worker** that goes on: the files it will leave stay the same. -/
theorem complete_step (files : Nat → Option (List UInt8)) (w : SplitWorker) :
    (w.step fileBuf headerSection .proceed).complete fileBuf headerSection
      (writeCell files (w.write fileBuf .proceed)) = w.complete fileBuf headerSection files := by
  match w with
  | .next [] => rfl
  | .failed => rfl
  | .next (job :: parts) =>
    simp only [SplitWorker.step, SplitWorker.write, SplitWorker.complete, writeCell, Function.update_idem]
    rfl
  | .writing partIndex ws (r :: runs) parts =>
    simp only [SplitWorker.step, SplitWorker.write, SplitWorker.complete, writeCell, Function.update_idem,
      List.foldl_cons]
  | .writing partIndex ws [] parts => rfl

/-- A step writes one of the parts before the worker, and none is added. -/
theorem step_ahead (w : SplitWorker) (e : WorkerEvent) :
    (∀ k v, w.write fileBuf e = some (k, v) → k ∈ w.ahead) ∧ (w.step fileBuf headerSection e).ahead ⊆ w.ahead := by
  match w, e with
  | .next [], .proceed | .next [], .fail | .failed, .proceed | .failed, .fail =>
    exact ⟨fun k v h => absurd h (Option.some_ne_none _).symm, List.Subset.refl _⟩
  | .next (_ :: _), .fail | .writing _ _ (_ :: _) _, .fail | .writing _ _ [] _, .fail =>
    exact ⟨fun k v h => absurd h (Option.some_ne_none _).symm, List.nil_subset _⟩
  | .next (job :: parts), .proceed =>
    refine ⟨fun k v h => ?_, List.Subset.refl _⟩
    cases h
    exact List.mem_cons_self
  | .writing partIndex ws (r :: runs) parts, .proceed =>
    refine ⟨fun k v h => ?_, List.Subset.refl _⟩
    cases h
    exact List.mem_cons_self
  | .writing partIndex ws [] parts, .proceed =>
    refine ⟨fun k v h => ?_, List.subset_cons_self _ _⟩
    cases h
    exact List.mem_cons_self

/-- A worker that goes on has a step less before it, until it is done. -/
theorem stepsLeft_step (w : SplitWorker) :
    (w.step fileBuf headerSection .proceed).stepsLeft = w.stepsLeft - 1 := by
  match w with
  | .next [] => rfl
  | .failed => rfl
  | .next (job :: parts) =>
    simp only [SplitWorker.step, SplitWorker.stepsLeft, List.map_cons, List.sum_cons]
    omega
  | .writing partIndex ws (r :: runs) parts =>
    simp only [SplitWorker.step, SplitWorker.stepsLeft, List.length_cons]
    omega
  | .writing partIndex ws [] parts =>
    simp only [SplitWorker.step, SplitWorker.stepsLeft, List.length_nil]
    omega

theorem isDone_iff {w : SplitWorker} : w.isDone = true ↔ w = .next [] := by
  match w with
  | .next [] | .next (_ :: _) | .writing _ _ _ _ | .failed => simp [SplitWorker.isDone]

theorem isFailed_iff {w : SplitWorker} : w.isFailed = true ↔ w = .failed := by
  match w with
  | .next _ | .writing _ _ _ _ | .failed => simp [SplitWorker.isFailed]

theorem run_failed (es : List WorkerEvent) : run (SplitWorker.step fileBuf headerSection) .failed es = .failed := by
  induction es with
  | nil => rfl
  | cons e es ih => exact ih

/-- A step that is not the end of a worker that fails keeps what it will leave. -/
theorem complete_event (files : Nat → Option (List UInt8)) (w : SplitWorker) (e : WorkerEvent)
    (h : w.step fileBuf headerSection e ≠ .failed) :
    (w.step fileBuf headerSection e).complete fileBuf headerSection (writeCell files (w.write fileBuf e)) =
      w.complete fileBuf headerSection files := by
  match w, e with
  | w, .proceed => exact complete_step files w
  | .next [], .fail => rfl
  | .next (_ :: _), .fail | .writing _ _ (_ :: _) _, .fail | .writing _ _ [] _, .fail | .failed, .fail =>
    exact absurd rfl h

/-- **A worker alone** that is done has left all its parts. -/
theorem run_alone (w : SplitWorker) (files : Nat → Option (List UInt8)) (es : List WorkerEvent)
    (h : run (SplitWorker.step fileBuf headerSection) w es = .next []) :
    (run (splitProcess fileBuf headerSection).alone (w, files) es).2 = w.complete fileBuf headerSection files := by
  induction es generalizing w files with
  | nil =>
    obtain rfl : w = .next [] := h
    rfl
  | cons e es ih =>
    rw [run_cons] at h ⊢
    refine (ih _ _ h).trans (complete_event files w e fun hfailed => ?_)
    rw [hfailed, run_failed] at h
    cases h

/-- A worker that goes on does not fail. -/
theorem run_not_failed (w : SplitWorker) (hw : w.isFailed = false) (es : List WorkerEvent)
    (hes : ∀ e ∈ es, e = .proceed) : (run (SplitWorker.step fileBuf headerSection) w es).isFailed = false := by
  induction es generalizing w with
  | nil => exact hw
  | cons e es ih =>
    obtain ⟨rfl, hrest⟩ := List.forall_mem_cons.mp hes
    refine ih _ ?_ hrest
    match w with
    | .next [] | .next (_ :: _) | .writing _ _ (_ :: _) _ | .writing _ _ [] _ => rfl
    | .failed => cases hw

/-- A worker that goes on is done after the steps it has before it. -/
theorem run_proceed (w : SplitWorker) (hw : w.isFailed = false) (es : List WorkerEvent)
    (hes : ∀ e ∈ es, e = .proceed) (hlength : w.stepsLeft ≤ es.length) :
    run (SplitWorker.step fileBuf headerSection) w es = .next [] := by
  induction es generalizing w with
  | nil =>
    match w with
    | .next [] => rfl
    | .next (job :: parts) => simp [SplitWorker.stepsLeft] at hlength
    | .writing _ _ runs _ => simp [SplitWorker.stepsLeft] at hlength
    | .failed => cases hw
  | cons e es ih =>
    obtain ⟨rfl, hrest⟩ := List.forall_mem_cons.mp hes
    refine ih _ ?_ hrest ?_
    · match w with
      | .next [] | .next (_ :: _) | .writing _ _ (_ :: _) _ | .writing _ _ [] _ => rfl
      | .failed => cases hw
    · rw [stepsLeft_step]
      rw [List.length_cons] at hlength
      omega

theorem writesOnly_ahead (w : SplitWorker) (es : List WorkerEvent) :
    (splitProcess fileBuf headerSection).WritesOnly (· ∈ w.ahead) w es :=
  @Process.writesOnly_of_step _ _ _ _ (splitProcess fileBuf headerSection) (fun w k => k ∈ SplitWorker.ahead w)
    (fun w e => ⟨(@step_ahead fileBuf headerSection w e).1, fun _ hk => (step_ahead w e).2 hk⟩) w es

/-- A part that `writeParts` does not have keeps its file. -/
theorem writeParts_of_not_mem (files : Nat → Option (List UInt8)) {jobs : List PartJob} {k : Nat}
    (h : k ∉ jobs.map PartJob.partIndex) : writeParts fileBuf headerSection files jobs k = files k := by
  induction jobs generalizing files with
  | nil => rfl
  | cons job jobs ih =>
    rw [List.map_cons, List.mem_cons, not_or] at h
    exact (ih _ h.2).trans (Function.update_of_ne h.1 _ files)

/-- A part that `writeParts` has gets the file of `writePart`. -/
theorem writeParts_of_mem (files : Nat → Option (List UInt8)) {jobs : List PartJob}
    (hnodup : (jobs.map PartJob.partIndex).Nodup) {job : PartJob} (h : job ∈ jobs) :
    writeParts fileBuf headerSection files jobs job.partIndex =
      some (writePart fileBuf headerSection job.ranges) := by
  induction jobs generalizing files with
  | nil => exact absurd h List.not_mem_nil
  | cons first jobs ih =>
    obtain ⟨hfirst, hrest⟩ := List.nodup_cons.mp hnodup
    obtain rfl | h := List.mem_cons.mp h
    · exact (writeParts_of_not_mem _ hfirst).trans (Function.update_self _ _ files)
    · exact ih _ hrest h

end Alone

/-! ## The workers together -/

section Together

variable {fileBuf headerSection : List UInt8} {workers : List (List PartJob)}

theorem exists_worker {job : PartJob} (h : job ∈ workers.flatten) :
    ∃ i < workers.length, job ∈ workers.getD i [] := by
  obtain ⟨parts, hparts, hjob⟩ := List.mem_flatten.mp h
  obtain ⟨i, hi, rfl⟩ := List.mem_iff_getElem.mp hparts
  exact ⟨i, hi, by rwa [List.getD_eq_getElem _ _ hi]⟩

theorem mem_flatten_of_worker {i : Nat} {job : PartJob} (h : job ∈ workers.getD i []) :
    ∃ hi : i < workers.length, job ∈ workers[i] := by
  by_cases hi : i < workers.length
  · exact ⟨hi, by rwa [List.getD_eq_getElem _ _ hi] at h⟩
  · rw [List.getD_eq_default _ _ (Nat.le_of_not_lt hi)] at h
    exact absurd h List.not_mem_nil

/-- Parts of different workers have different files. -/
theorem ne_of_workers (hnodup : (workers.flatten.map PartJob.partIndex).Nodup) {i j : Nat} (hij : i ≠ j)
    {a b : PartJob} (ha : a ∈ workers.getD i []) (hb : b ∈ workers.getD j []) : a.partIndex ≠ b.partIndex := by
  obtain ⟨hi, ha⟩ := mem_flatten_of_worker ha
  obtain ⟨hj, hb⟩ := mem_flatten_of_worker hb
  have happart := List.pairwise_iff_getElem.mp (List.pairwise_flatten.mp (List.pairwise_map.mp hnodup)).2
  obtain hlt | hlt := Nat.lt_or_gt_of_ne hij
  · exact happart i j hi hj hlt a ha b hb
  · exact (happart j i hj hi hlt b hb a ha).symm

theorem nodup_worker (hnodup : (workers.flatten.map PartJob.partIndex).Nodup) (i : Nat) :
    ((workers.getD i []).map PartJob.partIndex).Nodup := by
  by_cases hi : i < workers.length
  · rw [List.getD_eq_getElem _ _ hi]
    exact List.pairwise_map.mpr
      ((List.pairwise_flatten.mp (List.pairwise_map.mp hnodup)).1 _ (List.getElem_mem hi))
  · rw [List.getD_eq_default _ _ (Nat.le_of_not_lt hi)]
    exact List.nodup_nil

/-- A worker writes no file but those of its own parts. -/
theorem writes_own {i : Nat} {k : Nat} (hk : ∀ job ∈ workers.getD i [], job.partIndex ≠ k) (es : List WorkerEvent) :
    (splitProcess fileBuf headerSection).WritesOnly (· ≠ k) ((startSplit workers).states i) es := by
  refine (writesOnly_ahead _ es).mono ?_
  rintro k' hk' rfl
  obtain ⟨job, hjob, heq⟩ := List.mem_map.mp hk'
  exact hk job hjob heq

/-- **The files of the workers** are those of `writeParts`, in whatever order the workers take their steps. -/
theorem store_of_done (hnodup : (workers.flatten.map PartJob.partIndex).Nodup) (es : List (Nat × WorkerEvent))
    (hdone : ∀ i < workers.length, (run (splitProcess fileBuf headerSection).joint (startSplit workers) es).states i =
      .next []) :
    (run (splitProcess fileBuf headerSection).joint (startSplit workers) es).store =
      writeParts fileBuf headerSection (fun _ => none) workers.flatten := by
  funext k
  by_cases hk : k ∈ workers.flatten.map PartJob.partIndex
  · obtain ⟨job, hjob, rfl⟩ := List.mem_map.mp hk
    obtain ⟨i, hi, hown⟩ := exists_worker hjob
    have halone := hdone i hi
    rw [Process.states_run] at halone
    rw [Process.store_run _ es fun j hj => writes_own (fun job' hjob' => ne_of_workers hnodup hj hjob' hown) _,
      run_alone _ _ _ halone, writeParts_of_mem _ hnodup hjob]
    exact writeParts_of_mem _ (nodup_worker hnodup i) hown
  · have hnone : ∀ i, ∀ job ∈ workers.getD i [], job.partIndex ≠ k := by
      rintro i job hjob rfl
      obtain ⟨hi, hjob⟩ := mem_flatten_of_worker hjob
      exact hk (List.mem_map_of_mem (List.mem_flatten.mpr ⟨_, List.getElem_mem hi, hjob⟩))
    rw [Process.store_run _ es fun j (_ : j ≠ 0) => writes_own (hnone j) _, writeParts_of_not_mem _ hk]
    exact (writes_own (hnone 0) _).alone (fun h => h rfl) _

/-- Workers that only go on do not fail, and are done after the steps they have before them. -/
theorem settled_of_proceed (es : List (Nat × WorkerEvent)) (hes : ∀ e ∈ es, e.2 = .proceed) :
    let states := (run (splitProcess fileBuf headerSection).joint (startSplit workers) es).states
    allSettled workers.length states ≠ some false ∧
      ((∀ i < workers.length, (SplitWorker.next (workers.getD i [])).stepsLeft ≤ (eventsOf i es).length) →
        allSettled workers.length states = some true) := by
  have hown : ∀ i, ∀ e ∈ eventsOf i es, e = .proceed := by
    intro i e he
    obtain ⟨e', he', rfl⟩ := List.mem_map.mp he
    exact hes e' (List.mem_filter.mp he').1
  have hfail : ((List.range workers.length).any fun i =>
      ((run (splitProcess fileBuf headerSection).joint (startSplit workers) es).states i).isFailed) = false := by
    refine List.any_eq_false.mpr fun i _ => ?_
    rw [Process.states_run, Bool.not_eq_true]
    exact run_not_failed _ rfl _ (hown i)
  refine ⟨?_, fun henough => ?_⟩
  · unfold allSettled
    rw [hfail, if_neg Bool.false_ne_true]
    split <;> simp
  · unfold allSettled
    rw [hfail, if_neg Bool.false_ne_true, if_pos]
    refine List.all_eq_true.mpr fun i hi => isDone_iff.mpr ?_
    rw [Process.states_run]
    exact run_proceed _ rfl _ (hown i) (henough i (List.mem_range.mp hi))

theorem done_of_settled {states : Nat → SplitWorker} {n : Nat} (h : allSettled n states = some true) :
    ∀ i < n, states i = .next [] := by
  intro i hi
  unfold allSettled at h
  split at h
  · cases h
  · split at h
    case isTrue hall => exact isDone_iff.mp (List.all_eq_true.mp hall i (List.mem_range.mpr hi))
    case isFalse => cases h

end Together

/-! ## The buckets -/

section Buckets

variable {cpus : Nat} {jobs : List PartJob} {buckets : List (Bucket PartJob)}

/-- What `partBuckets` gives: the buckets share the parts out, the largest first. -/
theorem partBuckets_spec (h : partBuckets cpus jobs = some buckets) : Shared PartJob.count buckets ∧
    buckets.length = min cpus jobs.length ∧ (buckets.flatMap Bucket.items).Perm jobs := by
  have htotal : Std.Total fun a b : PartJob => b.count ≤ a.count := ⟨fun a b => Nat.le_total b.count a.count⟩
  have htrans : IsTrans PartJob fun a b => b.count ≤ a.count := ⟨fun _ _ _ hab hbc => Nat.le_trans hbc hab⟩
  have hnone : (List.replicate (min cpus jobs.length) (⟨0, []⟩ : Bucket PartJob)).flatMap Bucket.items = [] :=
    List.flatMap_eq_nil_iff.mpr fun b hb => by rw [List.eq_of_mem_replicate hb]
  obtain ⟨hshared, hlength, hperm⟩ := (@shared_empty _ PartJob.count (min cpus jobs.length)).shareOut
    (List.pairwise_insertionSort _ jobs) (fun a _ x hx => by rw [hnone] at hx; exact absurd hx List.not_mem_nil) h
  refine ⟨hshared, hlength.trans List.length_replicate, hperm.trans ?_⟩
  rw [hnone, List.nil_append]
  exact List.perm_insertionSort _ jobs

/-- With a processor the parts are given out. -/
theorem partBuckets_isSome (hcpus : 0 < cpus) : ∃ buckets, partBuckets cpus jobs = some buckets := by
  refine Option.isSome_iff_exists.mp ?_
  obtain rfl | hjobs := List.eq_nil_or_concat' jobs
  · rfl
  · refine shareOut_isSome (fun hnil => ?_) _
    obtain ⟨before, last, rfl⟩ := hjobs
    have hlength := congrArg List.length hnil
    simp only [List.length_replicate, List.length_nil, List.length_append, List.length_singleton] at hlength
    omega

/-- Workers that are not started have no parts. -/
theorem flatten_startedWorkers : (startedWorkers buckets).flatten = buckets.flatMap Bucket.items := by
  unfold startedWorkers
  rw [List.flatten_filter_not_isEmpty, List.flatMap_def]

/-- **The distribution of the parts**: each part is with one worker; no worker has more records than another
by more than any of its parts has; and none has more than one and a half times as many records as the
fullest worker would have in any other distribution to as many workers. -/
theorem partBuckets_balanced (h : partBuckets cpus jobs = some buckets) :
    (buckets.flatMap Bucket.items).Perm jobs ∧ buckets.length = min cpus jobs.length ∧
      (∀ b ∈ buckets, b.load = (b.items.map PartJob.count).sum) ∧
      (∀ b ∈ buckets, ∀ job ∈ b.items, ∀ b' ∈ buckets, b.load ≤ b'.load + job.count) ∧
      ∀ other : List (List PartJob), other.length = buckets.length → other.flatten.Perm jobs →
        ∀ most, (∀ parts ∈ other, (parts.map PartJob.count).sum ≤ most) →
          ∀ b ∈ buckets, 2 * buckets.length * b.load ≤ (3 * buckets.length - 1) * most := by
  obtain ⟨hshared, hlength, hperm⟩ := partBuckets_spec h
  refine ⟨hperm, hlength, hshared.load, hshared.ahead, fun other hother hflatten most hmost b hb => ?_⟩
  exact hshared.load_le hother (hflatten.trans hperm.symm) hmost hb

/-- Four parts of one and of two records. -/
def fourParts : List PartJob :=
  [⟨0, [⟨0, 9⟩]⟩, ⟨1, [⟨9, 5⟩, ⟨14, 6⟩]⟩, ⟨2, [⟨0, 9⟩, ⟨20, 4⟩]⟩, ⟨3, [⟨24, 7⟩]⟩]

/-- Two workers have three records each. -/
theorem partBuckets_balanced_four : (partBuckets 2 fourParts).map (List.map Bucket.load) = some [3, 3] ∧
    (∀ other : List (List PartJob), other.length = 2 → other.flatten.Perm fourParts →
      ∀ most, (∀ parts ∈ other, (parts.map PartJob.count).sum ≤ most) → 2 * 2 * 3 ≤ (3 * 2 - 1) * most) := by
  refine ⟨by decide, fun other hlength hperm most hmost => ?_⟩
  obtain ⟨-, -, -, -, hbetter⟩ := @partBuckets_balanced 2 fourParts _ rfl
  exact hbetter other hlength hperm most hmost _ List.mem_cons_self

end Buckets

/-! ## The files of a split -/

section Files

variable {es : List ScannedEntity}

theorem partIndex_partJobs (closures : List (List Id)) :
    (partJobs es closures).map PartJob.partIndex = List.range closures.length := by
  rw [partJobs, List.map_map]
  exact List.zipIdx_map_snd 0 closures |>.trans (by rw [List.range_eq_range'])

/-- The files of `writeParts` for all parts. -/
theorem writeParts_partJobs (fileBuf headerSection : List UInt8) (closures : List (List Id)) :
    writeParts fileBuf headerSection (fun _ => none) (partJobs es closures) =
      fun k => closures[k]?.map fun part => writePart fileBuf headerSection (partRanges es part) := by
  have hnodup : ((partJobs es closures).map PartJob.partIndex).Nodup := by
    rw [partIndex_partJobs]
    exact List.nodup_range
  funext k
  by_cases hk : k < closures.length
  · have hjob : (⟨k, partRanges es closures[k]⟩ : PartJob) ∈ partJobs es closures :=
      List.mem_map.mpr ⟨(closures[k], k), List.mem_zipIdx_iff_getElem?.mpr (List.getElem?_eq_getElem hk), rfl⟩
    rw [List.getElem?_eq_getElem hk]
    exact writeParts_of_mem _ hnodup hjob
  · rw [List.getElem?_eq_none (Nat.le_of_not_lt hk), Option.map_none]
    refine writeParts_of_not_mem _ ?_
    rw [partIndex_partJobs, List.mem_range]
    exact hk

/-- The same parts in another order give the same files. -/
theorem writeParts_perm (fileBuf headerSection : List UInt8) (files : Nat → Option (List UInt8))
    {jobs jobs' : List PartJob} (h : jobs.Perm jobs') (hnodup : (jobs.map PartJob.partIndex).Nodup) :
    writeParts fileBuf headerSection files jobs = writeParts fileBuf headerSection files jobs' := by
  funext k
  have hnodup' := (h.map PartJob.partIndex).nodup_iff.mp hnodup
  by_cases hk : k ∈ jobs.map PartJob.partIndex
  · obtain ⟨job, hjob, rfl⟩ := List.mem_map.mp hk
    rw [writeParts_of_mem _ hnodup hjob, writeParts_of_mem _ hnodup' (h.subset hjob)]
  · have hk' : k ∉ jobs'.map PartJob.partIndex := fun hin => hk ((h.map PartJob.partIndex).symm.subset hin)
    rw [writeParts_of_not_mem _ hk, writeParts_of_not_mem _ hk']

/-- A closure for each product. -/
theorem mapM_of_forall {α β : Type} {f : α → Option β} {p : β → Prop} (h : ∀ a, ∃ b, f a = some b ∧ p b)
    (as : List α) : ∃ bs, as.mapM f = some bs ∧ ∀ b ∈ bs, p b := by
  induction as with
  | nil => exact ⟨[], rfl, fun b hb => absurd hb List.not_mem_nil⟩
  | cons a as ih =>
    obtain ⟨b, hb, hpb⟩ := h a
    obtain ⟨bs, hbs, hpbs⟩ := ih
    exact ⟨b :: bs, by rw [List.mapM_cons, hb, hbs]; rfl, List.forall_mem_cons.mpr ⟨hpb, hpbs⟩⟩

/-- A worker has not more steps before it than all parts need. -/
theorem stepsLeft_le {cpus : Nat} {jobs : List PartJob} {buckets : List (Bucket PartJob)}
    (h : partBuckets cpus jobs = some buckets) (i : Nat) :
    (SplitWorker.next ((startedWorkers buckets).getD i [])).stepsLeft ≤ (SplitWorker.next jobs).stepsLeft := by
  simp only [SplitWorker.stepsLeft]
  by_cases hi : i < (startedWorkers buckets).length
  · have hperm : ((startedWorkers buckets).flatten).Perm jobs := by
      rw [flatten_startedWorkers]
      exact (partBuckets_spec h).2.2
    rw [List.getD_eq_getElem _ _ hi, ← (hperm.map fun job => job.runs.length + 2).sum_eq, List.map_flatten,
      List.sum_flatten, List.map_map]
    exact List.le_sum_of_mem (List.mem_map.mpr ⟨_, List.getElem_mem hi, rfl⟩)
  · rw [List.getD_eq_default _ _ (Nat.le_of_not_lt hi)]
    exact Nat.zero_le _

theorem length_startedWorkers {cpus : Nat} {jobs : List PartJob} {buckets : List (Bucket PartJob)}
    (h : partBuckets cpus jobs = some buckets) : (startedWorkers buckets).length ≤ cpus := by
  have hfilter := List.length_filter_le (fun parts : List PartJob => !parts.isEmpty) (buckets.map Bucket.items)
  have hlength := (partBuckets_spec h).2.1
  rw [List.length_map] at hfilter
  unfold startedWorkers
  omega

/-- **Main result.** For every file and its chunks, and for every set of products: the closures of the parts
are found, and the directory ends with one file for each part, which has the records of the part in the order
of the file. This is so when the main thread writes the parts, and when workers do, for any number of
processors and in whatever order the workers take their steps, once `Promise.all` is resolved. It is rejected
only if a worker fails, and resolved if none does and each takes as many steps as all parts need. -/
theorem split_files (chunks : List (List UInt8)) (headerSection : List UInt8) (t : ProductTables)
    (stepIds : List Id) : ∃ closures,
      stepIds.mapM (fun stepId => partClosure (scanStep chunks).entities t stepId
        (enoughRounds (scanStep chunks).entities stepId)) = some closures ∧
      ∀ cpus steps, 0 < cpus → ∃ outcome directory,
        passTwo cpus (scanStep chunks).entities (partJobs (scanStep chunks).entities closures) chunks.flatten
          headerSection steps = some (outcome, directory) ∧
        (outcome = some true → directory = fun k => closures[k]?.map fun part =>
          partHead headerSection ++ ((scanStep chunks).entities.filter fun e =>
            IsTaken (scanStep chunks).entities part e).flatMap (ScannedEntity.bytes chunks.flatten) ++ partEnd) ∧
        ((∀ e ∈ steps, e.2 = .proceed) → outcome ≠ some false ∧
          ((∀ i < cpus, (SplitWorker.next (partJobs (scanStep chunks).entities closures)).stepsLeft ≤
            (eventsOf i steps).length) → outcome = some true)) := by
  have hparts : ∀ stepId, ∃ part, partClosure (scanStep chunks).entities t stepId
      (enoughRounds (scanStep chunks).entities stepId) = some part ∧ part.Nodup := by
    intro stepId
    obtain ⟨chain, closure, part, checked, hloops, -, -, hexpanding⟩ :=
      closures_spec (scanStep chunks).entities t stepId
    obtain ⟨hchain, hclosure, hpart⟩ := hloops _ (Nat.le_refl _)
    exact ⟨part, by rw [partClosure, hchain, Option.bind_some, hclosure, Option.bind_some, hpart], hexpanding.nodup⟩
  obtain ⟨closures, hclosures, hnodup⟩ := mapM_of_forall hparts stepIds
  have hfiles : writeParts chunks.flatten headerSection (fun _ => none)
      (partJobs (scanStep chunks).entities closures) = fun k => closures[k]?.map fun part =>
        partHead headerSection ++ ((scanStep chunks).entities.filter fun e =>
          IsTaken (scanStep chunks).entities part e).flatMap (ScannedEntity.bytes chunks.flatten) ++ partEnd := by
    rw [writeParts_partJobs]
    funext k
    refine Option.map_congr fun part hpart => ?_
    exact writePart_records (scanStep_inFileOrder chunks) (hnodup part (List.mem_of_getElem? hpart)) _ _
  refine ⟨closures, hclosures, fun cpus steps hcpus => ?_⟩
  rw [← hfiles]
  unfold passTwo
  split
  case isTrue =>
    exact ⟨some true, _, rfl, fun _ => rfl, fun _ => ⟨by simp, fun _ => rfl⟩⟩
  case isFalse =>
    obtain ⟨buckets, hbuckets⟩ := @partBuckets_isSome _ (partJobs (scanStep chunks).entities closures) hcpus
    have hperm := (partBuckets_spec hbuckets).2.2
    have hindices : (((startedWorkers buckets).flatten).map PartJob.partIndex).Nodup := by
      rw [flatten_startedWorkers]
      refine (hperm.map PartJob.partIndex).nodup_iff.mpr ?_
      rw [partIndex_partJobs]
      exact List.nodup_range
    rw [hbuckets]
    refine ⟨_, _, rfl, fun hsettled => ?_, fun hsteps => ?_⟩
    · rw [store_of_done hindices steps (done_of_settled hsettled)]
      refine writeParts_perm _ _ _ ?_ hindices
      rwa [flatten_startedWorkers]
    · obtain ⟨hnotRejected, hresolved⟩ :=
        @settled_of_proceed chunks.flatten headerSection _ steps hsteps
      refine ⟨hnotRejected, fun henough => hresolved fun i hi => (stepsLeft_le hbuckets i).trans ?_⟩
      exact henough i (Nat.lt_of_lt_of_le hi (length_startedWorkers hbuckets))

end Files

end PlmCore.CadParser
