/-
Convergence of the configuration.

A consumer that is up is always owed something, or settled: a notification or a requested pull
will still read the tables after the last commit, a pull under way has begun to, or the snapshot
held is the one psm-admin built last, from the tables as they are. The first alternative is the
only one while a published write is uncommitted, which is why no pull may start then.
-/
import PlmCore.Platform.Propagation

set_option autoImplicit false

namespace PlmCore.Platform

open PlmCore.Lib

variable {ι τ ν : Type}

/-! ## What holds of psm-admin and of each consumer -/

/-- The builds of a process come one after the other, and one begun after the last commit reads
the tables as they are. -/
structure AdminOk (hash : (τ → ν) → Int) (db : τ → ν) (commits : Nat)
    (a : AdminProcess ι τ ν) : Prop where
  numbered : a.builder.Numbered hash
  lastSince_le : ∀ n, a.lastSince = some n → n ≤ commits
  building : ∀ b, a.building = some b → b.since ≤ commits
    ∧ (∀ n, a.lastSince = some n → n ≤ b.since)
    ∧ (b.since = commits → ∀ t, t ∉ b.todo → b.got t = db t)
  current : a.lastSince = some commits → ∀ snap h, a.builder.cached = some (snap, h) →
    snap.content = db

/-- The snapshots of the present process that a consumer holds or is sent. -/
structure ConsumerOk (process commits : Nat) (a : AdminProcess ι τ ν)
    (x : Consumer (τ → ν)) : Prop where
  held : x.process = process → ∀ snap, x.cache.snapshot = some snap → a.builder.Issued snap
  answered : ∀ snap since, Pull.answered snap process since ∈ x.pulls → a.builder.Issued snap
    ∧ (∃ n, a.lastSince = some n ∧ since ≤ n)
    ∧ (since = commits → ∃ h, a.builder.cached = some (snap, h))

/-- No snapshot comes from a process that is yet to start. -/
def PastOk (process : Nat) (x : Consumer (τ → ν)) : Prop :=
  x.process ≤ process ∧ ∀ snap p since, Pull.answered snap p since ∈ x.pulls → p ≤ process

/-- A pull is to start. -/
def Waiting (x : Consumer (τ → ν)) : Prop := 0 < x.queue ∨ Pull.requested ∈ x.pulls

/-- A pull under way began after the last commit. -/
def FreshPull (process commits : Nat) (a : AdminProcess ι τ ν) (c : ι)
    (x : Consumer (τ → ν)) : Prop :=
  (Pull.building ∈ x.pulls ∧ ∃ b, a.building = some b ∧ b.forConsumer = some c ∧ b.since = commits)
    ∨ ∃ snap, Pull.answered snap process commits ∈ x.pulls

/-- The snapshot held is the one built last, after the last commit. -/
def Settled (process commits : Nat) (a : AdminProcess ι τ ν) (x : Consumer (τ → ν)) : Prop :=
  a.lastSince = some commits ∧ x.process = process
    ∧ ∃ snap h, x.cache.snapshot = some snap ∧ a.builder.cached = some (snap, h)

/-- The consumer will come to hold what is in the tables, or does. -/
def Served (process commits : Nat) (uncommitted : List ((τ → ν) → τ → ν))
    (a : AdminProcess ι τ ν) (c : ι) (x : Consumer (τ → ν)) : Prop :=
  Waiting x ∨ (uncommitted = [] ∧ (FreshPull process commits a c x ∨ Settled process commits a x))

/-- What holds of the parties, whatever is under way. -/
structure Consistent (hash : (τ → ν) → Int) (s : Net ι τ ν) : Prop where
  past : ∀ c x, s.consumers c = some x → PastOk s.process x
  admin : ∀ a, s.admin = some a → AdminOk hash s.db s.commits a
  consumers : ∀ a, s.admin = some a → ∀ c x, s.consumers c = some x →
    ConsumerOk s.process s.commits a x

/-- The invariant. Until psm-admin has announced itself, and while a notification is yet to be
sent, every consumer will hear of it. -/
structure Converging (hash : (τ → ν) → Int) (s : Net ι τ ν) : Prop where
  consistent : Consistent hash s
  served : ∀ a, s.admin = some a → a.builder.cached ≠ none → s.unpublished = 0 →
    ∀ c x, s.consumers c = some x → Served s.process s.commits s.uncommitted a c x

variable {hash : (τ → ν) → Int}

theorem Converging.initial (db : τ → ν) : Converging hash (.initial db : Net ι τ ν) where
  consistent :=
    { past := fun _ _ h => absurd h (Option.some_ne_none _).symm
      admin := fun _ h => absurd h (Option.some_ne_none _).symm
      consumers := fun _ h => absurd h (Option.some_ne_none _).symm }
  served := fun _ h => absurd h (Option.some_ne_none _).symm

/-- At the end nothing is under way, so every consumer is settled. -/
theorem Converging.converged {s : Net ι τ ν} (h : Converging hash s) (hquiet : s.Quiet) :
    s.Converged := by
  intro c x hx
  obtain ⟨a, ha, hcached⟩ := hquiet.announced
  obtain ⟨hqueue, hpulls⟩ := hquiet.handled c x hx
  rcases h.served a ha hcached hquiet.writes.2 c x hx with (hq | hp) | ⟨_, (⟨hp, _⟩ | ⟨_, hp⟩) | hs⟩
  · omega
  · rw [hpulls] at hp
    exact absurd hp List.not_mem_nil
  · rw [hpulls] at hp
    exact absurd hp List.not_mem_nil
  · rw [hpulls] at hp
    exact absurd hp List.not_mem_nil
  · obtain ⟨hlast, _, snap, k, hsnap, hkept⟩ := hs
    exact ⟨snap, hsnap, (h.consistent.admin a ha).current hlast snap k hkept⟩

/-! ## Notifications -/

theorem waiting_notify (x : Consumer (τ → ν)) : Waiting x.notify := Or.inl (Nat.succ_pos _)

/-- A notification is nothing but a notification. -/
theorem Consistent.notify {s : Net ι τ ν} (h : Consistent hash s) : Consistent hash s.notify where
  past := by
    intro c x hx
    obtain ⟨y, hy, rfl⟩ := Option.map_eq_some_iff.mp hx
    exact h.past c y hy
  admin := h.admin
  consumers := by
    intro a ha c x hx
    obtain ⟨y, hy, rfl⟩ := Option.map_eq_some_iff.mp hx
    obtain ⟨hheld, hanswered⟩ := h.consumers a ha c y hy
    exact ⟨hheld, hanswered⟩

/-- Behind a notification to all, every consumer waits. -/
theorem Converging.of_notify {s : Net ι τ ν} (h : Consistent hash s) :
    Converging hash s.notify where
  consistent := h.notify
  served := by
    intro a _ _ _ c x hx
    obtain ⟨y, _, rfl⟩ := Option.map_eq_some_iff.mp hx
    exact Or.inl (waiting_notify y)

/-! ## Commits -/

/-- After a commit no build is fresh. -/
theorem AdminOk.commit {db db' : τ → ν} {commits : Nat} {a : AdminProcess ι τ ν}
    (h : AdminOk hash db commits a) : AdminOk hash db' (commits + 1) a where
  numbered := h.numbered
  lastSince_le n hn := Nat.le_succ_of_le (h.lastSince_le n hn)
  building b hb := by
    obtain ⟨hle, hlast, _⟩ := h.building b hb
    refine ⟨Nat.le_succ_of_le hle, hlast, ?_⟩
    intro hsince
    omega
  current hlast := by
    have := h.lastSince_le _ hlast
    omega

theorem Consistent.commit {s : Net ι τ ν} (h : Consistent hash s) (db' : τ → ν)
    (uncommitted : List ((τ → ν) → τ → ν)) (unpublished : Nat) :
    Consistent hash { s with db := db', commits := s.commits + 1, uncommitted, unpublished } where
  past := h.past
  admin a ha := (h.admin a ha).commit
  consumers := by
    intro a ha c x hx
    obtain ⟨hheld, hanswered⟩ := h.consumers a ha c x hx
    refine ⟨hheld, ?_⟩
    intro snap since hmem
    obtain ⟨hseen, ⟨n, hn, hle⟩, _⟩ := hanswered snap since hmem
    refine ⟨hseen, ⟨n, hn, hle⟩, ?_⟩
    -- the answer is from before the commit
    have := (h.admin a ha).lastSince_le n hn
    intro (hsince : since = s.commits + 1)
    omega

/-- The consumers that wait for a published write wait beyond its commit. -/
theorem Converging.commitWrite {s : Net ι τ ν} (h : Converging hash s) {i : Nat}
    {w : (τ → ν) → τ → ν} (hw : s.uncommitted[i]? = some w) :
    Converging hash { s with
      db := w s.db, commits := s.commits + 1, uncommitted := s.uncommitted.eraseIdx i } where
  consistent := h.consistent.commit _ _ _
  served := by
    intro a ha hcached hpublished c x hx
    rcases h.served a ha hcached hpublished c x hx with hwait | ⟨hnil, _⟩
    · exact Or.inl hwait
    · rw [hnil] at hw
      exact absurd hw (by simp)

/-- A write behind whose commit the notification comes: it is still to be sent. -/
theorem Converging.autocommitWrite {s : Net ι τ ν} (h : Converging hash s) (db' : τ → ν) :
    Converging hash { s with
      db := db', commits := s.commits + 1, unpublished := s.unpublished + 1 } where
  consistent := h.consistent.commit db' s.uncommitted _
  served := fun _ _ _ hpublished => absurd hpublished (Nat.succ_ne_zero _)

theorem Converging.rollbackWrite {s : Net ι τ ν} (h : Converging hash s) (i : Nat) :
    Converging hash { s with uncommitted := s.uncommitted.eraseIdx i } where
  consistent := ⟨h.consistent.past, h.consistent.admin, h.consistent.consumers⟩
  served := by
    intro a ha hcached hpublished c x hx
    rcases h.served a ha hcached hpublished c x hx with hwait | ⟨hnil, hserved⟩
    · exact Or.inl hwait
    · refine Or.inr ⟨?_, hserved⟩
      change s.uncommitted.eraseIdx i = []
      rw [hnil]
      rfl

/-! ## psm-admin comes and goes -/

/-- A new process has answered nothing yet. -/
theorem Converging.startAdmin {s : Net ι τ ν} (h : Converging hash s) :
    Converging hash ({ s with process := s.process + 1 }.withAdmin ⟨.started, none, none⟩) where
  consistent :=
    { past := by
        intro c x hx
        obtain ⟨hle, hpulls⟩ := h.consistent.past c x hx
        exact ⟨Nat.le_succ_of_le hle,
          fun snap p since hmem => Nat.le_succ_of_le (hpulls snap p since hmem)⟩
      admin := by
        intro a ha
        cases ha
        exact ⟨SnapshotBuilder.numbered_started hash, fun n hn => absurd hn (by simp),
          fun b hb => absurd hb (by simp), fun hl => absurd hl (by simp)⟩
      consumers := by
        intro a ha c x hx
        obtain ⟨hle, hpulls⟩ := h.consistent.past c x hx
        constructor
        · intro (hp : x.process = s.process + 1)
          omega
        · intro snap since hmem
          have : s.process + 1 ≤ s.process := hpulls snap _ since hmem
          omega }
  served := by
    intro a ha hcached
    cases ha
    exact absurd rfl hcached

theorem Converging.stopAdmin {s : Net ι τ ν} (consumers : ι → Option (Consumer (τ → ν)))
    (hcons : ∀ c x, consumers c = some x → PastOk s.process x) :
    Converging hash { s with uncommitted := [], unpublished := 0, admin := none, consumers } where
  consistent :=
    { past := hcons
      admin := fun _ ha => absurd ha (Option.some_ne_none _).symm
      consumers := fun _ ha => absurd ha (Option.some_ne_none _).symm }
  served := fun _ ha => absurd ha (Option.some_ne_none _).symm

/-! ## One consumer -/

/-- Pulls that are only dropped or asked for change nothing of what was answered. -/
theorem PastOk.of_pulls {process : Nat} {x : Consumer (τ → ν)} (h : PastOk process x)
    {queue : Nat} {pulls : List (Pull (τ → ν))}
    (hpulls : ∀ snap p since, Pull.answered snap p since ∈ pulls →
      Pull.answered snap p since ∈ x.pulls) :
    PastOk process { x with queue, pulls } :=
  ⟨h.1, fun snap p since hmem => h.2 snap p since (hpulls snap p since hmem)⟩

theorem ConsumerOk.of_pulls {process commits : Nat} {a : AdminProcess ι τ ν}
    {x : Consumer (τ → ν)} (h : ConsumerOk process commits a x) {queue : Nat}
    {pulls : List (Pull (τ → ν))}
    (hpulls : ∀ snap p since, Pull.answered snap p since ∈ pulls →
      Pull.answered snap p since ∈ x.pulls) :
    ConsumerOk process commits a { x with queue, pulls } :=
  ⟨h.held, fun snap since hmem => h.answered snap since (hpulls snap process since hmem)⟩

/-- Taking an answer: what was held, or the answer. -/
theorem Consumer.take_cases (x : Consumer (τ → ν)) (snap : Snapshot (τ → ν)) (process : Nat) :
    (x.cache.accepts snap = true
        ∧ x.take snap process = { x with cache := ⟨some snap⟩, process := process })
      ∨ (x.cache.accepts snap = false ∧ x.take snap process = x) := by
  unfold Consumer.take
  rw [ConfigCache.updateFromSnapshot_eq]
  cases hacc : x.cache.accepts snap with
  | true => exact Or.inl ⟨rfl, rfl⟩
  | false => exact Or.inr ⟨rfl, rfl⟩

/-- A snapshot of the process that is not taken is the newest, or older than the one held. -/
theorem held_of_not_accepts {x : Consumer (τ → ν)} {snap : Snapshot (τ → ν)}
    (h : x.cache.accepts snap = false) :
    ∃ held, x.cache.snapshot = some held ∧ snap.version ≤ held.version := by
  have hnot : ¬ ∀ k, x.cache.snapshot = some k → k.version < snap.version := by
    rw [← ConfigCache.accepts_iff, h]
    exact Bool.false_ne_true
  simp only [not_forall, exists_prop] at hnot
  obtain ⟨held, hheld, hle⟩ := hnot
  exact ⟨held, hheld, Nat.le_of_not_lt hle⟩

/-- Another element stays when one is taken out. -/
theorem mem_eraseIdx_of_ne {α : Type} {l : List α} {i : Nat} {x y : α} (hx : x ∈ l)
    (hi : l[i]? = some y) (hne : x ≠ y) : x ∈ l.eraseIdx i := by
  obtain ⟨j, hj⟩ := List.mem_iff_getElem?.mp hx
  refine List.mem_eraseIdx_iff_getElem?.mpr ⟨j, ?_, hj⟩
  rintro rfl
  exact hne (Option.some.inj (hj.symm.trans hi))

/-- The fresh answer of the present process is the snapshot it keeps, and once it is in the
consumer holds it. -/
theorem settled_of_arrived {s : Net ι τ ν} (h : Consistent hash s) {a : AdminProcess ι τ ν}
    (ha : s.admin = some a) {c : ι} {x : Consumer (τ → ν)} (hx : s.consumers c = some x)
    {i : Nat} {snap : Snapshot (τ → ν)}
    (hi : x.pulls[i]? = some (.answered snap s.process s.commits))
    (hgood : Orderly hash s (.arrive c i)) (pulls : List (Pull (τ → ν))) :
    Settled s.process s.commits a ({ x with pulls }.take snap s.process) := by
  obtain ⟨hseen, ⟨n, hn, hle⟩, hkept⟩ :=
    (h.consumers a ha c x hx).answered snap s.commits (List.mem_of_getElem? hi)
  obtain ⟨k, hcached⟩ := hkept rfl
  have hlast : a.lastSince = some s.commits := by
    have := (h.admin a ha).lastSince_le n hn
    rw [hn, show n = s.commits by omega]
  have hversion := ((h.admin a ha).numbered snap k hcached).1
  rcases Consumer.take_cases { x with pulls } snap s.process with ⟨_, htake⟩ | ⟨hnot, htake⟩
  · rw [htake]
    exact ⟨hlast, rfl, snap, k, rfl, hcached⟩
  · rw [htake]
    obtain ⟨held, hheld, hle'⟩ := held_of_not_accepts hnot
    have hbound := (h.past c x hx).1
    -- a snapshot of an earlier process would have given way
    have hprocess : x.process = s.process := by
      by_contra hne
      have := (hgood x snap s.process s.commits held hx hi hheld).2 (by omega)
      omega
    obtain ⟨hheldle, hheldkept⟩ := (h.consumers a ha c x hx).held hprocess held hheld
    obtain ⟨k', hk'⟩ := hheldkept (by omega)
    exact ⟨hlast, hprocess, held, k', hheld, hk'⟩

/-- A settled consumer takes no answer any more. -/
theorem settled_keeps {s : Net ι τ ν} (h : Consistent hash s) {a : AdminProcess ι τ ν}
    (ha : s.admin = some a) {c : ι} {x : Consumer (τ → ν)} (hx : s.consumers c = some x)
    {i : Nat} {snap : Snapshot (τ → ν)} {p since : Nat}
    (hi : x.pulls[i]? = some (.answered snap p since))
    (hgood : Orderly hash s (.arrive c i)) (hsettled : Settled s.process s.commits a x)
    (pulls : List (Pull (τ → ν))) :
    Settled s.process s.commits a ({ x with pulls }.take snap p) := by
  obtain ⟨hlast, hprocess, held, k, hheld, hcached⟩ := hsettled
  have hversion := ((h.admin a ha).numbered held k hcached).1
  have hle : snap.version ≤ held.version := by
    have hmem := List.mem_of_getElem? hi
    have hp := (h.past c x hx).2 snap p since hmem
    by_cases heq : p = s.process
    · subst heq
      have := ((h.consumers a ha c x hx).answered snap since hmem).1.1
      omega
    · exact (hgood x snap p since held hx hi hheld).1 (by omega)
  rcases Consumer.take_cases { x with pulls } snap p with ⟨hacc, _⟩ | ⟨_, htake⟩
  · rw [ConfigCache.accepts_iff] at hacc
    have := hacc held hheld
    omega
  · rw [htake]
    exact ⟨hlast, hprocess, held, k, hheld, hcached⟩


section OneConsumer

variable [DecidableEq ι]

/-- A step of one consumer leaves the others as they are. -/
theorem Consistent.withConsumer {s : Net ι τ ν} (h : Consistent hash s) (c : ι)
    (x' : Option (Consumer (τ → ν))) (hpast : ∀ x, x' = some x → PastOk s.process x)
    (hok : ∀ a x, s.admin = some a → x' = some x → ConsumerOk s.process s.commits a x) :
    Consistent hash (s.withConsumer c x') where
  past := by
    intro d x hx
    simp only [Net.withConsumer, Function.update_apply] at hx
    split at hx
    · exact hpast x hx
    · exact h.past d x hx
  admin := h.admin
  consumers := by
    intro a ha d x hx
    simp only [Net.withConsumer, Function.update_apply] at hx
    split at hx
    · exact hok a x ha hx
    · exact h.consumers a ha d x hx

theorem Converging.withConsumer {s : Net ι τ ν} (h : Converging hash s) (c : ι)
    (x' : Option (Consumer (τ → ν))) (hpast : ∀ x, x' = some x → PastOk s.process x)
    (hok : ∀ a x, s.admin = some a → x' = some x → ConsumerOk s.process s.commits a x)
    (hserved : ∀ a x, s.admin = some a → a.builder.cached ≠ none → s.unpublished = 0 →
      x' = some x → Served s.process s.commits s.uncommitted a c x) :
    Converging hash (s.withConsumer c x') where
  consistent := h.consistent.withConsumer c x' hpast hok
  served := by
    intro a ha hcached hpublished d x hx
    simp only [Net.withConsumer, Function.update_apply] at hx
    split at hx
    · rename_i hd
      rw [hd]
      exact hserved a x ha hcached hpublished hx
    · exact h.served a ha hcached hpublished d x hx

theorem Converging.startConsumer {s : Net ι τ ν} (h : Converging hash s) (c : ι) :
    Converging hash (s.withConsumer c (some ⟨.empty, 0, 0, [.requested]⟩)) := by
  apply h.withConsumer
  · rintro x ⟨⟩
    exact ⟨Nat.zero_le _, fun snap p since hmem => absurd hmem (by simp)⟩
  · rintro a x _ ⟨⟩
    exact ⟨fun _ snap hsnap => absurd hsnap (Option.some_ne_none snap).symm,
      fun snap since hmem => absurd hmem (by simp)⟩
  · rintro a x _ _ _ ⟨⟩
    exact Or.inl (Or.inr List.mem_cons_self)

theorem Converging.stopConsumer {s : Net ι τ ν} (h : Converging hash s) (c : ι) :
    Converging hash (s.withConsumer c none) := by
  apply h.withConsumer
  · exact fun x hx => absurd hx (Option.some_ne_none x).symm
  · exact fun a x _ hx => absurd hx (Option.some_ne_none x).symm
  · exact fun a x _ _ _ hx => absurd hx (Option.some_ne_none x).symm

theorem Converging.handleNotification {s : Net ι τ ν} (h : Converging hash s) {c : ι}
    {x : Consumer (τ → ν)} (hx : s.consumers c = some x) (n : Nat) :
    Converging hash (s.withConsumer c
      (some { x with queue := n, pulls := x.pulls ++ [.requested] })) := by
  have hpulls : ∀ snap p since, Pull.answered snap p since ∈ x.pulls ++ [.requested] →
      Pull.answered snap p since ∈ x.pulls := by
    intro snap p since hmem
    rcases List.mem_append.mp hmem with hold | hnew
    · exact hold
    · exact absurd hnew (by simp)
  apply h.withConsumer
  · rintro y ⟨⟩
    exact (h.consistent.past c x hx).of_pulls hpulls
  · rintro a y ha ⟨⟩
    exact (h.consistent.consumers a ha c x hx).of_pulls hpulls
  · rintro a y _ _ _ ⟨⟩
    exact Or.inl (Or.inr (List.mem_append_right _ List.mem_cons_self))

theorem Converging.failPull {s : Net ι τ ν} (h : Converging hash s) {c : ι}
    {x : Consumer (τ → ν)} (hx : s.consumers c = some x) {i : Nat}
    (hgood : Orderly hash s (.failPull c i)) :
    Converging hash (s.withConsumer c (some { x with pulls := x.pulls.eraseIdx i })) := by
  have hpulls : ∀ snap p since, Pull.answered snap p since ∈ x.pulls.eraseIdx i →
      Pull.answered snap p since ∈ x.pulls := fun _ _ _ hmem => List.mem_of_mem_eraseIdx hmem
  apply h.withConsumer
  · rintro y ⟨⟩
    exact (h.consistent.past c x hx).of_pulls hpulls
  · rintro a y ha ⟨⟩
    exact (h.consistent.consumers a ha c x hx).of_pulls hpulls
  · -- psm-admin is yet to announce itself
    rintro a y ha hcached
    exact absurd (hgood a ha) hcached

theorem Converging.arrive {s : Net ι τ ν} (h : Converging hash s) {c : ι} {x : Consumer (τ → ν)}
    (hx : s.consumers c = some x) {i : Nat} {snap : Snapshot (τ → ν)} {p since : Nat}
    (hi : x.pulls[i]? = some (.answered snap p since)) (hgood : Orderly hash s (.arrive c i)) :
    Converging hash (s.withConsumer c
      (some ({ x with pulls := x.pulls.eraseIdx i }.take snap p))) := by
  have hmem : Pull.answered snap p since ∈ x.pulls := List.mem_of_getElem? hi
  have hpulls : ∀ snap p since, Pull.answered snap p since ∈ x.pulls.eraseIdx i →
      Pull.answered snap p since ∈ x.pulls := fun _ _ _ hmem => List.mem_of_mem_eraseIdx hmem
  have htake := Consumer.take_cases { x with pulls := x.pulls.eraseIdx i } snap p
  apply h.withConsumer
  · rintro y ⟨⟩
    have hpast : PastOk s.process { x with pulls := x.pulls.eraseIdx i } :=
      (h.consistent.past c x hx).of_pulls hpulls
    rcases htake with ⟨_, htake⟩ | ⟨_, htake⟩
    · rw [htake]
      exact ⟨(h.consistent.past c x hx).2 snap p since hmem, hpast.2⟩
    · rw [htake]
      exact hpast
  · rintro a y ha ⟨⟩
    have hok : ConsumerOk s.process s.commits a { x with pulls := x.pulls.eraseIdx i } :=
      (h.consistent.consumers a ha c x hx).of_pulls hpulls
    rcases htake with ⟨_, htake⟩ | ⟨_, htake⟩
    · rw [htake]
      refine ⟨?_, hok.answered⟩
      rintro (hp : p = s.process) k ⟨⟩
      rw [hp] at hmem
      exact ((h.consistent.consumers a ha c x hx).answered snap since hmem).1
    · rw [htake]
      exact hok
  · rintro a y ha hcached hpublished ⟨⟩
    -- taking an answer drops nothing but the answer
    have hqueue : ({ x with pulls := x.pulls.eraseIdx i }.take snap p).queue = x.queue := rfl
    have hkept : ({ x with pulls := x.pulls.eraseIdx i }.take snap p).pulls
        = x.pulls.eraseIdx i := rfl
    rcases h.served a ha hcached hpublished c x hx with hwait | ⟨hnil, hfresh | hsettled⟩
    · left
      rcases hwait with hq | hreq
      · exact Or.inl hq
      · exact Or.inr (mem_eraseIdx_of_ne hreq hi (by simp))
    · refine Or.inr ⟨hnil, ?_⟩
      rcases hfresh with ⟨hbuilding, hb⟩ | ⟨snap', hanswered⟩
      · exact Or.inl (Or.inl ⟨mem_eraseIdx_of_ne hbuilding hi (by simp), hb⟩)
      · by_cases heq : Pull.answered snap' s.process s.commits = Pull.answered snap p since
        · injection heq with hsnap hp hsince
          subst hsnap hp hsince
          exact Or.inr (settled_of_arrived h.consistent ha hx hi hgood _)
        · exact Or.inl (Or.inr ⟨snap', mem_eraseIdx_of_ne hanswered hi heq⟩)
    · exact Or.inr ⟨hnil, Or.inr (settled_keeps h.consistent ha hx hi hgood hsettled _)⟩

/-! ## Builds -/

omit [DecidableEq ι] in
theorem mem_replaceFirst {α : Type} {p : α → Bool} {x y : α} {l : List α}
    (h : y ∈ replaceFirst p x l) : y = x ∨ y ∈ l := by
  induction l with
  | nil => exact absurd h List.not_mem_nil
  | cons z l ih =>
    rw [replaceFirst] at h
    split at h
    · rcases List.mem_cons.mp h with rfl | h
      · exact Or.inl rfl
      · exact Or.inr (List.mem_cons_of_mem z h)
    · rcases List.mem_cons.mp h with rfl | h
      · exact Or.inr List.mem_cons_self
      · exact (ih h).imp_right (List.mem_cons_of_mem z)

omit [DecidableEq ι] in
theorem replaceFirst_self {α : Type} {p : α → Bool} {x z : α} {l : List α} (hz : z ∈ l)
    (hp : p z = true) : x ∈ replaceFirst p x l := by
  induction l with
  | nil => exact absurd hz List.not_mem_nil
  | cons y l ih =>
    rw [replaceFirst]
    by_cases hy : p y = true
    · rw [if_pos hy]
      exact List.mem_cons_self
    · rw [if_neg hy]
      rcases List.mem_cons.mp hz with rfl | hz
      · exact absurd hp hy
      · exact List.mem_cons_of_mem y (ih hz)

omit [DecidableEq ι] in
theorem mem_replaceFirst_of_not {α : Type} {p : α → Bool} {x y : α} {l : List α} (hy : y ∈ l)
    (hp : p y = false) : y ∈ replaceFirst p x l := by
  induction l with
  | nil => exact absurd hy List.not_mem_nil
  | cons z l ih =>
    rw [replaceFirst]
    by_cases hz : p z = true
    · rw [if_pos hz]
      rcases List.mem_cons.mp hy with rfl | hy
      · exact absurd hz (by rw [hp]; exact Bool.false_ne_true)
      · exact List.mem_cons_of_mem x hy
    · rw [if_neg hz]
      rcases List.mem_cons.mp hy with rfl | hy
      · exact List.mem_cons_self
      · exact List.mem_cons_of_mem z (ih hy)

omit [DecidableEq ι] in
/-- A step of the build that leaves the fresh pulls fresh. -/
theorem Converging.withBuilding {s : Net ι τ ν} (h : Converging hash s)
    {a : AdminProcess ι τ ν} (ha : s.admin = some a) (b : Building ι τ ν)
    (hb : b.since ≤ s.commits ∧ (∀ n, a.lastSince = some n → n ≤ b.since)
      ∧ (b.since = s.commits → ∀ t, t ∉ b.todo → b.got t = s.db t))
    (hfresh : ∀ b', a.building = some b' → b.forConsumer = b'.forConsumer ∧ b.since = b'.since) :
    Converging hash (s.withAdmin { a with building := some b }) where
  consistent :=
    { past := h.consistent.past
      admin := by
        rintro a' ⟨⟩
        obtain ⟨hnum, hlast, _, hcurrent⟩ := h.consistent.admin a ha
        exact ⟨hnum, hlast, fun b' hb' => Option.some.inj hb' ▸ hb, hcurrent⟩
      consumers := by
        rintro a' ⟨⟩ c x hx
        obtain ⟨hheld, hanswered⟩ := h.consistent.consumers a ha c x hx
        exact ⟨hheld, hanswered⟩ }
  served := by
    rintro a' ⟨⟩ hcached hpublished c x hx
    rcases h.served a ha hcached hpublished c x hx with hwait | ⟨hnil, hpull | hsettled⟩
    · exact Or.inl hwait
    · refine Or.inr ⟨hnil, Or.inl ?_⟩
      rcases hpull with ⟨hmem, b', hb', hfor, hsince⟩ | hanswered
      · obtain ⟨hsame, hsame'⟩ := hfresh b' hb'
        exact Or.inl ⟨hmem, b, rfl, hsame.trans hfor, hsame'.trans hsince⟩
      · exact Or.inr hanswered
    · exact Or.inr ⟨hnil, Or.inr hsettled⟩

variable [DecidableEq τ] {order : TableOrder τ}

omit [DecidableEq τ] in
theorem Converging.startBuild {s : Net ι τ ν} (h : Converging hash s) {c : Option ι}
    (hgood : Orderly hash s (.startBuild c)) : Converging hash (s.startBuild order c) := by
  unfold Net.startBuild
  cases ha : s.admin with
  | none => exact h
  | some a =>
    cases hbuilding : a.building with
    | some b => simpa [hbuilding] using h
    | none =>
      -- nothing is read yet, so whatever is in `todo` is all there is
      have hstart : Converging hash (s.withAdmin
          { a with building := some ⟨c, order.tables, s.db, s.commits⟩ }) := by
        apply h.withBuilding ha
        · refine ⟨Nat.le_refl _, (h.consistent.admin a ha).lastSince_le, ?_⟩
          exact fun _ t ht => absurd (order.complete t) ht
        · exact fun b' hb' => absurd (hbuilding.symm.trans hb') (Option.some_ne_none b').symm
      cases c with
      | none => simpa [hbuilding] using hstart
      | some c =>
        cases hx : s.consumers c with
        | none => simpa [hbuilding, hx] using h
        | some x =>
          by_cases hany : x.pulls.any Pull.isRequested = true
          · simp only [hbuilding, hx, hany, if_true]
            have hpulls : ∀ snap p since, Pull.answered snap p since
                ∈ replaceFirst Pull.isRequested .building x.pulls →
                Pull.answered snap p since ∈ x.pulls := by
              intro snap p since hmem
              rcases mem_replaceFirst hmem with hnew | hold
              · exact absurd hnew (by simp)
              · exact hold
            apply hstart.withConsumer
            · rintro y ⟨⟩
              exact (h.consistent.past c x hx).of_pulls hpulls
            · rintro a' y ha' ⟨⟩
              exact (hstart.consistent.consumers a' ha' c x hx).of_pulls hpulls
            · rintro a' y ⟨⟩ _ _ ⟨⟩
              obtain ⟨z, hz, hreq⟩ := List.any_eq_true.mp hany
              exact Or.inr ⟨hgood, Or.inl (Or.inl ⟨replaceFirst_self hz hreq, _, rfl, rfl, rfl⟩)⟩
          · simpa [hbuilding, hx, hany] using h

omit [DecidableEq ι] in
theorem Converging.readTable {s : Net ι τ ν} (h : Converging hash s) :
    Converging hash s.readTable := by
  unfold Net.readTable
  cases ha : s.admin with
  | none => exact h
  | some a =>
    cases hbuilding : a.building with
    | none => simpa [hbuilding] using h
    | some b =>
      cases htodo : b.todo with
      | nil => simpa [hbuilding, htodo] using h
      | cons t todo =>
        simp only [hbuilding, htodo]
        obtain ⟨hle, hlast, hread⟩ := (h.consistent.admin a ha).building b hbuilding
        apply h.withBuilding ha
        · refine ⟨hle, hlast, ?_⟩
          intro hsince u hu
          by_cases hut : u = t
          · rw [hut]
            exact Function.update_self t (s.db t) b.got
          · simp only [Function.update_of_ne hut]
            apply hread hsince
            rw [htodo, List.mem_cons, not_or]
            exact ⟨hut, hu⟩
        · intro b' hb'
          rw [hbuilding] at hb'
          cases hb'
          exact ⟨rfl, rfl⟩

/-! ## The end of a build -/

section Finish

variable {s : Net ι τ ν} {a : AdminProcess ι τ ν} {b : Building ι τ ν}

omit [DecidableEq ι] [DecidableEq τ] in
/-- psm-admin behind a build whose tables are all read. -/
theorem AdminOk.finish (h : AdminOk hash s.db s.commits a) (hb : a.building = some b)
    (htodo : b.todo = [])
    (hinj : ∀ kept k, a.builder.cached = some (kept, k) → hash kept.content = hash b.got →
      kept.content = b.got) :
    AdminOk hash s.db s.commits
      (⟨(a.builder.buildFullSnapshot hash b.got).builder, none, some b.since⟩ :
        AdminProcess ι τ ν) where
  numbered := h.numbered.build b.got
  lastSince_le := by
    rintro n ⟨⟩
    exact (h.building b hb).1
  building := fun b' hb' => absurd hb' (Option.some_ne_none b').symm
  current := by
    intro hlast snap k hcached
    have hsince : b.since = s.commits := Option.some.inj hlast
    have hgot : b.got = s.db := by
      funext t
      apply (h.building b hb).2.2 hsince
      rw [htodo]
      exact List.not_mem_nil
    have hsnap : snap = (a.builder.buildFullSnapshot hash b.got).snapshot := by
      have hkept := SnapshotBuilder.cached_build h.numbered b.got
      exact (Prod.mk.inj (Option.some.inj (hcached.symm.trans hkept))).1
    rw [hsnap, SnapshotBuilder.content_build h.numbered b.got hinj, hgot]

omit [DecidableEq ι] [DecidableEq τ] in
/-- A fresh build returns the snapshot a fresh build before it returned. -/
theorem cached_build_of_current (h : AdminOk hash s.db s.commits a) (hb : a.building = some b)
    (htodo : b.todo = []) {n : Nat} (hn : a.lastSince = some n) (hle : s.commits ≤ n)
    {snap : Snapshot (τ → ν)} {k : Int} (hcached : a.builder.cached = some (snap, k)) :
    (a.builder.buildFullSnapshot hash b.got).builder.cached = some (snap, k) := by
  obtain ⟨hble, hlast, hread⟩ := h.building b hb
  have hlen := hlast n hn
  have hsince : b.since = s.commits := by omega
  have hgot : b.got = s.db := by
    funext t
    apply hread hsince
    rw [htodo]
    exact List.not_mem_nil
  have hcontent : snap.content = s.db := by
    apply h.current _ snap k hcached
    rw [hn, show n = s.commits by omega]
  rcases SnapshotBuilder.buildFullSnapshot_cases h.numbered b.got with ⟨hsame, _⟩ | ⟨_, _, _, hne⟩
  · rw [hsame]
    exact hcached
  · exact absurd (by rw [hcontent, hgot]) (hne snap k hcached)

omit [DecidableEq ι] [DecidableEq τ] in
theorem ConsumerOk.finish (h : AdminOk hash s.db s.commits a) (hb : a.building = some b)
    (htodo : b.todo = []) {x : Consumer (τ → ν)} (hx : ConsumerOk s.process s.commits a x) :
    ConsumerOk s.process s.commits
      (⟨(a.builder.buildFullSnapshot hash b.got).builder, none, some b.since⟩ :
        AdminProcess ι τ ν) x where
  held hprocess snap hsnap := (hx.held hprocess snap hsnap).build h.numbered b.got
  answered := by
    intro snap since hmem
    obtain ⟨hissued, ⟨n, hn, hle⟩, hkept⟩ := hx.answered snap since hmem
    refine ⟨hissued.build h.numbered b.got, ⟨b.since, rfl, ?_⟩, ?_⟩
    · have := (h.building b hb).2.1 n hn
      omega
    · intro hsince
      obtain ⟨k, hcached⟩ := hkept hsince
      exact ⟨k, cached_build_of_current h hb htodo hn (by omega) hcached⟩

omit [DecidableEq ι] [DecidableEq τ] in
/-- The answer is a snapshot of the process. -/
theorem ConsumerOk.answer (h : AdminOk hash s.db s.commits a) {x : Consumer (τ → ν)}
    (hx : ConsumerOk s.process s.commits
      (⟨(a.builder.buildFullSnapshot hash b.got).builder, none, some b.since⟩ :
        AdminProcess ι τ ν) x) :
    ConsumerOk s.process s.commits
      (⟨(a.builder.buildFullSnapshot hash b.got).builder, none, some b.since⟩ :
        AdminProcess ι τ ν)
      (x.answer (a.builder.buildFullSnapshot hash b.got).snapshot s.process b.since) where
  held := hx.held
  answered := by
    intro snap since hmem
    rcases mem_replaceFirst hmem with hnew | hold
    · injection hnew with hsnap _ hsince
      subst hsnap hsince
      exact ⟨SnapshotBuilder.issued_build h.numbered b.got, ⟨_, rfl, Nat.le_refl _⟩,
        fun _ => ⟨_, SnapshotBuilder.cached_build h.numbered b.got⟩⟩
    · exact hx.answered snap since hold

end Finish

omit [DecidableEq ι] [DecidableEq τ] in
/-- A consumer that was served is served beyond a build that kept its snapshot, once the pull it
was for has its answer. -/
theorem Served.finish {s : Net ι τ ν} {a a' : AdminProcess ι τ ν} {b : Building ι τ ν} {c : ι}
    {x : Consumer (τ → ν)} {snap : Snapshot (τ → ν)} (hadmin : AdminOk hash s.db s.commits a)
    (hb : a.building = some b) (hcached : a'.builder.cached = a.builder.cached)
    (hlast : a'.lastSince = some b.since)
    (h : Served s.process s.commits s.uncommitted a c x) :
    (b.forConsumer ≠ some c → Served s.process s.commits s.uncommitted a' c x)
      ∧ Served s.process s.commits s.uncommitted a' c (x.answer snap s.process b.since) := by
  rcases h with (hqueue | hreq) | ⟨hnil, (⟨hmem, b', hb', hfor, hsince⟩ | ⟨snap', hmem⟩) | hsettled⟩
  · exact ⟨fun _ => Or.inl (Or.inl hqueue), Or.inl (Or.inl hqueue)⟩
  · exact ⟨fun _ => Or.inl (Or.inr hreq),
      Or.inl (Or.inr (mem_replaceFirst_of_not hreq rfl))⟩
  · -- the build was for the consumer's own pull
    rw [hb] at hb'
    cases hb'
    refine ⟨fun hne => absurd hfor hne, Or.inr ⟨hnil, Or.inl (Or.inr ⟨snap, ?_⟩)⟩⟩
    rw [← hsince]
    exact replaceFirst_self hmem rfl
  · exact ⟨fun _ => Or.inr ⟨hnil, Or.inl (Or.inr ⟨snap', hmem⟩)⟩,
      Or.inr ⟨hnil, Or.inl (Or.inr ⟨snap', mem_replaceFirst_of_not hmem rfl⟩)⟩⟩
  · obtain ⟨hl, hprocess, held, k, hheld, hkept⟩ := hsettled
    have hsettled' : Settled s.process s.commits a' x := by
      refine ⟨?_, hprocess, held, k, hheld, hcached.trans hkept⟩
      obtain ⟨hble, hlastle, _⟩ := hadmin.building b hb
      have := hlastle _ hl
      rw [hlast, show b.since = s.commits by omega]
    exact ⟨fun _ => Or.inr ⟨hnil, Or.inr hsettled'⟩, Or.inr ⟨hnil, Or.inr hsettled'⟩⟩

omit [DecidableEq ι] [DecidableEq τ] in
theorem Consistent.built {s : Net ι τ ν} (h : Consistent hash s) {a : AdminProcess ι τ ν}
    (ha : s.admin = some a) {b : Building ι τ ν} (hb : a.building = some b) (htodo : b.todo = [])
    (hgood : Orderly hash s .finishBuild) :
    Consistent hash (s.withAdmin
      ⟨(a.builder.buildFullSnapshot hash b.got).builder, none, some b.since⟩) where
  past := h.past
  admin := by
    rintro a' ⟨⟩
    exact (h.admin a ha).finish hb htodo fun kept k => hgood a b kept k ha hb
  consumers := by
    rintro a' ⟨⟩ c x hx
    exact (h.consumers a ha c x hx).finish (h.admin a ha) hb htodo

omit [DecidableEq τ] in
/-- A build with a new number: everybody is notified. -/
theorem Converging.finishBuild_published {s : Net ι τ ν} (h : Converging hash s)
    {a : AdminProcess ι τ ν} (ha : s.admin = some a) {b : Building ι τ ν}
    (hb : a.building = some b) (htodo : b.todo = []) (hgood : Orderly hash s .finishBuild)
    (c : Option ι) :
    Converging hash (Net.answer (s.withAdmin
        ⟨(a.builder.buildFullSnapshot hash b.got).builder, none, some b.since⟩).notify
      c (a.builder.buildFullSnapshot hash b.got).snapshot b.since) := by
  have hbuilt := Converging.of_notify (h.consistent.built ha hb htodo hgood)
  cases c with
  | none => exact hbuilt
  | some c =>
    unfold Net.answer
    apply hbuilt.withConsumer
    · intro y hy
      obtain ⟨x, hx, rfl⟩ := Option.map_eq_some_iff.mp hy
      obtain ⟨hle, hpulls⟩ := hbuilt.consistent.past c x hx
      refine ⟨hle, ?_⟩
      intro snap p since hmem
      rcases mem_replaceFirst hmem with hnew | hold
      · injection hnew with _ hp _
        exact Nat.le_of_eq hp
      · exact hpulls snap p since hold
    · rintro a' y ⟨⟩ hy
      obtain ⟨x, hx, rfl⟩ := Option.map_eq_some_iff.mp hy
      exact (hbuilt.consistent.consumers _ rfl c x hx).answer (h.consistent.admin a ha)
    · rintro a' y _ _ _ hy
      obtain ⟨x, hx, rfl⟩ := Option.map_eq_some_iff.mp hy
      obtain ⟨z, _, rfl⟩ := Option.map_eq_some_iff.mp hx
      exact Or.inl (Or.inl (Nat.succ_pos _))

omit [DecidableEq τ] in
/-- A build of known content: the snapshot kept is the answer. -/
theorem Converging.finishBuild_known {s : Net ι τ ν} (h : Converging hash s)
    {a : AdminProcess ι τ ν} (ha : s.admin = some a) {b : Building ι τ ν}
    (hb : a.building = some b) (htodo : b.todo = []) (hgood : Orderly hash s .finishBuild)
    (hsame : (a.builder.buildFullSnapshot hash b.got).builder = a.builder)
    (hcached : a.builder.cached ≠ none) :
    Converging hash (Net.answer (s.withAdmin
        ⟨(a.builder.buildFullSnapshot hash b.got).builder, none, some b.since⟩)
      b.forConsumer (a.builder.buildFullSnapshot hash b.got).snapshot b.since) := by
  have hadmin := h.consistent.admin a ha
  have hbuilt := h.consistent.built ha hb htodo hgood
  -- nothing but the builder counts for what a consumer is served, and it is the same
  have hserved : ∀ c x, s.unpublished = 0 → s.consumers c = some x → ∀ snap,
      (b.forConsumer ≠ some c → Served s.process s.commits s.uncommitted
        (⟨(a.builder.buildFullSnapshot hash b.got).builder, none, some b.since⟩ :
          AdminProcess ι τ ν) c x)
      ∧ Served s.process s.commits s.uncommitted
        (⟨(a.builder.buildFullSnapshot hash b.got).builder, none, some b.since⟩ :
          AdminProcess ι τ ν) c (x.answer snap s.process b.since) := by
    intro c x hpublished hx snap
    exact (h.served a ha hcached hpublished c x hx).finish hadmin hb (by rw [hsame]) rfl
  -- a build that nobody asked for, or one for a pull
  cases hfor : b.forConsumer with
  | none =>
    refine ⟨hbuilt, ?_⟩
    rintro a' ⟨⟩ _ hpublished c x hx
    exact (hserved c x hpublished hx (a.builder.buildFullSnapshot hash b.got).snapshot).1
      (by rw [hfor]; exact (Option.some_ne_none c).symm)
  | some c =>
    refine ⟨?_, ?_⟩
    -- the answer is under way to the consumer that asked
    · apply hbuilt.withConsumer
      · intro y hy
        obtain ⟨x, hx, rfl⟩ := Option.map_eq_some_iff.mp hy
        obtain ⟨hle, hpulls⟩ := h.consistent.past c x hx
        refine ⟨hle, ?_⟩
        intro snap p since hmem
        rcases mem_replaceFirst hmem with hnew | hold
        · injection hnew with _ hp _
          exact Nat.le_of_eq hp
        · exact hpulls snap p since hold
      · rintro a' y ⟨⟩ hy
        obtain ⟨x, hx, rfl⟩ := Option.map_eq_some_iff.mp hy
        exact (hbuilt.consumers _ rfl c x hx).answer hadmin
    · rintro a' ⟨⟩ _ hpublished d y hy
      -- the consumer that asked has the answer coming, the others are as they were
      simp only [Net.answer, Net.withConsumer, Function.update_apply] at hy
      split at hy
      · rename_i hd
        subst hd
        obtain ⟨x, hx, rfl⟩ := Option.map_eq_some_iff.mp hy
        exact (hserved d x hpublished hx _).2
      · rename_i hd
        refine (hserved d y hpublished hy (a.builder.buildFullSnapshot hash b.got).snapshot).1 ?_
        rw [hfor]
        exact fun heq => hd (Option.some.inj heq).symm

omit [DecidableEq τ] in
theorem Converging.finishBuild {s : Net ι τ ν} (h : Converging hash s)
    (hgood : Orderly hash s .finishBuild) : Converging hash (s.finishBuild hash) := by
  unfold Net.finishBuild
  cases ha : s.admin with
  | none => exact h
  | some a =>
    cases hb : a.building with
    | none => simpa [hb] using h
    | some b =>
      -- a build ends when all tables are read
      by_cases htodo : b.todo = []
      · simp only [hb, htodo, ne_eq, not_true_eq_false, if_false, Net.built]
        rcases SnapshotBuilder.buildFullSnapshot_cases (h.consistent.admin a ha).numbered b.got with
          ⟨hsame, hkept, hno, _⟩ | ⟨_, _, hyes, _⟩
        · rw [if_neg (by rw [hno]; exact Bool.false_ne_true)]
          exact h.finishBuild_known ha hb htodo hgood hsame
            (by rw [hkept]; exact Option.some_ne_none _)
        · rw [if_pos hyes]
          exact h.finishBuild_published ha hb htodo hgood b.forConsumer
      · simpa [hb, htodo] using h

/-! ## Every run -/

theorem Converging.step {s : Net ι τ ν} {e : NetEvent ι τ ν} (h : Converging hash s)
    (hgood : Orderly hash s e) : Converging hash (s.step order hash e) := by
  cases e with
  | publishWrite w =>
    simp only [Net.step]
    split
    · exact Converging.of_notify
        ⟨h.consistent.past, h.consistent.admin, h.consistent.consumers⟩
    · exact h
  | commitWrite i =>
    simp only [Net.step]
    split
    · exact h
    · rename_i w hw
      exact h.commitWrite hw
  | rollbackWrite i => exact h.rollbackWrite i
  | autocommitWrite w =>
    simp only [Net.step]
    split
    · exact h.autocommitWrite (w s.db)
    · exact h
  | publishLate =>
    simp only [Net.step]
    split
    · exact h
    · exact Converging.of_notify
        ⟨h.consistent.past, h.consistent.admin, h.consistent.consumers⟩
  | startConsumer c =>
    simp only [Net.step]
    split
    · exact h
    · exact h.startConsumer c
  | stopConsumer c => exact h.stopConsumer c
  | handleNotification c =>
    simp only [Net.step]
    split
    · exact h
    · rename_i x hx
      split
      · exact h
      · rename_i n _
        exact h.handleNotification hx n
  | startBuild c => exact h.startBuild hgood
  | readTable => exact h.readTable
  | finishBuild => exact h.finishBuild hgood
  | arrive c i =>
    simp only [Net.step]
    split
    · exact h
    · rename_i x hx
      split
      · rename_i hi
        exact h.arrive hx hi hgood
      · exact h
  | failPull c i =>
    simp only [Net.step]
    split
    · exact h
    · rename_i x hx
      exact h.failPull hx hgood
  | startAdmin =>
    simp only [Net.step]
    split
    · exact h
    · exact h.startAdmin
  | stopAdmin =>
    -- only answers that are built survive the end of psm-admin
    apply Converging.stopAdmin
    intro c x hx
    obtain ⟨y, hy, rfl⟩ := Option.map_eq_some_iff.mp hx
    exact ⟨(h.consistent.past c y hy).1, fun snap p since hmem =>
      (h.consistent.past c y hy).2 snap p since (List.mem_of_mem_filter hmem)⟩

/-- **The configuration converges** in every run whose steps are orderly: once all writes are
committed and all notifications handled, every consumer holds the content of the database. -/
theorem configuration_converges (order : TableOrder τ) (hash : (τ → ν) → Int) (db : τ → ν)
    (es : List (NetEvent ι τ ν))
    (h : Along (Net.step order hash) (Orderly hash) (.initial db) es)
    (hquiet : (run (Net.step order hash) (.initial db) es).Quiet) :
    (run (Net.step order hash) (.initial db) es).Converged := by
  have hinv : Converging hash (run (Net.step order hash) (.initial db) es) :=
    Along.invariant (fun _ _ hs he => hs.step he) (Converging.initial db) h
  exact hinv.converged hquiet

end OneConsumer

/-- One table, which holds a number. -/
private def oneTable : TableOrder Unit := ⟨[()], fun _ => List.mem_singleton.mpr rfl⟩

private def tableHash (content : Unit → Nat) : Int := content ()

/-- psm-admin starts and announces itself, and a consumer pulls its first snapshot. -/
private def boot : List (NetEvent Unit Unit Nat) :=
  [.startAdmin, .startBuild none, .readTable, .finishBuild, .startConsumer (), .startBuild (some ()),
    .readTable, .finishBuild, .arrive () 0]

/-- The pull that answers a notification. -/
private def pulled : List (NetEvent Unit Unit Nat) :=
  [.handleNotification (), .startBuild (some ()), .readTable, .finishBuild, .arrive () 0,
    .handleNotification (), .startBuild (some ()), .readTable, .finishBuild, .arrive () 0]

/-- The commit comes before the pull: the consumer holds the write. -/
theorem configuration_converges_after_commit :
    (run (Net.step oneTable tableHash) (.initial fun _ => 0)
      (boot ++ [.publishWrite fun _ _ => 1, .commitWrite 0] ++ pulled)).Converged := by
  have hhash : ∀ f g : Unit → Nat, tableHash f = tableHash g → f = g := by
    intro f g h
    funext
    exact Int.ofNat.inj h
  apply configuration_converges oneTable tableHash
  · refine ⟨trivial, trivial, trivial, ?_, trivial, rfl, trivial, ?_, ?_, trivial, trivial, trivial,
      rfl, trivial, ?_, ?_, trivial, rfl, trivial, ?_, ?_, trivial⟩
    case refine_1 => exact fun _ b kept _ _ _ _ h => hhash kept.content b.got h
    case refine_2 => exact fun _ b kept _ _ _ _ h => hhash kept.content b.got h
    case refine_4 => exact fun _ b kept _ _ _ _ h => hhash kept.content b.got h
    case refine_6 => exact fun _ b kept _ _ _ _ h => hhash kept.content b.got h
    case refine_3 =>
      rintro x snap p since held ⟨⟩ ⟨⟩ ⟨⟩
    case refine_5 =>
      rintro x snap p since held ⟨⟩ ⟨⟩ ⟨⟩
      exact ⟨fun h => absurd h (by decide), fun h => absurd h (by decide)⟩
    case refine_7 =>
      rintro x snap p since held ⟨⟩ ⟨⟩ ⟨⟩
      exact ⟨fun h => absurd h (by decide), fun h => absurd h (by decide)⟩
  · refine ⟨⟨rfl, rfl⟩, ⟨_, rfl, by exact Option.some_ne_none _⟩, ?_⟩
    rintro ⟨⟩ x ⟨⟩
    exact ⟨rfl, rfl⟩

/-- The pull comes before the commit: it finds the old content, and nothing tells of the new. -/
theorem configuration_lost_before_commit :
    ¬ ((run (Net.step oneTable tableHash) (.initial fun _ => 0)
        (boot ++ [.publishWrite fun _ _ => 1, .handleNotification (), .startBuild (some ()),
          .readTable, .finishBuild, .arrive () 0, .commitWrite 0])).Quiet →
      (run (Net.step oneTable tableHash) (.initial fun _ => 0)
        (boot ++ [.publishWrite fun _ _ => 1, .handleNotification (), .startBuild (some ()),
          .readTable, .finishBuild, .arrive () 0, .commitWrite 0])).Converged) := by
  intro h
  have hquiet : (run (Net.step oneTable tableHash) (.initial fun _ => 0)
      (boot ++ [.publishWrite fun _ _ => 1, .handleNotification (), .startBuild (some ()),
        .readTable, .finishBuild, .arrive () 0, .commitWrite 0])).Quiet := by
    refine ⟨⟨rfl, rfl⟩, ⟨_, rfl, by exact Option.some_ne_none _⟩, ?_⟩
    rintro ⟨⟩ x ⟨⟩
    exact ⟨rfl, rfl⟩
  obtain ⟨snap, hsnap, hcontent⟩ := h hquiet () _ rfl
  cases hsnap
  exact absurd (congrFun hcontent ()) (by decide)

end PlmCore.Platform
