/-
`ConfigSnapshotBuilder`: numbering the snapshots of psm-admin.

Content with the hash of the snapshot built last gets that snapshot again, so that a consumer
that has it takes no notice; any other content gets the next number, and an event is published.
The counter and the last snapshot live in the process.
-/
import PlmCore.Platform.ConfigCache

set_option autoImplicit false

namespace PlmCore.Platform

variable {κ : Type}

/-- `versionCounter`, and `cachedSnapshot` with `cachedContentHash`. -/
structure SnapshotBuilder (κ : Type) where
  versionCounter : Nat
  cached : Option (Snapshot κ × Int)

/-- What a call of `buildFullSnapshot` leaves and returns. -/
structure Build (κ : Type) where
  builder : SnapshotBuilder κ
  snapshot : Snapshot κ
  published : Bool

namespace SnapshotBuilder

/-- A process that has built nothing yet. -/
def started : SnapshotBuilder κ := ⟨0, none⟩

/-- The content is numbered and kept. -/
def number (hash : κ → Int) (b : SnapshotBuilder κ) (content : κ) : Build κ where
  builder := ⟨b.versionCounter + 1, some (⟨b.versionCounter + 1, content⟩, hash content)⟩
  snapshot := ⟨b.versionCounter + 1, content⟩
  published := true

/-- `buildFullSnapshot`, on the content read from the tables. -/
def buildFullSnapshot (hash : κ → Int) (b : SnapshotBuilder κ) (content : κ) : Build κ :=
  match b.cached with
  | none => b.number hash content
  | some (cachedSnapshot, cachedContentHash) =>
    if hash content = cachedContentHash then ⟨b, cachedSnapshot, false⟩ else b.number hash content

/-- The snapshot kept has the number of the counter and the hash of its content. -/
def Numbered (hash : κ → Int) (b : SnapshotBuilder κ) : Prop :=
  ∀ s h, b.cached = some (s, h) → s.version = b.versionCounter ∧ h = hash s.content

theorem numbered_started (hash : κ → Int) : Numbered hash (started : SnapshotBuilder κ) :=
  fun _ _ h => absurd h (Option.some_ne_none _).symm

/-- **What a build does.** It returns the snapshot it keeps: either the one it had, for content
of the same hash, or the content under the next number. -/
theorem buildFullSnapshot_cases {hash : κ → Int} {b : SnapshotBuilder κ} (hb : Numbered hash b)
    (content : κ) :
    let r := b.buildFullSnapshot hash content
    (r.builder = b ∧ b.cached = some (r.snapshot, hash content) ∧ r.published = false
        ∧ hash content = hash r.snapshot.content)
      ∨ (r.builder = ⟨b.versionCounter + 1, some (r.snapshot, hash content)⟩
        ∧ r.snapshot = ⟨b.versionCounter + 1, content⟩ ∧ r.published = true
        ∧ ∀ s h, b.cached = some (s, h) → hash s.content ≠ hash content) := by
  intro r
  -- the first build numbers, a later one only content of another hash
  cases hc : b.cached with
  | none =>
    right
    have hr : r = b.number hash content := by
      simp only [r, buildFullSnapshot, hc]
    rw [hr]
    exact ⟨rfl, rfl, rfl, fun s h hs => absurd hs (Option.some_ne_none _).symm⟩
  | some kept =>
    obtain ⟨s, h⟩ := kept
    obtain ⟨_, hhash⟩ := hb s h hc
    by_cases heq : hash content = h
    · left
      have hr : r = ⟨b, s, false⟩ := by
        simp only [r, buildFullSnapshot, hc, if_pos heq]
      rw [hr]
      exact ⟨rfl, by rw [heq], rfl, heq.trans hhash⟩
    · right
      have hr : r = b.number hash content := by
        simp only [r, buildFullSnapshot, hc, if_neg heq]
      rw [hr]
      refine ⟨rfl, rfl, rfl, ?_⟩
      intro s' h' hs' hsame
      cases hs'
      exact heq (hsame.symm.trans hhash.symm)

/-- A build keeps the numbering. -/
theorem Numbered.build {hash : κ → Int} {b : SnapshotBuilder κ} (hb : Numbered hash b)
    (content : κ) : Numbered hash (b.buildFullSnapshot hash content).builder := by
  rcases buildFullSnapshot_cases hb content with ⟨hsame, _⟩ | ⟨hnew, hsnap, _⟩
  · rw [hsame]
    exact hb
  · rw [hnew]
    intro s h hs
    obtain ⟨rfl, rfl⟩ := Prod.mk.inj (Option.some.inj hs)
    rw [hsnap]
    exact ⟨rfl, rfl⟩

/-- The snapshot returned is the one kept. -/
theorem cached_build {hash : κ → Int} {b : SnapshotBuilder κ} (hb : Numbered hash b)
    (content : κ) :
    (b.buildFullSnapshot hash content).builder.cached
      = some ((b.buildFullSnapshot hash content).snapshot, hash content) := by
  rcases buildFullSnapshot_cases hb content with ⟨hsame, hcached, _⟩ | ⟨hnew, _, _⟩
  · rw [hsame]
    exact hcached
  · rw [hnew]

/-- Without a collision the snapshot returned has the content. -/
theorem content_build {hash : κ → Int} {b : SnapshotBuilder κ} (hb : Numbered hash b)
    (content : κ)
    (hinj : ∀ s h, b.cached = some (s, h) → hash s.content = hash content → s.content = content) :
    (b.buildFullSnapshot hash content).snapshot.content = content := by
  rcases buildFullSnapshot_cases hb content with ⟨_, hcached, _, hhash⟩ | ⟨_, hsnap, _⟩
  · exact hinj _ _ hcached hhash.symm
  · rw [hsnap]

/-- A snapshot of the process: not newer than its counter, and at the counter the one it keeps. -/
def Issued (b : SnapshotBuilder κ) (s : Snapshot κ) : Prop :=
  s.version ≤ b.versionCounter ∧ (s.version = b.versionCounter → ∃ h, b.cached = some (s, h))

/-- What was issued stays so. -/
theorem Issued.build {hash : κ → Int} {b : SnapshotBuilder κ} {s : Snapshot κ} (h : b.Issued s)
    (hb : Numbered hash b) (content : κ) :
    (b.buildFullSnapshot hash content).builder.Issued s := by
  obtain ⟨hle, hkept⟩ := h
  rcases buildFullSnapshot_cases hb content with ⟨hsame, _⟩ | ⟨hnew, _⟩
  · rw [hsame]
    exact ⟨hle, hkept⟩
  · rw [hnew]
    constructor
    · exact Nat.le_succ_of_le hle
    · intro (hversion : s.version = b.versionCounter + 1)
      omega

/-- The snapshot returned is issued, as the newest. -/
theorem issued_build {hash : κ → Int} {b : SnapshotBuilder κ} (hb : Numbered hash b)
    (content : κ) :
    (b.buildFullSnapshot hash content).builder.Issued (b.buildFullSnapshot hash content).snapshot :=
  ⟨Nat.le_of_eq ((hb.build content) _ _ (cached_build hb content)).1,
    fun _ => ⟨_, cached_build hb content⟩⟩

end SnapshotBuilder

end PlmCore.Platform
