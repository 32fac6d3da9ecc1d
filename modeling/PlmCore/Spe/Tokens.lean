/-
Revocation of tokens: pno changes roles, grants and users, and the gateway stamps and checks.

A mutation of pno is a write, a bump of the version and an event with the new version. The
gateway keeps the largest version it has heard of, stamps it on the session tokens it mints
(`pv`) and rejects a token whose stamp is older. What a token carries was read from pno before,
or from a cache entry at most ten seconds old; a forward token for WebDAV is not stamped.

Writes are numbered in their order, and `readAt` is the number of writes before a reading: a
token reflects the mutation `m` iff `m < readAt`. It is history, as `handled` and `numbered` are.
-/
import PlmCore.Lib.Run
import PlmCore.Spe.Gateway

set_option autoImplicit false

namespace PlmCore.Spe

open PlmCore.Lib

/-! ## The parties -/

/-- What asks for a user context: a login, a switch of the project, a WebDAV request. -/
inductive Purpose where
  | login
  | switch_project
  | dav
  deriving DecidableEq

/-- A call of `get_user_context`: pno is asked, has answered, or the context is there. -/
inductive Stage where
  | asked
  | answered (ctx : Option UserContext) (readAt : Nat)
  | resolved (ctx : Option UserContext) (readAt : Nat)

structure ContextRequest where
  purpose : Purpose
  user_id : String
  ps : Option String
  stage : Stage

/-- An entry of `ctx_cache`. -/
structure CacheEntry where
  user_id : String
  ps : Option String
  ctx : UserContext
  readAt : Nat
  since : Nat

structure Token where
  ctx : UserContext
  expires : Nat
  readAt : Nat
  deriving DecidableEq

/-- pno and the gateway. `seeds` are answers of pno with its version that are on their way. -/
structure Tracking (δ : Type) where
  data : δ
  writes : Nat
  version : Nat
  numbered : List (Nat × Nat)
  handled : List Nat
  seeds : List Nat
  tracked : Nat
  ctx_cache : List CacheEntry
  requests : List ContextRequest
  sessions : List Token
  forwards : List Token
  now : Nat

/-- What the gateway is configured with, and what pno makes of its data. -/
structure Tracker (δ : Type) where
  context : δ → String → Option String → Option UserContext
  session_ttl : Nat
  forward_ttl : Nat

variable {δ : Type}

/-- pno starts with a version from the clock, the gateway with none. -/
def Tracking.started (data : δ) (seed_version : Nat) : Tracking δ :=
  ⟨data, 0, seed_version, [], [], [], 0, [], [], [], [], 0⟩

inductive TrackingEvent (δ : Type) where
  | tick (seconds : Nat)
  | write (f : δ → δ)
  | bump (m : Nat)
  /-- The event of a mutation is handled, maybe again. -/
  | deliver (m : Nat)
  | fetchVersion
  | seed (i : Nat)
  | request (purpose : Purpose) (user_id : String) (ps : Option String)
  | answer (i : Nat)
  | receive (i : Nat)
  | mint (i : Nat)
  /-- A request with the session token is forwarded. -/
  | forward (i : Nat)

/-! ## The steps -/

/-- `pv_current`, on the version tracked. -/
def stampCurrent (ctx : UserContext) (tracked : Nat) : Bool :=
  match ctx.pv with
  | some pv => (tracked : Int) ≤ pv
  | none => true

/-- The gateway accepts the token. -/
def Tracking.accepts (s : Tracking δ) (t : Token) : Bool :=
  s.now < t.expires && stampCurrent t.ctx s.tracked

/-- `ctx_cache.get`: entries live for ten seconds. -/
def Tracking.cached (s : Tracking δ) (user_id : String) (ps : Option String) :
    Option CacheEntry :=
  s.ctx_cache.find? fun e => e.user_id = user_id ∧ e.ps.getD "" = ps.getD "" ∧ s.now ≤ e.since + 10

/-- `ctx_cache.insert`. -/
def insertContext (cache : List CacheEntry) (e : CacheEntry) : List CacheEntry :=
  e :: cache.filter fun e' => ¬(e'.user_id = e.user_id ∧ e'.ps.getD "" = e.ps.getD "")

/-- The end of `login`, `switch_project` and `resolve_and_forward`. -/
def Tracking.mintFor (k : Tracker δ) (s : Tracking δ) (purpose : Purpose) (ctx : UserContext)
    (readAt : Nat) : Tracking δ :=
  match purpose with
  | .login => { s with sessions := s.sessions ++
      [⟨{ ctx with pv := some s.tracked }, s.now + k.session_ttl, readAt⟩] }
  | .switch_project =>
    if ctx.is_admin || !ctx.role_ids.isEmpty then
      { s with sessions := s.sessions ++
        [⟨{ ctx with pv := some s.tracked }, s.now + k.session_ttl, readAt⟩] }
    else s
  | .dav => { s with forwards := s.forwards ++ [⟨ctx, s.now + k.forward_ttl, readAt⟩] }

def Tracking.step (k : Tracker δ) (s : Tracking δ) : TrackingEvent δ → Tracking δ
  | .tick seconds => { s with now := s.now + seconds }
  | .write f => { s with data := f s.data, writes := s.writes + 1 }
  -- a version number is drawn for one committed write, and for no write twice
  | .bump m =>
    if m < s.writes ∧ ∀ n ∈ s.numbered, n.1 ≠ m then
      { s with version := s.version + 1, numbered := s.numbered ++ [(m, s.version + 1)] }
    else s
  | .deliver m =>
    match s.numbered.find? fun n => n.1 = m with
    | none => s
    -- events can come late and in any order: the mirror takes the maximum
    | some (_, v) => { s with tracked := max s.tracked v, handled := m :: s.handled }
  | .fetchVersion => { s with seeds := s.seeds ++ [s.version] }
  | .seed i =>
    match s.seeds[i]? with
    | none => s
    | some v => { s with tracked := max s.tracked v, seeds := s.seeds.eraseIdx i }
  | .request purpose user_id ps =>
    -- a cached context is taken whatever `pv` says by now
    match s.cached user_id ps with
    | some e => { s with requests := s.requests ++
        [⟨purpose, user_id, ps, .resolved (some e.ctx) e.readAt⟩] }
    | none => { s with requests := s.requests ++ [⟨purpose, user_id, ps, .asked⟩] }
  | .answer i =>
    match s.requests[i]? with
    -- pno reads the data now; the answer can be received any number of steps later
    | some ⟨purpose, user_id, ps, .asked⟩ =>
      let ctx := (k.context s.data user_id ps).map fun ctx => { ctx with pv := none }
      { s with requests := s.requests.set i ⟨purpose, user_id, ps, .answered ctx s.writes⟩ }
    | _ => s
  | .receive i =>
    match s.requests[i]? with
    | some ⟨purpose, user_id, ps, .answered ctx readAt⟩ =>
      { s with
        requests := s.requests.set i ⟨purpose, user_id, ps, .resolved ctx readAt⟩
        ctx_cache := match ctx with
          | none => s.ctx_cache
          | some ctx => insertContext s.ctx_cache ⟨user_id, ps, ctx, readAt, s.now⟩ }
    | _ => s
  | .mint i =>
    match s.requests[i]? with
    | some ⟨purpose, _, _, .resolved (some ctx) readAt⟩ =>
      { s with requests := s.requests.eraseIdx i }.mintFor k purpose ctx readAt
    | _ => s
  | .forward i =>
    match s.sessions[i]? with
    | none => s
    | some t =>
      if s.accepts t then
        { s with forwards := s.forwards ++ [⟨t.ctx, s.now + k.forward_ttl, t.readAt⟩] }
      else s

/-! ## Revocation -/

/-- **No token that is accepted is older than a mutation whose event was handled.** -/
def Revoked (s : Tracking δ) : Prop :=
  ∀ m ∈ s.handled, ∀ t ∈ s.sessions ++ s.forwards, s.accepts t = true → m < t.readAt

/-- When a token is stamped, every mutation up to the version tracked was written before its
context was read; a context read before a mutation whose event was handled makes no WebDAV
token, and when an event is handled no WebDAV token made from one is still valid. -/
def ReadAfterWrites (s : Tracking δ) : TrackingEvent δ → Prop
  | .mint i => ∀ purpose user_id ps ctx readAt,
      s.requests[i]? = some ⟨purpose, user_id, ps, .resolved (some ctx) readAt⟩ →
      if purpose = .dav then ∀ m ∈ s.handled, m < readAt
      else ∀ n ∈ s.numbered, n.2 ≤ s.tracked → n.1 < readAt
  | .deliver m => ∀ t ∈ s.forwards, t.ctx.pv = none → s.now < t.expires → m < t.readAt
  | _ => True

/-! ## The invariant -/

/-- Versions tracked and stamped come from pno; a stamped token reflects every mutation up to its
stamp, and a valid token without stamp every mutation whose event was handled. -/
structure Stamped (s : Tracking δ) : Prop where
  numbered : ∀ n ∈ s.numbered, n.2 ≤ s.version
  seeds : ∀ v ∈ s.seeds, v ≤ s.version
  tracked : s.tracked ≤ s.version
  handled : ∀ m ∈ s.handled, ∃ v, (m, v) ∈ s.numbered ∧ v ≤ s.tracked
  stamped : ∀ t ∈ s.sessions ++ s.forwards, ∀ pv, t.ctx.pv = some pv → ∃ v : Nat, pv = v
    ∧ v ≤ s.version ∧ ∀ n ∈ s.numbered, n.2 ≤ v → n.1 < t.readAt
  sessions : ∀ t ∈ s.sessions, t.ctx.pv ≠ none
  unstamped : ∀ t ∈ s.forwards, t.ctx.pv = none → s.now < t.expires →
    ∀ m ∈ s.handled, m < t.readAt
  contexts : ∀ r ∈ s.requests, ∀ ctx readAt,
    r.stage = .answered (some ctx) readAt ∨ r.stage = .resolved (some ctx) readAt → ctx.pv = none
  cached : ∀ e ∈ s.ctx_cache, e.ctx.pv = none

theorem Stamped.started (data : δ) (seed_version : Nat) :
    Stamped (.started data seed_version) where
  numbered _ h := absurd h List.not_mem_nil
  seeds _ h := absurd h List.not_mem_nil
  tracked := Nat.zero_le _
  handled _ h := absurd h List.not_mem_nil
  stamped _ h := absurd h List.not_mem_nil
  sessions _ h := absurd h List.not_mem_nil
  unstamped _ h := absurd h List.not_mem_nil
  contexts _ h := absurd h List.not_mem_nil
  cached _ h := absurd h List.not_mem_nil

/-- What is accepted reflects every mutation whose event was handled. -/
theorem Stamped.revoked {s : Tracking δ} (h : Stamped s) : Revoked s := by
  intro m hm t ht hacc
  unfold Tracking.accepts stampCurrent at hacc
  rw [Bool.and_eq_true, decide_eq_true_eq] at hacc
  obtain ⟨hvalid, hpv⟩ := hacc
  cases hstamp : t.ctx.pv with
  | none =>
    rcases List.mem_append.mp ht with hsession | hforward
    · exact absurd hstamp (h.sessions t hsession)
    · exact h.unstamped t hforward hstamp hvalid m hm
  | some pv =>
    rw [hstamp] at hpv
    obtain ⟨v, rfl, _, hread⟩ := h.stamped t ht pv hstamp
    obtain ⟨w, hw, hle⟩ := h.handled m hm
    have hle' : s.tracked ≤ v := by
      have := of_decide_eq_true hpv
      omega
    exact hread (m, w) hw (by simp only; omega)

/-! ## The steps keep it -/

theorem Stamped.bump {s : Tracking δ} (h : Stamped s) (m : Nat) :
    Stamped { s with version := s.version + 1, numbered := s.numbered ++ [(m, s.version + 1)] } where
  numbered := by
    intro n hn
    rcases List.mem_append.mp hn with hold | hnew
    · exact Nat.le_succ_of_le (h.numbered n hold)
    · rw [List.mem_singleton.mp hnew]
  seeds v hv := Nat.le_succ_of_le (h.seeds v hv)
  tracked := Nat.le_succ_of_le h.tracked
  handled := by
    intro k hk
    obtain ⟨v, hv, hle⟩ := h.handled k hk
    exact ⟨v, List.mem_append_left _ hv, hle⟩
  stamped := by
    intro t ht pv hpv
    obtain ⟨v, rfl, hle, hread⟩ := h.stamped t ht pv hpv
    refine ⟨v, rfl, Nat.le_succ_of_le hle, ?_⟩
    intro n hn hnv
    rcases List.mem_append.mp hn with hold | hnew
    · exact hread n hold hnv
    · -- the new version is above every stamp
      rw [List.mem_singleton.mp hnew] at hnv
      simp only at hnv
      omega
  sessions := h.sessions
  unstamped := h.unstamped
  contexts := h.contexts
  cached := h.cached

theorem Stamped.deliver {s : Tracking δ} (h : Stamped s) {m v : Nat} (hv : (m, v) ∈ s.numbered)
    (hgood : ReadAfterWrites s (.deliver m)) :
    Stamped { s with tracked := max s.tracked v, handled := m :: s.handled } where
  numbered := h.numbered
  seeds := h.seeds
  tracked := Nat.max_le.mpr ⟨h.tracked, h.numbered (m, v) hv⟩
  handled := by
    intro k hk
    rcases List.mem_cons.mp hk with rfl | hk
    · exact ⟨v, hv, Nat.le_max_right _ _⟩
    · obtain ⟨w, hw, hle⟩ := h.handled k hk
      exact ⟨w, hw, Nat.le_trans hle (Nat.le_max_left _ _)⟩
  stamped := h.stamped
  sessions := h.sessions
  unstamped := by
    intro t ht hpv hvalid k hk
    rcases List.mem_cons.mp hk with rfl | hk
    · exact hgood t ht hpv hvalid
    · exact h.unstamped t ht hpv hvalid k hk
  contexts := h.contexts
  cached := h.cached

theorem Stamped.seed {s : Tracking δ} (h : Stamped s) {v i : Nat} (hv : v ∈ s.seeds) :
    Stamped { s with tracked := max s.tracked v, seeds := s.seeds.eraseIdx i } where
  numbered := h.numbered
  seeds w hw := h.seeds w (List.mem_of_mem_eraseIdx hw)
  tracked := Nat.max_le.mpr ⟨h.tracked, h.seeds v hv⟩
  handled := by
    intro k hk
    obtain ⟨w, hw, hle⟩ := h.handled k hk
    exact ⟨w, hw, Nat.le_trans hle (Nat.le_max_left _ _)⟩
  stamped := h.stamped
  sessions := h.sessions
  unstamped := h.unstamped
  contexts := h.contexts
  cached := h.cached

/-- The requests go on: nothing is stamped by it. -/
theorem Stamped.withRequests {s : Tracking δ} (h : Stamped s) (requests : List ContextRequest)
    (ctx_cache : List CacheEntry)
    (hrequests : ∀ r ∈ requests, ∀ ctx readAt,
      r.stage = .answered (some ctx) readAt ∨ r.stage = .resolved (some ctx) readAt → ctx.pv = none)
    (hcache : ∀ e ∈ ctx_cache, e.ctx.pv = none) : Stamped { s with requests, ctx_cache } where
  numbered := h.numbered
  seeds := h.seeds
  tracked := h.tracked
  handled := h.handled
  stamped := h.stamped
  sessions := h.sessions
  unstamped := h.unstamped
  contexts := hrequests
  cached := hcache

/-- A session token is minted with the version tracked. -/
theorem Stamped.withSession {s : Tracking δ} (h : Stamped s) (ctx : UserContext)
    (expires readAt : Nat) (hread : ∀ n ∈ s.numbered, n.2 ≤ s.tracked → n.1 < readAt) :
    Stamped { s with sessions := s.sessions ++
      [⟨{ ctx with pv := some s.tracked }, expires, readAt⟩] } where
  numbered := h.numbered
  seeds := h.seeds
  tracked := h.tracked
  handled := h.handled
  stamped := by
    intro t ht pv hpv
    have hcases : t ∈ s.sessions ++ s.forwards
        ∨ t = ⟨{ ctx with pv := some s.tracked }, expires, readAt⟩ := by
      simp only [List.mem_append, List.mem_singleton] at ht ⊢
      rcases ht with (ht | ht) | ht
      · exact Or.inl (Or.inl ht)
      · exact Or.inr ht
      · exact Or.inl (Or.inr ht)
    rcases hcases with hold | rfl
    · exact h.stamped t hold pv hpv
    · exact ⟨s.tracked, (Option.some.inj hpv).symm, h.tracked, hread⟩
  sessions := by
    intro t ht
    rcases List.mem_append.mp ht with hold | hnew
    · exact h.sessions t hold
    · rw [List.mem_singleton.mp hnew]
      exact Option.some_ne_none _
  unstamped := h.unstamped
  contexts := h.contexts
  cached := h.cached

/-- A forward token is minted with the stamp of its session, or without one. -/
theorem Stamped.withForward {s : Tracking δ} (h : Stamped s) (t : Token)
    (hstamped : ∀ pv, t.ctx.pv = some pv → ∃ v : Nat, pv = v ∧ v ≤ s.version
      ∧ ∀ n ∈ s.numbered, n.2 ≤ v → n.1 < t.readAt)
    (hunstamped : t.ctx.pv = none → ∀ m ∈ s.handled, m < t.readAt) :
    Stamped { s with forwards := s.forwards ++ [t] } where
  numbered := h.numbered
  seeds := h.seeds
  tracked := h.tracked
  handled := h.handled
  stamped := by
    intro u hu pv hpv
    rw [← List.append_assoc] at hu
    rcases List.mem_append.mp hu with hold | hnew
    · exact h.stamped u hold pv hpv
    · rw [List.mem_singleton.mp hnew] at hpv ⊢
      exact hstamped pv hpv
  sessions := h.sessions
  unstamped := by
    intro u hu hpv hvalid
    rcases List.mem_append.mp hu with hold | hnew
    · exact h.unstamped u hold hpv hvalid
    · rw [List.mem_singleton.mp hnew] at hpv ⊢
      exact hunstamped hpv
  contexts := h.contexts
  cached := h.cached

theorem Stamped.mint {k : Tracker δ} {s : Tracking δ} (h : Stamped s) {i : Nat}
    {purpose : Purpose} {user_id : String} {ps : Option String} {ctx : UserContext} {readAt : Nat}
    (hi : s.requests[i]? = some ⟨purpose, user_id, ps, .resolved (some ctx) readAt⟩)
    (hgood : ReadAfterWrites s (.mint i)) :
    Stamped ({ s with requests := s.requests.eraseIdx i }.mintFor k purpose ctx readAt) := by
  have hread := hgood purpose user_id ps ctx readAt hi
  have hrest : Stamped { s with requests := s.requests.eraseIdx i } :=
    h.withRequests _ s.ctx_cache (fun r hr => h.contexts r (List.mem_of_mem_eraseIdx hr)) h.cached
  cases purpose with
  | login => exact hrest.withSession ctx _ readAt hread
  | switch_project =>
    unfold Tracking.mintFor
    simp only
    split
    · exact hrest.withSession ctx _ readAt hread
    · exact hrest
  | dav =>
    have hpv : ctx.pv = none := h.contexts _ (List.mem_of_getElem? hi) ctx readAt (Or.inr rfl)
    apply hrest.withForward
    · intro pv hsome
      exact absurd (hpv.symm.trans hsome) (Option.some_ne_none pv).symm
    · exact fun _ => hread

theorem Stamped.step {k : Tracker δ} {s : Tracking δ} {e : TrackingEvent δ} (h : Stamped s)
    (hgood : ReadAfterWrites s e) : Stamped (s.step k e) := by
  cases e with
  | tick seconds =>
    exact
      { numbered := h.numbered
        seeds := h.seeds
        tracked := h.tracked
        handled := h.handled
        stamped := h.stamped
        sessions := h.sessions
        -- time only passes, so what is valid later is valid now
        unstamped := fun t ht hpv hvalid => h.unstamped t ht hpv (Nat.lt_of_le_of_lt
          (Nat.le_add_right s.now seconds) hvalid)
        contexts := h.contexts
        cached := h.cached }
  | write f =>
    exact
      { numbered := h.numbered
        seeds := h.seeds
        tracked := h.tracked
        handled := h.handled
        stamped := h.stamped
        sessions := h.sessions
        unstamped := h.unstamped
        contexts := h.contexts
        cached := h.cached }
  | bump m =>
    simp only [Tracking.step]
    split
    · exact h.bump m
    · exact h
  | deliver m =>
    simp only [Tracking.step]
    split
    · exact h
    · rename_i n v hfind
      have hmem := List.mem_of_find?_eq_some hfind
      have hkey := List.find?_some hfind
      rw [decide_eq_true_eq] at hkey
      simp only at hkey
      rw [hkey] at hmem
      -- the event tells the number that was drawn for the write
      exact h.deliver hmem hgood
  | fetchVersion =>
    exact
      { numbered := h.numbered
        seeds := by
          intro v hv
          rcases List.mem_append.mp hv with hold | hnew
          · exact h.seeds v hold
          · exact Nat.le_of_eq (List.mem_singleton.mp hnew)
        tracked := h.tracked
        handled := h.handled
        stamped := h.stamped
        sessions := h.sessions
        unstamped := h.unstamped
        contexts := h.contexts
        cached := h.cached }
  | seed i =>
    simp only [Tracking.step]
    split
    · exact h
    · rename_i v hv
      exact h.seed (List.mem_of_getElem? hv)
  | request purpose user_id ps =>
    simp only [Tracking.step]
    split
    · rename_i entry hfind
      apply h.withRequests _ s.ctx_cache _ h.cached
      -- the requests before it keep their contexts, the new one has that of the cache
      intro r hr ctx readAt hstage
      rcases List.mem_append.mp hr with hold | hnew
      · exact h.contexts r hold ctx readAt hstage
      · rw [List.mem_singleton.mp hnew] at hstage
        rcases hstage with hstage | hstage <;> cases hstage
        exact h.cached entry (List.mem_of_find?_eq_some hfind)
    · apply h.withRequests _ s.ctx_cache _ h.cached
      intro r hr ctx readAt hstage
      rcases List.mem_append.mp hr with hold | hnew
      · exact h.contexts r hold ctx readAt hstage
      · rw [List.mem_singleton.mp hnew] at hstage
        rcases hstage with hstage | hstage <;> cases hstage
  | answer i =>
    simp only [Tracking.step]
    split
    · rename_i purpose user_id ps hi
      apply h.withRequests _ s.ctx_cache _ h.cached
      intro r hr ctx readAt hstage
      rcases List.mem_or_eq_of_mem_set hr with hold | rfl
      · exact h.contexts r hold ctx readAt hstage
      -- an answer of pno is no stamp: `pv` is `none` until the mint
      · rcases hstage with hstage | hstage
        · injection hstage with hctx _
          obtain ⟨c, _, rfl⟩ := Option.map_eq_some_iff.mp hctx
          rfl
        · cases hstage
    · exact h
  | receive i =>
    simp only [Tracking.step]
    split
    · rename_i purpose user_id ps ctx readAt hi
      have hpv := h.contexts _ (List.mem_of_getElem? hi)
      apply h.withRequests
      · intro r hr ctx' readAt' hstage
        rcases List.mem_or_eq_of_mem_set hr with hold | rfl
        · exact h.contexts r hold ctx' readAt' hstage
        · rcases hstage with hstage | hstage
          · cases hstage
          · injection hstage with hctx _
            exact hpv ctx' readAt (Or.inl (by rw [hctx]))
      -- a context that enters the cache came with the answer
      · intro e he
        cases hc : ctx with
        | none =>
          rw [hc] at he
          exact h.cached e he
        | some ctx' =>
          rw [hc] at he
          rcases List.mem_cons.mp he with rfl | hold
          · exact hpv ctx' readAt (Or.inl (by rw [hc]))
          · exact h.cached e (List.mem_of_mem_filter hold)
    · exact h
  | mint i =>
    simp only [Tracking.step]
    split
    · rename_i purpose user_id ps ctx readAt hi
      exact h.mint hi hgood
    · exact h
  | forward i =>
    simp only [Tracking.step]
    split
    · exact h
    · rename_i t hi
      split
      -- what is forwarded carries the stamp of its session
      · have hmem : t ∈ s.sessions := List.mem_of_getElem? hi
        apply h.withForward
        · exact h.stamped t (List.mem_append_left _ hmem)
        · exact fun hpv => absurd hpv (h.sessions t hmem)
      · exact h

/-- **Token revocation is complete** in every run whose stamps follow what was read: once the
event of a mutation is handled, no token that is accepted was read before its write. -/
theorem token_revocation_complete (k : Tracker δ) (data : δ) (seed_version : Nat)
    (es : List (TrackingEvent δ))
    (h : Along (Tracking.step k) ReadAfterWrites (.started data seed_version) es) :
    Revoked (run (Tracking.step k) (.started data seed_version) es) := by
  have hinv : Stamped (run (Tracking.step k) (.started data seed_version) es) :=
    Along.invariant (fun _ _ hs he => hs.step he) (Stamped.started data seed_version) h
  exact hinv.revoked

/-! ## A role that is taken away -/

/-- pno keeps the roles of one user. -/
private def roleTracker : Tracker (List String) where
  context roles user_id ps := some ⟨user_id, roles, false, ps, [], [], none⟩
  session_ttl := 3600
  forward_ttl := 300

private def signIn : List (TrackingEvent (List String)) :=
  [.request .login "ada" (some "ps-1"), .answer 0, .receive 0, .mint 0]

/-- ada signs in, and her role is taken away. -/
private def roleTaken : List (TrackingEvent (List String)) :=
  signIn ++ [.write fun _ => [], .bump 0, .deliver 0]

/-- After ten seconds the cache entry is gone, and the new token carries the new roles. -/
theorem token_revocation_complete_without_cache :
    Revoked (run (Tracking.step roleTracker) (.started ["editor"] 1700000000000)
      (roleTaken ++ [.tick 11] ++ signIn)) := by
  apply token_revocation_complete roleTracker ["editor"] 1700000000000
  refine ⟨trivial, trivial, trivial, ?_, trivial, trivial, ?_, trivial, trivial, trivial, trivial, ?_,
    trivial⟩
  · rintro _ _ _ _ _ ⟨⟩
    exact fun n hn => absurd hn List.not_mem_nil
  · exact fun t ht => absurd ht List.not_mem_nil
  · rintro _ _ _ _ _ ⟨⟩
    intro n hn _
    rw [List.mem_singleton.mp hn]
    exact Nat.zero_lt_one

/-- Signing in again within ten seconds stamps the old roles with the new version. -/
theorem token_revocation_bypassed_by_cache :
    ¬ Revoked (run (Tracking.step roleTracker) (.started ["editor"] 1700000000000)
      (roleTaken ++ [.tick 5, .request .login "ada" (some "ps-1"), .mint 0])) := by
  intro h
  have hold := h 0 List.mem_cons_self
    ⟨⟨"ada", ["editor"], false, some "ps-1", [], [], some 1700000000001⟩, 3605, 0⟩
    (by decide +kernel) (by decide +kernel)
  exact Nat.lt_irrefl 0 hold

end PlmCore.Spe
