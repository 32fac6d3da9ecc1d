/-
The push relay of the ws-gateway, `handler.go`.

A session is subscribed to `global.>` and, once the client has asked for a project space, to the
events of its user in that space. The space is a text of the client, spliced into the subject of
the subscription. A new subscription is made before the old one is given up.
-/
import PlmCore.Lib.Run
import PlmCore.Lib.Subject

set_option autoImplicit false

namespace PlmCore.Ws

open PlmCore.Lib PlmCore.Lib.Subject

/-- An id or an event name as pno creates it. -/
structure Name where
  text : String
  isName : IsName text

/-- What is published: events for everyone, and events for a user in a project space. -/
inductive Event where
  | global (name : String)
  | user (projectSpaceId userId event : Name)

/-- The subject of an event. -/
def Event.subject : Event → String
  | .global name => "global." ++ name
  | .user ps u e => "project." ++ ps.text ++ ".users." ++ u.text ++ "." ++ e.text

/-- The user an event is for. -/
def Event.isFor (u : Name) : Event → Prop
  | .global _ => True
  | .user _ u' _ => u'.text = u.text

/-- The subject of the per-project subscription. -/
def projectSubject (projectSpaceId userID : String) : String :=
  "project." ++ projectSpaceId ++ ".users." ++ userID ++ ".>"

/-- Where the goroutine of a session stands. -/
inductive Phase where
  | reading
  /-- `bus.Subscribe` has returned for a space -/
  | subscribed (ps : String)
  /-- `projectSub` is the new one; the one before is not given up yet -/
  | swapped (ps : String) (old : Option String)
  | closed
  deriving DecidableEq

/-- One connection. Subscriptions are given by their subjects; `accepted` is the space of the last
message whose subscription succeeded. -/
structure Session where
  userID : Name
  globalSub : Option String
  projectSub : Option String
  phase : Phase
  accepted : Option String

/-- The subscriptions of a session that are active. -/
def Session.active (s : Session) : List String :=
  s.globalSub.toList ++ s.projectSub.toList ++
    match s.phase with
    | .subscribed ps => [projectSubject ps s.userID.text]
    | .swapped _ old => old.toList
    | _ => []

/-- How often an event is written to the session. -/
def Session.copies (s : Session) (e : Event) : Nat := s.active.countP (accepts · e.subject)

/-- A text frame of the client; `none` when it cannot be parsed. -/
abbrev ClientMessage := Option (String × String)

/-- One step of the goroutine of a session. -/
inductive Action where
  | message (m : ClientMessage)
  | swap
  | unsubscribe
  | close
  deriving DecidableEq

/-- `handleClientMessage` up to its subscription. -/
def Session.handle (s : Session) : ClientMessage → Session
  | none => s
  | some (type, ps) =>
    if type ≠ "subscribe" ∨ ps = "" then s
    else if valid (projectSubject ps s.userID.text) then { s with phase := .subscribed ps } else s

def Session.act (s : Session) : Action → Session
  | .message m => if s.phase = .reading then s.handle m else s
  | .swap =>
    match s.phase with
    | .subscribed ps =>
      { s with projectSub := some (projectSubject ps s.userID.text)
               phase := .swapped ps s.projectSub }
    | _ => s
  | .unsubscribe =>
    match s.phase with
    | .swapped ps _ => { s with phase := .reading, accepted := some ps }
    | _ => s
  | .close =>
    if s.phase = .reading then { s with globalSub := none, projectSub := none, phase := .closed }
    else s

/-- All connections, and what was written to which of them. -/
structure State where
  sessions : List Session
  sent : List (Nat × Event)

inductive Step where
  | connect (userID : Name)
  | act (i : Nat) (a : Action)
  | publish (e : Event)

/-- A session just connected. -/
def Session.start (userID : Name) : Session := ⟨userID, some "global.>", none, .reading, none⟩

/-- What a publication writes, session by session. -/
def State.writes (s : State) (e : Event) : List (Nat × Event) :=
  s.sessions.zipIdx.flatMap fun x => List.replicate (x.1.copies e) (x.2, e)

def State.step (s : State) : Step → State
  | .connect userID => { s with sessions := s.sessions ++ [Session.start userID] }
  | .act i a =>
    match s.sessions[i]? with
    | some session => { s with sessions := s.sessions.set i (session.act a) }
    | none => s
  | .publish e => { s with sent := s.sent ++ s.writes e }

/-! ## Subscriptions and events -/

theorem tokens_global (name : String) : tokens ("global." ++ name) = "global".toList :: tokens name := by
  have hsplit : "global." ++ name = "global" ++ "." ++ name := rfl
  rw [hsplit, tokens_append]
  rfl

theorem tokens_projectSubject (ps : String) (u : Name) :
    tokens (projectSubject ps u.text) =
      "project".toList :: (tokens ps ++ ["users".toList, u.text.toList, ['>']]) := by
  have hsplit : projectSubject ps u.text =
      "project" ++ "." ++ (ps ++ "." ++ ("users" ++ "." ++ (u.text ++ "." ++ ">"))) := by
    simp only [projectSubject, ← String.append_assoc]
    simp only [String.append_assoc]
    rfl
  rw [hsplit, tokens_append, tokens_append, tokens_append, tokens_append, tokens_name u.isName]
  rfl

theorem tokens_user (ps u e : Name) : tokens (Event.user ps u e).subject =
    ["project".toList, ps.text.toList, "users".toList, u.text.toList, e.text.toList] := by
  have hsplit : (Event.user ps u e).subject =
      "project" ++ "." ++ (ps.text ++ "." ++ ("users" ++ "." ++ (u.text ++ "." ++ e.text))) := by
    simp only [Event.subject, String.append_assoc]
    rfl
  rw [hsplit, tokens_append, tokens_append, tokens_append, tokens_append, tokens_name u.isName,
    tokens_name ps.isName, tokens_name e.isName]
  rfl

theorem accepts_global (name : String) : accepts "global.>" (Event.global name).subject = true := by
  have htokens : tokens "global.>" = ["global".toList, ['>']] := rfl
  rw [accepts, Event.subject, tokens_global, htokens, matchTokens_cons (List.cons_ne_nil _ _)]
  cases hname : tokens name with
  | nil => exact absurd hname (tokens_ne_nil name)
  | cons t ts => rfl

theorem accepts_global_user (ps u e : Name) :
    accepts "global.>" (Event.user ps u e).subject = false := by
  have htokens : tokens "global.>" = ["global".toList, ['>']] := rfl
  rw [accepts, tokens_user, htokens, matchTokens_cons (List.cons_ne_nil _ _)]
  rfl

theorem accepts_project_global (ps : String) (u : Name) (name : String) :
    accepts (projectSubject ps u.text) (Event.global name).subject = false := by
  rw [accepts, Event.subject, tokens_global, tokens_projectSubject, matchTokens_cons (by simp)]
  rfl

/-- **A subscription of a user** takes events of this user only, whatever the client sends as a
space. -/
theorem accepts_project_user {ps : String} {u p u' e : Name}
    (h : accepts (projectSubject ps u.text) (Event.user p u' e).subject = true) :
    u'.text = u.text := by
  rw [accepts, tokens_user, tokens_projectSubject] at h
  have hlength := length_le_of_matchTokens h
  simp only [List.length_cons, List.length_append, List.length_nil] at hlength
  -- the space is one token, since the subject has no more
  obtain ⟨t, ts, hps⟩ := List.exists_cons_of_ne_nil (tokens_ne_nil ps)
  have hts : ts = [] := by
    rw [hps, List.length_cons] at hlength
    exact List.length_eq_zero_iff.mp (by omega)
  rw [hps, hts] at h
  simp only [List.cons_append, List.nil_append] at h
  rw [matchTokens_cons (by simp), matchTokens_cons (by simp), matchTokens_cons (by simp),
    matchTokens_cons (by simp)] at h
  simp only [Bool.and_eq_true, Bool.or_eq_true, decide_eq_true_eq] at h
  obtain ⟨-, -, -, hstar | hsame, -⟩ := h
  · have hmem : '*' ∈ u.text.toList := by simp [hstar]
    exact absurd (by simp) (u.isName '*' hmem)
  · exact (String.toList_inj.mp hsame).symm

/-! ## Sessions -/

namespace Session

variable {s : Session}

/-- The subscription of the space that was accepted last. -/
def acceptedSub (s : Session) : Option String := s.accepted.map (projectSubject · s.userID.text)

/-- The subscriptions are those the phase calls for. -/
structure Sound (s : Session) : Prop where
  globalSub : s.globalSub = if s.phase = .closed then none else some "global.>"
  reading : s.phase = .reading → s.projectSub = s.acceptedSub
  subscribed : ∀ ps, s.phase = .subscribed ps → s.projectSub = s.acceptedSub
  swapped : ∀ ps old, s.phase = .swapped ps old →
    s.projectSub = some (projectSubject ps s.userID.text) ∧ old = s.acceptedSub
  closed : s.phase = .closed → s.projectSub = none

theorem sound_start (userID : Name) : (start userID).Sound := by
  refine ⟨rfl, fun _ => rfl, ?_, ?_, ?_⟩ <;> simp [start]

theorem act_userID (a : Action) : (s.act a).userID = s.userID := by
  unfold act
  split
  · split
    · unfold handle
      split
      · rfl
      · split
        · rfl
        · split <;> rfl
    · rfl
  · split <;> rfl
  · split <;> rfl
  · split <;> rfl

/-- **One step** of the goroutine keeps a session sound. -/
theorem Sound.act (h : s.Sound) (a : Action) : (s.act a).Sound := by
  cases a with
  | message m =>
    simp only [Session.act]
    split
    · rename_i hreading
      unfold handle
      split
      · exact h
      · split
        · exact h
        · split
          -- the new subscription is of the user of the session
          · refine ⟨?_, by simp, fun ps _ => h.reading hreading, by simp, by simp⟩
            simpa [hreading] using h.globalSub
          · exact h
    · exact h
  | swap =>
    simp only [Session.act]
    split
    · rename_i ps hps
      refine ⟨?_, by simp, by simp, ?_, by simp⟩
      · simpa [hps] using h.globalSub
      -- the space that was subscribed is the accepted one from now on
      · rintro ps' old heq
        cases heq
        exact ⟨rfl, h.subscribed ps hps⟩
    · exact h
  | unsubscribe =>
    simp only [Session.act]
    split
    · rename_i ps old hold
      refine ⟨?_, fun _ => (h.swapped ps old hold).1, by simp, by simp, by simp⟩
      simpa [hold] using h.globalSub
    · exact h
  | close =>
    simp only [Session.act]
    split
    · exact ⟨rfl, by simp, by simp, by simp, fun _ => rfl⟩
    · exact h

/-- The spaces a session is subscribed to. -/
def spaces (s : Session) : List String :=
  match s.phase with
  | .reading => s.accepted.toList
  | .subscribed ps => s.accepted.toList ++ [ps]
  | .swapped ps _ => ps :: s.accepted.toList
  | .closed => []

theorem toList_acceptedSub (s : Session) :
    s.acceptedSub.toList = s.accepted.toList.map (projectSubject · s.userID.text) := by
  unfold acceptedSub
  cases s.accepted <;> rfl

/-- A session that is open has its global subscription and one for each space. -/
theorem Sound.active (h : s.Sound) (hopen : s.phase ≠ .closed) :
    s.active = "global.>" :: s.spaces.map (projectSubject · s.userID.text) := by
  have hglobal := h.globalSub
  rw [if_neg hopen] at hglobal
  unfold Session.active spaces
  rw [hglobal]
  cases hphase : s.phase with
  | reading => simp [h.reading hphase, toList_acceptedSub]
  | subscribed ps => simp [h.subscribed ps hphase, toList_acceptedSub]
  | swapped ps old =>
    obtain ⟨hproject, hold⟩ := h.swapped ps old hphase
    simp [hproject, hold, toList_acceptedSub]
  | closed => exact absurd hphase hopen

theorem Sound.active_closed (h : s.Sound) (hclosed : s.phase = .closed) : s.active = [] := by
  have hglobal := h.globalSub
  rw [if_pos hclosed] at hglobal
  simp [Session.active, hglobal, h.closed hclosed, hclosed]

/-- An event is written once for everyone, or once for each space whose subscription takes it. -/
theorem Sound.copies_le (h : s.Sound) (e : Event) : s.copies e ≤ max 1 s.spaces.length := by
  by_cases hopen : s.phase = .closed
  · simp [copies, h.active_closed hopen]
  · rw [copies, h.active hopen, List.countP_cons, List.countP_map]
    cases e with
    | global name =>
      have hnone : s.spaces.countP ((accepts · (Event.global name).subject) ∘
          (projectSubject · s.userID.text)) = 0 :=
        List.countP_eq_zero.mpr fun ps _ => by simp [accepts_project_global]
      rw [hnone, accepts_global]
      exact Nat.le_max_left _ _
    | user p u e =>
      rw [accepts_global_user]
      exact Nat.le_trans List.countP_le_length (Nat.le_max_right _ _)

theorem Sound.accepted_of_copies (h : s.Sound) {e : Event} (hcopies : s.copies e ≠ 0) :
    (∃ name, e = .global name) ∨
      ∃ ps ∈ s.spaces, accepts (projectSubject ps s.userID.text) e.subject = true := by
  have hopen : s.phase ≠ .closed := by
    intro hclosed
    simp [copies, h.active_closed hclosed] at hcopies
  cases e with
  | global name => exact .inl ⟨name, rfl⟩
  | user p u e =>
    right
    obtain ⟨subject, hsubject, haccepts⟩ := List.countP_pos_iff.mp (Nat.pos_of_ne_zero hcopies)
    rw [h.active hopen] at hsubject
    obtain rfl | hmem := List.mem_cons.mp hsubject
    · rw [accepts_global_user] at haccepts
      cases haccepts
    · obtain ⟨ps, hps, rfl⟩ := List.mem_map.mp hmem
      exact ⟨ps, hps, haccepts⟩

/-- What is written to a session is for everyone or for its user. -/
theorem Sound.isFor (h : s.Sound) {e : Event} (hcopies : s.copies e ≠ 0) : e.isFor s.userID := by
  obtain ⟨name, rfl⟩ | ⟨ps, -, haccepts⟩ := h.accepted_of_copies hcopies
  · trivial
  · cases e with
    | global => trivial
    | user p u e => exact accepts_project_user haccepts

end Session

/-! ## Runs -/

namespace State

variable {s : State}

/-- Sessions are sound, and what was written to one is for everyone or for its user. -/
structure Confined (s : State) : Prop where
  sound : ∀ session ∈ s.sessions, session.Sound
  sent : ∀ x ∈ s.sent, ∃ session, s.sessions[x.1]? = some session ∧ x.2.isFor session.userID

theorem mem_writes {e : Event} {x : Nat × Event} (h : x ∈ s.writes e) :
    x.2 = e ∧ ∃ session, s.sessions[x.1]? = some session ∧ session.copies e ≠ 0 := by
  obtain ⟨⟨session, i⟩, hmem, hx⟩ := List.mem_flatMap.mp h
  obtain ⟨hcopies, rfl⟩ := List.mem_replicate.mp hx
  exact ⟨rfl, session, List.mk_mem_zipIdx_iff_getElem?.mp hmem, hcopies⟩

/-- Copies written under consecutive numbers are counted by their number. -/
theorem countP_numbered (e : Event) (sessions : List Session) (first j : Nat) :
    ((sessions.zipIdx first).flatMap fun x => List.replicate (x.1.copies e) (x.2, e)).countP
      (·.1 = first + j) = (sessions[j]?.map (·.copies e)).getD 0 := by
  induction sessions generalizing first j with
  | nil => simp
  | cons session rest ih =>
    rw [List.zipIdx_cons, List.flatMap_cons, List.countP_append, List.countP_replicate]
    cases j with
    | zero =>
      -- the others have larger numbers
      have hrest : ((rest.zipIdx (first + 1)).flatMap fun x =>
          List.replicate (x.1.copies e) (x.2, e)).countP (·.1 = first + 0) = 0 := by
        refine List.countP_eq_zero.mpr fun x hx => ?_
        obtain ⟨⟨session', i⟩, hmem, hx⟩ := List.mem_flatMap.mp hx
        obtain ⟨-, rfl⟩ := List.mem_replicate.mp hx
        have hlarge := List.le_snd_of_mem_zipIdx hmem
        simp only [decide_eq_true_eq]
        omega
      rw [hrest]
      simp
    | succ j =>
      have hnext : first + (j + 1) = first + 1 + j := by omega
      rw [hnext, ih, if_neg (by simp only [decide_eq_true_eq]; omega)]
      simp

/-- A publication writes to a session as many copies as it has subscriptions that take it. -/
theorem count_writes {i : Nat} {session : Session} (h : s.sessions[i]? = some session)
    (e : Event) : (s.writes e).countP (·.1 = i) = session.copies e := by
  have hcount := countP_numbered e s.sessions 0 i
  rw [Nat.zero_add, h] at hcount
  exact hcount

/-- **One step** keeps the events confined. -/
theorem Confined.step (h : s.Confined) (st : Step) : (s.step st).Confined := by
  cases st with
  | connect userID =>
    refine ⟨fun session hmem => ?_, fun x hx => ?_⟩
    · obtain hold | hnew := List.mem_append.mp hmem
      · exact h.sound session hold
      · rw [List.mem_singleton.mp hnew]
        exact Session.sound_start userID
    -- sessions keep their numbers
    · obtain ⟨session, hsession, hfor⟩ := h.sent x hx
      exact ⟨session, List.getElem?_append_left (List.getElem?_eq_some_iff.mp hsession).1 ▸ hsession,
        hfor⟩
  | act i a =>
    simp only [State.step]
    cases hi : s.sessions[i]? with
    | none => exact h
    | some session =>
      refine ⟨fun session' hmem => ?_, fun x hx => ?_⟩
      · obtain hold | rfl := List.mem_or_eq_of_mem_set hmem
        · exact h.sound session' hold
        · exact (h.sound session (List.mem_of_getElem? hi)).act a
      · obtain ⟨session', hsession', hfor⟩ := h.sent x hx
        -- a session changes its phase, never its user
        by_cases hx : i = x.1
        · rw [← hx, hi] at hsession'
          cases hsession'
          refine ⟨session.act a, ?_, ?_⟩
          · rw [← hx]
            exact List.getElem?_set_self (List.getElem?_eq_some_iff.mp hi).1
          · rw [session.act_userID]
            exact hfor
        · exact ⟨session', (List.getElem?_set_ne hx).trans hsession', hfor⟩
  | publish e =>
    refine ⟨h.sound, fun x hx => ?_⟩
    obtain hold | hnew := List.mem_append.mp hx
    · exact h.sent x hold
    · obtain ⟨rfl, session, hsession, hcopies⟩ := mem_writes hnew
      exact ⟨session, hsession, (h.sound session (List.mem_of_getElem? hsession)).isFor hcopies⟩

end State

/-- The state after a run of the relay from its start. -/
def reached (steps : List Step) : State := run State.step ⟨[], []⟩ steps

theorem reached_confined (steps : List Step) : (reached steps).Confined := by
  have hstep : ∀ (s : State) (st : Step), s.Confined → (s.step st).Confined := fun _ st h =>
    h.step st
  have hstart : (State.mk [] []).Confined := ⟨by simp, by simp⟩
  exact run_invariant hstep hstart steps

/-- **Push events reach only their user.** In every run a session is sent global events and events
for its user alone. While no message of the client is being handled an event is written to a
session once at most, and only when it is global or matches the subscription accepted last; while a
subscription is replaced, twice at most, and only when it is global or matches the new one or the
one before. -/
theorem push_events_confined (steps : List Step) :
    (∀ x ∈ (reached steps).sent, ∃ session, (reached steps).sessions[x.1]? = some session ∧
      x.2.isFor session.userID) ∧
    ∀ i session e, (reached steps).sessions[i]? = some session →
      (session.phase = .reading →
        ((reached steps).writes e).countP (·.1 = i) ≤ 1 ∧
        (((reached steps).writes e).countP (·.1 = i) ≠ 0 → (∃ name, e = .global name) ∨
          ∃ ps, session.accepted = some ps ∧
            accepts (projectSubject ps session.userID.text) e.subject = true)) ∧
      ∀ ps, (session.phase = .subscribed ps ∨ ∃ old, session.phase = .swapped ps old) →
        ((reached steps).writes e).countP (·.1 = i) ≤ 2 ∧
        (((reached steps).writes e).countP (·.1 = i) ≠ 0 → (∃ name, e = .global name) ∨
          ∃ ps', (ps' = ps ∨ session.accepted = some ps') ∧
            accepts (projectSubject ps' session.userID.text) e.subject = true) := by
  have hconfined := reached_confined steps
  refine ⟨hconfined.sent, fun i session e hsession => ?_⟩
  have hsound := hconfined.sound session (List.mem_of_getElem? hsession)
  have hle := hsound.copies_le e
  have hmatch := hsound.accepted_of_copies (e := e)
  -- what a session is written is one copy for each of its subscriptions that match
  rw [State.count_writes hsession]
  have haccepted : session.accepted.toList.length ≤ 1 := by
    cases session.accepted <;> simp
  constructor
  · intro hphase
    -- while it reads it has the subscription of the space it accepted, if any
    have hspaces : session.spaces = session.accepted.toList := by rw [Session.spaces, hphase]
    rw [hspaces] at hle hmatch
    refine ⟨by omega, fun hcopies => (hmatch hcopies).imp_right ?_⟩
    rintro ⟨ps, hps, haccepts⟩
    exact ⟨ps, Option.mem_toList.mp hps, haccepts⟩
  · intro ps hphase
    -- while it swaps it has two: the old one goes only after the new one has come
    have hspaces : ∀ ps', ps' ∈ session.spaces → ps' = ps ∨ session.accepted = some ps' := by
      intro ps' hps'
      obtain hphase | ⟨old, hphase⟩ := hphase
      · rw [Session.spaces, hphase] at hps'
        obtain hold | hnew := List.mem_append.mp hps'
        · exact .inr (Option.mem_toList.mp hold)
        · exact .inl (List.mem_singleton.mp hnew)
      · rw [Session.spaces, hphase] at hps'
        obtain rfl | hold := List.mem_cons.mp hps'
        · exact .inl rfl
        · exact .inr (Option.mem_toList.mp hold)
    have hlength : session.spaces.length ≤ 2 := by
      obtain hphase | ⟨old, hphase⟩ := hphase
      · rw [Session.spaces, hphase, List.length_append, List.length_singleton]
        omega
      · rw [Session.spaces, hphase, List.length_cons]
        omega
    refine ⟨by omega, fun hcopies => (hmatch hcopies).imp_right ?_⟩
    rintro ⟨ps', hps', haccepts⟩
    exact ⟨ps', hspaces ps' hps', haccepts⟩

section Runs

def alice : Name := ⟨"alice", isName_of_all (by decide)⟩

def space : Name := ⟨"ps1", isName_of_all (by decide)⟩

def added : Name := ⟨"BASKET_ITEM_ADDED", isName_of_all (by decide)⟩

/-- A client subscribes, and asks for the same space again. -/
def subscribedTwice : List Step :=
  [.connect alice, .act 0 (.message (some ("subscribe", "ps1"))), .act 0 .swap, .act 0 .unsubscribe,
    .act 0 (.message (some ("subscribe", "ps1")))]

/-- While the subscription is replaced by an equal one, an event is sent twice. -/
theorem event_sent_twice :
    ((reached subscribedTwice).sessions.map (·.accepted)) = [some "ps1"] ∧
      ((reached subscribedTwice).writes (.user space alice added)).countP (·.1 = 0) = 2 := by
  decide +kernel

end Runs

end PlmCore.Ws
