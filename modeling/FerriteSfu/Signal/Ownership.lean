import FerriteSfu.Signal.System
import FerriteSfu.Call.Bystanders

/-!
Whose peer is whose.

A peer belongs to the session whose join was answered with its id. What a
session may have under way follows from how far it has come; together with the
ids that were handed out this accounts for every peer in a room.
-/

namespace FerriteSfu

variable {S : Str0m} {app : AppState}

/-! ### Who is in a room -/

namespace Engine

/-- The peer `id` is in some room. -/
def Present (id : PeerId) (engine : Engine S) : Prop :=
  ∃ name, id ∈ (engine.call name).peers.map Peer.id

/-- Whoever is in a room after a step was there before, or has just been admitted. -/
theorem Sound.step_present {engine engine' : Engine S} (h : engine.Sound) {event : Event S}
    (hstep : engine.step event = some engine') (id : PeerId) (hid : engine'.Present id) :
    engine.Present id ∨ ∃ request seed, event = .command (.join request) seed ∧
      (engine.call request.claims.room).admits engine.config request seed = true ∧
        id = ⟨engine.nextPeer⟩ := by
  obtain ⟨name, hid⟩ := hid
  have hcall := (h.step_calls hstep).2.2 name
  unfold CallStep at hcall
  cases hev : engine.callEvent name event with
  | none =>
      rw [hev] at hcall
      exact .inl ⟨name, hcall ▸ hid⟩
  | some ev =>
      rw [hev] at hcall
      rcases Call.step_mem (h.numbered name) hcall id hid with hid |
        ⟨request, seed, rfl, hadmits, rfl⟩
      · exact .inl ⟨name, hid⟩
      · cases event with
        | command command seed' =>
            cases command with
            | join request' =>
                simp only [callEvent] at hev
                split at hev
                · rename_i hname
                  subst hname
                  cases hev
                  exact .inr ⟨request, seed, rfl, hadmits, rfl⟩
                · split at hev <;> cases hev
            | answer | mute | screen | leave | shutdown => cases hev
        | pollRooms | reportConnections | reap | advanceTime => cases hev
        | tickSpeaking | readOnce =>
            simp only [callEvent] at hev
            split at hev <;> cases hev

/-- A join brings in nobody but the peer it is answered with. -/
theorem Sound.handleJoin_present {engine : Engine S} (h : engine.Sound) (request : JoinRequest)
    (seed : S.Seed) :
    let joined := engine.handleJoin request seed
    (∀ id, joined.1.Present id → engine.Present id ∨ joined.2.assigned = some id) ∧
      ∀ id, joined.2.assigned = some id → id = ⟨engine.nextPeer⟩ ∧
        joined.1.nextPeer = engine.nextPeer + 1 := by
  have hpresent := h.step_present (step_command (.join request) seed engine)
  have hrefused : (engine.call request.claims.room).admits engine.config request seed = false →
      ∀ id, (engine.handleJoin request seed).1.Present id → engine.Present id := by
    intro hadmits id hid
    rcases hpresent id hid with hid | ⟨_, _, he, htrue, -⟩
    · exact hid
    · cases he
      simp [hadmits] at htrue
  rcases handleJoin_cases request seed engine with ⟨-, hadmits, -, hassigned, -⟩ |
    ⟨-, hadmits, -, hassigned, -⟩ | ⟨-, -, offer, answer, hjoined, hassigned, -⟩
  · exact ⟨fun id hid => .inl (hrefused hadmits id hid), fun id he => by simp [hassigned] at he⟩
  · exact ⟨fun id hid => .inl (hrefused hadmits id hid), fun id he => by simp [hassigned] at he⟩
  · refine ⟨fun id hid => ?_, fun id he => ?_⟩
    · rcases hpresent id hid with hid | ⟨_, _, -, -, rfl⟩
      · exact .inl hid
      · exact .inr hassigned
    · rw [hassigned] at he
      exact ⟨(Option.some.inj he).symm, by rw [hjoined]; rfl⟩

/-- A command about a peer brings in nobody, and answers no join. -/
theorem Sound.apply_present {engine : Engine S} (h : engine.Sound) {command : Command}
    {peer : PeerId} (htarget : command.target = some peer) (seed : S.Seed) :
    (engine.apply command seed).2 = none ∧
      ∀ id, (engine.apply command seed).1.Present id → engine.Present id := by
  constructor
  · cases command <;> first | rfl | cases htarget
  · intro id hid
    rcases h.step_present (step_command command seed engine) id hid with hid | ⟨_, _, he, -⟩
    · exact hid
    · cases he
      cases htarget

/-- A peer that leaves is gone. -/
theorem Sound.not_present_dropPeer {engine : Engine S} (h : engine.Sound) (id : PeerId) :
    ¬(engine.dropPeer id).Present id := by
  rintro ⟨name, hid⟩
  rw [h.dropPeer_call] at hid
  have hledger := congrArg Ledger.members (Call.leave_ledger name (h.numbered name).ids id)
  obtain ⟨peer, hpeer, rfl⟩ := List.mem_map.mp hid
  have hmem : peer.card ∈ ((engine.call name).leave name peer.id).ledger.members :=
    List.mem_map_of_mem hpeer
  rw [hledger] at hmem
  simpa using List.of_mem_filter hmem

end Engine

/-! ### What a session has under way -/

/-- By how far a session has come and what it was answered, the commands it has
sent that were not applied yet. -/
inductive Books : Phase → Option (Option PeerId) → List Command → Prop
  | joining : Books .joining none []
  | asked (request : JoinRequest) : Books .admitting none [.join request]
  | answered (reply : Option PeerId) : Books .admitting (some reply) []
  | live (peer : PeerId) (sent : List Command) (h : ∀ command ∈ sent, command.target = some peer) :
      Books (.live peer) (some (some peer)) sent
  | refused (reply : Option (Option PeerId)) (h : reply.join = none) : Books .closed reply []
  | left (peer : PeerId) (sent : List Command) (h : ∀ command ∈ sent, command.target = some peer) :
      Books .closed (some (some peer)) sent

theorem Codec.forward_target (codec : Codec) (text : String) (peer : PeerId) (writing : Bool) :
    ∀ command ∈ (codec.forward text peer writing).command.toList, command.target = some peer := by
  unfold Codec.forward
  split <;> simp [Command.target]

/-- What a session reads keeps its books, and it closes with a leave. -/
theorem Books.read {codec : Codec} {secret : String} {incoming : Option Incoming}
    {session session' : Session} {sent commands : List Command}
    (h : Books session.phase session.assigned sent)
    (hread : session.read codec secret incoming = some (session', commands)) :
    session'.assigned = session.assigned ∧
      Books session'.phase session'.assigned (sent ++ commands) ∧
      ∀ peer, session.assigned = some (some peer) → session'.phase = .closed →
        .leave peer ∈ commands := by
  obtain ⟨phase, assigned, writing, out⟩ := session
  cases h with
  | joining =>
      simp only [Session.read] at hread
      split at hread
      · rename_i request _
        cases hread
        exact ⟨rfl, .asked request, by simp⟩
      · cases hread
        exact ⟨rfl, .refused none rfl, by simp⟩
  | asked | answered => cases hread
  | refused | left => cases hread
  | live peer _ hsent =>
      have hleave : ∀ command ∈ [Command.leave peer], command.target = some peer := by
        simp [Command.target]
      have happend : ∀ {first rest : List Command},
          (∀ command ∈ first, command.target = some peer) →
          (∀ command ∈ rest, command.target = some peer) →
            ∀ command ∈ first ++ rest, command.target = some peer :=
        fun hfirst hrest => List.forall_mem_append.mpr ⟨hfirst, hrest⟩
      cases incoming with
      | none => cases hread
      | some incoming =>
          cases incoming with
          | text text =>
              have hforward := codec.forward_target text peer writing
              simp only [Session.read] at hread
              split at hread
              · cases hread
                exact ⟨rfl, .live peer _ (happend hsent hforward), by simp⟩
              · cases hread
                exact ⟨rfl, .left peer _ (happend hsent (happend hforward hleave)), by simp⟩
          | other =>
              cases hread
              exact ⟨rfl, .live peer _ (by simpa using hsent), by simp⟩
          | close | failed | ended =>
              cases hread
              exact ⟨rfl, .left peer _ (happend hsent hleave), by simp⟩

theorem Books.resume {session session' : Session} {sent : List Command}
    (h : Books session.phase session.assigned sent) (hresume : session.resume = some session') :
    session'.assigned = session.assigned ∧ Books session'.phase session'.assigned sent ∧
      ∀ peer, session.assigned = some (some peer) → session'.phase ≠ .closed := by
  obtain ⟨phase, assigned, writing, out⟩ := session
  cases h with
  | answered reply =>
      cases reply with
      | none =>
          cases hresume
          exact ⟨rfl, .refused _ rfl, by simp⟩
      | some peer =>
          cases hresume
          exact ⟨rfl, .live peer [] (by simp), by simp⟩
  | joining | asked | live | refused | left => cases hresume

/-! ### Every peer is accounted for -/

namespace System

/-- The media loop answered the join of the session with this id. -/
def Owns (s : ℕ) (id : PeerId) (system : System S) : Prop :=
  (system.sessions s).assigned = some (some id)

instance (s : ℕ) (id : PeerId) (system : System S) : Decidable (system.Owns s id) :=
  inferInstanceAs (Decidable (_ = _))

structure Accounted (system : System S) : Prop where
  sound : system.engine.Sound
  books : ∀ s, Books (system.sessions s).phase (system.sessions s).assigned (system.sent s)
  given : ∀ s id, system.Owns s id → id.val < system.engine.nextPeer
  once : ∀ s s' id, system.Owns s id → system.Owns s' id → s = s'
  owned : ∀ id, system.engine.Present id → ∃ s, system.Owns s id
  /-- A session that is over has left, or its leave is under way. -/
  departed : ∀ s id, system.Owns s id → (system.sessions s).phase = .closed →
    system.engine.Present id → .leave id ∈ system.sent s

theorem setSession_sessions (s s' : ℕ) (session : Session) (system : System S) :
    (system.setSession s session).sessions s' =
      if s' = s then session else system.sessions s' := by
  simp [setSession, Function.update_apply]

theorem accounted_start (config : Config) (now : Instant) :
    (start config now : System S).Accounted where
  sound := .start config now
  books _ := .joining
  given _ _ howns := by cases howns
  once _ _ _ howns := by cases howns
  owned id hid := by
    obtain ⟨name, hid⟩ := hid
    simp [start, Engine.start, Engine.call, Call.peers] at hid
  departed _ _ howns := by cases howns

/-- A session that goes on, with the answer it had, keeps the account. -/
theorem Accounted.of_session {system system' : System S} (h : system.Accounted) {s : ℕ}
    {session : Session} (commands : List Command) (hengine : system'.engine = system.engine)
    (hsessions : system'.sessions = (system.setSession s session).sessions)
    (hqueue : system'.queue = system.queue.post s commands)
    (hassigned : session.assigned = (system.sessions s).assigned)
    (hbooks : Books session.phase session.assigned (system.sent s ++ commands))
    (hclosed : ∀ peer, system.Owns s peer → session.phase = .closed →
      system.engine.Present peer → .leave peer ∈ system.sent s ++ commands) :
    system'.Accounted := by
  have hsession : ∀ s', system'.sessions s' = if s' = s then session else system.sessions s' :=
    fun s' => by rw [hsessions, setSession_sessions]
  have hsent : ∀ s', system'.sent s' =
      if s' = s then system.sent s ++ commands else system.sent s' :=
    fun s' => by rw [sent, hqueue, Lib.Mailbox.sentBy_post]; rfl
  have howns : ∀ s' id, system'.Owns s' id ↔ system.Owns s' id := by
    intro s' id
    rw [Owns, hsession]
    split
    · rename_i hs
      subst hs
      rw [hassigned, Owns]
    · rfl
  constructor
  case sound => exact hengine ▸ h.sound
  case books =>
    intro s'
    rw [hsession, hsent]
    split
    · exact hbooks
    · exact h.books s'
  case given =>
    intro s' id hid
    rw [hengine]
    exact h.given s' id ((howns s' id).mp hid)
  case once =>
    intro s' s'' id hid hid'
    exact h.once s' s'' id ((howns _ _).mp hid) ((howns _ _).mp hid')
  case owned =>
    intro id hid
    obtain ⟨s', hs'⟩ := h.owned id (hengine ▸ hid)
    exact ⟨s', (howns s' id).mpr hs'⟩
  case departed =>
    intro s' id hid hphase hpresent
    rw [howns] at hid
    rw [hengine] at hpresent
    rw [hsession] at hphase
    rw [hsent]
    by_cases hs : s' = s
    · subst hs
      rw [if_pos rfl] at hphase ⊢
      exact hclosed id hid hphase hpresent
    · rw [if_neg hs] at hphase ⊢
      exact h.departed s' id hid hphase hpresent

theorem Accounted.read {system system' : System S} (h : system.Accounted) {s : ℕ}
    {incoming : Option Incoming} (hread : system.read app s incoming = some system') :
    system'.Accounted := by
  obtain ⟨⟨session, commands⟩, hsession, rfl⟩ := Option.map_eq_some_iff.mp hread
  obtain ⟨hassigned, hbooks, hleave⟩ := (h.books s).read hsession
  exact h.of_session commands rfl rfl rfl hassigned hbooks fun peer howns hphase _ =>
    List.mem_append_right _ (hleave peer howns hphase)

theorem Accounted.resume {system : System S} (h : system.Accounted) {s : ℕ} {session : Session}
    (hresume : (system.sessions s).resume = some session) :
    (system.setSession s session).Accounted := by
  obtain ⟨hassigned, hbooks, hopen⟩ := (h.books s).resume hresume
  refine h.of_session [] rfl rfl (by simp [Lib.Mailbox.post, setSession]) hassigned
    (by rwa [List.append_nil]) fun peer howns hphase _ => absurd hphase (hopen peer howns)

theorem Accounted.stopWriting {system : System S} (h : system.Accounted) (s : ℕ) :
    (system.setSession s { system.sessions s with writing := false }).Accounted := by
  refine h.of_session [] rfl rfl (by simp [Lib.Mailbox.post, setSession]) rfl
    (by simpa using h.books s) fun peer howns hphase hpresent => ?_
  rw [List.append_nil]
  exact h.departed s peer howns hphase hpresent

/-- A step of the media loop that brings in nobody keeps the account. -/
theorem Accounted.loop {system : System S} (h : system.Accounted) {event : Event S}
    {engine : Engine S} (hcommand : event.isCommand = false)
    (hstep : system.engine.step event = some engine) :
    { system with engine := engine }.Accounted := by
  have hpresent : ∀ id, engine.Present id → system.engine.Present id := by
    intro id hid
    rcases h.sound.step_present hstep id hid with hid | ⟨request, seed, rfl, -⟩
    · exact hid
    · cases hcommand
  exact
    { sound := h.sound.step hstep
      books := h.books
      given := fun s id hid => (h.given s id hid).trans_le (h.sound.nextPeer_le hstep)
      once := h.once
      owned := fun id hid => h.owned id (hpresent id hid)
      departed := fun s id hid hphase hin => h.departed s id hid hphase (hpresent id hin) }

/-- What the media loop applies is the first command a session has under way. -/
theorem deliver_eq_some {s : ℕ} {seed : S.Seed} {system system' : System S}
    (h : system.deliver s seed = some system') : ∃ command rest,
      system.sent s = command :: rest ∧ system'.engine = (system.engine.apply command seed).1 ∧
      (∀ s', system'.sent s' = if s' = s then rest else system.sent s') ∧
      ∀ s', system'.sessions s' = match (system.engine.apply command seed).2 with
        | none => system.sessions s'
        | some outcome =>
            if s' = s then (system.sessions s).answered outcome else system.sessions s' := by
  obtain ⟨command, hhead, rfl⟩ := Option.map_eq_some_iff.mp h
  obtain ⟨rest, hsent⟩ := List.head?_eq_some_iff.mp hhead
  have htake : ∀ s', (system.queue.take s).sentBy s' = if s' = s then rest else system.sent s' := by
    intro s'
    have htail : (system.queue.sentBy s).tail = rest := by
      change (system.sent s).tail = rest
      rw [hsent]
      rfl
    rw [Lib.Mailbox.sentBy_take, htail]
    rfl
  refine ⟨command, rest, hsent, ?_, fun s' => ?_, fun s' => ?_⟩
  · dsimp only
    split <;> rfl
  · rw [← htake s']
    dsimp only
    split <;> rfl
  · dsimp only
    cases (system.engine.apply command seed).2 with
    | none => rfl
    | some outcome => exact setSession_sessions ..

/-- The books of a session after the media loop applied a command about its peer. -/
theorem Accounted.deliver_target {system system' : System S} (h : system.Accounted) {s : ℕ}
    {peer : PeerId} {command : Command} {rest : List Command} {seed : S.Seed}
    (htarget : command.target = some peer) (howns : system.Owns s peer)
    (hsent : system.sent s = command :: rest)
    (hbooks : Books (system.sessions s).phase (system.sessions s).assigned rest)
    (hengine : system'.engine = (system.engine.apply command seed).1)
    (hrest : ∀ s', system'.sent s' = if s' = s then rest else system.sent s')
    (hsessions : system'.sessions = system.sessions) : system'.Accounted := by
  have hstep := Engine.step_command command seed system.engine
  have hpresent := (h.sound.apply_present htarget seed).2
  have hsame : ∀ s' id, system'.Owns s' id ↔ system.Owns s' id :=
    fun s' id => by rw [Owns, hsessions, Owns]
  constructor
  case sound =>
    rw [hengine]
    exact h.sound.step hstep
  case books =>
    intro s'
    rw [hsessions, hrest]
    split
    · rename_i hs
      exact hs ▸ hbooks
    · exact h.books s'
  case given =>
    intro s' id hid
    rw [hengine]
    exact (h.given s' id ((hsame s' id).mp hid)).trans_le (h.sound.nextPeer_le hstep)
  case once =>
    exact fun s' s'' id hid hid' =>
      h.once s' s'' id ((hsame _ _).mp hid) ((hsame _ _).mp hid')
  case owned =>
    intro id hid
    rw [hengine] at hid
    obtain ⟨s', hs'⟩ := h.owned id (hpresent id hid)
    exact ⟨s', (hsame s' id).mpr hs'⟩
  case departed =>
    intro s' id hid hphase hin
    rw [hsame] at hid
    rw [hsessions] at hphase
    rw [hengine] at hin
    have hleave := h.departed s' id hid hphase (hpresent id hin)
    rw [hrest]
    by_cases hs : s' = s
    · subst hs
      rw [if_pos rfl]
      rw [hsent] at hleave
      -- applying the leave itself would have taken the peer out of its room
      refine (List.mem_cons.mp hleave).resolve_left ?_
      rintro rfl
      exact h.sound.not_present_dropPeer id hin
    · rwa [if_neg hs]

theorem Accounted.deliver_join {system system' : System S} (h : system.Accounted) {s : ℕ}
    {request : JoinRequest} {seed : S.Seed} (hphase : (system.sessions s).phase = .admitting)
    (hassigned : (system.sessions s).assigned = none)
    (hengine : system'.engine = (system.engine.handleJoin request seed).1)
    (hrest : ∀ s', system'.sent s' = if s' = s then [] else system.sent s')
    (hsessions : ∀ s', system'.sessions s' = if s' = s then
      (system.sessions s).answered (system.engine.handleJoin request seed).2
      else system.sessions s') : system'.Accounted := by
  have hstep := Engine.step_command (.join request) seed system.engine
  have hnext := h.sound.nextPeer_le hstep
  obtain ⟨hpresent, hfresh⟩ := h.sound.handleJoin_present request seed
  have hnone : ∀ id, ¬system.Owns s id := fun id hid => by simp [Owns, hassigned] at hid
  -- A session owns what it did before, and the one that joined what it was assigned.
  have howns : ∀ s' id, system'.Owns s' id ↔
      s' = s ∧ (system.engine.handleJoin request seed).2.assigned = some id ∨
        system.Owns s' id := by
    intro s' id
    rw [Owns, hsessions]
    by_cases hs : s' = s
    · subst hs
      simp [hnone, Session.answered]
    · simp [hs, Owns]
  constructor
  case sound =>
    rw [hengine]
    exact h.sound.step hstep
  case books =>
    intro s'
    rw [hsessions, hrest]
    by_cases hs : s' = s
    · rw [if_pos hs, if_pos hs, Session.answered, hphase]
      exact .answered _
    · rw [if_neg hs, if_neg hs]
      exact h.books s'
  case given =>
    intro s' id hid
    rw [hengine]
    rcases (howns s' id).mp hid with ⟨-, hnew⟩ | hold
    · obtain ⟨rfl, hplus⟩ := hfresh id hnew
      rw [hplus]
      exact Nat.lt_succ_self _
    · exact (h.given s' id hold).trans_le hnext
  case once =>
    intro s' s'' id hid hid'
    -- The id assigned is the next one, which no session can have been given before.
    have hlt : ∀ s₀, system.Owns s₀ id →
        (system.engine.handleJoin request seed).2.assigned ≠ some id := by
      intro s₀ hold hnew
      have hgiven := h.given s₀ id hold
      rw [(hfresh id hnew).1] at hgiven
      exact absurd hgiven (Nat.lt_irrefl _)
    rcases (howns s' id).mp hid with ⟨rfl, hnew⟩ | hold
    · rcases (howns s'' id).mp hid' with ⟨rfl, -⟩ | hold'
      · rfl
      · exact absurd hnew (hlt s'' hold')
    · rcases (howns s'' id).mp hid' with ⟨rfl, hnew⟩ | hold'
      · exact absurd hnew (hlt s' hold)
      · exact h.once s' s'' id hold hold'
  case owned =>
    intro id hid
    rw [hengine] at hid
    rcases hpresent id hid with hid | hnew
    · obtain ⟨s', hs'⟩ := h.owned id hid
      exact ⟨s', (howns s' id).mpr (.inr hs')⟩
    · exact ⟨s, (howns s id).mpr (.inl ⟨rfl, hnew⟩)⟩
  case departed =>
    intro s' id hid hclosed hin
    have hs : s' ≠ s := by
      rintro rfl
      rw [hsessions, if_pos rfl, Session.answered, hphase] at hclosed
      cases hclosed
    have hold := ((howns s' id).mp hid).resolve_left fun hnew => hs hnew.1
    rw [hsessions, if_neg hs] at hclosed
    rw [hrest, if_neg hs]
    rw [hengine] at hin
    refine h.departed s' id hold hclosed ((hpresent id hin).resolve_right fun hnew => ?_)
    have hgiven := h.given s' id hold
    rw [(hfresh id hnew).1] at hgiven
    exact absurd hgiven (Nat.lt_irrefl _)

/-- What a session has under way is a join while it waits to be answered, and
afterwards is about its own peer. -/
theorem Accounted.sent_cons {system : System S} (h : system.Accounted) {s : ℕ}
    {command : Command} {rest : List Command} (hsent : system.sent s = command :: rest) :
    ((system.sessions s).phase = .admitting ∧ (system.sessions s).assigned = none ∧
      (∃ request, command = .join request) ∧ rest = []) ∨
    ∃ peer, system.Owns s peer ∧ command.target = some peer ∧
      Books (system.sessions s).phase (system.sessions s).assigned rest := by
  have hbooks := h.books s
  rw [hsent] at hbooks
  unfold Owns
  generalize (system.sessions s).phase = phase at hbooks ⊢
  generalize (system.sessions s).assigned = assigned at hbooks ⊢
  cases hbooks with
  | asked request => exact .inl ⟨rfl, rfl, ⟨request, rfl⟩, rfl⟩
  | live peer _ hall =>
      exact .inr ⟨peer, rfl, hall command (by simp),
        .live peer rest fun command hmem => hall command (by simp [hmem])⟩
  | left peer _ hall =>
      exact .inr ⟨peer, rfl, hall command (by simp),
        .left peer rest fun command hmem => hall command (by simp [hmem])⟩

theorem Accounted.deliver {system system' : System S} (h : system.Accounted) {s : ℕ}
    {seed : S.Seed} (hdeliver : system.deliver s seed = some system') : system'.Accounted := by
  obtain ⟨command, rest, hsent, hengine, hrest, hsessions⟩ := deliver_eq_some hdeliver
  rcases h.sent_cons hsent with ⟨hphase, hassigned, ⟨request, rfl⟩, rfl⟩ |
    ⟨peer, howns, htarget, hbooks⟩
  · exact h.deliver_join hphase hassigned hengine hrest hsessions
  · rw [(h.sound.apply_present htarget seed).1] at hsessions
    exact h.deliver_target htarget howns hsent hbooks hengine hrest (funext hsessions)

theorem Accounted.step {system system' : System S} (h : system.Accounted)
    {event : SystemEvent S} (hstep : system.step app event = some system') :
    system'.Accounted := by
  cases event with
  | read s incoming => exact h.read hstep
  | resume s =>
      obtain ⟨session, hresume, rfl⟩ := Option.map_eq_some_iff.mp hstep
      exact h.resume hresume
  | stopWriting s =>
      cases hstep
      exact h.stopWriting s
  | deliver s seed => exact h.deliver hstep
  | loop event =>
      simp only [System.step] at hstep
      split at hstep
      · cases hstep
      · rename_i hcommand
        obtain ⟨engine, hengine, rfl⟩ := Option.map_eq_some_iff.mp hstep
        exact h.loop (by simpa using hcommand) hengine

theorem reachable_accounted {system : System S} (h : (machine S app).Reachable system) :
    system.Accounted := by
  refine Lib.Machine.Invariant.holds (I := Accounted) ⟨?_, ?_⟩ h
  · rintro system ⟨now, rfl⟩
    exact accounted_start app.config now
  · intro system event system' _ haccounted _ hstep
    exact haccounted.step hstep

end System

end FerriteSfu
