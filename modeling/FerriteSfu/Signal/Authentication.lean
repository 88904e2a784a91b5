import FerriteSfu.Signal.Dialogue
import FerriteSfu.Signal.Orphans

/-!
Who let the peers in.

A session asks for a join on the strength of the first frame it reads, and of
nothing else. So behind every peer of a room stands the first frame of the
session that owns it, with a token that names this room and this user.
-/

namespace FerriteSfu

variable {S : Str0m} {app : AppState}

/-! ### What a peer is called -/

/-- What a member never changes of its card. -/
def Card.identity (card : Card) : Card :=
  { card with muted := false, screen := false, reported := false }

namespace Ledger

/-- Whoever is in the ledger after a step was in it before under the same name, or
has just joined. -/
theorem step_identity {capacity : ℕ} {name : String} {ledger ledger' : Ledger}
    {event : LedgerEvent} (hstep : ledger.step capacity name event = some ledger') :
    ∀ card' ∈ ledger'.members, (∃ card ∈ ledger.members, card.identity = card'.identity) ∨
      ∃ userId fullName avatarUrl, event = .join userId fullName avatarUrl ∧
        card' = ledger.newcomer userId fullName avatarUrl := by
  have hmapped : ∀ {f : Card → Card}, (∀ card, (f card).identity = card.identity) →
      ∀ card' ∈ ledger.members.map f, ∃ card ∈ ledger.members, card.identity = card'.identity := by
    intro f hf card' hcard'
    obtain ⟨card, hcard, rfl⟩ := List.mem_map.mp hcard'
    exact ⟨card, hcard, (hf card).symm⟩
  intro card' hcard'
  cases event with
  | join userId fullName avatarUrl =>
      simp only [step] at hstep
      split at hstep
      · cases hstep
      · cases hstep
        rcases List.mem_append.mp hcard' with hcard' | hcard'
        · exact .inl ⟨card', List.mem_of_mem_filter hcard', rfl⟩
        · exact .inr ⟨userId, fullName, avatarUrl, rfl, List.mem_singleton.mp hcard'⟩
  | elsewhere =>
      cases hstep
      exact .inl ⟨card', hcard', rfl⟩
  | leave gone =>
      cases hstep
      exact .inl ⟨card', List.mem_of_mem_filter hcard', rfl⟩
  | setState id muted screen =>
      cases hstep
      unfold setState at hcard'
      split at hcard'
      · exact .inl ⟨card', hcard', rfl⟩
      · exact .inl (hmapped (fun card => by split <;> rfl) card' hcard')
  | arrive arrived =>
      cases hstep
      exact .inl (hmapped (fun card => by split <;> rfl) card' hcard')

end Ledger

/-- The claims that let a peer in are about this peer. -/
structure JoinClaims.Names (claims : JoinClaims) (name : String) (peer : Peer S) : Prop where
  room : claims.room = name
  sub : claims.sub = peer.userId
  fullName : claims.name = peer.name
  avatarUrl : claims.avatarUrl = peer.avatarUrl

theorem JoinClaims.Names.of_identity {claims : JoinClaims} {name : String} {peer peer' : Peer S}
    (h : claims.Names name peer) (hidentity : peer.card.identity = peer'.card.identity) :
    claims.Names name peer' where
  room := h.room
  sub := h.sub.trans (congrArg Card.userId hidentity)
  fullName := h.fullName.trans (congrArg Card.name hidentity)
  avatarUrl := h.avatarUrl.trans (congrArg Card.avatarUrl hidentity)

namespace Engine

/-- Whoever is in a room after a step was there before under the same name, or was
let in by the claims of a join. -/
theorem Sound.step_identity {engine engine' : Engine S} (h : engine.Sound) {event : Event S}
    (hstep : engine.step event = some engine') (name : String) :
    ∀ peer' ∈ (engine'.call name).peers,
      (∃ peer ∈ (engine.call name).peers, peer.card.identity = peer'.card.identity) ∨
      ∃ request seed, event = .command (.join request) seed ∧
        request.claims.Names name peer' ∧
        (engine.handleJoin request seed).2.assigned = some peer'.id := by
  intro peer' hpeer'
  have hcall := (h.step_calls hstep).2.2 name
  unfold CallStep at hcall
  rcases hev : engine.callEvent name event with _ | ev
  · simp only [hev] at hcall
    exact .inl ⟨peer', hcall ▸ hpeer', rfl⟩
  · simp only [hev] at hcall
    have hledger := Call.step_ledger (h.numbered name) hcall
    have hcard : peer'.card ∈ (engine'.call name).ledger.members := List.mem_map_of_mem hpeer'
    unfold Call.LedgerStep at hledger
    rcases hlev : (engine.call name).ledgerEvent engine.config ev with _ | lev
    · simp only [hlev] at hledger
      rw [hledger] at hcard
      obtain ⟨peer, hpeer, heq⟩ := List.mem_map.mp hcard
      exact .inl ⟨peer, hpeer, congrArg Card.identity heq⟩
    · simp only [hlev] at hledger
      rcases Ledger.step_identity hledger _ hcard with ⟨card, hmem, hidentity⟩ |
        ⟨userId, fullName, avatarUrl, rfl, hnew⟩
      · obtain ⟨peer, hpeer, rfl⟩ := List.mem_map.mp hmem
        exact .inl ⟨peer, hpeer, hidentity⟩
      · cases ev with
        | join request seed =>
            obtain ⟨rfl, rfl⟩ := callEvent_join hev
            rcases handleJoin_cases request seed engine with ⟨-, hadmits, -⟩ |
              ⟨-, hadmits, -⟩ | ⟨-, hadmits, offer, answer, -, hassigned, -⟩
            · simp only [Call.ledgerEvent, hadmits, Bool.false_eq_true, if_false] at hlev
              split at hlev <;> cases hlev
            · simp only [Call.ledgerEvent, hadmits, Bool.false_eq_true, if_false] at hlev
              split at hlev <;> cases hlev
            · rw [Call.ledgerEvent, if_pos hadmits] at hlev
              cases hlev
              have hid : peer'.id = ⟨engine.nextPeer⟩ := congrArg Card.id hnew
              refine .inr ⟨request, seed, rfl, ⟨rfl, ?_, ?_, ?_⟩, hassigned.trans ?_⟩
              · exact (congrArg Card.userId hnew).symm
              · exact (congrArg Card.name hnew).symm
              · exact (congrArg Card.avatarUrl hnew).symm
              · rw [hid]
        | answer | poll | syncSpeaking | handleInput | advanceTime => cases hlev
        | elsewhere | setState | leave | reap | reportConnections => cases hlev

end Engine

/-! ### What a session was let in for -/

/-- A token that is accepted is one that decodes once it is trimmed, to claims that
are complete. -/
theorem Codec.verify_eq_ok {codec : Codec} {token secret : String} {claims : JoinClaims}
    (h : codec.verify token secret = .ok claims) :
    codec.decode (trim token) secret = .ok claims ∧
      claims.sub ≠ "" ∧ claims.room ≠ "" ∧ claims.callId ≠ "" := by
  unfold verify at h
  split at h
  · cases h
  · rename_i decoded hdecode
    split at h
    · cases h
    · rename_i hcomplete
      cases h
      exact ⟨hdecode, by simpa [and_assoc] using hcomplete⟩

namespace Session

variable {session session' : Session} {commands : List Command} {incoming : Option Incoming}

/-- A session that has read something is past its first frame. -/
theorem read_joining (h : session.read app.codec app.sharedSecret incoming =
    some (session', commands)) : session'.phase ≠ .joining := by
  obtain ⟨phase, assigned, writing, out⟩ := session
  cases phase <;> simp only [read, reduceCtorEq] at h
  case joining => split at h <;> cases h <;> simp
  case live peer =>
    split at h
    · cases h
    · split at h <;> cases h <;> simp
    all_goals cases h; simp

/-- The first frame asks for a join, and any later one for something of the peer. -/
theorem read_commands (h : session.read app.codec app.sharedSecret incoming =
    some (session', commands)) :
    (session.phase = .joining ∧ ∃ request,
      app.codec.admitJoin app.sharedSecret incoming = .ok request ∧ commands = [.join request]) ∨
    ∃ peer, ∀ command ∈ commands, command.target = some peer := by
  obtain ⟨phase, assigned, writing, out⟩ := session
  cases phase <;> simp only [read, reduceCtorEq] at h
  case joining =>
    split at h <;> cases h
    · rename_i request hadmits
      exact .inl ⟨rfl, request, hadmits, rfl⟩
    · exact .inr ⟨⟨0⟩, by simp⟩
  case live peer =>
    refine .inr ⟨peer, fun command hmem => ?_⟩
    have hforward := fun text => app.codec.forward_target text peer writing
    split at h
    · cases h
    · rename_i text
      split at h <;> cases h
      · exact hforward text command hmem
      · rcases List.mem_append.mp hmem with hmem | hmem
        · exact hforward text command hmem
        · rw [List.mem_singleton.mp hmem, Command.target]
    · cases h
      cases hmem
    all_goals
      cases h
      rw [List.mem_singleton.mp hmem, Command.target]

theorem read_join (h : session.read app.codec app.sharedSecret incoming =
    some (session', commands)) {request : JoinRequest} (hmem : .join request ∈ commands) :
    session.phase = .joining ∧ app.codec.admitJoin app.sharedSecret incoming = .ok request := by
  rcases read_commands h with ⟨hjoining, admitted, hadmits, rfl⟩ | ⟨peer, htarget⟩
  · cases List.mem_singleton.mp hmem
    exact ⟨hjoining, hadmits⟩
  · cases htarget _ hmem

end Session

namespace System

/-- What the sessions read in an event. -/
def frames : SystemEvent S → List (ℕ × Option Incoming)
  | .read s incoming => [(s, incoming)]
  | .resume _ | .stopWriting _ | .deliver _ _ | .loop _ => []

/-- The first thing the session read asks for this join. -/
def Asked (app : AppState) (log : List (ℕ × Option Incoming)) (s : ℕ) (request : JoinRequest) :
    Prop :=
  ∃ incoming, log.find? (fun entry => entry.1 = s) = some (s, incoming) ∧
    app.codec.admitJoin app.sharedSecret incoming = .ok request

theorem Asked.append {log : List (ℕ × Option Incoming)} {s : ℕ} {request : JoinRequest}
    (h : Asked app log s request) (log' : List (ℕ × Option Incoming)) :
    Asked app (log ++ log') s request := by
  obtain ⟨incoming, hfirst, hadmits⟩ := h
  exact ⟨incoming, by rw [List.find?_append, hfirst, Option.some_or], hadmits⟩

/-- Every join under way, and every peer in a room, goes back to a first frame. -/
structure Authentic (app : AppState) (system : System S) (log : List (ℕ × Option Incoming)) :
    Prop where
  untouched : ∀ s, (system.sessions s).phase = .joining →
    log.find? (fun entry => entry.1 = s) = none
  asked : ∀ s request, .join request ∈ system.sent s → Asked app log s request
  admitted : ∀ name, ∀ peer ∈ (system.engine.call name).peers, ∃ s request,
    system.Owns s peer.id ∧ Asked app log s request ∧ request.claims.Names name peer

namespace Authentic

variable {system system' : System S} {log : List (ℕ × Option Incoming)}

/-- A session that goes on with the answer it had, while the engine stands still. -/
theorem of_session (h : system.Authentic app log) {s : ℕ} {session : Session}
    (commands : List Command) {frames : List (ℕ × Option Incoming)}
    (hengine : system'.engine = system.engine)
    (hsessions : system'.sessions = (system.setSession s session).sessions)
    (hqueue : system'.queue = system.queue.post s commands)
    (hassigned : session.assigned = (system.sessions s).assigned)
    (hframes : ∀ entry ∈ frames, entry.1 = s)
    (hphase : session.phase = .joining → (system.sessions s).phase = .joining ∧ frames = [])
    (hasked : ∀ request, .join request ∈ commands → Asked app (log ++ frames) s request) :
    system'.Authentic app (log ++ frames) := by
  have hsession : ∀ s', system'.sessions s' = if s' = s then session else system.sessions s' :=
    fun s' => by rw [hsessions, setSession_sessions]
  constructor
  case untouched =>
    intro s' hjoining
    rw [hsession] at hjoining
    by_cases hs : s' = s
    · subst hs
      rw [if_pos rfl] at hjoining
      obtain ⟨hold, rfl⟩ := hphase hjoining
      rw [List.append_nil]
      exact h.untouched s' hold
    · rw [if_neg hs] at hjoining
      rw [List.find?_append, h.untouched s' hjoining, Option.none_or]
      refine List.find?_eq_none.mpr fun entry hentry => ?_
      simpa [hframes entry hentry] using Ne.symm hs
  case asked =>
    intro s' request hmem
    rw [sent, hqueue, Lib.Mailbox.sentBy_post] at hmem
    by_cases hs : s' = s
    · subst hs
      rw [if_pos rfl] at hmem
      rcases List.mem_append.mp hmem with hmem | hmem
      · exact (h.asked s' request hmem).append frames
      · exact hasked request hmem
    · rw [if_neg hs] at hmem
      exact (h.asked s' request hmem).append frames
  case admitted =>
    intro name peer hpeer
    rw [hengine] at hpeer
    obtain ⟨s', request, howns, hask, hnames⟩ := h.admitted name peer hpeer
    refine ⟨s', request, ?_, hask.append frames, hnames⟩
    rw [Owns, hsession]
    split
    · rename_i hs
      subst hs
      rw [hassigned]
      exact howns
    · exact howns

theorem read (h : system.Authentic app log) (haccounted : system.Accounted) {s : ℕ}
    {incoming : Option Incoming} (hread : system.read app s incoming = some system') :
    system'.Authentic app (log ++ [(s, incoming)]) := by
  obtain ⟨⟨session, commands⟩, hsession, rfl⟩ := Option.map_eq_some_iff.mp hread
  have hassigned := ((haccounted.books s).read hsession).1
  refine h.of_session commands rfl rfl rfl hassigned (by simp) ?phase ?asked
  case phase =>
    intro hjoining
    exact absurd hjoining (Session.read_joining hsession)
  case asked =>
    intro request hmem
    rcases Session.read_join hsession hmem with ⟨hjoining, hadmits⟩
    refine ⟨incoming, ?_, hadmits⟩
    rw [List.find?_append, h.untouched s hjoining]
    simp

theorem resume (h : system.Authentic app log) {s : ℕ} {session : Session}
    (hresume : (system.sessions s).resume = some session) :
    (system.setSession s session).Authentic app (log ++ []) := by
  refine h.of_session [] rfl rfl (by simp [Lib.Mailbox.post, setSession]) ?_ (by simp) ?_ (by simp)
  · unfold Session.resume at hresume
    split at hresume <;> cases hresume <;> rfl
  · intro hjoining
    unfold Session.resume at hresume
    split at hresume <;> cases hresume <;> cases hjoining

theorem stopWriting (h : system.Authentic app log) (s : ℕ) :
    (system.setSession s { system.sessions s with writing := false }).Authentic app (log ++ []) :=
  h.of_session [] rfl rfl (by simp [Lib.Mailbox.post, setSession]) rfl (by simp)
    (fun hjoining => ⟨hjoining, rfl⟩) (by simp)

/-- A step of the engine that brings in nobody. -/
theorem loop (h : system.Authentic app log) (hsound : system.engine.Sound) {event : Event S}
    {engine : Engine S} (hcommand : event.isCommand = false)
    (hstep : system.engine.step event = some engine) :
    { system with engine := engine }.Authentic app (log ++ []) := by
  rw [List.append_nil]
  refine ⟨h.untouched, h.asked, fun name peer hpeer => ?_⟩
  rcases hsound.step_identity hstep name peer hpeer with ⟨old, hold, hidentity⟩ |
    ⟨request, seed, rfl, -⟩
  · obtain ⟨s, request, howns, hask, hnames⟩ := h.admitted name old hold
    have hid : old.id = peer.id := congrArg Card.id hidentity
    exact ⟨s, request, hid ▸ howns, hask, hnames.of_identity hidentity⟩
  · cases hcommand

theorem deliver (h : system.Authentic app log) (haccounted : system.Accounted) {s : ℕ}
    {seed : S.Seed} (hdeliver : system.deliver s seed = some system') :
    system'.Authentic app (log ++ []) := by
  rw [List.append_nil]
  obtain ⟨command, rest, hsent, hengine, hrest, hsessions⟩ := deliver_eq_some hdeliver
  have hstep := Engine.step_command command seed system.engine
  have hsent' : ∀ s' request, .join request ∈ system'.sent s' → .join request ∈ system.sent s' := by
    intro s' request hmem
    rw [hrest] at hmem
    split at hmem
    · rename_i hs
      subst hs
      rw [hsent]
      exact List.mem_cons_of_mem _ hmem
    · exact hmem
  rcases haccounted.sent_cons hsent with ⟨hphase, hassigned, ⟨request, rfl⟩, rfl⟩ |
    ⟨target, hown, htarget, -⟩
  · have howns : ∀ s' id, system.Owns s' id → system'.Owns s' id := by
      intro s' id hid
      rw [Owns, hsessions]
      dsimp only [Engine.apply]
      split
      · rename_i hs
        subst hs
        simp [Owns, hassigned] at hid
      · exact hid
    constructor
    case untouched =>
      intro s' hjoining
      rw [hsessions] at hjoining
      dsimp only [Engine.apply] at hjoining
      split at hjoining
      · rw [Session.answered, hphase] at hjoining
        cases hjoining
      · exact h.untouched s' hjoining
    case asked => exact fun s' request hmem => h.asked s' request (hsent' s' request hmem)
    case admitted =>
      intro name peer hpeer
      rw [hengine] at hpeer
      rcases haccounted.sound.step_identity hstep name peer hpeer with ⟨old, hold, hidentity⟩ |
        ⟨_, _, he, hnames, hnew⟩
      · obtain ⟨s', request', hown', hask, hnames⟩ := h.admitted name old hold
        have hid : old.id = peer.id := congrArg Card.id hidentity
        exact ⟨s', request', hid ▸ howns s' _ hown', hask, hnames.of_identity hidentity⟩
      · cases he
        refine ⟨s, request, ?_, h.asked s request (by simp [hsent]), hnames⟩
        rw [Owns, hsessions]
        dsimp only [Engine.apply]
        rw [if_pos rfl, Session.answered, hnew]
  · rw [(haccounted.sound.apply_present htarget seed).1] at hsessions
    have hsame : system'.sessions = system.sessions := funext hsessions
    refine ⟨fun s' => by rw [hsame]; exact h.untouched s',
      fun s' request hmem => h.asked s' request (hsent' s' request hmem), fun name peer hpeer => ?_⟩
    rw [hengine] at hpeer
    rcases haccounted.sound.step_identity hstep name peer hpeer with ⟨old, hold, hidentity⟩ |
      ⟨request, _, he, -⟩
    · obtain ⟨s', request', hown', hask, hnames⟩ := h.admitted name old hold
      have hid : old.id = peer.id := congrArg Card.id hidentity
      refine ⟨s', request', ?_, hask, hnames.of_identity hidentity⟩
      rw [Owns, hsame]
      exact hid ▸ hown'
    · cases he
      cases htarget

theorem step (h : system.Authentic app log) (haccounted : system.Accounted)
    {event : SystemEvent S} (hstep : System.step app system event = some system') :
    system'.Authentic app (log ++ frames event) := by
  cases event with
  | read s incoming => exact h.read haccounted hstep
  | resume s =>
      obtain ⟨session, hresume, rfl⟩ := Option.map_eq_some_iff.mp hstep
      exact h.resume hresume
  | stopWriting s =>
      cases hstep
      exact h.stopWriting s
  | deliver s seed => exact h.deliver haccounted hstep
  | loop event =>
      simp only [System.step] at hstep
      split at hstep
      · cases hstep
      · rename_i hcommand
        obtain ⟨engine, hengine, rfl⟩ := Option.map_eq_some_iff.mp hstep
        exact h.loop haccounted.sound (by simpa using hcommand) hengine

end Authentic

/-- The first frame of a session, found among the events of a run. -/
theorem frames_find {events : List (SystemEvent S)} {s : ℕ} {incoming : Option Incoming}
    (h : (events.flatMap frames).find? (fun entry => entry.1 = s) = some (s, incoming)) :
    ∃ before after, events = before ++ .read s incoming :: after ∧
      ∀ incoming', .read s incoming' ∉ before := by
  rw [List.find?_flatMap, List.findSome?_eq_some_iff] at h
  obtain ⟨before, event, after, rfl, hfound, hbefore⟩ := h
  refine ⟨before, after, ?_, ?_⟩
  · cases event with
    | read s' incoming' =>
        simp only [frames, List.find?_singleton] at hfound
        split at hfound <;> cases hfound
        rfl
    | resume | stopWriting | deliver | loop => cases hfound
  · intro incoming' hmem
    simpa [frames] using hbefore _ hmem

theorem run_authentic {now : Instant} {events : List (SystemEvent S)} {system : System S}
    (hrun : (machine S app).run (start app.config now) events = some system) :
    system.Authentic app (events.flatMap frames) := by
  have hstart : (machine S app).Reachable (start app.config now) := .init ⟨now, rfl⟩
  rw [← Lib.Machine.outputs_eq_flatMap _ frames hrun]
  refine Lib.Machine.outputs_holds (fun system log event system' hreach h hstep =>
    h.step (reachable_accounted hreach) hstep) hstart ?_ hrun
  refine ⟨fun _ _ => rfl, fun _ _ hmem => (by cases hmem), fun name peer hpeer => ?_⟩
  obtain ⟨room, hroom, -⟩ := Engine.mem_call_peers.mp hpeer
  cases hroom

/-- **Whoever is in a room was let in by the first frame of the session that owns
it, with a token that verifies and names that room and that user.** -/
theorem run_authenticated {now : Instant} {events : List (SystemEvent S)} {system : System S}
    (hrun : (machine S app).run (start app.config now) events = some system) {name : String}
    {room : Room S} (hroom : system.engine.rooms.lookup name = some room) {peer : Peer S}
    (hpeer : peer ∈ room.peers) :
    ∃ s before text after token sdp claims,
      system.Owns s peer.id ∧
      events = before ++ .read s (some (.text text)) :: after ∧
      (∀ incoming, .read s incoming ∉ before) ∧
      app.codec.parse text = some (.join token sdp) ∧
      app.codec.decode (trim token) app.sharedSecret = .ok claims ∧
      claims.Names name peer ∧
      name ≠ "" ∧ peer.userId ≠ "" ∧ claims.callId ≠ "" := by
  obtain ⟨s, request, howns, ⟨incoming, hfirst, hadmits⟩, hnames⟩ :=
    (run_authentic hrun).admitted name peer (Engine.mem_call_peers.mpr ⟨room, hroom, hpeer⟩)
  obtain ⟨text, token, rfl, hparse, hverify⟩ := Codec.admitJoin_eq_ok.mp hadmits
  obtain ⟨before, after, hevents, hbefore⟩ := frames_find hfirst
  obtain ⟨hdecode, hsub, hname, hcall⟩ := Codec.verify_eq_ok hverify
  exact ⟨s, before, text, after, token, request.sdp, request.claims, howns, hevents, hbefore,
    hparse, hdecode, hnames, hnames.room ▸ hname, hnames.sub ▸ hsub, hcall⟩

end System

theorem System.run_authenticated_visits :
    ∃ system room peer, (machine scripted Puppet.state).run (start Puppet.config 0)
        Puppet.visits = some system ∧
      system.engine.rooms.lookup "red" = some room ∧ peer ∈ room.peers ∧
      ∃ s before text after token sdp claims,
        system.Owns s peer.id ∧
        Puppet.visits = before ++ .read s (some (.text text)) :: after ∧
        (∀ incoming, .read s incoming ∉ before) ∧
        Puppet.state.codec.parse text = some (.join token sdp) ∧
        Puppet.state.codec.decode (trim token) Puppet.state.sharedSecret = .ok claims ∧
        claims.Names "red" peer ∧ "red" ≠ "" ∧ peer.userId ≠ "" ∧ claims.callId ≠ "" := by
  obtain ⟨system, hrun, hcheck⟩ := (Option.any_eq_true _ _).mp (by decide +kernel :
    ((machine scripted Puppet.state).run (start Puppet.config 0) Puppet.visits).any (fun system =>
      (system.engine.rooms.lookup "red").any fun room => !room.peers.isEmpty) = true)
  obtain ⟨room, hroom, hsome⟩ := (Option.any_eq_true _ _).mp hcheck
  obtain ⟨peer, hpeer⟩ := List.exists_mem_of_ne_nil room.peers (by simpa using hsome)
  exact ⟨system, room, peer, hrun, hroom, hpeer, run_authenticated hrun hroom hpeer⟩

end FerriteSfu
