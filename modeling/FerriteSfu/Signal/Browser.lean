import FerriteSfu.Signal.Authentication
import FerriteSfu.Loop.Messages

/-!
The browsers, and the two wires between them and their sessions.

A browser answers every offer it reads and answers nothing else, as the one that
stands in for it in the tests does. What a peer was pushed is read in order, and
what a browser sends is read in order by its session. So an answer that is under
way belongs to the offer that is outstanding, and finds it when it arrives.
-/

namespace FerriteSfu

variable {S : Str0m} {app : AppState}

/-- The answer a text says it is. -/
def Codec.answerOf (codec : Codec) (text : String) : Option String :=
  match codec.parse text with
  | some (.answer sdp) => some sdp
  | _ => none

def Command.answerOf : Command → Option String
  | .answer _ sdp => some sdp
  | _ => none

theorem Books.of_joining {phase : Phase} {assigned : Option (Option PeerId)}
    {sent : List Command} (h : Books phase assigned sent) (hphase : phase = .joining) :
    assigned = none := by
  cases h <;> first | rfl | cases hphase

/-- The answer that a session reads and sends on. -/
def Session.relays (codec : Codec) (incoming : Option Incoming) (session : Session) :
    Option String :=
  match session.phase, incoming with
  | .live _, some (.text text) => codec.answerOf text
  | _, _ => none

theorem Session.relays_eq_none {codec : Codec} {incoming : Option Incoming} {session : Session}
    (h : ∀ text, incoming ≠ some (.text text)) : session.relays codec incoming = none := by
  unfold relays
  split
  · exact absurd rfl (h _)
  · rfl

theorem Session.read_answers {session session' : Session} {commands : List Command}
    {incoming : Option Incoming}
    (h : session.read app.codec app.sharedSecret incoming = some (session', commands)) :
    commands.filterMap Command.answerOf = (session.relays app.codec incoming).toList := by
  obtain ⟨phase, assigned, writing, out⟩ := session
  cases phase <;> simp only [read, reduceCtorEq] at h
  case joining =>
    split at h <;> cases h <;> rfl
  case live peer =>
    split at h
    · cases h
    · rename_i text
      have hforward : (app.codec.forward text peer writing).command.toList.filterMap
          Command.answerOf = (app.codec.answerOf text).toList := by
        rw [Codec.forward, Codec.answerOf]
        rcases app.codec.parse text with _ | (_ | _ | _ | _ | _ | _) <;> rfl
      split at h <;> cases h
      · exact hforward
      · rw [List.filterMap_append, hforward]
        exact List.append_nil _
    all_goals
      cases h
      rfl

structure Browser where
  /-- How much of what its peer was pushed it has read. -/
  seen : ℕ
  /-- What it has sent and its session has not read. -/
  wire : List String

/-- A system and the browsers its sessions talk to. -/
structure Conference (S : Str0m) where
  system : System S
  browsers : ℕ → Browser

inductive ConferenceEvent (S : Str0m)
  /-- A browser sends something on its own account. -/
  | say (session : ℕ) (text : String)
  /-- A browser reads what its peer was pushed next, and replies to an offer. -/
  | hear (session : ℕ) (reply : String)
  | system (event : SystemEvent S)

namespace Conference

def start (config : Config) (now : Instant) : Conference S where
  system := .start config now
  browsers _ := { seen := 0, wire := [] }

def setBrowser (s : ℕ) (browser : Browser) (conference : Conference S) : Conference S :=
  { conference with browsers := Function.update conference.browsers s browser }

/-- The peer that a session was assigned, as long as it is in a room. -/
def peerOf (s : ℕ) (conference : Conference S) : Option (Peer S) :=
  (conference.system.sessions s).assigned.join.bind conference.system.engine.peerOf

/-- A browser may send what it likes but answers out of turn, until its peer is
gone. -/
def say (app : AppState) (s : ℕ) (text : String) (conference : Conference S) :
    Option (Conference S) :=
  let browser := conference.browsers s
  let gone := (conference.system.sessions s).assigned.join.any fun id =>
    (conference.system.engine.peerOf id).isNone
  if (app.codec.answerOf text).isNone || gone then
    some (conference.setBrowser s { browser with wire := browser.wire ++ [text] })
  else none

/-- `on_signal`: an offer is answered, with an SDP that parses. -/
def hear (app : AppState) (s : ℕ) (reply : String) (conference : Conference S) :
    Option (Conference S) :=
  let browser := conference.browsers s
  (conference.peerOf s).bind fun peer => peer.out[browser.seen]?.bind fun message =>
    match message with
    | .offer _ _ =>
        if (app.codec.answerOf reply).any fun sdp => (S.answerFromSdpString sdp).isOk then
          some (conference.setBrowser s
            { seen := browser.seen + 1, wire := browser.wire ++ [reply] })
        else none
    | _ => some (conference.setBrowser s { browser with seen := browser.seen + 1 })

/-- A session reads the texts of its browser, in order. -/
def step (app : AppState) (conference : Conference S) :
    ConferenceEvent S → Option (Conference S)
  | .say s text => conference.say app s text
  | .hear s reply => conference.hear app s reply
  | .system (.read s (some (.text text))) =>
      match (conference.browsers s).wire with
      | [] => none
      | next :: wire =>
          if next = text then
            (conference.system.read app s (some (.text text))).map fun system =>
              { conference with system := system }.setBrowser s
                { conference.browsers s with wire := wire }
          else none
  | .system event =>
      (conference.system.step app event).map fun system => { conference with system := system }

def machine (S : Str0m) (app : AppState) :
    Lib.Machine (Conference S) (ConferenceEvent S) where
  init conference := ∃ now, conference = start app.config now
  step := step app

/-- The answers of a browser that are under way, the oldest first: those its
session has sent on, and those it has not read. -/
def underway (app : AppState) (s : ℕ) (conference : Conference S) : List String :=
  (conference.system.sent s).filterMap Command.answerOf ++
    (conference.browsers s).wire.filterMap app.codec.answerOf

/-- The offers a browser has not read. -/
def unread (s : ℕ) (peer : Peer S) (conference : Conference S) : ℕ :=
  offersIn (peer.out.drop (conference.browsers s).seen)

end Conference

/-! ### What a peer is pushed and what it is answered -/

/-- No answer was consumed on the way from one peer to the other, and messages
were only added. -/
structure Peer.Follows (old peer : Peer S) : Prop where
  balanced : old.Balanced peer
  out : old.out <+: peer.out

namespace Peer

theorem Follows.refl (peer : Peer S) : peer.Follows peer := ⟨.refl peer, List.prefix_rfl⟩

theorem Follows.congr {old peer peer' : Peer S} (h : old.Follows peer) (hid : peer'.id = peer.id)
    (hout : peer'.out = peer.out) (hpending : peer'.pending = peer.pending) :
    old.Follows peer' :=
  ⟨h.balanced.congr hid (by rw [hout]) hpending, hout ▸ h.out⟩

end Peer

theorem Call.follows_kept (old : Peer S) :
    PeerKept (S := S) (fun _ event => ∀ id sdp, event ≠ .answer id sdp) (Peer.Follows old) where
  send message _ hoffer h :=
    ⟨(balanced_kept old).send message _ hoffer h.balanced, h.out.trans (List.prefix_append _ _)⟩
  subscribe _ _ h := h.congr rfl rfl rfl
  flags _ _ _ _ h := h.congr rfl rfl rfl
  answer _ id sdp _ hok _ _ _ _ _ := absurd rfl (hok id sdp)
  pollOutput heap now peer h := by
    refine ⟨(balanced_kept old).pollOutput heap now peer h.balanced, h.out.trans ?_⟩
    rcases Peer.pollOutput_out heap now peer with ⟨hout, -⟩ | ⟨-, sdp, hout, -⟩
    · exact ⟨[], by rw [hout, List.append_nil]⟩
    · rw [hout]
      exact List.prefix_append _ _
  receive heap propagated peer h :=
    h.congr (Peer.receive_id heap propagated peer) (Peer.receive_out heap propagated peer)
      (Peer.receive_pending heap propagated peer)
  handleInput input peer h :=
    h.congr (Peer.handleInput_id input peer) (Peer.handleInput_out input peer)
      (Peer.handleInput_pending input peer)

namespace Engine

/-- Whoever is there after a step that is no answer was there before or is new,
and has consumed nothing since. -/
theorem Sound.step_follows {engine engine' : Engine S} (h : engine.Sound) {event : Event S}
    (hstep : engine.step event = some engine')
    (hanswer : ∀ id sdp seed, event ≠ .command (.answer id sdp) seed) :
    ∀ peer', engine'.Holds peer' → ∃ old : Peer S, old.Follows peer' ∧
      (engine.Holds old ∨ engine.nextPeer ≤ old.id.val ∧ old.out = [] ∧ old.pending = none) := by
  rintro peer' ⟨name, room, hroom, hpeer⟩
  rw [← call_peers hroom] at hpeer
  have hcall := (h.step_calls hstep).2.2 name
  unfold CallStep at hcall
  rcases hev : engine.callEvent name event with _ | ev
  · simp only [hev] at hcall
    rw [hcall] at hpeer
    exact ⟨peer', .refl _, .inl ⟨name, mem_call_peers.mp hpeer⟩⟩
  · simp only [hev] at hcall
    have hok : ∀ id sdp, ev ≠ .answer id sdp := by
      rintro id sdp rfl
      obtain ⟨seed, he⟩ := callEvent_answer hev
      exact hanswer id sdp seed he
    obtain ⟨old, hold, hfollows⟩ := Call.step_related Peer.Follows.refl Call.follows_kept
      (h.numbered name) hok hcall peer' hpeer
    rcases hold with hold | ⟨request, seed, offer, id, hnew, rfl⟩
    · exact ⟨old, hfollows, .inl ⟨name, mem_call_peers.mp hold⟩⟩
    · exact ⟨_, hfollows, .inr ⟨hnew, rfl, rfl⟩⟩

/-- An answer that parses uses up the offer that is outstanding, and touches
nobody else. -/
theorem Sound.step_answer {engine engine' : Engine S} (h : engine.Sound) {id : PeerId}
    {sdp : String} {seed : S.Seed}
    (hstep : engine.step (.command (.answer id sdp) seed) = some engine') :
    ∀ peer', engine'.Holds peer' → ∃ old, engine.Holds old ∧ peer'.id = old.id ∧
      peer'.out = old.out ∧
      peer'.pending =
        if old.id = id ∧ (S.answerFromSdpString sdp).isOk = true then none else old.pending := by
  rintro peer' ⟨name, room, hroom, hpeer⟩
  have hcall : (engine.call name).answer id sdp = engine'.call name :=
    Option.some_inj.mp ((h.step_calls hstep).2.2 name)
  have hmem : peer' ∈ ((engine.call name).answer id sdp).peers := by
    rw [hcall, call_peers hroom]
    exact hpeer
  cases hparse : S.answerFromSdpString sdp with
  | error reason =>
      simp only [Call.answer, hparse] at hmem
      exact ⟨peer', ⟨name, mem_call_peers.mp hmem⟩, rfl, rfl,
        by simp [Except.isOk, Except.toBool]⟩
  | ok answer =>
      simp only [Call.answer, hparse] at hmem
      cases hbefore : engine.rooms.lookup name with
      | none => simp [Call.peers, hbefore] at hmem
      | some before =>
          simp only [Call.peers, call_room, hbefore, Option.map_some, Option.getD_some,
            Room.updatePeer_peers (h.ids hbefore)] at hmem
          obtain ⟨old, hold, rfl⟩ := List.mem_map.mp hmem
          refine ⟨old, ⟨name, before, hbefore, hold⟩, ?_⟩
          by_cases hid : old.id = id
          · obtain ⟨hcard, -, hout⟩ := Peer.acceptAnswer_frame answer old
            rw [if_pos hid, if_pos ⟨hid, rfl⟩]
            exact ⟨Peer.id_eq_of_card hcard, hout, Peer.acceptAnswer_pending answer old⟩
          · rw [if_neg hid, if_neg fun hboth => hid hboth.1]
            exact ⟨rfl, rfl, rfl⟩

end Engine

/-- Offers that are pushed while none is answered are outstanding. -/
theorem Peer.Follows.unread {old peer : Peer S} (h : old.Follows peer) {seen : ℕ}
    (hseen : seen ≤ old.out.length) :
    seen ≤ peer.out.length ∧
      offersIn (peer.out.drop seen) + old.unanswered =
        offersIn (old.out.drop seen) + peer.unanswered := by
  obtain ⟨news, hout⟩ := h.out
  have hbalanced := h.balanced.2
  rw [← hout, offersIn_append] at hbalanced
  rw [← hout, List.drop_append_of_le_length hseen, offersIn_append, List.length_append]
  omega

/-! ### Every answer has its turn -/

namespace Conference

variable {conference conference' : Conference S}

/-- What is unread and what is under way make up the offer that is outstanding. -/
structure InTurn (app : AppState) (conference : Conference S) : Prop where
  accounted : conference.system.Accounted
  fresh : ∀ s, (conference.system.sessions s).assigned.join = none →
    (conference.browsers s).seen = 0 ∧ conference.underway app s = []
  seen : ∀ s peer, conference.peerOf s = some peer →
    (conference.browsers s).seen ≤ peer.out.length
  turn : ∀ s peer, conference.peerOf s = some peer →
    conference.unread s peer + (conference.underway app s).length = peer.unanswered
  parses : ∀ s peer, conference.peerOf s = some peer → ∀ sdp ∈ conference.underway app s,
    (S.answerFromSdpString sdp).isOk = true

theorem peerOf_eq_some {s : ℕ} {peer : Peer S} :
    conference.peerOf s = some peer ↔ ∃ id, conference.system.Owns s id ∧
      conference.system.engine.peerOf id = some peer := by
  simp [peerOf, System.Owns, Option.bind_eq_some_iff, Option.join_eq_some_iff]

@[simp] theorem setBrowser_system (s : ℕ) (browser : Browser) (conference : Conference S) :
    (conference.setBrowser s browser).system = conference.system := rfl

theorem setBrowser_browsers (s s' : ℕ) (browser : Browser) (conference : Conference S) :
    (conference.setBrowser s browser).browsers s' =
      if s' = s then browser else conference.browsers s' := by
  simp only [setBrowser, Function.update_apply]

namespace InTurn

/-- While the media loop stands still and nobody is assigned anything, what
counts is what has been read and what is under way. -/
theorem congr (h : conference.InTurn app) (haccounted : conference'.system.Accounted)
    (hengine : conference'.system.engine = conference.system.engine)
    (hassigned : ∀ s, (conference'.system.sessions s).assigned =
      (conference.system.sessions s).assigned)
    (hseen : ∀ s, (conference'.browsers s).seen = (conference.browsers s).seen)
    (hunderway : ∀ s, conference'.underway app s = conference.underway app s) :
    conference'.InTurn app := by
  have hpeer : ∀ s, conference'.peerOf s = conference.peerOf s :=
    fun s => by rw [peerOf, hassigned, hengine, peerOf]
  refine ⟨haccounted, fun s hnone => ?_, fun s peer hp => ?_, fun s peer hp => ?_,
    fun s peer hp => ?_⟩
  · rw [hseen, hunderway]
    exact h.fresh s (hassigned s ▸ hnone)
  · rw [hseen]
    exact h.seen s peer (hpeer s ▸ hp)
  · rw [unread, hseen, hunderway]
    exact h.turn s peer (hpeer s ▸ hp)
  · rw [hunderway]
    exact h.parses s peer (hpeer s ▸ hp)

/-- A browser that reads and writes, while its session and the media loop stand
still. -/
theorem setBrowser (h : conference.InTurn app) (s : ℕ) {browser : Browser}
    (hfresh : (conference.system.sessions s).assigned.join = none → browser.seen = 0 ∧
      browser.wire.filterMap app.codec.answerOf =
        (conference.browsers s).wire.filterMap app.codec.answerOf)
    (hpeer : ∀ peer, conference.peerOf s = some peer →
      browser.seen ≤ peer.out.length ∧
      offersIn (peer.out.drop browser.seen) +
          (browser.wire.filterMap app.codec.answerOf).length =
        conference.unread s peer +
          ((conference.browsers s).wire.filterMap app.codec.answerOf).length ∧
      ∀ sdp ∈ browser.wire.filterMap app.codec.answerOf,
        sdp ∈ (conference.browsers s).wire.filterMap app.codec.answerOf ∨
          (S.answerFromSdpString sdp).isOk = true) :
    (conference.setBrowser s browser).InTurn app := by
  have hown : (conference.setBrowser s browser).browsers s = browser := by
    rw [setBrowser_browsers, if_pos rfl]
  have hother : ∀ s', s' ≠ s →
      (conference.setBrowser s browser).browsers s' = conference.browsers s' :=
    fun s' hs => by rw [setBrowser_browsers, if_neg hs]
  refine ⟨h.accounted, fun s' hnone => ?_, fun s' peer hp => ?_, fun s' peer hp => ?_,
    fun s' peer hp sdp hsdp => ?_⟩
  · by_cases hs : s' = s
    · subst hs
      obtain ⟨hseen, hwire⟩ := hfresh hnone
      rw [underway, hown, hwire]
      exact ⟨hseen, (h.fresh s' hnone).2⟩
    · rw [underway, hother s' hs]
      exact h.fresh s' hnone
  · by_cases hs : s' = s
    · subst hs
      rw [hown]
      exact (hpeer peer hp).1
    · rw [hother s' hs]
      exact h.seen s' peer hp
  · by_cases hs : s' = s
    · subst hs
      have hturn := h.turn s' peer hp
      have hmoves := (hpeer peer hp).2.1
      rw [underway, List.length_append] at hturn ⊢
      rw [unread, hown]
      simp only [setBrowser_system]
      omega
    · rw [unread, underway, hother s' hs]
      exact h.turn s' peer hp
  · by_cases hs : s' = s
    · subst hs
      rw [underway, hown] at hsdp
      rcases List.mem_append.mp hsdp with hsdp | hsdp
      · exact h.parses s' peer hp sdp (List.mem_append_left _ hsdp)
      · rcases (hpeer peer hp).2.2 sdp hsdp with hsdp | hok
        · exact h.parses s' peer hp sdp (List.mem_append_right _ hsdp)
        · exact hok
    · rw [underway, hother s' hs] at hsdp
      exact h.parses s' peer hp sdp hsdp

theorem say (h : conference.InTurn app) {s : ℕ} {text : String}
    (hsay : conference.say app s text = some conference') : conference'.InTurn app := by
  simp only [Conference.say] at hsay
  split at hsay
  · rename_i hguard
    cases hsay
    rcases Bool.or_eq_true_iff.mp hguard with hnone | hgone
    · have hwire : ((conference.browsers s).wire ++ [text]).filterMap app.codec.answerOf =
          (conference.browsers s).wire.filterMap app.codec.answerOf := by
        rw [List.filterMap_append, List.filterMap_cons_none (Option.isNone_iff_eq_none.mp hnone)]
        simp
      refine h.setBrowser s (fun hfree => ⟨(h.fresh s hfree).1, hwire⟩) fun peer hp => ?_
      rw [hwire]
      exact ⟨h.seen s peer hp, rfl, fun sdp hsdp => .inl hsdp⟩
    · -- whoever answers out of turn has no peer in any room
      obtain ⟨id, hid, hgone⟩ := (Option.any_eq_true _ _).mp hgone
      refine h.setBrowser s (fun hfree => by simp [hfree] at hid) fun peer hp => ?_
      rw [peerOf, hid, Option.bind_some, Option.isNone_iff_eq_none.mp hgone] at hp
      cases hp
  · cases hsay

theorem hear (h : conference.InTurn app) {s : ℕ} {reply : String}
    (hhear : conference.hear app s reply = some conference') : conference'.InTurn app := by
  obtain ⟨peer, hpeer, hhear⟩ := Option.bind_eq_some_iff.mp hhear
  obtain ⟨message, hmessage, hhear⟩ := Option.bind_eq_some_iff.mp hhear
  have hfree : (conference.system.sessions s).assigned.join ≠ none := by
    intro hnone
    rw [peerOf, hnone] at hpeer
    cases hpeer
  obtain ⟨hlt, hget⟩ := List.getElem?_eq_some_iff.mp hmessage
  have hnext : conference.unread s peer =
      offersIn [message] + offersIn (peer.out.drop ((conference.browsers s).seen + 1)) := by
    rw [unread, List.drop_eq_getElem_cons hlt, hget, ← offersIn_append]
    rfl
  have hquiet : (∀ sdp tracks, message ≠ .offer sdp tracks) →
      (conference.setBrowser s { conference.browsers s with
        seen := (conference.browsers s).seen + 1 }).InTurn app := by
    intro hoffer
    have hnone : offersIn [message] = 0 := offersIn_send hoffer []
    refine h.setBrowser s (fun hnone => absurd hnone hfree) fun peer' hp => ?_
    obtain rfl := Option.some_inj.mp (hpeer.symm.trans hp)
    exact ⟨hlt, by rw [hnext, hnone, Nat.zero_add], fun sdp hsdp => .inl hsdp⟩
  cases message with
  | offer sdp tracks =>
      simp only at hhear
      split at hhear
      · rename_i hreply
        cases hhear
        obtain ⟨answer, hanswer, hok⟩ := (Option.any_eq_true _ _).mp hreply
        have hwire : ((conference.browsers s).wire ++ [reply]).filterMap app.codec.answerOf =
            (conference.browsers s).wire.filterMap app.codec.answerOf ++ [answer] := by
          rw [List.filterMap_append, List.filterMap_cons_some hanswer, List.filterMap_nil]
        refine h.setBrowser s (fun hnone => absurd hnone hfree) fun peer' hp => ?_
        obtain rfl := Option.some_inj.mp (hpeer.symm.trans hp)
        have hone : offersIn [.offer sdp tracks] = 1 := rfl
        refine ⟨hlt, ?_, fun sdp' hsdp' => ?_⟩
        · show offersIn (peer.out.drop ((conference.browsers s).seen + 1)) + _ = _
          rw [hwire, hnext, hone, List.length_append, List.length_singleton]
          omega
        · rw [hwire] at hsdp'
          refine (List.mem_append.mp hsdp').imp_right fun hnew => ?_
          rwa [List.mem_singleton.mp hnew]
      · cases hhear
  | joined | peerJoined | peerLeft | peerState | speaking | error | pong =>
      cases hhear
      exact hquiet (by simp)

/-! The media loop goes on. -/

/-- Steps that consume no answer. -/
theorem of_follows (h : conference.InTurn app) (haccounted : conference'.system.Accounted)
    (hbrowsers : conference'.browsers = conference.browsers)
    (hunderway : ∀ s, conference'.underway app s = conference.underway app s)
    (hassigned : ∀ s, (conference'.system.sessions s).assigned =
      (conference.system.sessions s).assigned ∨
        (conference.system.sessions s).assigned.join = none)
    (hfollows : ∀ peer', conference'.system.engine.Holds peer' → ∃ old : Peer S,
      old.Follows peer' ∧ (conference.system.engine.Holds old ∨
        conference.system.engine.nextPeer ≤ old.id.val ∧ old.out = [] ∧ old.pending = none)) :
    conference'.InTurn app := by
  -- whoever is there was there before, or its browser has read and sent nothing
  have hold : ∀ s peer', conference'.peerOf s = some peer' → ∃ old : Peer S,
      old.Follows peer' ∧ (conference.browsers s).seen ≤ old.out.length ∧
      offersIn (old.out.drop (conference.browsers s).seen) +
        (conference.underway app s).length = old.unanswered ∧
      ∀ sdp ∈ conference.underway app s, (S.answerFromSdpString sdp).isOk = true := by
    intro s peer' hp
    obtain ⟨id, howns, hfound⟩ := peerOf_eq_some.mp hp
    obtain ⟨hholds, rfl⟩ := Engine.peerOf_eq_some hfound
    obtain ⟨old, hfollowed, hwas⟩ := hfollows peer' hholds
    have hid : peer'.id = old.id := hfollowed.balanced.1
    refine ⟨old, hfollowed, ?_⟩
    rcases hassigned s with hsame | hfree
    · have howned : conference.system.Owns s old.id := by
        rw [System.Owns, ← hsame, ← hid]
        exact howns
      rcases hwas with hwas | ⟨hnew, -, -⟩
      · have hp : conference.peerOf s = some old :=
          peerOf_eq_some.mpr ⟨old.id, howned, h.accounted.sound.peerOf_holds hwas⟩
        exact ⟨h.seen s old hp, h.turn s old hp, h.parses s old hp⟩
      · exact absurd (h.accounted.given s old.id howned) (by omega)
    · obtain ⟨hseen, hnone⟩ := h.fresh s hfree
      rcases hwas with hwas | ⟨-, hout, hpending⟩
      · -- somebody else owned it, and still does
        obtain ⟨name, room, hroom, hpeer⟩ := hwas
        obtain ⟨s₀, howner⟩ := h.accounted.owned old.id
          ⟨name, List.mem_map_of_mem (Engine.mem_call_peers.mpr ⟨room, hroom, hpeer⟩)⟩
        have hkept : conference'.system.Owns s₀ old.id := by
          rcases hassigned s₀ with hsame | hfree₀
          · rwa [System.Owns, hsame]
          · rw [System.Owns] at howner
            simp [howner] at hfree₀
        obtain rfl := haccounted.once s s₀ old.id (hid ▸ howns) hkept
        rw [System.Owns] at howner
        simp [howner] at hfree
      · rw [hseen, hnone, hout, Peer.unanswered, hpending]
        exact ⟨Nat.zero_le _, rfl, by simp⟩
  refine ⟨haccounted, fun s hnone => ?_, fun s peer hp => ?_, fun s peer hp => ?_,
    fun s peer hp => ?_⟩
  · rw [hbrowsers, hunderway]
    rcases hassigned s with hsame | hfree
    · exact h.fresh s (hsame ▸ hnone)
    · exact h.fresh s hfree
  · obtain ⟨old, hfollowed, hseen, -, -⟩ := hold s peer hp
    rw [hbrowsers]
    exact (hfollowed.unread hseen).1
  · obtain ⟨old, hfollowed, hseen, hturn, -⟩ := hold s peer hp
    have hmoves := (hfollowed.unread hseen).2
    rw [unread, hbrowsers, hunderway]
    omega
  · obtain ⟨old, -, -, -, hparses⟩ := hold s peer hp
    rw [hunderway]
    exact hparses

/-- An answer that is taken answers the offer that is outstanding. -/
theorem of_answer (h : conference.InTurn app) (haccounted : conference'.system.Accounted)
    (hbrowsers : conference'.browsers = conference.browsers)
    (hassigned : ∀ s, (conference'.system.sessions s).assigned =
      (conference.system.sessions s).assigned) {s₀ : ℕ} {id : PeerId} {sdp : String}
    (howner : conference.system.Owns s₀ id)
    (htaken : conference.underway app s₀ = sdp :: conference'.underway app s₀)
    (hunderway : ∀ s, s ≠ s₀ → conference'.underway app s = conference.underway app s)
    (hanswered : ∀ peer', conference'.system.engine.Holds peer' → ∃ old,
      conference.system.engine.Holds old ∧ peer'.id = old.id ∧ peer'.out = old.out ∧
      peer'.pending = if old.id = id ∧ (S.answerFromSdpString sdp).isOk = true then none
        else old.pending) :
    conference'.InTurn app := by
  have hold : ∀ s peer', conference'.peerOf s = some peer' → ∃ old, conference.peerOf s = some old ∧
      peer'.out = old.out ∧ (s ≠ s₀ → peer'.pending = old.pending) ∧
      (s = s₀ → (S.answerFromSdpString sdp).isOk = true → peer'.pending = none) := by
    intro s peer' hp
    obtain ⟨id', howns, hfound⟩ := peerOf_eq_some.mp hp
    obtain ⟨hholds, rfl⟩ := Engine.peerOf_eq_some hfound
    obtain ⟨old, hwas, hid, hout, hpending⟩ := hanswered peer' hholds
    have howned : conference.system.Owns s old.id := by
      rw [System.Owns, ← hassigned, ← hid]
      exact howns
    refine ⟨old, peerOf_eq_some.mpr ⟨old.id, howned, h.accounted.sound.peerOf_holds hwas⟩, hout,
      fun hs => ?_, fun hs hok => ?_⟩
    · rw [hpending, if_neg]
      rintro ⟨rfl, -⟩
      exact hs (h.accounted.once s s₀ old.id howned howner)
    · subst hs
      have he : old.id = id := by
        rw [System.Owns] at howned howner
        rw [howned] at howner
        exact Option.some_inj.mp (Option.some_inj.mp howner)
      rw [hpending, if_pos ⟨he, hok⟩]
  have hfree : ∀ s, (conference'.system.sessions s).assigned.join = none → s ≠ s₀ := by
    rintro s hnone rfl
    rw [hassigned, howner] at hnone
    cases hnone
  refine ⟨haccounted, fun s hnone => ?_, fun s peer hp => ?_, fun s peer hp => ?_,
    fun s peer hp sdp' hsdp' => ?_⟩
  · rw [hbrowsers, hunderway s (hfree s hnone)]
    exact h.fresh s (hassigned s ▸ hnone)
  · obtain ⟨old, hp, hout, -⟩ := hold s peer hp
    rw [hbrowsers, hout]
    exact h.seen s old hp
  · obtain ⟨old, hp, hout, hother, hown⟩ := hold s peer hp
    have hturn := h.turn s old hp
    rw [unread, hbrowsers, hout]
    rw [unread] at hturn
    by_cases hs : s = s₀
    · subst hs
      have hok := h.parses s old hp sdp (by rw [htaken]; exact List.mem_cons_self ..)
      have hone : old.unanswered ≤ 1 := by
        unfold Peer.unanswered
        cases old.pending <;> simp
      rw [htaken, List.length_cons] at hturn
      rw [Peer.unanswered, hown rfl hok]
      simp only [Option.isSome_none, Bool.toNat_false]
      omega
    · rw [hunderway s hs, Peer.unanswered, hother hs]
      exact hturn
  · obtain ⟨old, hp, -⟩ := hold s peer hp
    by_cases hs : s = s₀
    · subst hs
      exact h.parses s old hp sdp' (by rw [htaken]; exact List.mem_cons_of_mem _ hsdp')
    · rw [hunderway s hs] at hsdp'
      exact h.parses s old hp sdp' hsdp'

/-! What the sessions do. -/

theorem of_sent (h : conference.InTurn app) {system : System S} (haccounted : system.Accounted)
    (hengine : system.engine = conference.system.engine)
    (hassigned : ∀ s, (system.sessions s).assigned = (conference.system.sessions s).assigned)
    (hsent : ∀ s, (system.sent s).filterMap Command.answerOf =
      (conference.system.sent s).filterMap Command.answerOf) :
    { conference with system := system }.InTurn app :=
  h.congr haccounted hengine hassigned (fun _ => rfl) fun s => by rw [underway, hsent, underway]

/-- An answer that its session reads is under way as before. -/
theorem underway_readText (h : conference.InTurn app) {s : ℕ} {text : String} {wire : List String}
    (hwire : (conference.browsers s).wire = text :: wire) {system : System S}
    (hread : conference.system.read app s (some (.text text)) = some system) (s' : ℕ) :
    ({ conference with system := system }.setBrowser s
      { conference.browsers s with wire := wire }).underway app s' =
        conference.underway app s' := by
  obtain ⟨⟨session, commands⟩, hsession, rfl⟩ := Option.map_eq_some_iff.mp hread
  have hpassed : commands.filterMap Command.answerOf = (app.codec.answerOf text).toList := by
    rw [Session.read_answers hsession]
    rcases hphase : (conference.system.sessions s).phase with _ | _ | peer | _
    case joining =>
      -- a session that waits for its first frame has nothing under way
      have hnone := (h.fresh s (by rw [(h.accounted.books s).of_joining hphase]; rfl)).2
      rw [underway, hwire, List.append_eq_nil_iff] at hnone
      cases hanswer : app.codec.answerOf text with
      | none => simp [Session.relays, hphase]
      | some sdp =>
          rw [List.filterMap_cons_some hanswer] at hnone
          cases hnone.2
    case live => simp [Session.relays, hphase]
    all_goals simp [Session.read, hphase] at hsession
  simp only [underway, setBrowser_system, setBrowser_browsers, System.sent,
    Lib.Mailbox.sentBy_post]
  by_cases hs : s' = s
  · subst hs
    rw [if_pos rfl, if_pos rfl, hwire, List.filterMap_append, hpassed, List.append_assoc]
    congr 1
    cases hanswer : app.codec.answerOf text with
    | none => rw [List.filterMap_cons_none hanswer]; rfl
    | some sdp => rw [List.filterMap_cons_some hanswer]; rfl
  · rw [if_neg hs, if_neg hs]

theorem readText (h : conference.InTurn app) {s : ℕ} {text : String} {wire : List String}
    (hwire : (conference.browsers s).wire = text :: wire) {system : System S}
    (hread : conference.system.read app s (some (.text text)) = some system) :
    ({ conference with system := system }.setBrowser s
      { conference.browsers s with wire := wire }).InTurn app := by
  have haccounted := h.accounted.read hread
  have hunderway := h.underway_readText hwire hread
  obtain ⟨⟨session, commands⟩, hsession, rfl⟩ := Option.map_eq_some_iff.mp hread
  have hassigned := ((h.accounted.books s).read hsession).1
  refine h.congr haccounted rfl (fun s' => ?_) (fun s' => ?_) hunderway
  · simp only [setBrowser_system, System.setSession_sessions]
    split
    · rename_i hs
      subst hs
      exact hassigned
    · rfl
  · rw [setBrowser_browsers]
    split
    · rename_i hs
      subst hs
      rfl
    · rfl

theorem system_step (h : conference.InTurn app) {event : SystemEvent S} {system : System S}
    (htext : ∀ s text, event ≠ .read s (some (.text text)))
    (hstep : conference.system.step app event = some system) :
    { conference with system := system }.InTurn app := by
  have haccounted := h.accounted.step hstep
  cases event with
  | read s incoming =>
      obtain ⟨⟨session, commands⟩, hsession, rfl⟩ := Option.map_eq_some_iff.mp hstep
      have hassigned := ((h.accounted.books s).read hsession).1
      have hnone : commands.filterMap Command.answerOf = [] := by
        rw [Session.read_answers hsession,
          Session.relays_eq_none fun text he => htext s text (by rw [he])]
        rfl
      refine h.of_sent haccounted rfl (fun s' => ?_) fun s' => ?_
      · rw [System.setSession_sessions]
        split
        · rename_i hs
          subst hs
          exact hassigned
        · rfl
      · rw [System.sent, Lib.Mailbox.sentBy_post]
        split
        · rename_i hs
          subst hs
          rw [List.filterMap_append, hnone, List.append_nil]
          rfl
        · rfl
  | resume s =>
      obtain ⟨session, hresume, rfl⟩ := Option.map_eq_some_iff.mp hstep
      refine h.of_sent haccounted rfl (fun s' => ?_) fun _ => rfl
      rw [System.setSession_sessions]
      split
      · rename_i hs
        subst hs
        exact ((h.accounted.books s').resume hresume).1
      · rfl
  | stopWriting s =>
      cases hstep
      refine h.of_sent haccounted rfl (fun s' => ?_) fun _ => rfl
      rw [System.setSession_sessions]
      split
      · rename_i hs
        rw [hs]
      · rfl
  | loop event =>
      simp only [System.step] at hstep
      split at hstep
      · cases hstep
      · rename_i hcommand
        obtain ⟨engine, hengine, rfl⟩ := Option.map_eq_some_iff.mp hstep
        refine h.of_follows haccounted rfl (fun _ => rfl) (fun _ => .inl rfl)
          (h.accounted.sound.step_follows hengine ?_)
        rintro id sdp seed rfl
        exact hcommand rfl
  | deliver s seed =>
      obtain ⟨command, rest, hsent, hengine, hrest, hsessions⟩ := System.deliver_eq_some hstep
      have hengine' : conference.system.engine.step (.command command seed) =
          some system.engine := by
        rw [hengine]
        exact Engine.step_command command seed conference.system.engine
      have hquiet : command.answerOf = none → ∀ s', { conference with system := system }.underway
          app s' = conference.underway app s' := by
        intro hnone s'
        rw [underway, hrest, underway]
        split
        · rename_i hs
          rw [hs, hsent, List.filterMap_cons_none hnone]
        · rfl
      rcases h.accounted.sent_cons hsent with ⟨-, hassigned, ⟨request, rfl⟩, -⟩ |
        ⟨peer, howner, htarget, -⟩
      · refine h.of_follows haccounted rfl (hquiet rfl) (fun s' => ?_)
          (h.accounted.sound.step_follows hengine' (by simp))
        rw [hsessions]
        dsimp only [Engine.apply]
        split
        · rename_i hs
          exact .inr (by rw [hs, hassigned]; rfl)
        · exact .inl rfl
      · rw [(h.accounted.sound.apply_present htarget seed).1] at hsessions
        have hassigned : ∀ s', (system.sessions s').assigned =
            (conference.system.sessions s').assigned := fun s' => by rw [hsessions]
        cases hanswer : command.answerOf with
        | none =>
            refine h.of_follows haccounted rfl (hquiet hanswer) (fun s' => .inl (hassigned s'))
              (h.accounted.sound.step_follows hengine' ?_)
            rintro id sdp seed' he
            cases he
            cases hanswer
        | some sdp =>
            cases command with
            | answer id sdp' =>
                cases hanswer
                cases htarget
                refine h.of_answer haccounted rfl hassigned howner ?_ (fun s' hs => ?_)
                  (h.accounted.sound.step_answer hengine')
                · rw [underway, hsent, List.filterMap_cons_some (by rfl), underway, hrest, if_pos rfl]
                  rfl
                · rw [underway, hrest, if_neg hs]
                  rfl
            | join | mute | screen | leave | shutdown => cases hanswer

theorem step (h : conference.InTurn app) {event : ConferenceEvent S}
    (hstep : Conference.step app conference event = some conference') :
    conference'.InTurn app := by
  unfold Conference.step at hstep
  split at hstep
  · exact h.say hstep
  · exact h.hear hstep
  · split at hstep
    · cases hstep
    · rename_i next wire hwire
      split at hstep
      · rename_i he
        subst he
        obtain ⟨system, hread, rfl⟩ := Option.map_eq_some_iff.mp hstep
        exact h.readText hwire hread
      · cases hstep
  · rename_i event hother
    obtain ⟨system, hsystem, rfl⟩ := Option.map_eq_some_iff.mp hstep
    exact h.system_step (fun s text he => hother s text (he ▸ rfl)) hsystem

end InTurn

theorem reachable_inTurn (h : (machine S app).Reachable conference) : conference.InTurn app := by
  refine Lib.Machine.Invariant.holds (I := InTurn app) ⟨?_, ?_⟩ h
  · rintro conference ⟨now, rfl⟩
    refine ⟨System.accounted_start app.config now, fun _ _ => ⟨rfl, rfl⟩, fun s peer hp => ?_,
      fun s peer hp => ?_, fun s peer hp => ?_⟩ <;> cases hp
  · intro conference event conference' _ hturn _ hstep
    exact hturn.step hstep

/-- How the answers of the browsers meet the offers they answer. -/
structure Turns (app : AppState) (conference : Conference S) : Prop where
  /-- Every peer in a room has its browser. -/
  browser : ∀ peer, conference.system.engine.Holds peer → ∃ s, conference.peerOf s = some peer
  /-- An offer that is outstanding is yet to be read, or its answer is on the way.
  Nothing else is. -/
  one : ∀ s peer, conference.peerOf s = some peer →
    conference.unread s peer + (conference.underway app s).length = peer.unanswered
  /-- Whenever the media loop takes an answer, the offer is there, and the answer
  parses. -/
  awaited : ∀ s id sdp rest peer, conference.system.sent s = .answer id sdp :: rest →
    conference.system.engine.peerOf id = some peer →
      peer.pending.isSome = true ∧ (S.answerFromSdpString sdp).isOk = true

/-- **No answer comes without its offer, or twice.** -/
theorem reachable_turns (h : (machine S app).Reachable conference) : conference.Turns app := by
  have hturn := reachable_inTurn h
  have hsound := hturn.accounted.sound
  refine ⟨fun peer hholds => ?_, hturn.turn, fun s id sdp rest peer hsent hfound => ?_⟩
  · obtain ⟨name, room, hroom, hpeer⟩ := id hholds
    obtain ⟨s, howner⟩ := hturn.accounted.owned peer.id
      ⟨name, List.mem_map_of_mem (Engine.mem_call_peers.mpr ⟨room, hroom, hpeer⟩)⟩
    exact ⟨s, peerOf_eq_some.mpr ⟨peer.id, howner, hsound.peerOf_holds hholds⟩⟩
  · obtain ⟨-, -, ⟨request, he⟩, -⟩ | ⟨owned, howner, htarget, -⟩ := hturn.accounted.sent_cons hsent
    · cases he
    · cases htarget
      have hp : conference.peerOf s = some peer := peerOf_eq_some.mpr ⟨id, howner, hfound⟩
      have hunderway : conference.underway app s = sdp :: (rest.filterMap Command.answerOf ++
          (conference.browsers s).wire.filterMap app.codec.answerOf) := by
        rw [underway, hsent, List.filterMap_cons_some (by rfl), List.cons_append]
      refine ⟨?_, hturn.parses s peer hp sdp (by rw [hunderway]; exact List.mem_cons_self ..)⟩
      have hone := hturn.turn s peer hp
      rw [hunderway, List.length_cons, Peer.unanswered] at hone
      cases hpending : peer.pending with
      | some pending => rfl
      | none => simp [hpending] at hone

end Conference

namespace Puppet

/-- Browsers that join by their name, and answer offers. -/
def tabs : AppState :=
  { state with codec := { state.codec with
      parse := fun text =>
        if text = "answer" then some (.answer "answer") else some (.join text "offer") } }

/-- Somebody comes to the red room. -/
def arrives (s : ℕ) (name ufrag : String) : List (ConferenceEvent scripted) :=
  [.say s name, .system (.read s (some (.text name))), .system (.deliver s ufrag),
    .system (.resume s)]

/-- Bob is offered what Ann publishes, and his answer is about to be taken. -/
def replies : List (ConferenceEvent scripted) :=
  arrives 0 "ann" "a" ++ arrives 1 "bob" "b" ++
    ((turn [] ["red"] (some ⟨"a", [announces "0" .audio]⟩)).events ++
      (turn [] ["red"] none).events ++ (turn [] ["red"] none).events).map (.system ∘ .loop) ++
    [.hear 1 "", .hear 1 "answer", .system (.read 1 (some (.text "answer")))]

end Puppet

theorem Conference.reachable_turns_replies :
    ∃ conference, (machine scripted Puppet.tabs).Reachable conference ∧
      conference.underway Puppet.tabs 1 = ["answer"] ∧ (conference.browsers 1).wire = [] ∧
      conference.Turns Puppet.tabs := by
  obtain ⟨conference, hrun, hcheck⟩ := (Option.any_eq_true _ _).mp (by decide +kernel :
    ((machine scripted Puppet.tabs).run (start Puppet.config 0) Puppet.replies).any
      (fun conference => decide (conference.underway Puppet.tabs 1 = ["answer"]) &&
        decide ((conference.browsers 1).wire = [])) = true)
  obtain ⟨hunderway, hwire⟩ := Bool.and_eq_true_iff.mp hcheck
  have hreach : (machine scripted Puppet.tabs).Reachable conference :=
    .of_run (.init ⟨0, rfl⟩) hrun
  exact ⟨conference, hreach, of_decide_eq_true hunderway, of_decide_eq_true hwire,
    reachable_turns hreach⟩

end FerriteSfu
