import FerriteSfu.Loop.Standstill
import FerriteSfu.Signal.Progress

/-!
What becomes of a subscriber when nothing more is published.

Each offer of a peer is answered sooner or later, and each pass over its room
offers whatever there is to offer. So when the tracks of the room stay as they are,
there is a last offer, and after it each of them has its m-line for good.
-/

namespace FerriteSfu

variable {S : Str0m} {app : AppState}

def ConferenceEvent.isPoll : ConferenceEvent S → Bool
  | .system (.loop event) => event.isPoll
  | _ => false

namespace Conference

variable {conference conference' : Conference S}

/-- What the media loop does in a step. -/
def event (conference : Conference S) : ConferenceEvent S → Option (Event S)
  | .say _ _ | .hear _ _ => none
  | .system event => conference.system.event event

theorem step_event {ev : ConferenceEvent S}
    (hstep : Conference.step app conference ev = some conference') :
    conference.event ev = none ∧ conference'.system.engine = conference.system.engine ∨
      ∃ event, conference.event ev = some event ∧
        conference.system.engine.step event = some conference'.system.engine := by
  unfold Conference.step at hstep
  split at hstep
  · simp only [Conference.say] at hstep
    split at hstep <;> cases hstep
    exact .inl ⟨rfl, rfl⟩
  · obtain ⟨reader, -, hstep⟩ := Option.bind_eq_some_iff.mp hstep
    obtain ⟨message, -, hstep⟩ := Option.bind_eq_some_iff.mp hstep
    cases message with
    | offer sdp tracks =>
        simp only at hstep
        split at hstep <;> cases hstep
        exact .inl ⟨rfl, rfl⟩
    | joined | peerJoined | peerLeft | peerState | speaking | error | pong =>
        cases hstep
        exact .inl ⟨rfl, rfl⟩
  · split at hstep
    · cases hstep
    · split at hstep
      · obtain ⟨system, hread, rfl⟩ := Option.map_eq_some_iff.mp hstep
        have hsystem : conference.system.step app (.read _ _) = some system := hread
        exact System.step_event hsystem
      · cases hstep
  · obtain ⟨system, hsystem, rfl⟩ := Option.map_eq_some_iff.mp hstep
    exact System.step_event hsystem

/-- No answer of the peer `id` that the media loop takes is one that `str0m` rejects. -/
def AnswersAcceptedOf (id : PeerId) (conference : Conference S) (ev : ConferenceEvent S) : Prop :=
  ∀ event, conference.event ev = some event →
    conference.system.engine.AnswersAcceptedOf id event

theorem reachable_engineVia {id : PeerId}
    (h : (machine S app).ReachableVia (AnswersAcceptedOf id) conference) :
    (Engine.machine S app.config).ReachableVia (Engine.AnswersAcceptedOf id)
      conference.system.engine := by
  refine Lib.Machine.Refines.reachable (f := fun conference : Conference S =>
    conference.system.engine) ⟨?_, ?_⟩ h
  · rintro conference ⟨now, rfl⟩
    exact ⟨now, rfl⟩
  · intro conference ev conference' _ _ hok hstep
    rcases step_event hstep with ⟨-, hsame⟩ | ⟨event, hevent, hengine⟩
    · exact .inl hsame
    · exact .inr ⟨event, hok event hevent, hengine⟩

/-! ### A subscriber that is left alone -/

theorem isPoll_of_event_none {ev : ConferenceEvent S} (h : conference.event ev = none) :
    ev.isPoll = false := by
  cases ev with
  | say | hear => rfl
  | system ev =>
      cases ev with
      | read | resume | stopWriting | deliver => rfl
      | loop event => cases h

theorem isPoll_of_event {ev : ConferenceEvent S} {event : Event S}
    (h : conference.event ev = some event) : event.isPoll = ev.isPoll := by
  cases ev with
  | say | hear => cases h
  | system ev =>
      cases ev with
      | read | resume | stopWriting => cases h
      | deliver s seed =>
          obtain ⟨command, -, rfl⟩ := Option.map_eq_some_iff.mp h
          rfl
      | loop event' =>
          cases h
          rfl

/-- What a step makes of a peer that attends the room before and after it. -/
theorem step_attends (hlaw : S.OffersMedia) (hdrops : S.DropsChanges)
    (h : conference.system.engine.Sound) {ev : ConferenceEvent S}
    (hstep : Conference.step app conference ev = some conference') {name : String}
    {tracks : List TrackIn} {sub sub' : Peer S}
    (hsub : conference.system.engine.Attends name tracks sub)
    (hsub' : conference'.system.engine.Attends name tracks sub') (hid : sub'.id = sub.id) :
    (ev.isPoll = false → sub.Abides sub') ∧
      (ev.isPoll = true → sub.Covers TrackOut.isNegotiating → Peer.Readied tracks sub sub') := by
  rcases step_event hstep with ⟨hnone, hsame⟩ | ⟨event, hevent, hloop⟩
  · -- the media loop does nothing, so the peer is the same
    rw [hsame] at hsub'
    obtain rfl : sub' = sub :=
      List.eq_of_map_eq (h.numbered name).ids hsub'.mem_call hsub.mem_call hid
    refine ⟨fun _ => .of_eq rfl rfl rfl, fun hpolled => ?_⟩
    rw [isPoll_of_event_none hnone] at hpolled
    cases hpolled
  · rw [← isPoll_of_event hevent]
    exact h.step_attends hlaw hdrops hloop hsub hsub' hid

/-- The session `s` has the peer `id`, alive in the room `name`, which publishes
`tracks`. -/
def Attends (s : ℕ) (id : PeerId) (name : String) (tracks : List TrackIn)
    (conference : Conference S) : Prop :=
  conference.system.Owns s id ∧
    ∃ sub : Peer S, sub.id = id ∧ conference.system.engine.Attends name tracks sub

/-- **Whoever stays in a call is served.** In a run without end in which the peer of
a session stays alive in its room and the tracks of the room stay as they are, if
its answers are accepted and neither its duties nor polling is left out for ever,
there is a moment from which on nothing is outstanding of the peer and each track of
the others has an m-line of its own that is open. -/
theorem forever_served (hfresh : S.FreshMids) (hlaw : S.OffersMedia) (hdrops : S.DropsChanges)
    {states : ℕ → Conference S} {events : ℕ → ConferenceEvent S} {id : PeerId}
    (hrun : (machine S app).Forever states events)
    (hstart : (machine S app).ReachableVia (AnswersAcceptedOf id) (states 0))
    (haccepted : ∀ n, (states n).AnswersAcceptedOf id (events n)) (seed : S.Seed) {r : String}
    (hreply : ((app.codec.answerOf r).any fun sdp => (S.answerFromSdpString sdp).isOk) = true)
    {s : ℕ} (hfair : ∀ duty : Duty, (machine S app).Fair states events (duty.DoneBy s))
    (hpolls : ∀ n, ∃ k ≥ n, (events k).isPoll = true) {name : String} {tracks : List TrackIn}
    (hattends : ∀ n, (states n).Attends s id name tracks) :
    ∃ m, ∀ n ≥ m, ∀ room, (states n).system.engine.rooms.lookup name = some room →
      ∀ sub ∈ room.peers, sub.id = id → sub.pending = none ∧ room.Serves sub := by
  choose howns sub hid hsub using hattends
  have hvia : ∀ n, (machine S app).ReachableVia (AnswersAcceptedOf id) (states n) := by
    intro n
    induction n with
    | zero => exact hstart
    | succ n ih => exact .step ih (haccepted n) (hrun.step n)
  have hengine := fun n => reachable_engineVia (hvia n)
  have hsound := fun n => (Engine.reachable_sound (hengine n)).1
  have hcovers : ∀ n, (sub n).Covers TrackOut.isNegotiating := fun n =>
    Call.reachable_negotiating hlaw (Engine.reachable_call
      (fun _ _ _ _ _ hok hev => Engine.answersAcceptedOf_call hok hev) (hengine n))
      (sub n) (hsub n).mem_call (hid n)
  have hmoves := fun n => step_attends hlaw hdrops (hsound n) (hrun.step n) (hsub n)
    (hsub (n + 1)) ((hid (n + 1)).trans (hid n).symm)
  have hwaits : ∀ n, (sub n).pending = none → ¬(events n).isPoll = true →
      (sub (n + 1)).pending = none :=
    fun n hfree hquiet => ((hmoves n).1 (Bool.not_eq_true _ ▸ hquiet)).free hfree
  have hreached : ∀ n, (sub n).pending = none → (events n).isPoll = true →
      (sub (n + 1)).Ready tracks :=
    fun n hfree hpolled => ((hmoves n).2 hpolled (hcovers n)).ready
      (.inr ⟨(hsub n).isAlive, hfree⟩)
  have hkept : ∀ n, (sub n).Ready tracks → (sub (n + 1)).Ready tracks := by
    intro n hready
    cases hpolled : (events n).isPoll with
    | false => exact ((hmoves n).1 hpolled).ready tracks hready
    | true => exact ((hmoves n).2 hpolled (hcovers n)).ready (.inl hready)
  have hheld : ∀ n, (sub n).Ready tracks → (sub n).pending = none →
      (sub (n + 1)).pending = none := by
    intro n hready hfree
    cases hpolled : (events n).isPoll with
    | false => exact ((hmoves n).1 hpolled).free hfree
    | true => exact (((hmoves n).2 hpolled (hcovers n)).pending hready).trans hfree
  have hagain : ∀ n, ∃ k ≥ n, (sub k).pending = none := by
    intro n
    obtain ⟨k, hk, hfree⟩ := hrun.leads (helpful_free seed hreply s) (fun _ => hfair _) n
    exact ⟨k, hk, hfree (sub k) (peerOf_eq_some.mpr
      ⟨id, howns k, hid k ▸ (hsound k).peerOf_holds (hsub k).holds⟩)⟩
  obtain ⟨m, hm⟩ := Lib.eventually_always hagain hpolls hwaits hreached hkept hheld
  refine ⟨m, fun n hn room hroom other hother hsame => ?_⟩
  obtain ⟨hready, hfree⟩ := hm n hn
  obtain rfl : other = sub n := List.eq_of_map_eq ((hsound n).numbered name).ids
    (Engine.mem_call_peers.mpr ⟨room, hroom, hother⟩) (hsub n).mem_call (hsame.trans (hid n).symm)
  exact ⟨hfree, (hsub n).serves hfresh (hengine n) hready (hcovers n hfree) room hroom⟩

end Conference

/-! ### Bob hears Ann for good -/

namespace Puppet

/-- The wake-up a puppet with nothing to report asks for. -/
def dozes : Op scripted := .polled (.timeout (Duration.fromSecs 3600))

/-- There is nothing to report, and nothing to negotiate. -/
structure Dozing (heap : Heap) (peer : Peer scripted) : Prop where
  alive : peer.rtc.alive = true
  outbox : peer.rtc.outbox = 0
  inbox : peer.rtc.inbox = []
  rest : peer.AtRest heap

/-- A pass with one reading of the clock for each peer. -/
def pass : Event scripted := .pollRooms 0 ["red"] fun _ _ => [0]

theorem Dozing.drain {heap : Heap} {peer : Peer scripted} (h : Dozing heap peer) :
    ∃ wake, peer.drain [0] heap =
      some { queue := [], peer := peer.record dozes, heap := heap, wake := wake } := by
  have hquiet : peer.negotiateIfNeeded heap = (false, peer) :=
    h.rest.negotiateIfNeeded scripted_offersChanges scripted_dropsChanges
  have hpoll : Puppet.poll peer.rtc = (.ok (.timeout (Duration.fromSecs 3600)), peer.rtc) := by
    simp [Puppet.poll, h.outbox, h.inbox]
  refine ⟨some (Duration.fromSecs 3600), ?_⟩
  rw [Peer.drain]
  simp [h.alive, Peer.pollOutput, hquiet, hpoll, Peer.handleOutput, dozes, Peer.record]

theorem drainPeers_dozing {heap : Heap} (timeout : Instant) {peers : List (Peer scripted)}
    (h : ∀ peer ∈ peers, Dozing heap peer) :
    ∃ timeout', drainPeers (fun _ => [0]) heap timeout peers =
      some { peers := peers.map (Peer.record dozes), queue := [], heap := heap,
             timeout := timeout' } := by
  induction peers generalizing timeout with
  | nil => exact ⟨timeout, rfl⟩
  | cons peer peers ih =>
      obtain ⟨wake, hdrain⟩ := (h peer (by simp)).drain
      obtain ⟨timeout', hrest⟩ := ih ((wake.map fun wake => min timeout wake).getD timeout)
        fun other hother => h other (by simp [hother])
      refine ⟨timeout', ?_⟩
      rw [drainPeers, hdrain, Option.bind_some]
      simp only [hrest, Option.map_some, List.map_cons, List.append_nil]

/-- What a pass leaves of a room where everybody dozes. -/
def passed (room : Room scripted) : Room scripted :=
  { room with peers := room.peers.map (Peer.record dozes) }

theorem step_pass {engine : Engine scripted} {room : Room scripted}
    (hkeys : engine.rooms.keys = ["red"]) (hroom : engine.rooms.lookup "red" = some room)
    (h : ∀ peer ∈ room.peers, Dozing engine.heap peer) :
    engine.step pass =
      some { engine with rooms := engine.rooms.insert "red" (passed room) } := by
  obtain ⟨timeout', hdrain⟩ := drainPeers_dozing (0 + maxIdle) h
  have hpoll : room.poll (fun _ => [0]) engine.heap (0 + maxIdle) =
      some { room := passed room, heap := engine.heap, timeout := timeout' } := by
    rw [Room.poll, hdrain, Option.map_some]
    rfl
  have hvisits : engine.visits ["red"] = true := by simp [Engine.visits, hkeys]
  simp only [pass, Engine.step, Event.order, Option.all_some, hvisits, if_true, Engine.pollRooms,
    List.foldlM_cons, List.foldlM_nil, Engine.pollRoom, hroom, hpoll]
  rfl

/-- The voice Ann publishes. -/
def voiceOfAnn : TrackIn := { origin := ⟨1⟩, mid := ⟨"0"⟩, kind := .audio }

/-- Bob is in the red room, where everybody dozes, and has read everything. -/
structure Lull (conference : Conference scripted) : Prop where
  keys : conference.system.engine.rooms.keys = ["red"]
  room : ∃ room, conference.system.engine.rooms.lookup "red" = some room ∧
    (∀ peer ∈ room.peers, Dozing conference.system.engine.heap peer) ∧
    room.tracks = [voiceOfAnn] ∧
    ∃ bob ∈ room.peers, bob.id = ⟨2⟩ ∧ bob.out.length ≤ (conference.browsers 1).seen
  owns : conference.system.Owns 1 ⟨2⟩
  sent : conference.system.sent 1 = []
  phase : (conference.system.sessions 1).phase ≠ .admitting
  wire : (conference.browsers 1).wire = []

theorem Lull.step {conference : Conference scripted} (h : Lull conference) :
    ∃ conference', (Conference.machine scripted tabs).step conference (.system (.loop pass)) =
      some conference' ∧ Lull conference' := by
  obtain ⟨room, hroom, hdozing, htracks, bob, hbob, hid, hread⟩ := h.room
  have hpass := step_pass h.keys hroom hdozing
  refine ⟨{ conference with system := { conference.system with
    engine := { conference.system.engine with
      rooms := conference.system.engine.rooms.insert "red" (passed room) } } }, ?_, ?_⟩
  · simp only [Conference.machine, Conference.step, System.step, hpass]
    rfl
  · refine ⟨?_, ⟨passed room, AList.lookup_insert _, fun peer' hpeer' => ?_, ?_,
      bob.record dozes, List.mem_map_of_mem hbob, hid, hread⟩, h.owns, h.sent, h.phase, h.wire⟩
    · simp [AList.keys_insert, h.keys]
    · obtain ⟨peer, hpeer, rfl⟩ := List.mem_map.mp hpeer'
      obtain ⟨halive, houtbox, hinbox, hrest⟩ := hdozing peer hpeer
      exact ⟨halive, houtbox, hinbox, hrest⟩
    · rw [← htracks]
      simp only [passed, Room.tracks, List.flatMap_map]
      rfl

theorem Lull.attends {conference : Conference scripted} (h : Lull conference) :
    conference.Attends 1 ⟨2⟩ "red" [voiceOfAnn] := by
  obtain ⟨room, hroom, hdozing, htracks, bob, hbob, hid, -⟩ := h.room
  exact ⟨h.owns, bob, hid, room, hroom, hbob, (hdozing bob hbob).alive, htracks⟩

/-- Bob's session has no duty. -/
theorem Lull.not_enabled {conference : Conference scripted} (h : Lull conference)
    (hsound : conference.system.engine.Sound) (duty : Duty) :
    ¬(Conference.machine scripted tabs).Enabled (duty.DoneBy 1) conference := by
  refine Conference.not_enabled_of_rest h.sent h.phase h.wire (fun peer hp => ?_) duty
  obtain ⟨room, hroom, -, -, bob, hbob, hid, hread⟩ := h.room
  have hfound : conference.peerOf 1 = some bob := Conference.peerOf_eq_some.mpr
    ⟨bob.id, hid ▸ h.owns, hsound.peerOf_holds ⟨"red", room, hroom, hbob⟩⟩
  obtain rfl := Option.some.inj (hp.symm.trans hfound)
  exact hread

/-- Whether there is nothing to report, and every subscription is open. -/
def doze (heap : Heap) (peer : Peer scripted) : Bool :=
  peer.rtc.alive && decide (peer.rtc.outbox = 0) && peer.rtc.inbox.isEmpty &&
    peer.tracksOut.all fun track => track.openLine.isSome && decide (track.trackIn ∈ heap)

theorem dozing_of_doze {heap : Heap} {peer : Peer scripted} (h : doze heap peer = true) :
    Dozing heap peer := by
  simp only [doze, Bool.and_eq_true, decide_eq_true_eq, List.isEmpty_iff, List.all_eq_true] at h
  obtain ⟨⟨⟨halive, houtbox⟩, hinbox⟩, htracks⟩ := h
  refine ⟨halive, houtbox, hinbox, fun track hmem => .inl ?_⟩
  obtain ⟨hopen, hlive⟩ := htracks track hmem
  rcases track with ⟨trackIn, state⟩
  cases state with
  | opened mid => exact ⟨mid, rfl, hlive⟩
  | toOpen | negotiating | toStop | negotiatingStop => cases hopen

/-- Whether the media loop takes anything but an answer that puppets reject. -/
def behaved (conference : Conference scripted) (ev : ConferenceEvent scripted) : Bool :=
  (conference.event ev).all behaves

theorem behaved_answersAccepted {conference : Conference scripted}
    {ev : ConferenceEvent scripted} (h : behaved conference ev = true) {id : PeerId} :
    conference.AnswersAcceptedOf id ev := by
  intro event hevent sdp seed _
  rw [behaved, hevent] at h
  exact Engine.behaves_answersAccepted h

def lulls (conference : Conference scripted) : Bool :=
  decide (conference.system.engine.rooms.keys = ["red"]) &&
    ((conference.system.engine.rooms.lookup "red").any fun room =>
      room.peers.all (doze conference.system.engine.heap) && decide (room.tracks = [voiceOfAnn]) &&
        room.peers.any fun bob =>
          decide (bob.id = ⟨2⟩) && decide (bob.out.length ≤ (conference.browsers 1).seen)) &&
    decide ((conference.system.sessions 1).assigned = some (some ⟨2⟩)) &&
    (conference.system.sent 1).isEmpty &&
    decide ((conference.system.sessions 1).phase ≠ .admitting) &&
    (conference.browsers 1).wire.isEmpty

theorem lull_of_lulls {conference : Conference scripted} (h : lulls conference = true) :
    Lull conference := by
  simp only [lulls, Bool.and_eq_true, decide_eq_true_eq, List.isEmpty_iff, Option.any_eq_true,
    List.all_eq_true, List.any_eq_true] at h
  obtain ⟨⟨⟨⟨⟨hkeys, room, hroom, ⟨hdoze, htracks⟩, hbob⟩, howns⟩, hsent⟩, hphase⟩, hwire⟩ := h
  exact ⟨hkeys, ⟨room, hroom, fun peer hpeer => dozing_of_doze (hdoze peer hpeer), htracks, hbob⟩,
    howns, hsent, hphase, hwire⟩

end Puppet

theorem Conference.forever_served_dozes :
    ∃ states events, (machine scripted Puppet.tabs).Forever states events ∧
      ¬(states 0).Free 1 ∧
      ∃ m, ∀ n ≥ m, ∀ room, (states n).system.engine.rooms.lookup "red" = some room →
        ∀ sub ∈ room.peers, sub.id = ⟨2⟩ → sub.pending = none ∧ room.Serves sub := by
  obtain ⟨conference, hrun, hcheck⟩ := (Option.any_eq_true _ _).mp (by decide +kernel :
    ((machine scripted Puppet.tabs).runIf Puppet.behaved (start Puppet.config 0)
      Puppet.replies).any (fun conference =>
        ((conference.peerOf 1).any fun peer => peer.pending.isSome) &&
          decide ((conference.system.sessions 1).assigned = some (some ⟨2⟩)) &&
          ((conference.system.engine.rooms.lookup "red").any fun room =>
            decide (room.tracks = [Puppet.voiceOfAnn]) &&
              room.peers.any fun bob => decide (bob.id = ⟨2⟩) && bob.isAlive) &&
          Puppet.behaved conference (.system (.deliver 1 "")) &&
          ((machine scripted Puppet.tabs).step conference (.system (.deliver 1 ""))).any
            Puppet.lulls) = true)
  simp only [Bool.and_eq_true, Option.any_eq_true, decide_eq_true_eq, List.any_eq_true] at hcheck
  obtain ⟨⟨⟨⟨⟨peer, hp, hpending⟩, howns⟩, room, hroom, htracks, bob, hbob, hid, halive⟩,
    hbehaved⟩, conference', hdeliver, hlulls⟩ := hcheck
  have hvia : (machine scripted Puppet.tabs).ReachableVia (AnswersAcceptedOf ⟨2⟩) conference :=
    .of_runIf (fun _ _ h => Puppet.behaved_answersAccepted h) (.init ⟨0, rfl⟩) hrun
  have hreach : (machine scripted Puppet.tabs).Reachable conference :=
    hvia.mono fun _ _ _ => trivial
  obtain ⟨states, hforever, hzero, hlull⟩ := Lib.Machine.exists_forever
    (fun _ h => Puppet.Lull.step h) (.step hreach trivial hdeliver) (Puppet.lull_of_lulls hlulls)
  have hall := hforever.prepend hreach (hzero ▸ hdeliver)
  have hattends : ∀ n, (Lib.Machine.prepend conference states n).Attends 1 ⟨2⟩ "red"
      [Puppet.voiceOfAnn] := by
    intro n
    cases n with
    | zero => exact ⟨howns, bob, hid, room, hroom, hbob, halive, htracks⟩
    | succ n => exact (hlull n).attends
  refine ⟨_, _, hall, fun hfree => ?_, forever_served scripted_freshMids
    scripted_offersChanges.offersMedia scripted_dropsChanges hall hvia (fun n => ?_) ""
      (r := "answer") (by decide +kernel)
    (fun duty n => ?_) (fun n => ⟨n + 1, Nat.le_succ n, rfl⟩) hattends⟩
  · rw [hfree peer hp] at hpending
    cases hpending
  · cases n with
    | zero => exact Puppet.behaved_answersAccepted hbehaved
    | succ n => exact Puppet.behaved_answersAccepted rfl
  · have hsound := (reachable_inTurn (hforever.reachable n)).accounted.sound
    exact ⟨n + 1, Nat.le_succ n, .inr ((hlull n).not_enabled hsound duty)⟩

end FerriteSfu
