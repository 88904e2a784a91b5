import FerriteSfu.Sfu.Engine

/-!
A call: what the media loop is for one room.

The engine keeps all rooms in one map, one index, one id counter and one report
channel. A call has a room of its own, its own reports, and no heap: an upgrade
asks whether the room still publishes the track. It knows of other rooms only
that ids are consumed elsewhere. `Call.Simulation` shows that each room of the
engine is a call, so whatever concerns a single room is proved here.
-/

namespace FerriteSfu

variable {S : Str0m}

@[ext] structure Call (S : Str0m) where
  room : Option (Room S)
  /-- The reports that name this room, in order. -/
  reports : List ReportEvent
  nextPeer : ℕ

inductive CallEvent (S : Str0m)
  | join (request : JoinRequest) (seed : S.Seed)
  /-- A join of another room consumed an id. -/
  | elsewhere
  | answer (id : PeerId) (sdp : String)
  | setState (id : PeerId) (muted screen : Option Bool)
  | leave (id : PeerId)
  | poll (clock : ℕ → List Instant)
  | reportConnections
  | reap (now : Instant)
  | syncSpeaking (now : Instant)
  | handleInput (input : S.Input)
  | advanceTime (now : Instant)

namespace Call

/-- The call no one has joined yet. -/
def idle : Call S where
  room := none
  reports := []
  nextPeer := 1

def report (event : ReportEvent) (call : Call S) : Call S :=
  { call with reports := call.reports ++ [event] }

/-- The peers of the call, none when there is no room. -/
def peers (call : Call S) : List (Peer S) := (call.room.map (·.peers)).getD []

def isFull (config : Config) (call : Call S) : Bool :=
  (call.room.map fun room => decide (room.peers.length ≥ config.maxRoomPeers)).getD false

/-- The peer a join builds, before it enters the room. -/
def newPeer (config : Config) (request : JoinRequest) (seed : S.Seed) (id : PeerId) : Peer S :=
  Peer.new id (S.build seed config.iceLite) request.claims.sub request.claims.name
    request.claims.avatarUrl

/-- What becomes of the offer of a join: `none` when it does not parse, else
whether the new `Rtc` accepts it. -/
def verdict (config : Config) (request : JoinRequest) (seed : S.Seed) : Option Bool :=
  match S.offerFromSdpString request.sdp with
  | .error _ => none
  | .ok offer => some (S.acceptOffer (S.build seed config.iceLite) offer).1.isOk

/-- Whether a join gets as far as taking an id. -/
def consumes (config : Config) (request : JoinRequest) (seed : S.Seed) (call : Call S) : Bool :=
  !call.isFull config && (verdict config request seed).isSome

/-- Whether a join enters the room. -/
def admits (config : Config) (request : JoinRequest) (seed : S.Seed) (call : Call S) : Bool :=
  !call.isFull config && verdict config request seed == some true

/-- The peers a join of the user `sub` replaces. -/
def stale (sub : String) (room : Room S) : List PeerId :=
  (room.peers.filter fun existing => existing.userId = sub).map (·.id)

def enter (peer : Peer S) (answer : String) (claims : JoinClaims) (call : Call S) : Call S :=
  let room := call.room.getD (Room.new claims.callId)
  { call with
    room := some ((room.retire (stale claims.sub room)).1.admitPeer peer claims.callId answer) }

def join (config : Config) (request : JoinRequest) (seed : S.Seed) (call : Call S) : Call S :=
  if call.isFull config then call
  else
    match S.offerFromSdpString request.sdp with
    | .error _ => call
    | .ok offer =>
        let peer := newPeer config request seed ⟨call.nextPeer⟩
        let call := { call with nextPeer := call.nextPeer + 1 }
        match peer.acceptOffer offer with
        | (.error _, _) => call
        | (.ok answer, peer) => call.enter peer answer request.claims

/-- The peer a join admits: the new one, after its `Rtc` took the offer. -/
def admitted (config : Config) (request : JoinRequest) (seed : S.Seed) (offer : S.SdpOffer)
    (id : PeerId) : Peer S :=
  { newPeer config request seed id with
    rtc := (S.acceptOffer (S.build seed config.iceLite) offer).2 }

/-- A join is refused, consumes an id, or enters the room. -/
theorem join_cases (config : Config) (request : JoinRequest) (seed : S.Seed) (call : Call S) :
    (call.consumes config request seed = false ∧ call.admits config request seed = false ∧
      call.join config request seed = call) ∨
    (call.consumes config request seed = true ∧ call.admits config request seed = false ∧
      call.join config request seed = { call with nextPeer := call.nextPeer + 1 }) ∨
    (call.consumes config request seed = true ∧ call.admits config request seed = true ∧
      ∃ offer answer, call.join config request seed =
        { call with nextPeer := call.nextPeer + 1 }.enter
          (admitted config request seed offer ⟨call.nextPeer⟩) answer request.claims) := by
  unfold join consumes admits verdict Peer.acceptOffer
  cases hfull : call.isFull config with
  | true => exact .inl ⟨rfl, rfl, rfl⟩
  | false =>
      cases hparse : S.offerFromSdpString request.sdp with
      | error reason => exact .inl ⟨rfl, rfl, rfl⟩
      | ok offer =>
          have hrtc : (newPeer config request seed ⟨call.nextPeer⟩).rtc =
              S.build seed config.iceLite := rfl
          simp only [hrtc]
          rcases haccept : S.acceptOffer (S.build seed config.iceLite) offer with ⟨result, rtc⟩
          cases result with
          | error reason => exact .inr (.inl ⟨rfl, rfl, rfl⟩)
          | ok answer =>
              refine .inr (.inr ⟨rfl, rfl, offer, S.answerToSdpString answer, ?_⟩)
              simp [admitted, haccept]

def answer (id : PeerId) (sdp : String) (call : Call S) : Call S :=
  match S.answerFromSdpString sdp with
  | .error _ => call
  | .ok answer =>
      let accept := Room.updatePeer id fun peer : Peer S => (peer.acceptAnswer answer).2
      { call with room := call.room.map accept }

def setState (name : String) (id : PeerId) (muted screen : Option Bool) (call : Call S) :
    Call S :=
  match call.room with
  | none => call
  | some room =>
      match room.peers.find? fun peer => peer.id = id with
      | none => call
      | some peer =>
          let isMuted := muted.getD peer.muted
          let isScreen := screen.getD peer.screen
          let room := (room.updatePeer id fun peer =>
            { peer with muted := isMuted, screen := isScreen }).broadcast
              (.peerState id.asString isMuted isScreen)
          let call := { call with room := some room }
          if isScreen = peer.screen then call
          else
            call.report
              ((ReportEvent.new
                (if isScreen then .trackPublished else .trackUnpublished) name).identity
                peer.userId).screenShare

/-- What a departure reports. -/
def departure (name : String) (peer : Peer S) (emptied : Bool) : List ReportEvent :=
  (if peer.reported then [(ReportEvent.new .participantLeft name).identity peer.userId] else []) ++
    if emptied then [ReportEvent.new .roomFinished name] else []

def leave (name : String) (id : PeerId) (call : Call S) : Call S :=
  match call.room.bind (Room.remove id) with
  | none => call
  | some (peer, room) =>
      { call with
        room := if room.isEmpty then none else some room
        reports := call.reports ++ departure name peer room.isEmpty }

/-- The peers a reap at `now` drops. -/
def dead (now : Instant) (call : Call S) : List PeerId :=
  (call.peers.filter (Engine.isDead now)).map (·.id)

def reap (name : String) (now : Instant) (call : Call S) : Call S :=
  (call.dead now).foldl (fun call id => call.leave name id) call

def poll (clock : ℕ → List Instant) (call : Call S) : Option (Call S) :=
  match call.room with
  | none => some call
  | some room =>
      (room.poll clock room.tracks 0).map fun next => { call with room := some next.room }

def reportConnections (name : String) (call : Call S) : Call S :=
  { call with
    room := call.room.map Room.markReported
    reports := call.reports ++ (call.peers.filter Peer.isArriving).map fun peer =>
      (ReportEvent.new .participantJoined name).identity peer.userId }

def step (config : Config) (name : String) (call : Call S) : CallEvent S → Option (Call S)
  | .join request seed => some (call.join config request seed)
  | .elsewhere => some { call with nextPeer := call.nextPeer + 1 }
  | .answer id sdp => some (call.answer id sdp)
  | .setState id muted screen => some (call.setState name id muted screen)
  | .leave id => some (call.leave name id)
  | .poll clock => call.poll clock
  | .reportConnections => some (call.reportConnections name)
  | .reap now => some (call.reap name now)
  | .syncSpeaking now => some { call with room := call.room.map (Room.syncSpeaking now) }
  | .handleInput input => some { call with room := call.room.map (Room.handleInput input) }
  | .advanceTime now => some { call with room := call.room.map (Room.advanceTime now) }

def machine (S : Str0m) (config : Config) (name : String) :
    Lib.Machine (Call S) (CallEvent S) where
  init call := call = idle
  step := step config name

@[simp] theorem machine_step (config : Config) (name : String) (call : Call S)
    (event : CallEvent S) :
    (machine S config name).step call event = call.step config name event := rfl

end Call

/-! ### The calls of an engine -/

namespace Engine

/-- The room `name`, as a call. -/
def call (name : String) (engine : Engine S) : Call S where
  room := engine.rooms.lookup name
  reports := engine.reports.filter fun event => event.room.name = name
  nextPeer := engine.nextPeer

/-- The room whose peer a datagram goes to. -/
def receiver (input : S.Input) (order : List String) (engine : Engine S) : Option String :=
  order.find? fun name =>
    ((engine.rooms.lookup name).map fun room => room.peers.any (Peer.accepts input)).getD false

/-- What an event of the loop is to the call `name`. -/
def callEvent (name : String) (engine : Engine S) : Event S → Option (CallEvent S)
  | .command (.join request) seed =>
      if request.claims.room = name then some (.join request seed)
      else if (engine.call request.claims.room).consumes engine.config request seed then
        some .elsewhere
      else none
  | .command (.answer id sdp) _ => some (.answer id sdp)
  | .command (.mute id muted) _ => some (.setState id (some muted) none)
  | .command (.screen id active) _ => some (.setState id none (some active))
  | .command (.leave id) _ => some (.leave id)
  | .command .shutdown _ => none
  | .pollRooms _ _ clock => some (.poll (clock name))
  | .reportConnections _ => some .reportConnections
  | .reap now _ => some (.reap now)
  | .tickSpeaking now _ =>
      if now - engine.lastSpeaking < speakingTick then none else some (.syncSpeaking now)
  | .readOnce now datagram order =>
      if engine.receiver (.receive now datagram) order = some name then
        some (.handleInput (.receive now datagram))
      else none
  | .advanceTime now _ => some (.advanceTime now)

end Engine

end FerriteSfu
