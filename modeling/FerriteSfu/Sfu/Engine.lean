import FerriteSfu.Sfu.Room
import FerriteSfu.Lib.HashMap
import FerriteSfu.Lib.Machine

/-!
`engine.rs`, `join.rs`, `dispatch.rs` and `engine_io.rs`: the media loop.

A hash map has no order of its own, so each sweep over the rooms takes the
order in which it happens to visit them. Whatever else the loop does not decide
itself is part of the event it reacts to: the command, the clock, the datagram,
and the random draws a new `Rtc` is built from.
-/

namespace FerriteSfu

variable {S : Str0m}

structure Config where
  iceLite : Bool
  maxRoomPeers : ℕ

structure JoinRequest where
  claims : JoinClaims
  sdp : String

/-- Everything the signaling tasks can ask of the media loop. -/
inductive Command
  | join (request : JoinRequest)
  | answer (peer : PeerId) (sdp : String)
  | mute (peer : PeerId) (muted : Bool)
  | screen (peer : PeerId) (active : Bool)
  | leave (peer : PeerId)
  | shutdown

structure Engine (S : Str0m) where
  config : Config
  rooms : AList fun _ : String => Room S
  peerRooms : AList fun _ : PeerId => String
  nextPeer : ℕ
  /-- Everything reported so far, in order. -/
  reports : List ReportEvent
  lastSpeaking : Instant
  heap : Heap

/-- Ceiling on how long the loop sleeps waiting for a packet. -/
def maxIdle : Duration := Duration.fromMillis 100

def speakingTick : Duration := Duration.fromMillis 200

/-- A send of `handle_join` to the session that asked. -/
inductive JoinSend
  | out (message : ServerMsg)
  | assigned (id : Option PeerId)
  deriving DecidableEq, Repr

/-- The answer to the join, if the send is one. -/
def JoinSend.reply : JoinSend → Option (Option PeerId)
  | .out _ => none
  | .assigned id => some id

def JoinSend.message : JoinSend → Option ServerMsg
  | .out message => some message
  | .assigned _ => none

/-- What a join leaves outside the engine: the sends to the session that asked, in the
order of the source, and the peers it replaced. -/
structure JoinOutcome (S : Str0m) where
  sends : List JoinSend
  replaced : List (Peer S)

/-- The answer to `assigned`. -/
def JoinOutcome.assigned {S : Str0m} (outcome : JoinOutcome S) : Option PeerId :=
  (outcome.sends.findSome? JoinSend.reply).join

/-- The messages pushed to a requester that was refused. One that was not gets its
messages from its peer. -/
def JoinOutcome.refusal {S : Str0m} (outcome : JoinOutcome S) : List ServerMsg :=
  if outcome.assigned.isNone then outcome.sends.filterMap JoinSend.message else []

@[simp] theorem JoinOutcome.assigned_mk {S : Str0m} (message : ServerMsg) (id : Option PeerId)
    (replaced : List (Peer S)) :
    ({ sends := [.out message, .assigned id], replaced := replaced } : JoinOutcome S).assigned =
      id := rfl

@[simp] theorem JoinOutcome.refusal_mk {S : Str0m} (message : ServerMsg) (id : Option PeerId)
    (replaced : List (Peer S)) :
    ({ sends := [.out message, .assigned id], replaced := replaced } : JoinOutcome S).refusal =
      if id.isNone then [message] else [] := rfl

namespace Engine

/-- The engine `spawn` starts. -/
def start (config : Config) (now : Instant) : Engine S where
  config := config
  rooms := ∅
  peerRooms := ∅
  nextPeer := 1
  reports := []
  lastSpeaking := now
  heap := []

def report (event : ReportEvent) (engine : Engine S) : Engine S :=
  { engine with reports := engine.reports ++ [event] }

end Engine

/-! ### Joining and leaving -/

namespace Room

/-- The loop over the stale peers of a reconnecting user. -/
def retire : List PeerId → Room S → Room S × List (Peer S)
  | [], room => (room, [])
  | old :: stale, room =>
      match room.remove old with
      | none => room.retire stale
      | some (previous, room) =>
          let previous := { previous with reported := false, rtc := S.disconnect previous.rtc }
          let others := room.retire stale
          (others.1,
            previous.send (.error "replaced" "Joined from another tab.") :: others.2)
  termination_by structural stale => stale

/-- The last steps of a join: the roster to the new peer, the news to the
others, and the subscriptions to what is already being published. -/
def admitPeer (peer : Peer S) (callId answer : String) (room : Room S) : Room S :=
  let info := peer.info
  let peer := peer.send (.joined peer.id.asString callId answer room.roster)
  let room := room.broadcast (.peerJoined info)
  { room with peers := room.peers ++ [peer] }.subscribeToExisting peer.id

end Room

namespace Engine

def handleJoin (request : JoinRequest) (seed : S.Seed) (engine : Engine S) :
    Engine S × JoinOutcome S :=
  let claims := request.claims
  let full := ((engine.rooms.lookup claims.room).map fun room =>
    decide (room.peers.length ≥ engine.config.maxRoomPeers)).getD false
  if full then
    (engine, { sends := [.out (.error "room_full" "This call is full."), .assigned none]
               replaced := [] })
  else
    match S.offerFromSdpString request.sdp with
    | .error _ =>
        (engine,
          { sends := [.out (.error "bad_offer" "Malformed session description."), .assigned none]
            replaced := [] })
    | .ok offer =>
        let id : PeerId := ⟨engine.nextPeer⟩
        let engine := { engine with nextPeer := engine.nextPeer + 1 }
        let rtc := S.build seed engine.config.iceLite
        let peer := Peer.new id rtc claims.sub claims.name claims.avatarUrl
        match peer.acceptOffer offer with
        | (.error _, _) =>
            (engine,
              { sends := [.out (.error "bad_offer" "Session description refused."), .assigned none]
                replaced := [] })
        | (.ok answer, peer) =>
            let room := (engine.rooms.lookup claims.room).getD (Room.new claims.callId)
            let stale := (room.peers.filter fun existing =>
              existing.userId = claims.sub).map (·.id)
            let retired := room.retire stale
            let room := retired.1.admitPeer peer claims.callId answer
            ({ engine with
                rooms := engine.rooms.insert claims.room room
                peerRooms := (stale.foldl (fun rooms old => rooms.erase old)
                  engine.peerRooms).insert id claims.room
                heap := retired.2.foldl Heap.dropPeer engine.heap },
              { sends := [.out (.joined id.asString claims.callId answer retired.1.roster),
                  .assigned (some id)]
                replaced := retired.2 })

/-- Removes a peer and, when that empties the room, tears the room down. -/
def dropPeer (id : PeerId) (engine : Engine S) : Engine S :=
  match engine.peerRooms.lookup id with
  | none => engine
  | some roomName =>
      let engine := { engine with peerRooms := engine.peerRooms.erase id }
      match engine.rooms.lookup roomName with
      | none => engine
      | some room =>
          match room.remove id with
          | none => engine
          | some (peer, room) =>
              let engine := { engine with
                rooms := engine.rooms.insert roomName room
                heap := engine.heap.dropPeer peer }
              let engine :=
                if peer.reported then
                  engine.report ((ReportEvent.new .participantLeft roomName).identity peer.userId)
                else engine
              if room.isEmpty then
                { engine with rooms := engine.rooms.erase roomName }.report
                  (ReportEvent.new .roomFinished roomName)
              else engine

/-- Why `reap` gives up on a peer, if it does. -/
def isDead (now : Instant) (peer : Peer S) : Bool := !peer.isAlive || peer.isAbandoned now

def reap (now : Instant) (order : List String) (engine : Engine S) : Engine S :=
  let dead := order.flatMap fun name =>
    ((engine.rooms.lookup name).map fun room =>
      (room.peers.filter (isDead now)).map (·.id)).getD []
  dead.foldl (fun engine id => engine.dropPeer id) engine

/-! ### Commands -/

def handleAnswer (id : PeerId) (sdp : String) (engine : Engine S) : Engine S :=
  match engine.peerRooms.lookup id with
  | none => engine
  | some roomName =>
      match S.answerFromSdpString sdp with
      | .error _ => engine
      | .ok answer =>
          { engine with
            rooms := engine.rooms.modify roomName
              (Room.updatePeer id fun peer => (peer.acceptAnswer answer).2) }

/-- Mutes and screen shares. The room hears of every change asked for, the host
application of a screen share that really changed. -/
def setState (id : PeerId) (muted screen : Option Bool) (engine : Engine S) : Engine S :=
  match engine.peerRooms.lookup id with
  | none => engine
  | some roomName =>
      match engine.rooms.lookup roomName with
      | none => engine
      | some room =>
          match room.peers.find? fun peer => peer.id = id with
          | none => engine
          | some peer =>
              let isMuted := muted.getD peer.muted
              let isScreen := screen.getD peer.screen
              let room := (room.updatePeer id fun peer =>
                { peer with muted := isMuted, screen := isScreen }).broadcast
                  (.peerState id.asString isMuted isScreen)
              let engine := { engine with rooms := engine.rooms.insert roomName room }
              if isScreen = peer.screen then engine
              else
                engine.report
                  ((ReportEvent.new
                    (if isScreen then .trackPublished else .trackUnpublished) roomName).identity
                    peer.userId).screenShare

/-- `apply`; the outcome is that of a join. -/
def apply (command : Command) (seed : S.Seed) (engine : Engine S) :
    Engine S × Option (JoinOutcome S) :=
  match command with
  | .join request =>
      let joined := engine.handleJoin request seed
      (joined.1, some joined.2)
  | .answer peer sdp => (engine.handleAnswer peer sdp, none)
  | .mute peer muted => (engine.setState peer (some muted) none, none)
  | .screen peer active => (engine.setState peer none (some active), none)
  | .leave peer => (engine.dropPeer peer, none)
  | .shutdown => (engine, none)

/-! ### The sweeps of the loop -/

def pollRoom (clock : String → ℕ → List Instant) (polled : Engine S × Instant)
    (name : String) : Option (Engine S × Instant) :=
  match polled.1.rooms.lookup name with
  | none => some polled
  | some room =>
      (room.poll (clock name) polled.1.heap polled.2).map fun next =>
        ({ polled.1 with rooms := polled.1.rooms.insert name next.room, heap := next.heap },
          next.timeout)

/-- Drains every peer's output; returns the earliest wake-up any peer asked for. -/
def pollRooms (now : Instant) (order : List String) (clock : String → ℕ → List Instant)
    (engine : Engine S) : Option (Engine S × Instant) :=
  order.foldlM (pollRoom clock) (engine, now + maxIdle)

end Engine

/-- A peer whose transport has come up and who has not been reported yet. -/
def Peer.isArriving (peer : Peer S) : Bool := peer.connected && !peer.reported

def Room.markReported (room : Room S) : Room S :=
  { room with peers := room.peers.map fun peer =>
      if peer.isArriving then { peer with reported := true } else peer }

namespace Engine

/-- Announces peers whose transport has just come up. -/
def reportConnections (order : List String) (engine : Engine S) : Engine S :=
  let arrived := order.flatMap fun name =>
    ((engine.rooms.lookup name).map fun room =>
      (room.peers.filter Peer.isArriving).map fun peer => (name, peer.userId)).getD []
  let rooms := order.foldl (fun rooms name => rooms.modify name Room.markReported) engine.rooms
  arrived.foldl (fun engine arrival =>
    engine.report ((ReportEvent.new .participantJoined arrival.1).identity arrival.2))
    { engine with rooms := rooms }

/-- Recomputes who is talking, no more often than the tick allows. -/
def tickSpeaking (now : Instant) (order : List String) (engine : Engine S) : Engine S :=
  if now - engine.lastSpeaking < speakingTick then engine
  else
    { engine with
      lastSpeaking := now
      rooms := order.foldl (fun rooms name => rooms.modify name (Room.syncSpeaking now))
        engine.rooms }

/-- Reads one datagram and hands it to the first peer that accepts it. -/
def readOnce (now : Instant) (datagram : S.Datagram) (order : List String) (engine : Engine S) :
    Engine S :=
  let input : S.Input := .receive now datagram
  let target := order.find? fun name =>
    ((engine.rooms.lookup name).map fun room => room.peers.any (Peer.accepts input)).getD false
  match target with
  | none => engine
  | some name =>
      { engine with
        rooms := engine.rooms.modify name (Room.handleInput input) }

/-- The end of one turn of the loop: every peer learns the time. -/
def advanceTime (now : Instant) (order : List String) (engine : Engine S) : Engine S :=
  { engine with
    rooms := order.foldl (fun rooms name => rooms.modify name (Room.advanceTime now))
      engine.rooms }

end Engine

/-! ### Runs -/

/-- What the loop reacts to, one step of it at a time. -/
inductive Event (S : Str0m)
  | command (command : Command) (seed : S.Seed)
  | pollRooms (now : Instant) (order : List String) (clock : String → ℕ → List Instant)
  | reportConnections (order : List String)
  | reap (now : Instant) (order : List String)
  | tickSpeaking (now : Instant) (order : List String)
  | readOnce (now : Instant) (datagram : S.Datagram) (order : List String)
  | advanceTime (now : Instant) (order : List String)

/-- The order in which a sweep visits the rooms. -/
def Event.order : Event S → Option (List String)
  | .command _ _ => none
  | .pollRooms _ order _ | .reportConnections order | .reap _ order | .tickSpeaking _ order
  | .readOnce _ _ order | .advanceTime _ order => some order

namespace Engine

/-- A sweep visits every room once. -/
def visits (engine : Engine S) (order : List String) : Bool :=
  decide (order.Perm engine.rooms.keys)

def step (engine : Engine S) (event : Event S) : Option (Engine S) :=
  if event.order.all engine.visits then
    match event with
    | .command command seed => some (engine.apply command seed).1
    | .pollRooms now order clock => (engine.pollRooms now order clock).map (·.1)
    | .reportConnections order => some (engine.reportConnections order)
    | .reap now order => some (engine.reap now order)
    | .tickSpeaking now order => some (engine.tickSpeaking now order)
    | .readOnce now datagram order => some (engine.readOnce now datagram order)
    | .advanceTime now order => some (engine.advanceTime now order)
  else none

/-- The media loop, whose steps may come in any order. -/
def machine (S : Str0m) (config : Config) : Lib.Machine (Engine S) (Event S) where
  init engine := ∃ now, engine = start config now
  step := step

end Engine

end FerriteSfu
