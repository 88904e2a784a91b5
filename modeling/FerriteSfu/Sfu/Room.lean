import FerriteSfu.Sfu.PeerMedia
import Mathlib.Data.List.Sort

/-!
`room.rs`, and the part of `Engine::poll_rooms` that concerns one room.
-/

namespace FerriteSfu

variable {S : Str0m}

structure Room (S : Str0m) where
  callId : String
  peers : List (Peer S)
  /-- Last speaking set broadcast, so an unchanged set costs nothing. -/
  speaking : List String

namespace Room

def new (callId : String) : Room S where
  callId := callId
  peers := []
  speaking := []

/-- Mutates the peer `peer_mut` finds. -/
def updatePeer (id : PeerId) (f : Peer S → Peer S) (room : Room S) : Room S :=
  { room with peers := room.peers.updateFirst (fun peer => peer.id = id) f }

def roster (room : Room S) : List PeerInfo := room.peers.map Peer.info

def broadcast (message : ServerMsg) (room : Room S) : Room S :=
  { room with peers := room.peers.map (Peer.send message) }

/-- The tracks published in the room. -/
def tracks (room : Room S) : List TrackIn := room.peers.flatMap Peer.tracks

/-- Hands one peer's output to everyone else in the room. -/
def propagate (heap : Heap) (propagated : Propagated S) (room : Room S) : Room S :=
  match propagated.source with
  | none => room
  | some origin =>
      { room with
        peers := room.peers.map fun peer =>
          if peer.id = origin then peer else peer.receive heap propagated }

/-- Gives a joining peer a subscription to everything already being published. -/
def subscribeToExisting (joining : PeerId) (room : Room S) : Room S :=
  let existing := (room.peers.filter fun peer => peer.id ≠ joining).flatMap Peer.tracks
  room.updatePeer joining fun peer =>
    { peer with
      tracksOut := peer.tracksOut ++
        existing.map fun trackIn => { trackIn := trackIn, state := .toOpen } }

/-- The ids of the peers that are talking, in the order of the broadcast. -/
def currentSpeakers (now : Instant) (room : Room S) : List String :=
  ((room.peers.filter fun peer => !peer.muted && peer.isSpeaking now).map
    fun peer => peer.id.asString).insertionSort (· ≤ ·)

/-- Broadcasts who is talking when the set has moved. -/
def syncSpeaking (now : Instant) (room : Room S) : Room S :=
  let current := room.currentSpeakers now
  if current = room.speaking then room
  else { room with speaking := current }.broadcast (.speaking current)

/-- Removes a peer and tells the room. -/
def remove (id : PeerId) (room : Room S) : Option (Peer S × Room S) :=
  (room.peers.find? fun peer => peer.id = id).map fun peer =>
    (peer, { room with
      peers := room.peers.eraseP fun peer => peer.id = id
      speaking := room.speaking.filter fun entry => entry ≠ id.asString
    }.broadcast (.peerLeft id.asString))

def isEmpty (room : Room S) : Bool := room.peers.isEmpty

/-- Hands an input to the first peer that accepts it. -/
def handleInput (input : S.Input) (room : Room S) : Room S :=
  { room with peers := room.peers.updateFirst (Peer.accepts input) (Peer.handleInput input) }

def advanceTime (now : Instant) (room : Room S) : Room S :=
  { room with peers := room.peers.map (Peer.handleInput (.timeout now)) }

end Room

/-! ### Polling one room -/

/-- The peers of a room polled to the end, with what is still to be propagated. -/
structure DrainedPeers (S : Str0m) where
  peers : List (Peer S)
  queue : List (Propagated S)
  heap : Heap
  timeout : Instant

structure PolledRoom (S : Str0m) where
  room : Room S
  heap : Heap
  timeout : Instant

/-- The loop over the peers of a room. `clock i` is what the clock shows while
the `i`-th of them is polled. -/
def drainPeers : (ℕ → List Instant) → Heap → Instant → List (Peer S) → Option (DrainedPeers S)
  | _, heap, timeout, [] => some { peers := [], queue := [], heap := heap, timeout := timeout }
  | clock, heap, timeout, peer :: peers =>
      (peer.drain (clock 0) heap).bind fun drained =>
        let timeout := (drained.wake.map fun wake => min timeout wake).getD timeout
        (drainPeers (fun i => clock (i + 1)) drained.heap timeout peers).map fun rest =>
          { rest with peers := drained.peer :: rest.peers, queue := drained.queue ++ rest.queue }

theorem drainPeers_cons {clock : ℕ → List Instant} {heap : Heap} {timeout : Instant}
    {peer : Peer S} {peers : List (Peer S)} {drained : DrainedPeers S}
    (h : drainPeers clock heap timeout (peer :: peers) = some drained) :
    ∃ first rest, peer.drain (clock 0) heap = some first ∧
      drainPeers (fun i => clock (i + 1)) first.heap
        ((first.wake.map fun wake => min timeout wake).getD timeout) peers = some rest ∧
      drained =
        { rest with peers := first.peer :: rest.peers, queue := first.queue ++ rest.queue } := by
  rw [drainPeers] at h
  obtain ⟨first, hfirst, hbind⟩ := Option.bind_eq_some_iff.mp h
  obtain ⟨rest, hrest, rfl⟩ := Option.map_eq_some_iff.mp hbind
  exact ⟨first, rest, hfirst, hrest, rfl⟩

namespace Room

/-- Propagation is deferred until every peer of the room has been polled. -/
def propagateAll (heap : Heap) (queue : List (Propagated S)) (room : Room S) : Room S :=
  queue.foldl (fun room propagated => room.propagate heap propagated) room

def poll (clock : ℕ → List Instant) (heap : Heap) (timeout : Instant) (room : Room S) :
    Option (PolledRoom S) :=
  (drainPeers clock heap timeout room.peers).map fun drained =>
    { room := { room with peers := drained.peers }.propagateAll drained.heap drained.queue
      heap := drained.heap
      timeout := drained.timeout }

end Room

end FerriteSfu
