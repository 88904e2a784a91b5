import FerriteSfu.Str0m
import FerriteSfu.Lib.Lists

/-!
`tracks.rs` and the record of `peer.rs`.

An `Arc<TrackIn>` is a cell of the heap, a `Weak<TrackIn>` names the cell it
points to, and an upgrade asks whether the cell is still there. A peer holds
the only strong references to its tracks, in `tracks_in`, so dropping the peer
frees exactly those cells.
-/

namespace FerriteSfu

abbrev Weak := TrackIn

/-- The `TrackIn` cells that still have a strong reference. -/
abbrev Heap := List TrackIn

def Heap.upgrade (heap : Heap) (track : Weak) : Option TrackIn :=
  if track ∈ heap then some track else none

theorem Heap.upgrade_eq_some {heap : Heap} {track : Weak} {t : TrackIn} :
    heap.upgrade track = some t ↔ track ∈ heap ∧ t = track := by
  unfold Heap.upgrade
  split <;> simp_all [eq_comm]

theorem Heap.upgrade_congr {heap heap' : Heap} {track : Weak}
    (h : track ∈ heap ↔ track ∈ heap') : heap.upgrade track = heap'.upgrade track := by
  simp [Heap.upgrade, h]

structure TrackInEntry where
  id : TrackIn
  lastKeyframeRequest : Option Instant
  deriving DecidableEq, Repr

inductive TrackOutState
  | toOpen
  | negotiating (mid : Mid)
  | opened (mid : Mid)
  | toStop (mid : Mid)
  | negotiatingStop (mid : Mid)
  deriving DecidableEq, Repr

/-- One publisher's track, as forwarded to one subscriber. -/
structure TrackOut where
  trackIn : Weak
  state : TrackOutState
  deriving DecidableEq, Repr

def TrackOut.mid (track : TrackOut) : Option Mid :=
  match track.state with
  | .toOpen => none
  | .negotiating mid | .opened mid | .toStop mid | .negotiatingStop mid => some mid

/-- Something one peer produced that the rest of its room may need. -/
inductive Propagated (S : Str0m)
  | noop
  | timeout (wake : Instant)
  | trackOpen (id : PeerId) (trackIn : Weak)
  | media (id : PeerId) (data : S.Media)
  | keyframeRequest (id : PeerId) (request : KeyframeRequest) (publisher : PeerId) (midIn : Mid)

/-- The peer the event came from, when it is something other peers care about. -/
def Propagated.source {S : Str0m} : Propagated S → Option PeerId
  | .trackOpen id _ | .media id _ | .keyframeRequest id _ _ _ => some id
  | .noop | .timeout _ => none

/-- How long a peer stays speaking after its last packet above the threshold. -/
def speakingHold : Duration := Duration.fromMillis 600

/-- How long a peer may sit in ICE `Disconnected` before it is given up on. -/
def iceDisconnectGrace : Duration := Duration.fromSecs 20

/-- RFC 6464 reports -dBov, so smaller is louder. -/
def speakingThresholdDbov : ℤ := 50

structure Peer (S : Str0m) where
  id : PeerId
  userId : String
  name : String
  avatarUrl : String
  rtc : S.Rtc
  pending : Option S.SdpPendingOffer
  /-- Everything the media loop pushed through this peer's sender, in order. -/
  out : List ServerMsg
  tracksIn : List TrackInEntry
  tracksOut : List TrackOut
  muted : Bool
  screen : Bool
  connected : Bool
  disconnectedSince : Option Instant
  reported : Bool
  speakingUntil : Option Instant
  /-- The log of what was done with `rtc` and `tracksOut`. -/
  ops : List (Op S)

variable {S : Str0m}

/-- Dropping a peer drops the strong references in its `tracks_in`. -/
def Heap.dropPeer (heap : Heap) (peer : Peer S) : Heap :=
  heap.filter fun track => !(peer.tracksIn.any fun entry => entry.id = track)

namespace Peer

def new (id : PeerId) (rtc : S.Rtc) (userId name avatarUrl : String) : Peer S where
  id := id
  userId := userId
  name := name
  avatarUrl := avatarUrl
  rtc := rtc
  pending := none
  out := []
  tracksIn := []
  tracksOut := []
  muted := false
  screen := false
  connected := false
  disconnectedSince := none
  reported := false
  speakingUntil := none
  ops := []

/-- The tracks this peer publishes. -/
def tracks (peer : Peer S) : List TrackIn := peer.tracksIn.map (·.id)

/-- The tracks this peer is subscribed to. -/
def refs (peer : Peer S) : List Weak := peer.tracksOut.map (·.trackIn)

def info (peer : Peer S) : PeerInfo where
  peerId := peer.id.asString
  userId := peer.userId
  name := peer.name
  avatarUrl := peer.avatarUrl
  muted := peer.muted
  screen := peer.screen

def send (message : ServerMsg) (peer : Peer S) : Peer S :=
  { peer with out := peer.out ++ [message] }

def record (op : Op S) (peer : Peer S) : Peer S :=
  { peer with ops := peer.ops ++ [op] }

/-- True once a disconnect has outlasted the grace period. -/
def isAbandoned (now : Instant) (peer : Peer S) : Bool :=
  (peer.disconnectedSince.map fun since => decide (now - since ≥ iceDisconnectGrace)).getD false

def isSpeaking (now : Instant) (peer : Peer S) : Bool :=
  (peer.speakingUntil.map fun til => decide (til > now)).getD false

def isAlive (peer : Peer S) : Bool := S.isAlive peer.rtc

def accepts (input : S.Input) (peer : Peer S) : Bool := S.accepts peer.rtc input

def handleInput (input : S.Input) (peer : Peer S) : Peer S :=
  if !S.isAlive peer.rtc then peer
  else
    match S.handleInput peer.rtc input with
    | (.ok _, rtc) => { peer with rtc := rtc }
    | (.error _, rtc) => { peer with rtc := S.disconnect rtc }

end Peer

end FerriteSfu
