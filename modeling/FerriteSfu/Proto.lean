import Std.Data.String.ToNat
import Mathlib.Data.Nat.Notation
import Mathlib.Logic.Function.Basic

/-!
The vocabulary of the SFU: peer ids, the signaling messages of `proto.rs`, the
join claims of `auth.rs` and the room lifecycle events of `report.rs`.
-/

namespace FerriteSfu

/-- Instants and durations are nanoseconds. Subtraction saturates, as
`Instant::duration_since` does. -/
abbrev Instant := ℕ

abbrev Duration := ℕ

def Duration.fromMillis (millis : ℕ) : Duration := millis * 1000000

def Duration.fromSecs (secs : ℕ) : Duration := secs * 1000000000

/-- Identifies a peer inside the media loop. The counter behind it is a `u64`
that never wraps within `2 ^ 64` joins. -/
@[ext] structure PeerId where
  val : ℕ
  deriving DecidableEq, Repr

def PeerId.asString (id : PeerId) : String := toString id.val

theorem PeerId.asString_injective : Function.Injective PeerId.asString := by
  intro a b h
  have hnat : (toString a.val).toNat? = (toString b.val).toNat? := congrArg String.toNat? h
  simp only [Nat.toString_eq_repr, Nat.toNat?_repr, Option.some.injEq] at hnat
  cases a
  cases b
  simpa using hnat

@[simp] theorem PeerId.asString_inj {a b : PeerId} : a.asString = b.asString ↔ a = b :=
  asString_injective.eq_iff

/-- The identifier of an m-line. -/
structure Mid where
  name : String
  deriving DecidableEq, Repr

def Mid.toString (mid : Mid) : String := mid.name

theorem Mid.toString_injective : Function.Injective Mid.toString := by
  rintro ⟨a⟩ ⟨b⟩ h
  exact congrArg Mid.mk h

inductive MediaKind
  | audio
  | video
  deriving DecidableEq, Repr

/-! ### Signaling -/

structure TrackMap where
  mid : String
  peerId : String
  kind : String
  deriving DecidableEq, Repr

structure PeerInfo where
  peerId : String
  userId : String
  name : String
  avatarUrl : String
  muted : Bool
  screen : Bool
  deriving DecidableEq, Repr

/-- Browser to SFU. -/
inductive ClientMsg
  | join (token sdp : String)
  | answer (sdp : String)
  | mute (muted : Bool)
  | screen (active : Bool)
  | leave
  | ping
  deriving DecidableEq, Repr

/-- SFU to browser. -/
inductive ServerMsg
  | joined (peerId callId sdp : String) (peers : List PeerInfo)
  | offer (sdp : String) (tracks : List TrackMap)
  | peerJoined (peer : PeerInfo)
  | peerLeft (peerId : String)
  | peerState (peerId : String) (muted screen : Bool)
  | speaking (peerIds : List String)
  | error (code message : String)
  | pong
  deriving DecidableEq, Repr

/-- The fields of the join token the SFU reads. -/
structure JoinClaims where
  sub : String
  room : String
  callId : String
  name : String
  avatarUrl : String
  deriving DecidableEq, Repr

/-! ### Reports to the host application -/

inductive ReportName
  | participantJoined
  | participantLeft
  | trackPublished
  | trackUnpublished
  | roomFinished
  | sfuStarted
  deriving DecidableEq, Repr

/-- The event names as they are posted. -/
def ReportName.text : ReportName → String
  | .participantJoined => "participant_joined"
  | .participantLeft => "participant_left"
  | .trackPublished => "track_published"
  | .trackUnpublished => "track_unpublished"
  | .roomFinished => "room_finished"
  | .sfuStarted => "sfu_started"

structure ReportRoom where
  name : String
  deriving DecidableEq, Repr

structure ReportParticipant where
  identity : String
  deriving DecidableEq, Repr

structure ReportTrack where
  source : String
  deriving DecidableEq, Repr

def screenShare : String := "SCREEN_SHARE"

structure ReportEvent where
  event : ReportName
  room : ReportRoom
  participant : Option ReportParticipant
  track : Option ReportTrack
  deriving DecidableEq, Repr

namespace ReportEvent

def new (event : ReportName) (room : String) : ReportEvent where
  event := event
  room := ⟨room⟩
  participant := none
  track := none

def identity (report : ReportEvent) (identity : String) : ReportEvent :=
  { report with participant := some ⟨identity⟩ }

def screenShare (report : ReportEvent) : ReportEvent :=
  { report with track := some ⟨FerriteSfu.screenShare⟩ }

@[simp] theorem new_room (event : ReportName) (room : String) :
    (new event room).room = ⟨room⟩ := rfl

@[simp] theorem identity_room (report : ReportEvent) (user : String) :
    (report.identity user).room = report.room := rfl

@[simp] theorem screenShare_room (report : ReportEvent) :
    report.screenShare.room = report.room := rfl

end ReportEvent

end FerriteSfu
