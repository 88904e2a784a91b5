import FerriteSfu.Proto
import Mathlib.Data.List.Basic
import Mathlib.Data.Int.Notation

/-!
What the SFU calls of str0m.

The crate is not part of the repository, so it is a parameter: `Str0m` lists
the types and the calls, each call a function from the state of an instance to
its result and its next state. An instance owns its state, so two instances
cannot influence one another. Randomness and the clock enter through the seed
an `Rtc` is built from and through the inputs it is handed.

What the documentation of the crate promises is stated below as named laws.
Nothing is assumed where a law is not named.
-/

namespace FerriteSfu

/-- The RTP header extensions the SFU looks at. -/
structure ExtVals where
  audioLevel : Option ℤ
  voiceActivity : Option Bool
  deriving DecidableEq

structure MediaData (Params MediaTime : Type) where
  mid : Mid
  contiguous : Bool
  params : Params
  extVals : ExtVals
  networkTime : Instant
  time : MediaTime
  data : List UInt8

structure MediaAdded where
  mid : Mid
  kind : MediaKind
  deriving DecidableEq

inductive KeyframeRequestKind
  | pli
  | fir
  deriving DecidableEq

structure KeyframeRequest where
  mid : Mid
  rid : Option String
  kind : KeyframeRequestKind
  deriving DecidableEq

inductive IceConnectionState
  | new
  | checking
  | connected
  | completed
  | disconnected
  deriving DecidableEq

/-- The events of `str0m::Event` the SFU handles; every other one is `other`. -/
inductive RtcEvent (Params MediaTime : Type)
  | iceConnectionStateChange (state : IceConnectionState)
  | mediaAdded (added : MediaAdded)
  | mediaData (data : MediaData Params MediaTime)
  | keyframeRequest (request : KeyframeRequest)
  | other

/-- `str0m::Output`. The packet of a transmit goes to the socket unseen. -/
inductive RtcOutput (Params MediaTime : Type)
  | transmit
  | timeout (wake : Instant)
  | event (event : RtcEvent Params MediaTime)

inductive RtcInput (Datagram : Type)
  | timeout (now : Instant)
  | receive (now : Instant) (datagram : Datagram)

structure Str0m where
  Rtc : Type
  /-- The pending changes of `Rtc::sdp_api`, with the `Rtc` they borrow. -/
  SdpApi : Type
  /-- A media writer, with the `Rtc` it borrows. -/
  Writer : Type
  SdpOffer : Type
  SdpAnswer : Type
  SdpPendingOffer : Type
  PayloadParams : Type
  Pt : Type
  MediaTime : Type
  Datagram : Type
  /-- The random draws and the clock reading one `Rtc` is built from. -/
  Seed : Type
  offerFromSdpString : String → Except String SdpOffer
  answerFromSdpString : String → Except String SdpAnswer
  offerToSdpString : SdpOffer → String
  answerToSdpString : SdpAnswer → String
  /-- The builder, with the advertised host candidate added. -/
  build : Seed → Bool → Rtc
  isAlive : Rtc → Bool
  disconnect : Rtc → Rtc
  accepts : Rtc → RtcInput Datagram → Bool
  handleInput : Rtc → RtcInput Datagram → Except String Unit × Rtc
  pollOutput : Rtc → Except String (RtcOutput PayloadParams MediaTime) × Rtc
  acceptOffer : Rtc → SdpOffer → Except String SdpAnswer × Rtc
  acceptAnswer : Rtc → SdpPendingOffer → SdpAnswer → Except String Unit × Rtc
  sdpApi : Rtc → SdpApi
  /-- Adds a send-only m-line with the given stream and track id. -/
  addMedia : SdpApi → MediaKind → String → String → Mid × SdpApi
  stopMedia : SdpApi → Mid → SdpApi
  hasChanges : SdpApi → Bool
  apply : SdpApi → Option (SdpOffer × SdpPendingOffer) × Rtc
  /-- The `Rtc` after changes that were never applied are dropped. -/
  release : SdpApi → Rtc
  writer : Rtc → Mid → Option Writer
  matchParams : Writer → PayloadParams → Option Pt
  audioLevel : Writer → ℤ → Bool → Writer
  write : Writer → Pt → Instant → MediaTime → List UInt8 → Except String Unit × Rtc
  requestKeyframe : Writer → Option String → KeyframeRequestKind → Except String Unit × Rtc

namespace Str0m

variable (S : Str0m)

abbrev Media : Type := MediaData S.PayloadParams S.MediaTime

abbrev Event : Type := RtcEvent S.PayloadParams S.MediaTime

abbrev Output : Type := RtcOutput S.PayloadParams S.MediaTime

abbrev Input : Type := RtcInput S.Datagram

end Str0m

/-- A track a peer is publishing to us. -/
structure TrackIn where
  origin : PeerId
  mid : Mid
  kind : MediaKind
  deriving DecidableEq, Repr

/-- What was done with one peer's `Rtc` and subscription list, in order. The
log is not a field of the source; statements about the order of calls refer to
it. -/
inductive Op (S : Str0m)
  /-- `poll_output` returned this. -/
  | polled (output : S.Output)
  /-- `add_media` returned `mid` for a subscription to `track`. -/
  | addedMedia (mid : Mid) (track : TrackIn)
  /-- `Writer::write` was called on `mid` with a packet of `origin`. -/
  | wrote (mid : Mid) (origin : PeerId) (data : S.Media) (delivered : Bool)
  /-- `Writer::request_keyframe` was called on `mid`. -/
  | requestedKeyframe (mid : Mid) (kind : KeyframeRequestKind)
  /-- An offer with the changes made so far was sent, with this map. -/
  | offered (sdp : String) (tracks : List TrackMap)
  /-- A subscription was appended by propagation, with or without an offer
  outstanding. -/
  | queuedOpen (track : TrackIn) (offering : Bool)

namespace Op

variable {S : Str0m}

/-- The m-line a `MediaAdded` event announced. -/
def announcedMid : Op S → Option Mid
  | .polled (.event (.mediaAdded added)) => some added.mid
  | _ => none

/-- The map of an offer that was sent. -/
def offeredTracks : Op S → Option (List TrackMap)
  | .offered _ tracks => some tracks
  | _ => none

/-- The m-line `add_media` created, with the track it was created for. -/
def createdFor : Op S → Option (Mid × TrackIn)
  | .addedMedia mid track => some (mid, track)
  | _ => none

/-- Whether a packet was written. -/
def isWrote : Op S → Bool
  | .wrote _ _ _ _ => true
  | _ => false

end Op

/-- `S.History h ops`: the state `h`, of an `Rtc` or of the changes being made
to it, is the result of a sequence of calls whose log is `ops`. -/
inductive Str0m.History (S : Str0m) : S.Rtc ⊕ S.SdpApi → List (Op S) → Prop
  | build (seed : S.Seed) (iceLite : Bool) : S.History (.inl (S.build seed iceLite)) []
  | disconnect {rtc ops} (h : S.History (.inl rtc) ops) :
      S.History (.inl (S.disconnect rtc)) ops
  | handleInput {rtc ops} (h : S.History (.inl rtc) ops) (input : S.Input) :
      S.History (.inl (S.handleInput rtc input).2) ops
  | polled {rtc ops rtc' output} (h : S.History (.inl rtc) ops)
      (hpoll : S.pollOutput rtc = (.ok output, rtc')) :
      S.History (.inl rtc') (ops ++ [.polled output])
  | pollFailed {rtc ops rtc' error} (h : S.History (.inl rtc) ops)
      (hpoll : S.pollOutput rtc = (.error error, rtc')) : S.History (.inl rtc') ops
  | acceptOffer {rtc ops} (h : S.History (.inl rtc) ops) (offer : S.SdpOffer) :
      S.History (.inl (S.acceptOffer rtc offer).2) ops
  | acceptAnswer {rtc ops} (h : S.History (.inl rtc) ops) (pending : S.SdpPendingOffer)
      (answer : S.SdpAnswer) : S.History (.inl (S.acceptAnswer rtc pending answer).2) ops
  | sdpApi {rtc ops} (h : S.History (.inl rtc) ops) : S.History (.inr (S.sdpApi rtc)) ops
  | addMedia {change ops} (h : S.History (.inr change) ops) (track : TrackIn)
      (streamId trackId : String) :
      S.History (.inr (S.addMedia change track.kind streamId trackId).2)
        (ops ++ [.addedMedia (S.addMedia change track.kind streamId trackId).1 track])
  | stopMedia {change ops} (h : S.History (.inr change) ops) (mid : Mid) :
      S.History (.inr (S.stopMedia change mid)) ops
  | apply {change ops} (h : S.History (.inr change) ops) :
      S.History (.inl (S.apply change).2) ops
  | release {change ops} (h : S.History (.inr change) ops) :
      S.History (.inl (S.release change)) ops
  | write {rtc ops writer writer' pt mid} (h : S.History (.inl rtc) ops)
      (hwriter : S.writer rtc mid = some writer)
      (hlevel : writer' = writer ∨ ∃ level voiced, writer' = S.audioLevel writer level voiced)
      (origin : PeerId) (data : S.Media) (delivered : Bool) :
      S.History (.inl (S.write writer' pt data.networkTime data.time data.data).2)
        (ops ++ [.wrote mid origin data delivered])
  | requestKeyframe {rtc ops writer mid} (h : S.History (.inl rtc) ops)
      (hwriter : S.writer rtc mid = some writer) (rid : Option String)
      (kind : KeyframeRequestKind) :
      S.History (.inl (S.requestKeyframe writer rid kind).2)
        (ops ++ [.requestedKeyframe mid kind])
  /-- Sending an offer and bookkeeping of the subscription list are no calls. -/
  | offered {state ops} (h : S.History state ops) (sdp : String) (tracks : List TrackMap) :
      S.History state (ops ++ [.offered sdp tracks])
  | queuedOpen {state ops} (h : S.History state ops) (track : TrackIn) (offering : Bool) :
      S.History state (ops ++ [.queuedOpen track offering])

/-! ### Laws -/

/-- `MediaAdded` fires once per mid over the life of an `Rtc`. -/
def Str0m.AnnouncesOnce (S : Str0m) : Prop :=
  ∀ state ops, S.History state ops → (ops.filterMap Op.announcedMid).Nodup

/-- `add_media` never returns a mid it returned before on the same `Rtc`. -/
def Str0m.FreshMids (S : Str0m) : Prop :=
  ∀ state ops, S.History state ops → ((ops.filterMap Op.createdFor).map Prod.fst).Nodup

/-- `has_changes` holds exactly when `add_media` or `stop_media` was called on
the changes, and `apply` then returns an offer. -/
structure Str0m.OffersChanges (S : Str0m) : Prop where
  sdpApi (rtc : S.Rtc) : S.hasChanges (S.sdpApi rtc) = false
  addMedia (change : S.SdpApi) (kind : MediaKind) (streamId trackId : String) :
    S.hasChanges (S.addMedia change kind streamId trackId).2 = true
  stopMedia (change : S.SdpApi) (mid : Mid) : S.hasChanges (S.stopMedia change mid) = true
  apply (change : S.SdpApi) (h : S.hasChanges change = true) : (S.apply change).1.isSome

/-- `add_media` registers a change, `stop_media` takes none back, and `apply` then
returns an offer. Whether `stop_media` registers one is left open: an m-line the
browser has stopped already is not stopped again. -/
structure Str0m.OffersMedia (S : Str0m) : Prop where
  sdpApi (rtc : S.Rtc) : S.hasChanges (S.sdpApi rtc) = false
  addMedia (change : S.SdpApi) (kind : MediaKind) (streamId trackId : String) :
    S.hasChanges (S.addMedia change kind streamId trackId).2 = true
  stopMedia (change : S.SdpApi) (mid : Mid) (h : S.hasChanges change = true) :
    S.hasChanges (S.stopMedia change mid) = true
  apply (change : S.SdpApi) (h : S.hasChanges change = true) : (S.apply change).1.isSome

theorem Str0m.OffersChanges.offersMedia {S : Str0m} (h : S.OffersChanges) : S.OffersMedia where
  sdpApi := h.sdpApi
  addMedia := h.addMedia
  stopMedia change mid _ := h.stopMedia change mid
  apply := h.apply

/-- A dead `Rtc` hands out no writer. -/
def Str0m.DeadIsMute (S : Str0m) : Prop :=
  ∀ rtc mid, S.isAlive rtc = false → S.writer rtc mid = none

/-- The wake-up `poll_output` returns reflects only what was written before:
asked again with nothing done in between, it asks for the same one. -/
def Str0m.StableTimeout (S : Str0m) : Prop :=
  ∀ rtc rtc' wake, S.pollOutput rtc = (.ok (.timeout wake), rtc') →
    (S.pollOutput rtc').1 = .ok (.timeout wake)

/-- Changes are only pending: letting go of those of `sdp_api` before any is made
leaves the `Rtc` as it was. -/
def Str0m.DropsChanges (S : Str0m) : Prop := ∀ rtc, S.release (S.sdpApi rtc) = rtc

/-- An answer that is accepted ends no session. -/
def Str0m.AnswersKeepAlive (S : Str0m) : Prop :=
  ∀ rtc pending answer, S.isAlive rtc = true → (S.acceptAnswer rtc pending answer).1.isOk = true →
    S.isAlive (S.acceptAnswer rtc pending answer).2 = true

end FerriteSfu
