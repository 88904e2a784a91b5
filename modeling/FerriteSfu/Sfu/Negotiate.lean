import FerriteSfu.Sfu.Peer

/-!
`negotiate.rs`: one offer at a time, from the SFU only.
-/

namespace FerriteSfu

variable {S : Str0m}

def kindLabel : MediaKind → String
  | .audio => "audio"
  | .video => "video"

/-- A publisher that left leaves a dead `Weak`; its m-line is to be stopped. -/
def TrackOut.stopDead (heap : Heap) (track : TrackOut) : TrackOut :=
  match track.state with
  | .opened mid =>
      if (heap.upgrade track.trackIn).isNone then { track with state := .toStop mid } else track
  | _ => track

/-- One turn of the loop over `tracks_out` that collects the changes. -/
def TrackOut.negotiate (heap : Heap) (change : S.SdpApi) (track : TrackOut) :
    TrackOut × S.SdpApi × List (Op S) :=
  match track.state with
  | .toOpen =>
      match heap.upgrade track.trackIn with
      | some trackIn =>
          let streamId := trackIn.origin.asString
          let trackId := streamId ++ "-" ++ kindLabel trackIn.kind
          let added := S.addMedia change trackIn.kind streamId trackId
          ({ track with state := .negotiating added.1 }, added.2, [.addedMedia added.1 trackIn])
      | none => (track, change, [])
  | .toStop mid => ({ track with state := .negotiatingStop mid }, S.stopMedia change mid, [])
  | _ => (track, change, [])

def negotiateTracks (heap : Heap) (change : S.SdpApi) :
    List TrackOut → List TrackOut × S.SdpApi × List (Op S)
  | [] => ([], change, [])
  | track :: rest =>
      let first := track.negotiate heap change
      let others := negotiateTracks heap first.2.1 rest
      (first.1 :: others.1, others.2.1, first.2.2 ++ others.2.2)

def TrackOut.isStopping (track : TrackOut) : Bool :=
  match track.state with
  | .toStop _ | .negotiatingStop _ => true
  | _ => false

/-- What one subscription contributes to the map an offer carries. -/
def TrackOut.toMap (heap : Heap) (track : TrackOut) : Option TrackMap := do
  let mid ← track.mid
  let trackIn ← heap.upgrade track.trackIn
  if track.isStopping then none
  else some { mid := mid.toString, peerId := trackIn.origin.asString,
              kind := kindLabel trackIn.kind }

/-- Every outbound m-line, so the browser can attribute an incoming track. -/
def trackMap (heap : Heap) (tracksOut : List TrackOut) : List TrackMap :=
  tracksOut.filterMap (·.toMap heap)

namespace Peer

/-- Brings the subscriptions in line with the room and, if anything changed,
offers. The flag says that an offer went out. -/
def negotiateIfNeeded (heap : Heap) (peer : Peer S) : Bool × Peer S :=
  if peer.pending.isSome || !S.isAlive peer.rtc then (false, peer)
  else
    let tracks := peer.tracksOut.map (·.stopDead heap)
    let negotiated := negotiateTracks heap (S.sdpApi peer.rtc) tracks
    let peer := { peer with tracksOut := negotiated.1, ops := peer.ops ++ negotiated.2.2 }
    let change := negotiated.2.1
    if !S.hasChanges change then (false, { peer with rtc := S.release change })
    else
      match S.apply change with
      | (none, rtc) => (false, { peer with rtc := rtc })
      | (some (offer, pending), rtc) =>
          let sdp := S.offerToSdpString offer
          let tracks := trackMap heap peer.tracksOut
          let peer := { peer with rtc := rtc, pending := some pending }.record (.offered sdp tracks)
          (true, peer.send (.offer sdp tracks))

end Peer

/-- What an accepted answer makes of a subscription in negotiation. -/
def TrackOut.settle (track : TrackOut) : TrackOut :=
  match track.state with
  | .negotiating mid => { track with state := .opened mid }
  | _ => track

def TrackOut.isNegotiatingStop (track : TrackOut) : Bool :=
  match track.state with
  | .negotiatingStop _ => true
  | _ => false

namespace Peer

/-- Applies the answer to an offer we sent. -/
def acceptAnswer (answer : S.SdpAnswer) (peer : Peer S) : Except String Unit × Peer S :=
  match peer.pending with
  | none => (.error "no_pending_offer", peer)
  | some pending =>
      let peer := { peer with pending := none }
      match S.acceptAnswer peer.rtc pending answer with
      | (.error error, rtc) => (.error error, { peer with rtc := rtc })
      | (.ok _, rtc) =>
          let tracksOut := peer.tracksOut.map TrackOut.settle
          (.ok (), { peer with
            rtc := rtc
            tracksOut := tracksOut.filter fun track => !track.isNegotiatingStop })

/-- Answers the peer's one and only offer, sent when it joins. -/
def acceptOffer (offer : S.SdpOffer) (peer : Peer S) : Except String String × Peer S :=
  match S.acceptOffer peer.rtc offer with
  | (.ok answer, rtc) => (.ok (S.answerToSdpString answer), { peer with rtc := rtc })
  | (.error error, rtc) => (.error error, { peer with rtc := rtc })

end Peer

end FerriteSfu
