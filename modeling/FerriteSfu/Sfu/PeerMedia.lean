import FerriteSfu.Sfu.Negotiate

/-!
`peer_media.rs` and the event handling of `peer.rs`: what one peer's `Rtc`
produces, and what a subscriber does with what others produced.
-/

namespace FerriteSfu

variable {S : Str0m}

namespace Peer

def handleMediaAdded (heap : Heap) (added : MediaAdded) (peer : Peer S) :
    Propagated S × Peer S × Heap :=
  let trackIn : TrackIn := { origin := peer.id, mid := added.mid, kind := added.kind }
  let entry : TrackInEntry := { id := trackIn, lastKeyframeRequest := none }
  (.trackOpen peer.id trackIn, { peer with tracksIn := peer.tracksIn ++ [entry] },
    heap ++ [trackIn])

def noteAudioLevel (now : Instant) (data : S.Media) (peer : Peer S) : Peer S :=
  match data.extVals.audioLevel with
  | none => peer
  | some level =>
      let voiced := data.extVals.voiceActivity.getD true
      if voiced && decide (level > -speakingThresholdDbov) then
        { peer with speakingUntil := some (now + speakingHold) }
      else peer

def requestKeyframeThrottled (now : Instant) (mid : Mid) (kind : KeyframeRequestKind)
    (peer : Peer S) : Peer S :=
  match peer.tracksIn.find? fun track => track.id.mid = mid with
  | none => peer
  | some entry =>
      if (entry.lastKeyframeRequest.map fun last =>
          decide (now - last < Duration.fromSecs 1)).getD false then peer
      else
        match S.writer peer.rtc mid with
        | none => peer
        | some writer =>
            match S.requestKeyframe writer none kind with
            | (.error _, rtc) =>
                { peer with rtc := rtc }.record (.requestedKeyframe mid kind)
            | (.ok _, rtc) =>
                { peer with
                  rtc := rtc
                  tracksIn := peer.tracksIn.updateFirst (fun track => track.id.mid = mid)
                    fun track => { track with lastKeyframeRequest := some now }
                }.record (.requestedKeyframe mid kind)

def handleMediaDataIn (now : Instant) (data : S.Media) (peer : Peer S) :
    Propagated S × Peer S :=
  let kind := (peer.tracksIn.find? fun track => track.id.mid = data.mid).map (·.id.kind)
  let peer :=
    match kind with
    | some .audio => peer.noteAudioLevel now data
    | some .video =>
        if !data.contiguous then peer.requestKeyframeThrottled now data.mid .pli else peer
    | none => peer
  (.media peer.id data, peer)

/-- A subscriber asked for a keyframe on an m-line we forward. Translates it
back to the publisher's own mid. -/
def handleIncomingKeyframeRequest (heap : Heap) (request : KeyframeRequest) (peer : Peer S) :
    Propagated S :=
  match peer.tracksOut.find? fun track => track.mid = some request.mid with
  | none => .noop
  | some trackOut =>
      match heap.upgrade trackOut.trackIn with
      | none => .noop
      | some trackIn =>
          .keyframeRequest peer.id { request with rid := none } trackIn.origin trackIn.mid

/-- The m-line `forward` picks for a packet of `origin` on its mid `mid`. -/
def forwardMid (heap : Heap) (origin : PeerId) (mid : Mid) (peer : Peer S) : Option Mid :=
  (peer.tracksOut.find? fun out =>
    ((heap.upgrade out.trackIn).filter fun track =>
      decide (track.origin = origin) && decide (track.mid = mid)).isSome).bind TrackOut.mid

/-- The writer, told the audio level the publisher sent. -/
def withAudioLevel (data : S.Media) (writer : S.Writer) : S.Writer :=
  match data.extVals.audioLevel with
  | some level => S.audioLevel writer level (data.extVals.voiceActivity.getD true)
  | none => writer

/-- Writes one publisher's packet onto this subscriber's matching m-line. -/
def forward (heap : Heap) (origin : PeerId) (data : S.Media) (peer : Peer S) : Peer S :=
  match peer.forwardMid heap origin data.mid with
  | none => peer
  | some mid =>
      match S.writer peer.rtc mid with
      | none => peer
      | some writer =>
          match S.matchParams writer data.params with
          | none => peer
          | some pt =>
              let writer := withAudioLevel data writer
              match S.write writer pt data.networkTime data.time data.data with
              | (.ok _, rtc) => { peer with rtc := rtc }.record (.wrote mid origin data true)
              | (.error _, rtc) =>
                  { peer with rtc := S.disconnect rtc }.record (.wrote mid origin data false)

/-- Passes a subscriber's keyframe request to the publisher's encoder. -/
def serveKeyframeRequest (mid : Mid) (kind : KeyframeRequestKind) (peer : Peer S) : Peer S :=
  if !(peer.tracksIn.any fun track => track.id.mid = mid) then peer
  else
    match S.writer peer.rtc mid with
    | none => peer
    | some writer =>
        { peer with rtc := (S.requestKeyframe writer none kind).2 }.record
          (.requestedKeyframe mid kind)

end Peer

/-! ### Polling -/

/-- A peer polled to the end, and what it produced on the way. -/
structure Drained (S : Str0m) where
  queue : List (Propagated S)
  peer : Peer S
  heap : Heap
  wake : Option Instant

namespace Peer

def handleEvent (heap : Heap) (now : Instant) (event : S.Event) (peer : Peer S) :
    Propagated S × Peer S × Heap :=
  match event with
  | .iceConnectionStateChange state =>
      let peer :=
        match state with
        | .connected | .completed => { peer with connected := true, disconnectedSince := none }
        | .disconnected =>
            { peer with disconnectedSince := some (peer.disconnectedSince.getD now) }
        | _ => peer
      (.noop, peer, heap)
  | .mediaAdded added => peer.handleMediaAdded heap added
  | .mediaData data =>
      let handled := peer.handleMediaDataIn now data
      (handled.1, handled.2, heap)
  | .keyframeRequest request => (peer.handleIncomingKeyframeRequest heap request, peer, heap)
  | .other => (.noop, peer, heap)

def handleOutput (heap : Heap) (now : Instant) (output : S.Output) (peer : Peer S) :
    Propagated S × Peer S × Heap :=
  match output with
  | .transmit => (.noop, peer, heap)
  | .timeout wake => (.timeout wake, peer, heap)
  | .event event => peer.handleEvent heap now event

def pollOutput (heap : Heap) (now : Instant) (peer : Peer S) : Propagated S × Peer S × Heap :=
  if !S.isAlive peer.rtc then (.noop, peer, heap)
  else
    match peer.negotiateIfNeeded heap with
    | (true, peer) => (.noop, peer, heap)
    | (false, peer) =>
        match S.pollOutput peer.rtc with
        | (.ok output, rtc) =>
            ({ peer with rtc := rtc }.record (.polled output)).handleOutput heap now output
        | (.error _, rtc) => (.noop, { peer with rtc := S.disconnect rtc }, heap)

/-- The inner loop of `poll_rooms`: polls until the peer asks for a wake-up or
is dead, and collects what the rest of the room may need. The list holds the
clock readings of the iterations; `none` is a loop that wants more of them. -/
def drain : List Instant → Heap → Peer S → Option (Drained S)
  | clock, heap, peer =>
      if !S.isAlive peer.rtc then some { queue := [], peer := peer, heap := heap, wake := none }
      else
        match clock with
        | [] => none
        | now :: clock =>
            match peer.pollOutput heap now with
            | (.timeout wake, peer, heap) =>
                some { queue := [], peer := peer, heap := heap, wake := some wake }
            | (propagated, peer, heap) =>
                (drain clock heap peer).map fun drained =>
                  { drained with queue := propagated :: drained.queue }

/-- A drain ends with a dead peer, or with one that asks for a wake-up. -/
theorem drain_rule {P : List Instant → Heap → Peer S → Drained S → Prop}
    (dead : ∀ clock heap (peer : Peer S), S.isAlive peer.rtc = false →
      P clock heap peer { queue := [], peer := peer, heap := heap, wake := none })
    (asleep : ∀ now clock heap heap' wake (peer peer' : Peer S), S.isAlive peer.rtc = true →
      peer.pollOutput heap now = (.timeout wake, peer', heap') →
      P (now :: clock) heap peer
        { queue := [], peer := peer', heap := heap', wake := some wake })
    (goesOn : ∀ now clock heap heap' propagated (peer peer' : Peer S) rest,
      S.isAlive peer.rtc = true → (∀ wake, propagated ≠ .timeout wake) →
      peer.pollOutput heap now = (propagated, peer', heap') →
      peer'.drain clock heap' = some rest → P clock heap' peer' rest →
      P (now :: clock) heap peer { rest with queue := propagated :: rest.queue })
    {clock : List Instant} {heap : Heap} {peer : Peer S} {drained : Drained S}
    (h : peer.drain clock heap = some drained) : P clock heap peer drained := by
  induction clock generalizing heap peer drained with
  | nil =>
      rw [drain] at h
      split at h
      · rename_i hdead
        cases h
        exact dead [] heap peer (by simpa using hdead)
      · cases h
  | cons now clock ih =>
      rw [drain] at h
      split at h
      · rename_i hdead
        cases h
        exact dead (now :: clock) heap peer (by simpa using hdead)
      · rename_i halive
        have halive : S.isAlive peer.rtc = true := by simpa using halive
        split at h
        · rename_i wake peer' heap' hp
          cases h
          exact asleep now clock heap heap' wake peer peer' halive hp
        · rename_i propagated peer' heap' hwake hp
          obtain ⟨rest, hrest, rfl⟩ := Option.map_eq_some_iff.mp h
          exact goesOn now clock heap heap' propagated peer peer' rest halive
            (fun wake he => hwake wake he) hp hrest (ih hrest)

/-- What one peer makes of something another peer of its room produced. -/
def receive (heap : Heap) (propagated : Propagated S) (peer : Peer S) : Peer S :=
  match propagated with
  | .trackOpen _ trackIn =>
      { peer with tracksOut := peer.tracksOut ++ [{ trackIn := trackIn, state := .toOpen }]
                  ops := peer.ops ++ [.queuedOpen trackIn peer.pending.isSome] }
  | .media origin data => peer.forward heap origin data
  | .keyframeRequest _ request publisher midIn =>
      if publisher = peer.id then peer.serveKeyframeRequest midIn request.kind else peer
  | .noop | .timeout _ => peer

end Peer

end FerriteSfu
