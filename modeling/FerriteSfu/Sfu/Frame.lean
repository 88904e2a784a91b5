import FerriteSfu.Sfu.Room

/-!
What the operations on one peer leave alone.

Most statements about a room are about the part of its peers that only
signaling changes: who they are, whether they are muted, whether they were
reported. That part is the card of a peer. What the media path and the
negotiation do change of the rest is said once here, and every later argument
about a room cites it instead of unfolding the operations again.
-/

namespace FerriteSfu

variable {S : Str0m}

/-- The messages that tell a client who is in the room. -/
def ServerMsg.isRoster : ServerMsg → Bool
  | .joined _ _ _ _ | .peerJoined _ | .peerLeft _ | .peerState _ _ _ => true
  | .offer _ _ | .speaking _ | .error _ _ | .pong => false

/-- `out'` is `out` after pushing nothing about the roster. -/
def SameRoster (out out' : List ServerMsg) : Prop :=
  ∃ messages, out' = out ++ messages ∧ ∀ message ∈ messages, message.isRoster = false

theorem SameRoster.refl (out : List ServerMsg) : SameRoster out out :=
  ⟨[], by simp, by simp⟩

theorem SameRoster.push (out : List ServerMsg) {message : ServerMsg}
    (h : message.isRoster = false) : SameRoster out (out ++ [message]) :=
  ⟨[message], rfl, by simpa using h⟩

theorem SameRoster.trans {out out' out'' : List ServerMsg} (h : SameRoster out out')
    (h' : SameRoster out' out'') : SameRoster out out'' := by
  obtain ⟨messages, rfl, hmessages⟩ := h
  obtain ⟨messages', rfl, hmessages'⟩ := h'
  refine ⟨messages ++ messages', by simp, fun message hmem => ?_⟩
  exact (List.mem_append.mp hmem).elim (hmessages message) (hmessages' message)

/-- The track a propagated event opens. -/
def Propagated.opened : Propagated S → Option TrackIn
  | .trackOpen _ trackIn => some trackIn
  | _ => none

/-- The tracks a queue of events opens, in order. -/
def opens (queue : List (Propagated S)) : List TrackIn := queue.filterMap Propagated.opened

@[simp] theorem opens_nil : opens ([] : List (Propagated S)) = [] := rfl

@[simp] theorem opens_append (queue queue' : List (Propagated S)) :
    opens (queue ++ queue') = opens queue ++ opens queue' :=
  List.filterMap_append

theorem opens_cons (propagated : Propagated S) (queue : List (Propagated S)) :
    opens (propagated :: queue) = opens [propagated] ++ opens queue :=
  opens_append [propagated] queue

/-- What the roster, the host reports and the capacity check read of a peer. -/
structure Card where
  id : PeerId
  userId : String
  name : String
  avatarUrl : String
  muted : Bool
  screen : Bool
  reported : Bool
  deriving DecidableEq

def Card.info (card : Card) : PeerInfo where
  peerId := card.id.asString
  userId := card.userId
  name := card.name
  avatarUrl := card.avatarUrl
  muted := card.muted
  screen := card.screen

namespace Peer

def card (peer : Peer S) : Card where
  id := peer.id
  userId := peer.userId
  name := peer.name
  avatarUrl := peer.avatarUrl
  muted := peer.muted
  screen := peer.screen
  reported := peer.reported

@[simp] theorem card_id (peer : Peer S) : peer.card.id = peer.id := rfl

@[simp] theorem send_card (message : ServerMsg) (peer : Peer S) :
    (peer.send message).card = peer.card := rfl

@[simp] theorem send_id (message : ServerMsg) (peer : Peer S) :
    (peer.send message).id = peer.id := rfl

@[simp] theorem send_tracks (message : ServerMsg) (peer : Peer S) :
    (peer.send message).tracks = peer.tracks := rfl

@[simp] theorem send_refs (message : ServerMsg) (peer : Peer S) :
    (peer.send message).refs = peer.refs := rfl

@[simp] theorem send_tracksOut (message : ServerMsg) (peer : Peer S) :
    (peer.send message).tracksOut = peer.tracksOut := rfl

@[simp] theorem send_out (message : ServerMsg) (peer : Peer S) :
    (peer.send message).out = peer.out ++ [message] := rfl

@[simp] theorem record_card (op : Op S) (peer : Peer S) :
    (peer.record op).card = peer.card := rfl

@[simp] theorem record_tracks (op : Op S) (peer : Peer S) :
    (peer.record op).tracks = peer.tracks := rfl

@[simp] theorem record_refs (op : Op S) (peer : Peer S) :
    (peer.record op).refs = peer.refs := rfl

@[simp] theorem record_out (op : Op S) (peer : Peer S) :
    (peer.record op).out = peer.out := rfl

theorem id_eq_of_card {peer peer' : Peer S} (h : peer'.card = peer.card) :
    peer'.id = peer.id :=
  congrArg Card.id h

theorem info_eq_of_card {peer peer' : Peer S} (h : peer'.card = peer.card) :
    peer'.info = peer.info :=
  congrArg Card.info h

/-- `peer'` is `peer` after calls that touch neither its card nor its tracks
nor what it is subscribed to, and push nothing about the roster. -/
structure Quiet (peer peer' : Peer S) : Prop where
  card : peer'.card = peer.card
  tracks : peer'.tracks = peer.tracks
  refs : peer'.refs = peer.refs
  out : SameRoster peer.out peer'.out

theorem Quiet.refl (peer : Peer S) : peer.Quiet peer :=
  ⟨rfl, rfl, rfl, .refl _⟩

theorem Quiet.trans {peer peer' peer'' : Peer S} (h : peer.Quiet peer')
    (h' : peer'.Quiet peer'') : peer.Quiet peer'' :=
  ⟨h'.card.trans h.card, h'.tracks.trans h.tracks, h'.refs.trans h.refs, h.out.trans h'.out⟩

/-- Calls on the `Rtc` alone are quiet. -/
theorem Quiet.of_rtc (peer : Peer S) (rtc : S.Rtc) (ops : List (Op S)) :
    peer.Quiet { peer with rtc := rtc, ops := ops } :=
  ⟨rfl, rfl, rfl, .refl _⟩

/-- An input touches the `Rtc` and nothing else. -/
theorem handleInput_eq (input : S.Input) (peer : Peer S) :
    peer.handleInput input = { peer with rtc := (peer.handleInput input).rtc } := by
  unfold handleInput
  split
  · rfl
  · split <;> rfl

@[simp] theorem handleInput_id (input : S.Input) (peer : Peer S) :
    (peer.handleInput input).id = peer.id := by
  rw [handleInput_eq]

@[simp] theorem handleInput_pending (input : S.Input) (peer : Peer S) :
    (peer.handleInput input).pending = peer.pending := by
  rw [handleInput_eq]

@[simp] theorem handleInput_out (input : S.Input) (peer : Peer S) :
    (peer.handleInput input).out = peer.out := by
  rw [handleInput_eq]

@[simp] theorem handleInput_tracksOut (input : S.Input) (peer : Peer S) :
    (peer.handleInput input).tracksOut = peer.tracksOut := by
  rw [handleInput_eq]

@[simp] theorem handleInput_ops (input : S.Input) (peer : Peer S) :
    (peer.handleInput input).ops = peer.ops := by
  rw [handleInput_eq]

theorem handleInput_quiet (input : S.Input) (peer : Peer S) :
    peer.Quiet (peer.handleInput input) := by
  rw [handleInput_eq]
  exact .of_rtc peer _ peer.ops

end Peer

/-! ### Negotiation -/

@[simp] theorem TrackOut.stopDead_trackIn (heap : Heap) (track : TrackOut) :
    (track.stopDead heap).trackIn = track.trackIn := by
  unfold TrackOut.stopDead
  split
  · split <;> rfl
  · rfl

@[simp] theorem TrackOut.negotiate_trackIn (heap : Heap) (change : S.SdpApi)
    (track : TrackOut) : (track.negotiate heap change).1.trackIn = track.trackIn := by
  unfold TrackOut.negotiate
  split
  · split <;> rfl
  · rfl
  · rfl

/-- The loop takes the subscriptions one by one. -/
theorem mem_negotiateTracks {heap : Heap} {change : S.SdpApi} {tracks : List TrackOut}
    {track : TrackOut} (hmem : track ∈ (negotiateTracks heap change tracks).1) :
    ∃ old ∈ tracks, ∃ change' : S.SdpApi, track = (old.negotiate heap change').1 := by
  induction tracks generalizing change with
  | nil => simp [negotiateTracks] at hmem
  | cons first tracks ih =>
      simp only [negotiateTracks, List.mem_cons] at hmem
      rcases hmem with rfl | hmem
      · exact ⟨first, by simp, change, rfl⟩
      · obtain ⟨old, hold, hchange⟩ := ih hmem
        exact ⟨old, by simp [hold], hchange⟩

theorem negotiateTracks_trackIn (heap : Heap) (change : S.SdpApi) (tracks : List TrackOut) :
    (negotiateTracks heap change tracks).1.map (·.trackIn) = tracks.map (·.trackIn) := by
  induction tracks generalizing change with
  | nil => rfl
  | cons track tracks ih => simp [negotiateTracks, ih]

@[simp] theorem TrackOut.settle_trackIn (track : TrackOut) :
    track.settle.trackIn = track.trackIn := by
  unfold TrackOut.settle
  split <;> rfl

namespace Peer

/-- What the loop over the subscriptions makes of them, of the pending changes,
and the calls it made. -/
def changes (heap : Heap) (peer : Peer S) : List TrackOut × S.SdpApi × List (Op S) :=
  negotiateTracks heap (S.sdpApi peer.rtc) (peer.tracksOut.map (·.stopDead heap))

theorem changes_refs (heap : Heap) (peer : Peer S) :
    (peer.changes heap).1.map (·.trackIn) = peer.refs := by
  rw [changes, negotiateTracks_trackIn, List.map_map]
  exact List.map_congr_left fun track _ => TrackOut.stopDead_trackIn heap track

/-- What the loop over the subscriptions makes of one that was there. -/
theorem mem_changes {heap : Heap} {peer : Peer S} {track : TrackOut}
    (hmem : track ∈ (peer.changes heap).1) :
    ∃ old ∈ peer.tracksOut, ∃ change : S.SdpApi,
      track = ((old.stopDead heap).negotiate heap change).1 := by
  obtain ⟨stopped, hstopped, change, rfl⟩ := mem_negotiateTracks hmem
  obtain ⟨old, hold, rfl⟩ := List.mem_map.mp hstopped
  exact ⟨old, hold, change, rfl⟩

/-- The peer after that loop. -/
def changed (heap : Heap) (rtc : S.Rtc) (peer : Peer S) : Peer S :=
  { peer with tracksOut := (peer.changes heap).1, ops := peer.ops ++ (peer.changes heap).2.2,
              rtc := rtc }

/-- The peer after it has offered, as well. -/
def offered (heap : Heap) (offer : S.SdpOffer) (pending : S.SdpPendingOffer) (rtc : S.Rtc)
    (peer : Peer S) : Peer S :=
  let tracks := trackMap heap (peer.changes heap).1
  Peer.send (.offer (S.offerToSdpString offer) tracks)
    (Peer.record (.offered (S.offerToSdpString offer) tracks)
      { peer.changed heap rtc with pending := some pending })

/-- What a negotiation makes of a peer. -/
theorem negotiateIfNeeded_cases (heap : Heap) (peer : Peer S) :
    ((peer.pending.isSome = true ∨ S.isAlive peer.rtc = false) ∧
      peer.negotiateIfNeeded heap = (false, peer)) ∨
    (peer.pending = none ∧ S.hasChanges (peer.changes heap).2.1 = false ∧
      peer.negotiateIfNeeded heap =
        (false, peer.changed heap (S.release (peer.changes heap).2.1))) ∨
    (peer.pending = none ∧ S.hasChanges (peer.changes heap).2.1 = true ∧
      (S.apply (peer.changes heap).2.1).1 = none ∧
      peer.negotiateIfNeeded heap =
        (false, peer.changed heap (S.apply (peer.changes heap).2.1).2)) ∨
    (peer.pending = none ∧ S.hasChanges (peer.changes heap).2.1 = true ∧ ∃ offer pending,
      (S.apply (peer.changes heap).2.1).1 = some (offer, pending) ∧
      peer.negotiateIfNeeded heap =
        (true, peer.offered heap offer pending (S.apply (peer.changes heap).2.1).2)) := by
  unfold negotiateIfNeeded
  cases hpending : peer.pending with
  | some pending => exact .inl ⟨.inl rfl, by simp⟩
  | none =>
      cases halive : S.isAlive peer.rtc with
      | false => exact .inl ⟨.inr rfl, by simp⟩
      | true =>
          refine .inr ?_
          simp only [offered, changed, changes]
          cases hchanges : S.hasChanges (negotiateTracks heap (S.sdpApi peer.rtc)
              (peer.tracksOut.map (·.stopDead heap))).2.1 with
          | false => exact .inl ⟨trivial, rfl, by simp [hpending]⟩
          | true =>
              rcases happly : S.apply (negotiateTracks heap (S.sdpApi peer.rtc)
                (peer.tracksOut.map (·.stopDead heap))).2.1 with ⟨result, rtc⟩
              cases result with
              | none =>
                  exact .inr (.inl ⟨trivial, rfl, by simp [happly], by simp [happly, hpending]⟩)
              | some result =>
                  obtain ⟨offer, pending⟩ := result
                  exact .inr (.inr
                    ⟨trivial, rfl, offer, pending, by simp [happly], by simp [happly]⟩)

theorem negotiateIfNeeded_tracksOut (heap : Heap) (peer : Peer S) :
    (peer.negotiateIfNeeded heap).2.tracksOut = peer.tracksOut ∨
      (peer.negotiateIfNeeded heap).2.tracksOut = (peer.changes heap).1 := by
  rcases negotiateIfNeeded_cases heap peer with ⟨-, heq⟩ | ⟨-, -, heq⟩ | ⟨-, -, -, heq⟩ |
    ⟨-, -, offer, pending, -, heq⟩
  · exact .inl (by rw [heq])
  · exact .inr (by rw [heq]; rfl)
  · exact .inr (by rw [heq]; rfl)
  · exact .inr (by rw [heq]; rfl)

theorem negotiateIfNeeded_quiet (heap : Heap) (peer : Peer S) :
    peer.Quiet (peer.negotiateIfNeeded heap).2 := by
  have hrefs := changes_refs heap peer
  rcases negotiateIfNeeded_cases heap peer with ⟨-, heq⟩ | ⟨-, -, heq⟩ | ⟨-, -, -, heq⟩ |
    ⟨-, -, offer, pending, -, heq⟩
  · rw [heq]
    exact .refl peer
  · rw [heq]
    exact ⟨rfl, rfl, hrefs, .refl _⟩
  · rw [heq]
    exact ⟨rfl, rfl, hrefs, .refl _⟩
  · rw [heq]
    exact ⟨rfl, rfl, hrefs, .push _ rfl⟩

/-- What comes of an answer: nothing was outstanding, or it is rejected, or it
settles the subscriptions. -/
theorem acceptAnswer_cases (answer : S.SdpAnswer) (peer : Peer S) :
    (peer.pending = none ∧ (peer.acceptAnswer answer).2 = peer) ∨
    (∃ pending, peer.pending = some pending ∧
      (S.acceptAnswer peer.rtc pending answer).1.isOk = false ∧
      (peer.acceptAnswer answer).2 = { peer with
        pending := none
        rtc := (S.acceptAnswer peer.rtc pending answer).2 }) ∨
    (∃ pending, peer.pending = some pending ∧
      (S.acceptAnswer peer.rtc pending answer).1.isOk = true ∧
      (peer.acceptAnswer answer).2 = { peer with
        pending := none
        rtc := (S.acceptAnswer peer.rtc pending answer).2
        tracksOut := (peer.tracksOut.map TrackOut.settle).filter fun track =>
          !track.isNegotiatingStop }) := by
  unfold acceptAnswer
  cases hpending : peer.pending with
  | none => exact .inl ⟨rfl, rfl⟩
  | some pending =>
      dsimp only
      cases haccept : S.acceptAnswer peer.rtc pending answer with
      | mk result rtc =>
          cases result with
          | error error => exact .inr (.inl ⟨pending, rfl, by rw [haccept]; rfl, by rw [haccept]⟩)
          | ok => exact .inr (.inr ⟨pending, rfl, by rw [haccept]; rfl, by rw [haccept]⟩)

/-- An answer pushes nothing and changes subscriptions only. -/
theorem acceptAnswer_frame (answer : S.SdpAnswer) (peer : Peer S) :
    (peer.acceptAnswer answer).2.card = peer.card ∧
      (peer.acceptAnswer answer).2.tracksIn = peer.tracksIn ∧
      (peer.acceptAnswer answer).2.out = peer.out := by
  rcases acceptAnswer_cases answer peer with ⟨-, heq⟩ | ⟨pending, -, -, heq⟩ |
    ⟨pending, -, -, heq⟩ <;> rw [heq] <;> exact ⟨rfl, rfl, rfl⟩

/-- Answers are not calls that are logged. -/
@[simp] theorem acceptAnswer_ops (answer : S.SdpAnswer) (peer : Peer S) :
    (peer.acceptAnswer answer).2.ops = peer.ops := by
  rcases acceptAnswer_cases answer peer with ⟨-, heq⟩ | ⟨pending, -, -, heq⟩ |
    ⟨pending, -, -, heq⟩ <;> rw [heq]

/-- An answer opens what is being negotiated and drops what is being stopped,
or leaves the subscriptions as they are. -/
theorem acceptAnswer_tracksOut (answer : S.SdpAnswer) (peer : Peer S) :
    (peer.acceptAnswer answer).2.tracksOut = peer.tracksOut ∨
      (peer.acceptAnswer answer).2.tracksOut =
        (peer.tracksOut.map TrackOut.settle).filter fun track => !track.isNegotiatingStop := by
  rcases acceptAnswer_cases answer peer with ⟨-, heq⟩ | ⟨pending, -, -, heq⟩ |
    ⟨pending, -, -, heq⟩
  · exact .inl (by rw [heq])
  · exact .inl (by rw [heq])
  · exact .inr (by rw [heq])

/-! ### The media path -/

theorem noteAudioLevel_quiet (now : Instant) (data : S.Media) (peer : Peer S) :
    peer.Quiet (peer.noteAudioLevel now data) := by
  unfold noteAudioLevel
  split
  · exact .refl peer
  · dsimp only
    split
    · exact ⟨rfl, rfl, rfl, .refl _⟩
    · exact .refl peer

theorem requestKeyframeThrottled_quiet (now : Instant) (mid : Mid)
    (kind : KeyframeRequestKind) (peer : Peer S) :
    peer.Quiet (peer.requestKeyframeThrottled now mid kind) := by
  unfold requestKeyframeThrottled
  split
  · exact .refl peer
  · split
    · exact .refl peer
    · split
      · exact .refl peer
      · split
        · exact .of_rtc peer _ _
        · refine ⟨rfl, ?_, rfl, .refl _⟩
          exact List.map_updateFirst fun _ _ _ => rfl

theorem handleMediaDataIn_quiet (now : Instant) (data : S.Media) (peer : Peer S) :
    peer.Quiet (peer.handleMediaDataIn now data).2 := by
  unfold handleMediaDataIn
  dsimp only
  split
  · exact noteAudioLevel_quiet now data peer
  · split
    · exact requestKeyframeThrottled_quiet now data.mid .pli peer
    · exact .refl peer
  · exact .refl peer

/-- Forwarding is calls on the `Rtc` and their log. -/
theorem forward_eq (heap : Heap) (origin : PeerId) (data : S.Media) (peer : Peer S) :
    peer.forward heap origin data = { peer with
      rtc := (peer.forward heap origin data).rtc
      ops := (peer.forward heap origin data).ops } := by
  unfold forward
  dsimp only
  repeat' split
  all_goals rfl

/-- So is the service of a keyframe request. -/
theorem serveKeyframeRequest_eq (mid : Mid) (kind : KeyframeRequestKind) (peer : Peer S) :
    peer.serveKeyframeRequest mid kind = { peer with
      rtc := (peer.serveKeyframeRequest mid kind).rtc
      ops := (peer.serveKeyframeRequest mid kind).ops } := by
  unfold serveKeyframeRequest
  repeat' split
  all_goals rfl

theorem forward_quiet (heap : Heap) (origin : PeerId) (data : S.Media) (peer : Peer S) :
    peer.Quiet (peer.forward heap origin data) := by
  rw [forward_eq]
  exact .of_rtc peer _ _

theorem serveKeyframeRequest_quiet (mid : Mid) (kind : KeyframeRequestKind) (peer : Peer S) :
    peer.Quiet (peer.serveKeyframeRequest mid kind) := by
  rw [serveKeyframeRequest_eq]
  exact .of_rtc peer _ _

/-- What a keyframe request is translated to, if anything. -/
theorem handleIncomingKeyframeRequest_cases (heap : Heap) (request : KeyframeRequest)
    (peer : Peer S) :
    peer.handleIncomingKeyframeRequest heap request = .noop ∨
      ∃ out ∈ peer.tracksOut, out.mid = some request.mid ∧ out.trackIn ∈ heap ∧
        peer.handleIncomingKeyframeRequest heap request = .keyframeRequest peer.id
          { request with rid := none } out.trackIn.origin out.trackIn.mid := by
  unfold handleIncomingKeyframeRequest
  split
  · exact .inl rfl
  · rename_i out hfind
    split
    · exact .inl rfl
    · rename_i track hup
      obtain ⟨hlive, rfl⟩ := Heap.upgrade_eq_some.mp hup
      exact .inr ⟨out, List.mem_of_find?_eq_some hfind, by simpa using List.find?_some hfind,
        hlive, rfl⟩

/-- What others produce changes the subscriptions by the tracks it opens. -/
theorem receive_frame (heap : Heap) (propagated : Propagated S) (peer : Peer S) :
    (peer.receive heap propagated).card = peer.card ∧
      (peer.receive heap propagated).tracks = peer.tracks ∧
      (peer.receive heap propagated).refs = peer.refs ++ opens [propagated] ∧
      SameRoster peer.out (peer.receive heap propagated).out := by
  have hquiet {peer' : Peer S} (h : peer.Quiet peer') (hopen : opens [propagated] = []) :
      peer'.card = peer.card ∧ peer'.tracks = peer.tracks ∧
        peer'.refs = peer.refs ++ opens [propagated] ∧
        SameRoster peer.out peer'.out :=
    ⟨h.card, h.tracks, by rw [h.refs, hopen, List.append_nil], h.out⟩
  cases propagated with
  | noop => exact hquiet (.refl peer) rfl
  | timeout wake => exact hquiet (.refl peer) rfl
  | trackOpen id trackIn =>
      exact ⟨rfl, rfl, by simp [receive, refs, opens, Propagated.opened], .refl _⟩
  | media id data => exact hquiet (forward_quiet heap id data peer) rfl
  | keyframeRequest id request publisher midIn =>
      simp only [receive]
      split
      · exact hquiet (serveKeyframeRequest_quiet midIn request.kind peer) rfl
      · exact hquiet (.refl peer) rfl

/-- Subscriptions received are yet to be opened. -/
theorem receive_tracksOut (heap : Heap) (propagated : Propagated S) (peer : Peer S) :
    (peer.receive heap propagated).tracksOut =
      peer.tracksOut ++ (opens [propagated]).map fun trackIn => ⟨trackIn, .toOpen⟩ := by
  cases propagated with
  | noop | timeout => simp [receive, opens, Propagated.opened]
  | trackOpen => rfl
  | media id data =>
      simp only [receive]
      rw [forward_eq]
      simp [opens, Propagated.opened]
  | keyframeRequest =>
      simp only [receive]
      rw [serveKeyframeRequest_eq]
      split <;> simp [opens, Propagated.opened]

/-! ### Polling -/

/-- `peer'` is `peer` after polling that produced `queue` and grew the heap to
`heap'`: the tracks the queue opens are the ones that were announced. -/
structure Polled (heap : Heap) (peer : Peer S) (queue : List (Propagated S)) (peer' : Peer S)
    (heap' : Heap) : Prop where
  card : peer'.card = peer.card
  tracks : peer'.tracks = peer.tracks ++ opens queue
  refs : peer'.refs = peer.refs
  out : SameRoster peer.out peer'.out
  heap : heap' = heap ++ opens queue
  origin : ∀ track ∈ opens queue, track.origin = peer.id
  source : ∀ propagated ∈ queue, propagated.source = none ∨ propagated.source = some peer.id

theorem Quiet.polled {peer peer' : Peer S} (h : peer.Quiet peer') (heap : Heap)
    {propagated : Propagated S} (hopen : propagated.opened = none)
    (hsource : propagated.source = none ∨ propagated.source = some peer.id) :
    Polled heap peer [propagated] peer' heap := by
  have hnil : opens [propagated] = [] := by simp [opens, hopen]
  refine ⟨h.card, ?_, h.refs, h.out, ?_, ?_, ?_⟩ <;> simp [hnil, h.tracks, hsource]

theorem Polled.nil {heap : Heap} (peer : Peer S) : Polled heap peer [] peer heap :=
  ⟨rfl, by simp, rfl, .refl _, by simp, by simp, by simp⟩

/-- Quiet calls before a poll do not show in it. -/
theorem Quiet.trans_polled {heap heap' : Heap} {peer peer' peer'' : Peer S}
    {queue : List (Propagated S)} (h : peer.Quiet peer')
    (h' : Polled heap peer' queue peer'' heap') : Polled heap peer queue peer'' heap' := by
  have hid := id_eq_of_card h.card
  exact ⟨h'.card.trans h.card, by rw [h'.tracks, h.tracks], h'.refs.trans h.refs,
    h.out.trans h'.out, h'.heap, fun track hmem => (h'.origin track hmem).trans hid,
    fun propagated hmem => hid ▸ h'.source propagated hmem⟩

theorem Polled.trans {heap heap' heap'' : Heap} {peer peer' peer'' : Peer S}
    {queue queue' : List (Propagated S)} (h : Polled heap peer queue peer' heap')
    (h' : Polled heap' peer' queue' peer'' heap'') :
    Polled heap peer (queue ++ queue') peer'' heap'' := by
  have hid := id_eq_of_card h.card
  refine ⟨h'.card.trans h.card, by simp [h'.tracks, h.tracks], h'.refs.trans h.refs,
    h.out.trans h'.out, by simp [h'.heap, h.heap], ?_, ?_⟩
  · intro track hmem
    rw [opens_append] at hmem
    exact (List.mem_append.mp hmem).elim (h.origin track)
      fun hmem => (h'.origin track hmem).trans hid
  · intro propagated hmem
    exact (List.mem_append.mp hmem).elim (h.source propagated)
      fun hmem => hid ▸ h'.source propagated hmem

theorem handleEvent_polled (heap : Heap) (now : Instant) (event : S.Event) (peer : Peer S) :
    Polled heap peer [(peer.handleEvent heap now event).1] (peer.handleEvent heap now event).2.1
      (peer.handleEvent heap now event).2.2 := by
  cases event with
  | iceConnectionStateChange state =>
      refine Quiet.polled ?_ heap rfl (.inl rfl)
      cases state <;> exact ⟨rfl, rfl, rfl, .refl _⟩
  | mediaAdded added =>
      refine ⟨rfl, by simp [handleEvent, handleMediaAdded, tracks, opens, Propagated.opened], rfl,
        .refl _, rfl, ?_, ?_⟩
      · simp [handleEvent, handleMediaAdded, opens, Propagated.opened]
      · simp [handleEvent, handleMediaAdded, Propagated.source]
  | mediaData data =>
      have hquiet := handleMediaDataIn_quiet now data peer
      exact hquiet.polled heap rfl (.inr (congrArg some (id_eq_of_card hquiet.card)))
  | keyframeRequest request =>
      have hquiet : peer.Quiet peer := .refl peer
      simp only [handleEvent]
      rcases handleIncomingKeyframeRequest_cases heap request peer with hnoop |
        ⟨out, -, -, -, heq⟩
      · rw [hnoop]
        exact hquiet.polled heap rfl (.inl rfl)
      · rw [heq]
        exact hquiet.polled heap rfl (.inr rfl)
  | other => exact (Quiet.refl peer).polled heap rfl (.inl rfl)

theorem handleOutput_polled (heap : Heap) (now : Instant) (output : S.Output)
    (peer : Peer S) :
    Polled heap peer [(peer.handleOutput heap now output).1]
      (peer.handleOutput heap now output).2.1 (peer.handleOutput heap now output).2.2 := by
  cases output with
  | transmit => exact (Quiet.refl peer).polled heap rfl (.inl rfl)
  | timeout wake => exact (Quiet.refl peer).polled heap rfl (.inl rfl)
  | event event => exact handleEvent_polled heap now event peer

theorem pollOutput_polled (heap : Heap) (now : Instant) (peer : Peer S) :
    Polled heap peer [(peer.pollOutput heap now).1] (peer.pollOutput heap now).2.1
      (peer.pollOutput heap now).2.2 := by
  have hneg := negotiateIfNeeded_quiet heap peer
  unfold pollOutput
  split
  · exact (Quiet.refl peer).polled heap rfl (.inl rfl)
  · split
    · rename_i h
      rw [h] at hneg
      exact hneg.polled heap rfl (.inl rfl)
    · rename_i h
      rw [h] at hneg
      split
      · exact (hneg.trans (.of_rtc _ _ _)).trans_polled (handleOutput_polled heap now _ _)
      · exact (hneg.trans (.of_rtc _ _ _)).polled heap rfl (.inl rfl)

theorem drain_polled {clock : List Instant} {heap : Heap} {peer : Peer S}
    {drained : Drained S} (h : peer.drain clock heap = some drained) :
    Polled heap peer drained.queue drained.peer drained.heap := by
  refine drain_rule (P := fun _ heap peer drained =>
    Polled heap peer drained.queue drained.peer drained.heap)
    (fun _ _ peer _ => .nil peer) ?asleep ?goesOn h
  case asleep =>
    intro now _ heap heap' wake peer peer' _ hp
    have hpoll := pollOutput_polled heap now peer
    rw [hp] at hpoll
    have hnil : opens [(Propagated.timeout wake : Propagated S)] = [] := rfl
    refine ⟨hpoll.card, ?_, hpoll.refs, hpoll.out, ?_, by simp, by simp⟩
    · simpa [hnil] using hpoll.tracks
    · simpa [hnil] using hpoll.heap
  case goesOn =>
    intro now _ heap heap' propagated peer peer' rest _ _ hp _ ih
    have hpoll := pollOutput_polled heap now peer
    rw [hp] at hpoll
    exact hpoll.trans ih

/-! ### What negotiation and the media path leave to each other -/

/-- `peer'` is `peer` after handling output of its `Rtc`: the negotiation is
where it was, and keyframes are all that was asked for. -/
structure Handled (peer peer' : Peer S) : Prop where
  id : peer'.id = peer.id
  pending : peer'.pending = peer.pending
  tracksOut : peer'.tracksOut = peer.tracksOut
  out : peer'.out = peer.out
  ops : ∃ requests, peer'.ops = peer.ops ++ requests ∧
    ∀ op ∈ requests, ∃ mid kind, op = .requestedKeyframe mid kind

theorem Handled.refl (peer : Peer S) : peer.Handled peer :=
  ⟨rfl, rfl, rfl, rfl, [], by simp, by simp⟩

theorem requestKeyframeThrottled_handled (now : Instant) (mid : Mid)
    (kind : KeyframeRequestKind) (peer : Peer S) :
    peer.Handled (peer.requestKeyframeThrottled now mid kind) := by
  unfold requestKeyframeThrottled
  repeat' split
  all_goals first
    | exact .refl peer
    | exact ⟨rfl, rfl, rfl, rfl, [_], rfl, by simp⟩

theorem handleMediaDataIn_handled (now : Instant) (data : S.Media) (peer : Peer S) :
    peer.Handled (peer.handleMediaDataIn now data).2 := by
  unfold handleMediaDataIn
  dsimp only
  split
  · unfold noteAudioLevel
    dsimp only
    repeat' split
    all_goals exact ⟨rfl, rfl, rfl, rfl, [], by simp, by simp⟩
  · split
    · exact requestKeyframeThrottled_handled now data.mid .pli peer
    · exact .refl peer
  · exact .refl peer

theorem handleOutput_handled (heap : Heap) (now : Instant) (output : S.Output)
    (peer : Peer S) : peer.Handled (peer.handleOutput heap now output).2.1 := by
  cases output with
  | transmit => exact .refl peer
  | timeout wake => exact .refl peer
  | event event =>
      cases event with
      | iceConnectionStateChange state =>
          cases state <;>
            exact ⟨rfl, rfl, rfl, rfl, [], by simp [handleOutput, handleEvent], by simp⟩
      | mediaAdded added =>
          exact ⟨rfl, rfl, rfl, rfl, [], by simp [handleOutput, handleEvent, handleMediaAdded],
            by simp⟩
      | mediaData data => exact handleMediaDataIn_handled now data peer
      | keyframeRequest request => exact .refl peer
      | other => exact .refl peer

/-- What one poll makes of a peer. -/
theorem pollOutput_cases (heap : Heap) (now : Instant) (peer : Peer S) :
    (S.isAlive peer.rtc = false ∧ peer.pollOutput heap now = (.noop, peer, heap)) ∨
    (S.isAlive peer.rtc = true ∧ (peer.negotiateIfNeeded heap).1 = true ∧
      peer.pollOutput heap now = (.noop, (peer.negotiateIfNeeded heap).2, heap)) ∨
    (S.isAlive peer.rtc = true ∧ (peer.negotiateIfNeeded heap).1 = false ∧ ∃ output rtc,
      S.pollOutput (peer.negotiateIfNeeded heap).2.rtc = (.ok output, rtc) ∧
      peer.pollOutput heap now = (Peer.record (.polled output)
        { (peer.negotiateIfNeeded heap).2 with rtc := rtc }).handleOutput heap now output) ∨
    (S.isAlive peer.rtc = true ∧ (peer.negotiateIfNeeded heap).1 = false ∧ ∃ error rtc,
      S.pollOutput (peer.negotiateIfNeeded heap).2.rtc = (.error error, rtc) ∧
      peer.pollOutput heap now =
        (.noop, { (peer.negotiateIfNeeded heap).2 with rtc := S.disconnect rtc }, heap)) := by
  unfold pollOutput
  cases halive : S.isAlive peer.rtc with
  | false => exact .inl ⟨rfl, rfl⟩
  | true =>
      rcases hneg : peer.negotiateIfNeeded heap with ⟨offered, peer'⟩
      cases offered with
      | true => exact .inr (.inl ⟨rfl, rfl, rfl⟩)
      | false =>
          rcases hpoll : S.pollOutput peer'.rtc with ⟨result, rtc⟩
          cases result with
          | ok output =>
              refine .inr (.inr (.inl ⟨rfl, rfl, output, rtc, rfl, ?_⟩))
              simp [hpoll]
          | error error =>
              refine .inr (.inr (.inr ⟨rfl, rfl, error, rtc, rfl, ?_⟩))
              simp [hpoll]

end Peer

end FerriteSfu
