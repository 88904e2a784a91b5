import FerriteSfu.Sfu.Frame

/-!
What is written to the log of a peer.

Polling logs calls of the peer's own negotiation and output, receiving logs
what the others made the peer do. Nothing is ever taken back.
-/

namespace FerriteSfu

variable {S : Str0m}

/-- One turn creates an m-line for a live track, or keeps the one there is. -/
theorem TrackOut.negotiate_cases (heap : Heap) (change : S.SdpApi) (track : TrackOut) :
    (∃ mid, track.trackIn ∈ heap ∧
      (track.negotiate heap change).1 = ⟨track.trackIn, .negotiating mid⟩ ∧
      (track.negotiate heap change).2.2 = [.addedMedia mid track.trackIn]) ∨
    ((track.negotiate heap change).1.mid = track.mid ∧
      (track.negotiate heap change).2.2 = []) := by
  rcases track with ⟨trackIn, state⟩
  cases state with
  | toOpen =>
      simp only [negotiate]
      split
      · rename_i live hup
        obtain ⟨hlive, rfl⟩ := Heap.upgrade_eq_some.mp hup
        exact .inl ⟨_, hlive, rfl, rfl⟩
      · exact .inr ⟨rfl, rfl⟩
  | negotiating | opened | toStop | negotiatingStop => exact .inr ⟨rfl, rfl⟩

/-- All it logs is m-lines, each of which a subscription to a live track now has. -/
theorem negotiateTracks_added {heap : Heap} {change : S.SdpApi} {tracks : List TrackOut}
    {op : Op S} (hop : op ∈ (negotiateTracks heap change tracks).2.2) :
    ∃ mid track, op = .addedMedia mid track ∧ track ∈ heap ∧
      ⟨track, .negotiating mid⟩ ∈ (negotiateTracks heap change tracks).1 := by
  induction tracks generalizing change with
  | nil => simp [negotiateTracks] at hop
  | cons first tracks ih =>
      simp only [negotiateTracks, List.mem_append] at hop
      rcases hop with hop | hop
      · rcases first.negotiate_cases heap change with ⟨mid, hlive, heq, hops⟩ | ⟨-, hops⟩
        · rw [hops, List.mem_singleton] at hop
          exact ⟨mid, first.trackIn, hop, hlive, by simp [negotiateTracks, heq]⟩
        · rw [hops] at hop
          simp at hop
      · obtain ⟨mid, track, heq, hlive, hmem⟩ := ih hop
        exact ⟨mid, track, heq, hlive, List.mem_cons_of_mem _ hmem⟩

namespace Op

/-- Entries of a negotiation: an m-line was created, or an offer was sent. -/
inductive IsNegotiation : Op S → Prop
  | addedMedia (mid : Mid) (track : TrackIn) : IsNegotiation (.addedMedia mid track)
  | offered (sdp : String) (tracks : List TrackMap) : IsNegotiation (.offered sdp tracks)

/-- Entries of a poll. -/
inductive IsPoll : Op S → Prop
  | negotiation {op : Op S} (h : op.IsNegotiation) : IsPoll op
  | polled (output : S.Output) : IsPoll (.polled output)
  | requestedKeyframe (mid : Mid) (kind : KeyframeRequestKind) :
      IsPoll (.requestedKeyframe mid kind)

/-- A poll forwards nothing. -/
theorem IsPoll.not_wrote {mid : Mid} {origin : PeerId} {data : S.Media} {delivered : Bool} :
    ¬IsPoll (.wrote mid origin data delivered) := by
  intro h
  cases h with
  | negotiation h => cases h

end Op

namespace Peer

theorem negotiateIfNeeded_ops (heap : Heap) (peer : Peer S) :
    ∃ ops, (peer.negotiateIfNeeded heap).2.ops = peer.ops ++ ops ∧
      ∀ op ∈ ops, op.IsNegotiation := by
  have hchanged : ∀ op ∈ (peer.changes heap).2.2, op.IsNegotiation := by
    intro op hop
    obtain ⟨mid, track, rfl, -⟩ := negotiateTracks_added hop
    exact .addedMedia mid track
  rcases negotiateIfNeeded_cases heap peer with ⟨-, heq⟩ | ⟨-, -, heq⟩ | ⟨-, -, -, heq⟩ |
    ⟨-, -, offer, pending, -, heq⟩
  · exact heq ▸ ⟨[], by simp, by simp⟩
  · exact heq ▸ ⟨_, rfl, hchanged⟩
  · exact heq ▸ ⟨_, rfl, hchanged⟩
  · rw [heq]
    refine ⟨_, List.append_assoc _ _ _, fun op hop => ?_⟩
    rcases List.mem_append.mp hop with hop | hop
    · exact hchanged op hop
    · rw [List.mem_singleton.mp hop]
      exact .offered _ _

theorem Handled.isPoll {peer peer' : Peer S} (h : peer.Handled peer') :
    ∃ ops, peer'.ops = peer.ops ++ ops ∧ ∀ op ∈ ops, op.IsPoll := by
  obtain ⟨requests, hops, hrequests⟩ := h.ops
  refine ⟨requests, hops, fun op hop => ?_⟩
  obtain ⟨mid, kind, rfl⟩ := hrequests op hop
  exact .requestedKeyframe mid kind

theorem pollOutput_ops (heap : Heap) (now : Instant) (peer : Peer S) :
    ∃ ops, (peer.pollOutput heap now).2.1.ops = peer.ops ++ ops ∧ ∀ op ∈ ops, op.IsPoll := by
  obtain ⟨negotiated, hneg, hnegops⟩ := negotiateIfNeeded_ops heap peer
  rcases pollOutput_cases heap now peer with ⟨-, heq⟩ | ⟨-, -, heq⟩ | ⟨-, -, output, rtc, -, heq⟩ |
    ⟨-, -, error, rtc, -, heq⟩
  · exact heq ▸ ⟨[], by simp, by simp⟩
  · exact heq ▸ ⟨negotiated, hneg, fun op hop => .negotiation (hnegops op hop)⟩
  · rw [heq]
    obtain ⟨requests, hops, hrequests⟩ := (handleOutput_handled heap now output _).isPoll
    refine ⟨negotiated ++ [.polled output] ++ requests, ?_, fun op hop => ?_⟩
    · rw [hops, record, hneg]
      simp
    · rcases List.mem_append.mp hop with hop | hop
      · rcases List.mem_append.mp hop with hop | hop
        · exact .negotiation (hnegops op hop)
        · rw [List.mem_singleton.mp hop]
          exact .polled output
      · exact hrequests op hop
  · rw [heq]
    exact ⟨negotiated, hneg, fun op hop => .negotiation (hnegops op hop)⟩

theorem handleIncomingKeyframeRequest_ne_media (heap : Heap) (request : KeyframeRequest)
    (peer : Peer S) (id : PeerId) (data : S.Media) :
    peer.handleIncomingKeyframeRequest heap request ≠ .media id data := by
  rcases handleIncomingKeyframeRequest_cases heap request peer with hnoop | ⟨out, -, -, -, heq⟩
  · rw [hnoop]
    exact fun he => by cases he
  · rw [heq]
    exact fun he => by cases he

/-- A packet the peer hands on is the one it is handling. -/
theorem handleOutput_media {heap : Heap} {now : Instant} {output : S.Output} {peer : Peer S}
    {id : PeerId} {data : S.Media} (h : (peer.handleOutput heap now output).1 = .media id data) :
    id = peer.id ∧ output = .event (.mediaData data) := by
  cases output with
  | transmit => cases h
  | timeout wake => cases h
  | event event =>
      cases event with
      | iceConnectionStateChange state => cases h
      | mediaAdded added => cases h
      | mediaData data' =>
          have hid := (handleMediaDataIn_handled now data' peer).id
          obtain ⟨rfl, rfl⟩ := Propagated.media.inj h
          exact ⟨hid, rfl⟩
      | keyframeRequest request =>
          exact absurd h (handleIncomingKeyframeRequest_ne_media heap request peer id data)
      | other => cases h

/-- A packet the peer hands on is one its `Rtc` has just reported. -/
theorem pollOutput_media {heap : Heap} {now : Instant} {peer : Peer S} {id : PeerId}
    {data : S.Media} (h : (peer.pollOutput heap now).1 = .media id data) :
    id = peer.id ∧ .polled (.event (.mediaData data)) ∈ (peer.pollOutput heap now).2.1.ops := by
  rcases pollOutput_cases heap now peer with ⟨-, heq⟩ | ⟨-, -, heq⟩ | ⟨-, -, output, rtc, -, heq⟩ |
    ⟨-, -, error, rtc, -, heq⟩
  · rw [heq] at h
    cases h
  · rw [heq] at h
    cases h
  · rw [heq] at h ⊢
    obtain ⟨rfl, rfl⟩ := handleOutput_media h
    obtain ⟨requests, hops, -⟩ := (handleOutput_handled heap now (.event (.mediaData data))
      (Peer.record (.polled (.event (.mediaData data)))
        { (peer.negotiateIfNeeded heap).2 with rtc := rtc })).ops
    refine ⟨id_eq_of_card (negotiateIfNeeded_quiet heap peer).card, ?_⟩
    rw [hops]
    exact List.mem_append_left _ (List.mem_append_right _ (List.mem_singleton.mpr rfl))
  · rw [heq] at h
    cases h

theorem drain_ops {clock : List Instant} {heap : Heap} {peer : Peer S} {drained : Drained S}
    (h : peer.drain clock heap = some drained) :
    (∃ ops, drained.peer.ops = peer.ops ++ ops ∧ ∀ op ∈ ops, op.IsPoll) ∧
      ∀ id data, .media id data ∈ drained.queue →
        id = peer.id ∧ .polled (.event (.mediaData data)) ∈ drained.peer.ops := by
  refine drain_rule (P := fun _ _ peer drained =>
    (∃ ops, drained.peer.ops = peer.ops ++ ops ∧ ∀ op ∈ ops, op.IsPoll) ∧
      ∀ id data, .media id data ∈ drained.queue →
        id = peer.id ∧ .polled (.event (.mediaData data)) ∈ drained.peer.ops)
    (fun _ _ _ _ => ⟨⟨[], by simp, by simp⟩, by simp⟩) ?asleep ?goesOn h
  case asleep =>
    intro now _ heap heap' wake peer peer' _ hp
    obtain ⟨ops, hops, hpoll⟩ := pollOutput_ops heap now peer
    rw [hp] at hops
    exact ⟨⟨ops, hops, hpoll⟩, by simp⟩
  case goesOn =>
    intro now _ heap heap' propagated peer peer' rest _ _ hp _ ih
    obtain ⟨ops, hops, hpoll⟩ := pollOutput_ops heap now peer
    have hid : peer'.id = peer.id := by
      simpa only [hp] using id_eq_of_card (pollOutput_polled heap now peer).card
    have hmedia := @pollOutput_media S heap now peer
    simp only [hp] at hops hmedia
    obtain ⟨⟨ops', hops', hpoll'⟩, hrestmedia⟩ := ih
    refine ⟨⟨ops ++ ops', by rw [hops', hops, List.append_assoc], fun op hop =>
      (List.mem_append.mp hop).elim (hpoll op) (hpoll' op)⟩, fun id data hmem => ?_⟩
    rcases List.mem_cons.mp hmem with heq | hmem
    · obtain ⟨rfl, hreported⟩ := hmedia heq.symm
      refine ⟨rfl, ?_⟩
      rw [hops']
      exact List.mem_append_left _ hreported
    · exact hid ▸ hrestmedia id data hmem

/-! ### Receiving -/

/-- What receiving can log: a subscription, a keyframe request, or a packet of
the peer whose event it is. -/
inductive Receives (propagated : Propagated S) : Op S → Prop
  | queuedOpen (id : PeerId) (track : TrackIn) (offering : Bool)
      (h : propagated = .trackOpen id track) : Receives propagated (.queuedOpen track offering)
  | wrote (mid : Mid) (origin : PeerId) (data : S.Media) (delivered : Bool)
      (h : propagated = .media origin data) :
      Receives propagated (.wrote mid origin data delivered)
  | requestedKeyframe (id publisher : PeerId) (request : KeyframeRequest) (mid : Mid)
      (h : propagated = .keyframeRequest id request publisher mid) :
      Receives propagated (.requestedKeyframe mid request.kind)

theorem receive_ops (heap : Heap) (propagated : Propagated S) (peer : Peer S) :
    ∃ ops, (peer.receive heap propagated).ops = peer.ops ++ ops ∧
      ∀ op ∈ ops, Receives propagated op := by
  have hnone : ∃ ops, peer.ops = peer.ops ++ ops ∧ ∀ op ∈ ops, Receives propagated op :=
    ⟨[], by simp, by simp⟩
  cases propagated with
  | noop | timeout => exact hnone
  | trackOpen id trackIn => exact ⟨[_], rfl, by simpa using .queuedOpen id trackIn _ rfl⟩
  | media origin data =>
      simp only [receive, forward]
      split
      · exact hnone
      · rename_i mid _
        repeat' split
        all_goals first
          | exact hnone
          | exact ⟨[_], rfl, by simpa using .wrote mid origin data _ rfl⟩
  | keyframeRequest id request publisher midIn =>
      simp only [receive, serveKeyframeRequest]
      repeat' split
      all_goals first
        | exact hnone
        | exact ⟨[_], rfl, by simpa using .requestedKeyframe id publisher request midIn rfl⟩

theorem foldl_receive_ops (heap : Heap) (queue : List (Propagated S)) (peer : Peer S) :
    ∃ ops, (queue.foldl (fun peer propagated => peer.receive heap propagated) peer).ops =
        peer.ops ++ ops ∧ ∀ op ∈ ops, ∃ propagated ∈ queue, Receives propagated op := by
  induction queue generalizing peer with
  | nil => exact ⟨[], by simp, by simp⟩
  | cons propagated queue ih =>
      obtain ⟨first, hfirst, hreceives⟩ := receive_ops heap propagated peer
      obtain ⟨ops, hops, hall⟩ := ih (peer.receive heap propagated)
      refine ⟨first ++ ops, by simp [hops, hfirst], fun op hop => ?_⟩
      rcases List.mem_append.mp hop with hop | hop
      · exact ⟨propagated, by simp, hreceives op hop⟩
      · obtain ⟨other, hother, hreceive⟩ := hall op hop
        exact ⟨other, List.mem_cons_of_mem _ hother, hreceive⟩

end Peer

end FerriteSfu
