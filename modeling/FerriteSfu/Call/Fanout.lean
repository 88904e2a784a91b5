import FerriteSfu.Call.Keyframes
import FerriteSfu.Call.Delivery
import FerriteSfu.Lib.Trace

/-!
What a pass makes of the packets its peers report.

All peers of a room are polled before anything is propagated, so a packet waits
in the queue of the room while subscriptions are made, keyframes are asked for
and other packets are written. An `Arrival` is the moment a packet is handed to
a subscriber, with the subscriber as it was then.
-/

namespace FerriteSfu

variable {S : Str0m} {config : Config} {name : String}

/-- The packet an entry reports. -/
def Op.packet : Op S → Option S.Media
  | .polled (.event (.mediaData data)) => some data
  | _ => none

/-- The packet an entry says was written for `origin`. -/
def Op.writtenFor (origin : PeerId) : Op S → Option S.Media
  | .wrote _ origin' data _ => if origin' = origin then some data else none
  | _ => none

/-- The packet in something a peer produced, with the peer. -/
def Propagated.packet : Propagated S → Option (PeerId × S.Media)
  | .media id data => some (id, data)
  | _ => none

namespace Peer

/-- The packets the peer has reported, in order. -/
def packets (peer : Peer S) : List S.Media := peer.ops.filterMap Op.packet

/-- What was written to the peer, in order. -/
def writes (peer : Peer S) : List (Op S) := peer.ops.filter Op.isWrote

/-! ### Polling -/

theorem packets_of_ops {peer peer' : Peer S} {ops : List (Op S)} (hops : peer'.ops = peer.ops ++ ops)
    (hquiet : ∀ op ∈ ops, op.packet = none) : peer'.packets = peer.packets := by
  rw [packets, hops, List.filterMap_append, List.filterMap_eq_nil_iff.mpr hquiet, List.append_nil]
  rfl

theorem handleOutput_packet (heap : Heap) (now : Instant) (output : S.Output) (peer : Peer S) :
    (peer.handleOutput heap now output).1.packet =
      (Op.polled output).packet.map fun data => (peer.id, data) := by
  cases output with
  | transmit | timeout => rfl
  | event event =>
      cases event with
      | iceConnectionStateChange | mediaAdded | other => rfl
      | mediaData data =>
          have hid := (handleMediaDataIn_handled now data peer).id
          exact congrArg (fun id => some (id, data)) hid
      | keyframeRequest request =>
          change (peer.handleIncomingKeyframeRequest heap request).packet = none
          rcases handleIncomingKeyframeRequest_cases heap request peer with heq | ⟨_, -, -, -, heq⟩ <;>
            rw [heq] <;> rfl

theorem negotiateIfNeeded_packets (heap : Heap) (peer : Peer S) :
    (peer.negotiateIfNeeded heap).2.packets = peer.packets := by
  obtain ⟨ops, hops, hnegotiation⟩ := negotiateIfNeeded_ops heap peer
  exact packets_of_ops hops fun op hop => by cases hnegotiation op hop <;> rfl

/-- One poll logs the packet it produces, and no other. -/
theorem pollOutput_packets (heap : Heap) (now : Instant) (peer : Peer S) :
    (peer.pollOutput heap now).2.1.packets = peer.packets ++
        ((peer.pollOutput heap now).1.packet.map Prod.snd).toList ∧
      ∀ packet ∈ (peer.pollOutput heap now).1.packet, packet.1 = peer.id := by
  have hneg := negotiateIfNeeded_packets heap peer
  rcases pollOutput_cases heap now peer with ⟨-, heq⟩ | ⟨-, -, heq⟩ | ⟨-, -, output, rtc, -, heq⟩ |
    ⟨-, -, error, rtc, -, heq⟩
  · rw [heq]
    exact ⟨(List.append_nil _).symm, by simp [Propagated.packet]⟩
  · rw [heq]
    exact ⟨hneg.trans (List.append_nil _).symm, by simp [Propagated.packet]⟩
  · rw [heq]
    let polled : Peer S := { (peer.negotiateIfNeeded heap).2 with rtc := rtc }
    obtain ⟨requests, hops, hrequests⟩ :=
      (handleOutput_handled heap now output (polled.record (.polled output))).ops
    have hhandled : ((polled.record (.polled output)).handleOutput heap now output).2.1.packets =
        (polled.record (.polled output)).packets := by
      refine packets_of_ops hops fun op hop => ?_
      obtain ⟨mid, kind, rfl⟩ := hrequests op hop
      rfl
    have hrecord : (polled.record (.polled output)).packets =
        peer.packets ++ (Op.polled output).packet.toList := by
      rw [← hneg, packets, record, List.filterMap_append, List.filterMap_cons_toList]
      simp [packets, polled]
    have hid : (polled.record (.polled output)).id = peer.id :=
      id_eq_of_card (negotiateIfNeeded_quiet heap peer).card
    rw [handleOutput_packet, hhandled, hrecord, hid]
    cases (Op.polled output).packet <;> simp
  · rw [heq]
    exact ⟨hneg.trans (List.append_nil _).symm, by simp [Propagated.packet]⟩

/-- What a drain logs is in its queue, in order. -/
theorem drain_packets {clock : List Instant} {heap : Heap} {peer : Peer S} {drained : Drained S}
    (h : peer.drain clock heap = some drained) :
    drained.peer.packets = peer.packets ++
        (drained.queue.filterMap Propagated.packet).map Prod.snd ∧
      ∀ packet ∈ drained.queue.filterMap Propagated.packet, packet.1 = peer.id := by
  refine drain_rule (P := fun _ _ peer drained =>
    drained.peer.packets = peer.packets ++
        (drained.queue.filterMap Propagated.packet).map Prod.snd ∧
      ∀ packet ∈ drained.queue.filterMap Propagated.packet, packet.1 = peer.id)
    (fun _ _ _ _ => by simp) ?asleep ?goesOn h
  case asleep =>
    intro now _ heap heap' wake peer peer' _ hp
    have hpolled := pollOutput_packets heap now peer
    rw [hp] at hpolled
    exact ⟨hpolled.1, by simp⟩
  case goesOn =>
    intro now _ heap heap' propagated peer peer' rest _ _ hp _ ih
    have hid := id_eq_of_card (pollOutput_polled heap now peer).card
    obtain ⟨hpackets, hown⟩ := pollOutput_packets heap now peer
    rw [hp] at hid hpackets hown
    obtain ⟨hall, horigin⟩ := ih
    rw [List.filterMap_cons_toList]
    refine ⟨?_, fun packet hpacket => ?_⟩
    · rw [hall, hpackets, List.map_append, List.append_assoc]
      cases propagated.packet <;> rfl
    · rcases List.mem_append.mp hpacket with hpacket | hpacket
      · exact hown packet (Option.mem_toList.mp hpacket)
      · exact (horigin packet hpacket).trans hid

end Peer

/-- The packets of a queue, each with the peer that reported it. -/
def queued (queue : List (Propagated S)) : List (PeerId × S.Media) :=
  queue.filterMap Propagated.packet

/-- Of the packets of a queue, those the peer `id` reported. -/
def queuedBy (id : PeerId) (queue : List (Propagated S)) : List S.Media :=
  ((queued queue).filter fun packet => packet.1 = id).map Prod.snd

theorem queuedBy_append (id : PeerId) (queue queue' : List (Propagated S)) :
    queuedBy id (queue ++ queue') = queuedBy id queue ++ queuedBy id queue' := by
  simp [queuedBy, queued, List.filterMap_append]

theorem queuedBy_eq_nil {id : PeerId} {queue : List (Propagated S)}
    (h : ∀ packet ∈ queued queue, packet.1 ≠ id) : queuedBy id queue = [] := by
  rw [queuedBy, List.filter_eq_nil_iff.mpr (by simpa using h)]
  rfl

/-- What the peers of a room log while they are polled is in the queue of the room. -/
theorem drainPeers_packets {clock : ℕ → List Instant} {heap : Heap} {timeout : Instant}
    {peers : List (Peer S)} {drained : DrainedPeers S} (hids : (peers.map Peer.id).Nodup)
    (h : drainPeers clock heap timeout peers = some drained) :
    List.Forall₂ (fun peer peer' => peer'.id = peer.id ∧ peer'.writes = peer.writes ∧
        peer'.packets = peer.packets ++ queuedBy peer.id drained.queue) peers drained.peers ∧
      ∀ packet ∈ queued drained.queue, packet.1 ∈ peers.map Peer.id := by
  induction peers generalizing clock heap timeout drained with
  | nil =>
      cases h
      exact ⟨.nil, by simp [queued]⟩
  | cons peer peers ih =>
      obtain ⟨hnot, hnodup⟩ := List.nodup_cons.mp hids
      obtain ⟨first, rest, hfirst, hrest, rfl⟩ := drainPeers_cons h
      obtain ⟨hpackets, hown⟩ := Peer.drain_packets hfirst
      obtain ⟨hall, horigin⟩ := ih hnodup hrest
      have hmine : queuedBy peer.id first.queue = (queued first.queue).map Prod.snd := by
        rw [queuedBy, List.filter_eq_self.mpr fun packet hpacket => by simpa using hown packet hpacket]
      have hothers : queuedBy peer.id rest.queue = [] :=
        queuedBy_eq_nil fun packet hpacket he => hnot (he ▸ horigin packet hpacket)
      have hmembers : ∀ other ∈ peers, other.id ∈ peers.map Peer.id :=
        fun other hother => List.mem_map_of_mem hother
      refine ⟨.cons ⟨?_, ?_, ?_⟩ (((List.forall₂_and_left _ _).mpr ⟨hmembers, hall⟩).imp ?_),
        fun packet hpacket => ?_⟩
      · exact Peer.id_eq_of_card (Peer.drain_polled hfirst).card
      · obtain ⟨⟨ops, hops, hpoll⟩, -⟩ := Peer.drain_ops hfirst
        have hnone : ops.filter Op.isWrote = [] := List.filter_eq_nil_iff.mpr fun op hop => by
          rcases hpoll op hop with ⟨⟨⟩⟩ | _ | _ <;> simp [Op.isWrote]
        rw [Peer.writes, hops, List.filter_append, hnone, List.append_nil]
        rfl
      · rw [queuedBy_append, hmine, hothers, List.append_nil]
        exact hpackets
      · rintro other other' ⟨hmem, hid, hwrites, hlog⟩
        have hforeign : queuedBy other.id first.queue = [] :=
          queuedBy_eq_nil fun packet hpacket he => hnot (hown packet hpacket ▸ he ▸ hmem)
        exact ⟨hid, hwrites, by rw [queuedBy_append, hforeign, List.nil_append, hlog]⟩
      · rw [queued, List.filterMap_append] at hpacket
        rcases List.mem_append.mp hpacket with hpacket | hpacket
        · exact List.mem_cons.mpr (.inl (hown packet hpacket))
        · exact List.mem_cons_of_mem _ (horigin packet hpacket)

/-! ### Arrivals -/

/-- A packet, handed to a subscriber. -/
structure Arrival (S : Str0m) where
  origin : PeerId
  data : S.Media
  before : Peer S
  after : Peer S

/-- The arrival in a step of a subscriber through a queue, if it is one. -/
def Arrival.of (step : Lib.Step (Peer S) (Propagated S)) : Option (Arrival S) :=
  step.event.packet.map fun packet =>
    { origin := packet.1, data := packet.2, before := step.before, after := step.after }

namespace Peer

/-- The peer goes through a queue. -/
def handed (heap : Heap) (queue : List (Propagated S)) (peer : Peer S) :
    List (Lib.Step (Peer S) (Propagated S)) :=
  Lib.trace (fun peer propagated => peer.receive heap propagated) peer queue

/-- The packets the peer is handed on the way. -/
def arrivals (heap : Heap) (queue : List (Propagated S)) (peer : Peer S) : List (Arrival S) :=
  (peer.handed heap queue).filterMap Arrival.of

theorem mem_arrivals {heap : Heap} {queue : List (Propagated S)} {peer : Peer S}
    {arrival : Arrival S} (h : arrival ∈ peer.arrivals heap queue) :
    ∃ step ∈ peer.handed heap queue, step.event = .media arrival.origin arrival.data ∧
      step.before = arrival.before ∧ step.after = arrival.after := by
  obtain ⟨step, hstep, hof⟩ := List.mem_filterMap.mp h
  obtain ⟨packet, hpacket, rfl⟩ := Option.map_eq_some_iff.mp hof
  refine ⟨step, hstep, ?_, rfl, rfl⟩
  cases hevent : step.event <;> rw [hevent] at hpacket <;> cases hpacket
  rfl

/-- Each packet of the queue arrives once, in its turn. -/
theorem arrivals_packets (heap : Heap) (queue : List (Propagated S)) (peer : Peer S) :
    (peer.arrivals heap queue).map (fun arrival => (arrival.origin, arrival.data)) =
      queued queue := by
  have hof : ∀ step : Lib.Step (Peer S) (Propagated S),
      (Arrival.of step).map (fun arrival => (arrival.origin, arrival.data)) =
        step.event.packet := by
    intro step
    rw [Arrival.of, Option.map_map]
    exact Option.map_id_apply
  rw [Peer.arrivals, List.map_filterMap, List.filterMap_congr fun step _ => hof step, queued]
  have hevents := Lib.trace_events (f := fun (peer : Peer S) propagated =>
    peer.receive heap propagated) peer queue
  conv_rhs => rw [← hevents, List.filterMap_map]
  rfl

theorem receive_writes_prefix (heap : Heap) (propagated : Propagated S) (peer : Peer S) :
    peer.writes <+: (peer.receive heap propagated).writes := by
  obtain ⟨ops, hops, -⟩ := receive_ops heap propagated peer
  rw [writes, writes, hops, List.filter_append]
  exact List.prefix_append _ _

/-- Nothing but a packet is written. -/
theorem receive_writes (heap : Heap) {propagated : Propagated S} (h : propagated.packet = none)
    (peer : Peer S) : (peer.receive heap propagated).writes = peer.writes := by
  obtain ⟨ops, hops, hreceives⟩ := receive_ops heap propagated peer
  have hnone : ops.filter Op.isWrote = [] := by
    refine List.filter_eq_nil_iff.mpr fun op hop => ?_
    cases hreceives op hop with
    | queuedOpen | requestedKeyframe => simp [Op.isWrote]
    | wrote mid origin data delivered heq =>
        rw [heq] at h
        cases h
  rw [writes, hops, List.filter_append, hnone, List.append_nil]
  rfl

/-- What is written comes with an arrival. -/
theorem foldl_receive_writes (heap : Heap) (queue : List (Propagated S)) (peer : Peer S) :
    (queue.foldl (fun peer propagated => peer.receive heap propagated) peer).writes =
      peer.writes ++ (peer.arrivals heap queue).flatMap fun arrival =>
        arrival.after.writes.drop arrival.before.writes.length := by
  rw [Lib.foldl_log (fun peer propagated => receive_writes_prefix heap propagated peer),
    arrivals, List.filterMap_eq_flatMap_toList, List.flatMap_assoc]
  congr 1
  refine List.flatMap_congr fun step hstep => ?_
  cases hpacket : step.event.packet with
  | some packet => simp [Arrival.of, hpacket]
  | none =>
      rw [Lib.trace_after hstep, receive_writes heap hpacket, List.drop_length]
      simp [Arrival.of, hpacket]

/-- The peer once the packet was written to it, with the result of that. -/
def written (mid : Mid) (origin : PeerId) (data : S.Media) (result : Except String Unit × S.Rtc)
    (peer : Peer S) : Peer S :=
  match result with
  | (.ok _, rtc) => { peer with rtc := rtc }.record (.wrote mid origin data true)
  | (.error _, rtc) => { peer with rtc := S.disconnect rtc }.record (.wrote mid origin data false)

end Peer

/-- What becomes of a packet that has arrived. -/
structure Arrival.Handed (heap : Heap) (arrival : Arrival S) : Prop where
  /-- It is written at most once. -/
  once : arrival.after.writes = arrival.before.writes ∨ ∃ mid delivered,
    arrival.after.writes =
      arrival.before.writes ++ [.wrote mid arrival.origin arrival.data delivered]
  /-- It is written as it is, with the times and the audio level of the publisher. -/
  written : ∀ mid writer pt,
    arrival.before.Carries heap arrival.origin arrival.data.mid mid →
    S.writer arrival.before.rtc mid = some writer →
    S.matchParams writer arrival.data.params = some pt →
    arrival.after = arrival.before.written mid arrival.origin arrival.data
      (S.write
        (match arrival.data.extVals.audioLevel with
          | some level => S.audioLevel writer level (arrival.data.extVals.voiceActivity.getD true)
          | none => writer)
        pt arrival.data.networkTime arrival.data.time arrival.data.data)
  /-- It is left where there is no m-line, no writer or no payload type for it. -/
  unwritten : (∀ mid writer,
    arrival.before.Carries heap arrival.origin arrival.data.mid mid →
    S.writer arrival.before.rtc mid = some writer →
    S.matchParams writer arrival.data.params = none) →
    arrival.after = arrival.before

namespace Peer

theorem forward_writes (heap : Heap) (origin : PeerId) (data : S.Media) (peer : Peer S) :
    (peer.forward heap origin data).writes = peer.writes ∨
      ∃ mid delivered, (peer.forward heap origin data).writes =
        peer.writes ++ [.wrote mid origin data delivered] := by
  unfold forward
  dsimp only
  repeat' split
  all_goals first
    | exact .inl rfl
    | exact .inr ⟨_, _, List.filter_append _ _⟩

/-- A subscriber with one subscription to each track of the publisher. -/
theorem forward_handed {heap heap' : Heap} {peer : Peer S} {origin : PeerId}
    (hheap : peer.Agrees heap heap')
    (hone : ((peer.refs.filter fun track => track.origin = origin).map TrackIn.mid).Nodup)
    (data : S.Media) :
    Arrival.Handed heap' ⟨origin, data, peer, peer.forward heap origin data⟩ where
  once := forward_writes heap origin data peer
  written mid writer pt hcarries hwriter hparams := by
    have hmid : peer.forwardMid heap origin data.mid = some mid :=
      (forwardMid_congr hheap origin data.mid).trans (hcarries.forwardMid hone)
    change _ = peer.written mid origin data
      (S.write (withAudioLevel data writer) pt data.networkTime data.time data.data)
    rcases hresult : S.write (withAudioLevel data writer) pt data.networkTime data.time data.data
      with ⟨_ | _, rtc⟩ <;>
      simp only [forward, hmid, hwriter, hparams, written, hresult]
  unwritten hnone := by
    simp only [forward]
    split
    · rfl
    · rename_i mid hmid
      have hcarries : peer.Carries heap' origin data.mid mid :=
        carries_of_forwardMid ((forwardMid_congr hheap origin data.mid).symm.trans hmid)
      split
      · rfl
      · rename_i writer hwriter
        rw [hnone mid writer hcarries hwriter]

theorem receiveAll_packets (heap : Heap) (queue : List (Propagated S)) (peer : Peer S) :
    (peer.receiveAll heap queue).packets = peer.packets := by
  obtain ⟨ops, hops, hreceives⟩ := foldl_receive_ops heap (peer.fromOthers queue) peer
  refine packets_of_ops hops fun op hop => ?_
  obtain ⟨propagated, -, hreceive⟩ := hreceives op hop
  cases hreceive <;> rfl

theorem mem_queued {queue : List (Propagated S)} {packet : PeerId × S.Media} :
    packet ∈ queued queue ↔ .media packet.1 packet.2 ∈ queue := by
  rw [queued, List.mem_filterMap]
  constructor
  · rintro ⟨propagated, hmem, hpacket⟩
    cases propagated <;> cases hpacket
    exact hmem
  · exact fun hmem => ⟨_, hmem, rfl⟩

/-- A peer hears all the others report. -/
theorem queuedBy_fromOthers {id : PeerId} {peer : Peer S} (hid : id ≠ peer.id)
    (queue : List (Propagated S)) : queuedBy id (peer.fromOthers queue) = queuedBy id queue := by
  unfold fromOthers
  induction queue with
  | nil => rfl
  | cons propagated queue ih =>
      have hcons : ∀ rest : List (Propagated S), queuedBy id (propagated :: rest) =
          queuedBy id [propagated] ++ queuedBy id rest := fun rest => queuedBy_append id [propagated] rest
      rw [List.filter_cons, hcons, ← ih]
      split
      · exact hcons _
      · rename_i hown
        have hnone : queuedBy id [propagated] = [] := by
          refine queuedBy_eq_nil fun packet hpacket he => hown ?_
          obtain rfl := List.mem_singleton.mp (mem_queued.mp hpacket)
          simp [Propagated.source, he, hid]
        rw [hnone, List.nil_append]

theorem arrivals_queuedBy (heap : Heap) (queue : List (Propagated S)) (id : PeerId)
    (peer : Peer S) :
    ((peer.arrivals heap queue).filter fun arrival => arrival.origin = id).map Arrival.data =
      queuedBy id queue := by
  rw [queuedBy, ← arrivals_packets heap queue peer, List.filter_map, List.map_map]
  rfl

/-- A peer is handed packets of the queue, and none of its own. -/
theorem arrivals_fromOthers {heap : Heap} {queue : List (Propagated S)} {peer : Peer S}
    {arrival : Arrival S} (h : arrival ∈ peer.arrivals heap (peer.fromOthers queue)) :
    arrival.origin ≠ peer.id ∧ (arrival.origin, arrival.data) ∈ queued queue := by
  have hpacket : (arrival.origin, arrival.data) ∈ queued (peer.fromOthers queue) := by
    rw [← arrivals_packets heap _ peer]
    exact List.mem_map_of_mem h
  obtain ⟨hqueue, hsource⟩ := List.mem_filter.mp (mem_queued.mp hpacket)
  refine ⟨fun he => ?_, mem_queued.mpr hqueue⟩
  simp [Propagated.source, he] at hsource

/-- A packet that arrives is forwarded, and no subscription is lost afterwards. -/
theorem arrivals_forward {heap : Heap} {queue : List (Propagated S)} {peer : Peer S}
    {arrival : Arrival S} (h : arrival ∈ peer.arrivals heap queue) :
    arrival.after = arrival.before.forward heap arrival.origin arrival.data ∧
      arrival.before.refs <+:
        (queue.foldl (fun peer propagated => peer.receive heap propagated) peer).refs := by
  obtain ⟨step, hstep, hevent, hbefore, hafter⟩ := mem_arrivals h
  have hgrow : ∀ (peer : Peer S) (propagated : Propagated S),
      peer.refs <+: (peer.receive heap propagated).refs := by
    intro peer propagated
    rw [(receive_frame heap propagated peer).2.2.1]
    exact List.prefix_append _ _
  have hbetween := Lib.trace_between (R := fun peer peer' : Peer S => peer.refs <+: peer'.refs)
    (fun peer => List.prefix_refl _) (fun _ _ _ h h' => h.trans h') hgrow hstep
  rw [← hbefore, ← hafter, Lib.trace_after hstep, hevent]
  exact ⟨rfl, hbetween.2⟩

/-- What holds of the subscriptions in the end decides every arrival. -/
theorem arrivals_handed {heap heap' : Heap} {queue : List (Propagated S)} {peer last : Peer S}
    (hlast : queue.foldl (fun peer propagated => peer.receive heap propagated) peer = last)
    (hheap : last.Agrees heap heap') {arrival : Arrival S}
    (harrival : arrival ∈ peer.arrivals heap queue)
    (hone : ((last.refs.filter fun track => track.origin = arrival.origin).map TrackIn.mid).Nodup) :
    arrival.Handed heap' := by
  obtain ⟨hafter, hrefs⟩ := arrivals_forward harrival
  rw [hlast] at hrefs
  have hforwarded : Arrival.Handed heap' ⟨arrival.origin, arrival.data, arrival.before,
      arrival.before.forward heap arrival.origin arrival.data⟩ :=
    forward_handed (fun track htrack => hheap track (hrefs.subset htrack))
      (((hrefs.sublist.filter _).map _).nodup hone) arrival.data
  rw [← hafter] at hforwarded
  exact hforwarded

end Peer

/-! ### A pass over a room -/

namespace Room

/-- The packets the peer `id` is handed in a pass over the room. -/
def arrivals (id : PeerId) (clock : ℕ → List Instant) (heap : Heap) (room : Room S) :
    List (Arrival S) :=
  ((drainPeers clock heap 0 room.peers).bind fun drained =>
    (drained.peers.find? fun peer => peer.id = id).map fun peer =>
      peer.arrivals drained.heap (peer.fromOthers drained.queue)).getD []

/-- What a pass that makes `room'` of the room, and `sub'` of its member `sub`,
does with the packets that arrive there. -/
structure FansOut (heap : Heap) (arrivals : List (Arrival S)) (room room' : Room S)
    (sub sub' : Peer S) : Prop where
  /-- Whatever another member reports arrives, once and in order. -/
  arrives : ∀ pub ∈ room.peers, ∀ pub' ∈ room'.peers, pub'.id = pub.id → pub.id ≠ sub.id →
    pub'.packets = pub.packets ++
      (arrivals.filter fun arrival => arrival.origin = pub.id).map Arrival.data
  /-- Nothing else arrives: neither what the subscriber itself reports, nor what is
  reported in another room. -/
  foreign : ∀ arrival ∈ arrivals, arrival.origin ≠ sub.id ∧ arrival.origin ∈ room.ids
  handed : ∀ arrival ∈ arrivals, arrival.Handed heap
  /-- All that is written is written for an arrival, in its turn. -/
  writes : sub'.writes = sub.writes ++ arrivals.flatMap fun arrival =>
    arrival.after.writes.drop arrival.before.writes.length
  inOrder : ∀ pub ∈ room.peers, ∀ pub' ∈ room'.peers, pub'.id = pub.id →
    ((sub'.writes.drop sub.writes.length).filterMap (Op.writtenFor pub.id)).Sublist
      (pub'.packets.drop pub.packets.length)

theorem inOrder_of_arrivals {heap : Heap} {arrivals : List (Arrival S)} (origin : PeerId)
    (hhanded : ∀ arrival ∈ arrivals, arrival.Handed heap) :
    ((arrivals.flatMap fun arrival => arrival.after.writes.drop
      arrival.before.writes.length).filterMap (Op.writtenFor origin)).Sublist
      ((arrivals.filter fun arrival => arrival.origin = origin).map Arrival.data) := by
  induction arrivals with
  | nil => exact .slnil
  | cons arrival arrivals ih =>
      have hrest := ih fun other hother => hhanded other (List.mem_cons_of_mem _ hother)
      rw [List.flatMap_cons, List.filterMap_append, List.filter_cons]
      rcases (hhanded arrival (List.mem_cons_self ..)).once with hnone | ⟨mid, delivered, hwrote⟩
      · rw [hnone, List.drop_length, List.filterMap_nil, List.nil_append]
        split
        · exact hrest.cons _
        · exact hrest
      · rw [hwrote, List.drop_left]
        by_cases horigin : arrival.origin = origin
        · simpa [Op.writtenFor, horigin] using hrest
        · simpa [Op.writtenFor, horigin] using hrest

/-- **A pass over a room fans out what its members report.** -/
theorem poll_fansOut {clock : ℕ → List Instant} {heap heap' : Heap} {room : Room S}
    {polled : PolledRoom S} (hids : room.ids.Nodup) (hpoll : room.poll clock heap 0 = some polled)
    (hheap : ∀ sub ∈ polled.room.peers, sub.Agrees polled.heap heap')
    (hone : ∀ sub ∈ polled.room.peers, ∀ id ∈ room.ids,
      ((sub.refs.filter fun track => track.origin = id).map TrackIn.mid).Nodup)
    {sub sub' : Peer S} (hsub : sub ∈ room.peers) (hsub' : sub' ∈ polled.room.peers)
    (hid : sub'.id = sub.id) :
    FansOut heap' (room.arrivals sub.id clock heap) room polled.room sub sub' := by
  obtain ⟨drained, hdrained, rfl⟩ := Option.map_eq_some_iff.mp hpoll
  obtain ⟨hall, hqueued⟩ := drainPeers_packets hids hdrained
  simp only [propagateAll_eq] at hheap hone hsub' ⊢
  -- Every member goes from the pass over its own instance to the replay of the queue.
  have hstages : ∀ peer ∈ room.peers,
      ∀ peer' ∈ drained.peers.map (Peer.receiveAll drained.heap drained.queue), peer'.id = peer.id →
        ∃ middle ∈ drained.peers, peer' = middle.receiveAll drained.heap drained.queue ∧
          middle.id = peer.id ∧ middle.writes = peer.writes ∧
          middle.packets = peer.packets ++ queuedBy peer.id drained.queue := by
    intro peer hpeer peer' hpeer' hsame
    obtain ⟨middle, hmiddle, rfl⟩ := List.mem_map.mp hpeer'
    obtain ⟨old, hold, hmid, hwrites, hpackets⟩ := hall.exists_left hmiddle
    rw [Call.Delivered.receiveAll_id, hmid] at hsame
    obtain rfl := List.eq_of_map_eq hids hold hpeer hsame
    exact ⟨middle, hmiddle, rfl, hmid, hwrites, hpackets⟩
  obtain ⟨middle, hmiddle, rfl, hmid, hwrites, -⟩ := hstages sub hsub sub' hsub' hid
  have hids' : (drained.peers.map Peer.id).Nodup := by
    rw [hall.map_eq fun _ _ hrel => hrel.1]
    exact hids
  have harrivals : room.arrivals sub.id clock heap =
      middle.arrivals drained.heap (middle.fromOthers drained.queue) := by
    rw [arrivals, hdrained, Option.bind_some,
      (List.find?_key_eq_some hids').mpr ⟨hmiddle, hmid⟩]
    rfl
  rw [harrivals]
  have harrives : ∀ pub ∈ room.peers,
      ∀ pub' ∈ drained.peers.map (Peer.receiveAll drained.heap drained.queue), pub'.id = pub.id →
        pub.id ≠ sub.id → pub'.packets = pub.packets ++
          ((middle.arrivals drained.heap (middle.fromOthers drained.queue)).filter
            fun arrival => arrival.origin = pub.id).map Arrival.data := by
    intro pub hpub pub' hpub' hsame hne
    obtain ⟨reporter, -, rfl, -, -, hpackets⟩ := hstages pub hpub pub' hpub' hsame
    rw [Peer.receiveAll_packets, hpackets, Peer.arrivals_queuedBy,
      Peer.queuedBy_fromOthers (hmid ▸ hne)]
  have hforeign : ∀ arrival ∈ middle.arrivals drained.heap (middle.fromOthers drained.queue),
      arrival.origin ≠ sub.id ∧ arrival.origin ∈ room.ids := by
    intro arrival harrival
    obtain ⟨hne, hmem⟩ := Peer.arrivals_fromOthers harrival
    exact ⟨hmid ▸ hne, hqueued _ hmem⟩
  have hwritten : (middle.receiveAll drained.heap drained.queue).writes = sub.writes ++
      (middle.arrivals drained.heap (middle.fromOthers drained.queue)).flatMap fun arrival =>
        arrival.after.writes.drop arrival.before.writes.length := by
    rw [← hwrites]
    exact Peer.foldl_receive_writes drained.heap _ middle
  have hhanded : ∀ arrival ∈ middle.arrivals drained.heap (middle.fromOthers drained.queue),
      arrival.Handed heap' :=
    fun arrival harrival => Peer.arrivals_handed rfl (hheap _ hsub') harrival
      (hone _ hsub' _ (hforeign arrival harrival).2)
  refine ⟨harrives, hforeign, hhanded, hwritten, fun pub hpub pub' hpub' hsame => ?inOrder⟩
  case inOrder =>
    rw [hwritten, List.drop_left]
    refine (inOrder_of_arrivals pub.id hhanded).trans ?_
    by_cases hown : pub.id = sub.id
    · -- What the subscriber itself reports does not arrive.
      rw [List.filter_eq_nil_iff.mpr fun arrival harrival he =>
        (hforeign arrival harrival).1 ((of_decide_eq_true he).trans hown)]
      exact List.nil_sublist _
    · rw [harrives pub hpub pub' hpub' hsame hown, List.drop_left]

end Room

end FerriteSfu
