import FerriteSfu.Sfu.Frame

/-!
One pass over a room, peer by peer.

Propagation runs after every peer of the room was polled, and it treats the
peers independently of one another. So a pass amounts to a queue of events and,
for each peer, polling followed by what that peer makes of the events of the
others. `poll_pass` says so for the tracks; `poll_congr` says that a pass looks
at the heap only where some subscription of the room points.
-/

namespace FerriteSfu

variable {S : Str0m}

namespace Peer

/-- The part of a queue that concerns a peer. -/
def fromOthers (queue : List (Propagated S)) (peer : Peer S) : List (Propagated S) :=
  queue.filter fun propagated => propagated.source ≠ some peer.id

/-- What one peer makes of a queue of events of its room. -/
def receiveAll (heap : Heap) (queue : List (Propagated S)) (peer : Peer S) : Peer S :=
  (peer.fromOthers queue).foldl (fun peer propagated => peer.receive heap propagated) peer

theorem receive_of_source_none (heap : Heap) {propagated : Propagated S} (peer : Peer S)
    (h : propagated.source = none) : peer.receive heap propagated = peer := by
  cases propagated <;> simp_all [Propagated.source, receive]

theorem receive_id (heap : Heap) (propagated : Propagated S) (peer : Peer S) :
    (peer.receive heap propagated).id = peer.id :=
  id_eq_of_card (receive_frame heap propagated peer).1

theorem foldl_receive_frame (heap : Heap) (queue : List (Propagated S)) (peer : Peer S) :
    let peer' := queue.foldl (fun peer propagated => peer.receive heap propagated) peer
    peer'.card = peer.card ∧ peer'.tracks = peer.tracks ∧ peer'.refs = peer.refs ++ opens queue ∧
      SameRoster peer.out peer'.out := by
  induction queue generalizing peer with
  | nil => exact ⟨rfl, rfl, by simp, .refl _⟩
  | cons propagated queue ih =>
      obtain ⟨hcard, htracks, hrefs, hout⟩ := receive_frame heap propagated peer
      obtain ⟨hcard', htracks', hrefs', hout'⟩ := ih (peer.receive heap propagated)
      simp only [List.foldl_cons]
      refine ⟨hcard'.trans hcard, htracks'.trans htracks, ?_, hout.trans hout'⟩
      rw [hrefs', hrefs, List.append_assoc, ← opens_cons]

end Peer

/-- Events that open a track come from the peer that publishes it. -/
def SelfOpened (queue : List (Propagated S)) : Prop :=
  ∀ propagated ∈ queue, ∀ track, propagated.opened = some track →
    propagated.source = some track.origin

/-- What a peer hears of are the tracks of others. -/
theorem SelfOpened.opens_filter {queue : List (Propagated S)} (h : SelfOpened queue)
    (id : PeerId) :
    opens (queue.filter fun propagated => propagated.source ≠ some id) =
      (opens queue).filter fun track => track.origin ≠ id := by
  induction queue with
  | nil => rfl
  | cons propagated queue ih =>
      have hrest : SelfOpened queue := fun p hp => h p (by simp [hp])
      have hhead := h propagated (by simp)
      rw [opens_cons, List.filter_append, ← ih hrest, List.filter_cons]
      cases hopened : propagated.opened with
      | none =>
          have hnil : opens [propagated] = [] := by simp [opens, hopened]
          split
          · rw [opens_cons, hnil]
            rfl
          · simp [hnil]
      | some track =>
          have hone : opens [propagated] = [track] := by simp [opens, hopened]
          simp only [hhead track hopened, ne_eq, Option.some.injEq]
          by_cases ho : track.origin = id
          · simp [ho, hone]
          · simp only [ho, not_false_eq_true, decide_true, if_true]
            rw [opens_cons, hone]
            simp [ho]

theorem Peer.Polled.selfOpened {heap heap' : Heap} {peer peer' : Peer S}
    {queue : List (Propagated S)} (h : Peer.Polled heap peer queue peer' heap') :
    SelfOpened queue := by
  intro propagated hmem track hopened
  have horigin : track.origin = peer.id :=
    h.origin track (List.mem_filterMap.mpr ⟨propagated, hmem, hopened⟩)
  rcases h.source propagated hmem with hnone | hsome
  · cases propagated <;> simp_all [Propagated.opened, Propagated.source]
  · rw [hsome, horigin]

/-- What a pass that opens `opened` does to one peer. -/
structure Peer.Passed (opened : List TrackIn) (peer peer' : Peer S) : Prop where
  card : peer'.card = peer.card
  tracks : peer'.tracks = peer.tracks ++ opened.filter fun track => track.origin = peer.id
  refs : peer'.refs = peer.refs ++ opened.filter fun track => track.origin ≠ peer.id
  out : SameRoster peer.out peer'.out

theorem Peer.passed_ids {opened : List TrackIn} {peers peers' : List (Peer S)}
    (h : List.Forall₂ (Peer.Passed opened) peers peers') :
    peers'.map Peer.id = peers.map Peer.id :=
  h.map_eq fun _ _ hpassed => Peer.id_eq_of_card hpassed.card

/-! ### The loop over the peers -/

theorem drainPeers_polled {clock : ℕ → List Instant} {heap : Heap} {timeout : Instant}
    {peers : List (Peer S)} {drained : DrainedPeers S}
    (hids : (peers.map Peer.id).Nodup) (h : drainPeers clock heap timeout peers = some drained) :
    drained.heap = heap ++ opens drained.queue ∧ SelfOpened drained.queue ∧
      (∀ track ∈ opens drained.queue, ∃ peer ∈ peers, peer.id = track.origin) ∧
      List.Forall₂ (fun peer peer' => ∃ queue heap heap', Peer.Polled heap peer queue peer' heap' ∧
        opens queue = (opens drained.queue).filter fun track => track.origin = peer.id)
        peers drained.peers := by
  induction peers generalizing clock heap timeout drained with
  | nil =>
      cases h
      exact ⟨by simp, by simp [SelfOpened], by simp, .nil⟩
  | cons peer peers ih =>
      obtain ⟨hnot, hids⟩ := List.nodup_cons.mp hids
      obtain ⟨first, rest, hfirst, hrest, rfl⟩ := drainPeers_cons h
      have hpolled := Peer.drain_polled hfirst
      obtain ⟨hheap, hself, horigin, hall⟩ := ih hids hrest
      -- A peer opens tracks of its own only, and the peers that follow are other peers.
      have hother : ∀ track ∈ opens rest.queue, track.origin ≠ peer.id := by
        intro track hmem he
        obtain ⟨p, hp, hpid⟩ := horigin track hmem
        exact hnot (List.mem_map.mpr ⟨p, hp, hpid.trans he⟩)
      refine ⟨?_, ?_, ?_, .cons ⟨first.queue, heap, first.heap, hpolled, ?_⟩ ?_⟩
      · simp [hheap, hpolled.heap]
      · intro propagated hmem
        exact (List.mem_append.mp hmem).elim (hpolled.selfOpened propagated) (hself propagated)
      · intro track hmem
        rw [opens_append] at hmem
        rcases List.mem_append.mp hmem with hmem | hmem
        · exact ⟨peer, by simp, (hpolled.origin track hmem).symm⟩
        · obtain ⟨p, hp, hpid⟩ := horigin track hmem
          exact ⟨p, by simp [hp], hpid⟩
      · have hown : (opens first.queue).filter (fun track => track.origin = peer.id) =
            opens first.queue :=
          List.filter_eq_self.mpr fun track hmem => by simpa using hpolled.origin track hmem
        have hnone : (opens rest.queue).filter (fun track => track.origin = peer.id) = [] :=
          List.filter_eq_nil_iff.mpr fun track hmem => by simpa using hother track hmem
        rw [opens_append, List.filter_append, hown, hnone, List.append_nil]
      · have hne : ∀ p ∈ peers, p.id ≠ peer.id :=
          fun p hp he => hnot (he ▸ List.mem_map_of_mem hp)
        refine ((List.forall₂_and_left _ _).mpr ⟨hne, hall⟩).imp fun p p' hrel => ?_
        obtain ⟨hne, queue, heap₁, heap₂, hq, hopens⟩ := hrel
        refine ⟨queue, heap₁, heap₂, hq, ?_⟩
        have hnone : (opens first.queue).filter (fun track => track.origin = p.id) = [] := by
          refine List.filter_eq_nil_iff.mpr fun track hmem => ?_
          simpa [hpolled.origin track hmem] using hne.symm
        rw [hopens, opens_append, List.filter_append, hnone, List.nil_append]

namespace Room

theorem propagateAll_eq (heap : Heap) (queue : List (Propagated S)) (room : Room S) :
    room.propagateAll heap queue =
      { room with peers := room.peers.map (Peer.receiveAll heap queue) } := by
  unfold propagateAll
  induction queue generalizing room with
  | nil =>
      have hid : (Peer.receiveAll heap ([] : List (Propagated S))) = id := rfl
      simp [hid]
  | cons propagated queue ih =>
      simp only [List.foldl_cons]
      rw [ih, propagate]
      cases hsource : propagated.source with
      | none =>
          simp only [Room.mk.injEq, true_and, and_true]
          refine List.map_congr_left fun peer _ => ?_
          simp [Peer.receiveAll, Peer.fromOthers, hsource,
            Peer.receive_of_source_none heap peer hsource]
      | some origin =>
          simp only [List.map_map, Room.mk.injEq, true_and, and_true]
          refine List.map_congr_left fun peer _ => ?_
          by_cases ho : peer.id = origin
          · simp [Peer.receiveAll, Peer.fromOthers, hsource, ho]
          · have hne : origin ≠ peer.id := fun he => ho he.symm
            simp [Peer.receiveAll, Peer.fromOthers, hsource, ho, hne, Peer.receive_id]

/-- **One pass over a room.** -/
theorem poll_pass {clock : ℕ → List Instant} {heap : Heap} {timeout : Instant} {room : Room S}
    {next : PolledRoom S} (hids : (room.peers.map Peer.id).Nodup)
    (h : room.poll clock heap timeout = some next) :
    ∃ opened, next.heap = heap ++ opened ∧
      (∀ track ∈ opened, ∃ peer ∈ room.peers, peer.id = track.origin) ∧
      next.room.callId = room.callId ∧ next.room.speaking = room.speaking ∧
      List.Forall₂ (Peer.Passed opened) room.peers next.room.peers := by
  obtain ⟨drained, hdrained, rfl⟩ := Option.map_eq_some_iff.mp h
  obtain ⟨hheap, hself, horigin, hall⟩ := drainPeers_polled hids hdrained
  refine ⟨opens drained.queue, hheap, horigin, ?_, ?_, ?_⟩
  · simp [propagateAll_eq]
  · simp [propagateAll_eq]
  · simp only [propagateAll_eq, List.forall₂_map_right_iff]
    refine hall.imp fun peer peer' hrel => ?_
    obtain ⟨queue, heap₁, heap₂, hpolled, hopens⟩ := hrel
    have hid : peer'.id = peer.id := Peer.id_eq_of_card hpolled.card
    obtain ⟨hcard, htracks, hrefs, hout⟩ :=
      Peer.foldl_receive_frame drained.heap
        (drained.queue.filter fun propagated => propagated.source ≠ some peer'.id) peer'
    refine ⟨hcard.trans hpolled.card, ?_, ?_, hpolled.out.trans hout⟩
    · exact htracks.trans (by rw [hpolled.tracks, hopens])
    · refine hrefs.trans ?_
      rw [hpolled.refs, hself.opens_filter, hid]

end Room

/-! ### Where a pass looks at the heap -/

namespace Peer

/-- The two heaps agree wherever a subscription of the peer points. -/
def Agrees (heap heap' : Heap) (peer : Peer S) : Prop :=
  ∀ track ∈ peer.refs, track ∈ heap ↔ track ∈ heap'

theorem Agrees.upgrade {heap heap' : Heap} {peer : Peer S} (h : peer.Agrees heap heap')
    {track : TrackOut} (hmem : track ∈ peer.tracksOut) :
    heap.upgrade track.trackIn = heap'.upgrade track.trackIn :=
  Heap.upgrade_congr (h _ (List.mem_map_of_mem hmem))

theorem Agrees.append {heap heap' : Heap} {peer peer' : Peer S} (h : peer.Agrees heap heap')
    (hrefs : peer'.refs = peer.refs) (tracks : List TrackIn) :
    peer'.Agrees (heap ++ tracks) (heap' ++ tracks) := by
  intro track hmem
  rw [hrefs] at hmem
  simp [h track hmem]

end Peer

theorem negotiateTracks_congr {heap heap' : Heap} {tracks : List TrackOut}
    (h : ∀ track ∈ tracks, heap.upgrade track.trackIn = heap'.upgrade track.trackIn)
    (change : S.SdpApi) :
    negotiateTracks heap change tracks = negotiateTracks heap' change tracks := by
  induction tracks generalizing change with
  | nil => rfl
  | cons track tracks ih =>
      have hhead : track.negotiate heap change = track.negotiate heap' change := by
        simp only [TrackOut.negotiate, h track (by simp)]
      simp only [negotiateTracks, hhead]
      rw [ih fun track' hmem => h track' (by simp [hmem])]

theorem trackMap_congr {heap heap' : Heap} {tracks : List TrackOut}
    (h : ∀ track ∈ tracks, heap.upgrade track.trackIn = heap'.upgrade track.trackIn) :
    trackMap heap tracks = trackMap heap' tracks :=
  List.filterMap_congr fun track hmem => by simp only [TrackOut.toMap, h track hmem]

namespace Peer

theorem negotiateIfNeeded_congr {heap heap' : Heap} {peer : Peer S}
    (h : peer.Agrees heap heap') :
    peer.negotiateIfNeeded heap = peer.negotiateIfNeeded heap' := by
  have hstop : peer.tracksOut.map (·.stopDead heap) = peer.tracksOut.map (·.stopDead heap') :=
    List.map_congr_left fun track hmem => by simp only [TrackOut.stopDead, h.upgrade hmem]
  have hup : ∀ track ∈ peer.tracksOut.map (·.stopDead heap'),
      heap.upgrade track.trackIn = heap'.upgrade track.trackIn := by
    intro track hmem
    obtain ⟨track', hmem', rfl⟩ := List.mem_map.mp hmem
    simpa using h.upgrade hmem'
  have hneg := negotiateTracks_congr hup (S.sdpApi peer.rtc)
  have hmap : trackMap heap (negotiateTracks heap' (S.sdpApi peer.rtc)
        (peer.tracksOut.map (·.stopDead heap'))).1 =
      trackMap heap' (negotiateTracks heap' (S.sdpApi peer.rtc)
        (peer.tracksOut.map (·.stopDead heap'))).1 := by
    refine trackMap_congr fun track hmem => ?_
    have href : track.trackIn ∈ (negotiateTracks heap' (S.sdpApi peer.rtc)
        (peer.tracksOut.map (·.stopDead heap'))).1.map (·.trackIn) := List.mem_map_of_mem hmem
    rw [negotiateTracks_trackIn] at href
    obtain ⟨track', hmem', heq⟩ := List.mem_map.mp href
    rw [← heq]
    exact hup track' hmem'
  simp only [negotiateIfNeeded, hstop, hneg, hmap]

theorem forwardMid_congr {heap heap' : Heap} {peer : Peer S} (h : peer.Agrees heap heap')
    (origin : PeerId) (mid : Mid) :
    peer.forwardMid heap origin mid = peer.forwardMid heap' origin mid := by
  unfold forwardMid
  congr 1
  exact List.find?_congr_of_mem fun track hmem => by rw [h.upgrade hmem]

theorem forward_congr {heap heap' : Heap} {peer : Peer S} (h : peer.Agrees heap heap')
    (origin : PeerId) (data : S.Media) :
    peer.forward heap origin data = peer.forward heap' origin data := by
  simp only [forward, forwardMid_congr h]

theorem handleIncomingKeyframeRequest_congr {heap heap' : Heap} {peer : Peer S}
    (h : peer.Agrees heap heap') (request : KeyframeRequest) :
    peer.handleIncomingKeyframeRequest heap request =
      peer.handleIncomingKeyframeRequest heap' request := by
  unfold handleIncomingKeyframeRequest
  split
  · rfl
  · rename_i hfind
    rw [h.upgrade (List.mem_of_find?_eq_some hfind)]

theorem handleOutput_congr {heap heap' : Heap} {peer : Peer S} (h : peer.Agrees heap heap')
    (now : Instant) (output : S.Output) :
    (peer.handleOutput heap now output).1 = (peer.handleOutput heap' now output).1 ∧
      (peer.handleOutput heap now output).2.1 = (peer.handleOutput heap' now output).2.1 := by
  cases output with
  | transmit => exact ⟨rfl, rfl⟩
  | timeout wake => exact ⟨rfl, rfl⟩
  | event event =>
      cases event with
      | iceConnectionStateChange state => exact ⟨rfl, rfl⟩
      | mediaAdded added => exact ⟨rfl, rfl⟩
      | mediaData data => exact ⟨rfl, rfl⟩
      | keyframeRequest request =>
          exact ⟨handleIncomingKeyframeRequest_congr h request, rfl⟩
      | other => exact ⟨rfl, rfl⟩

theorem pollOutput_congr {heap heap' : Heap} {peer : Peer S} (h : peer.Agrees heap heap')
    (now : Instant) :
    (peer.pollOutput heap now).1 = (peer.pollOutput heap' now).1 ∧
      (peer.pollOutput heap now).2.1 = (peer.pollOutput heap' now).2.1 := by
  have hquiet := negotiateIfNeeded_quiet heap' peer
  simp only [pollOutput, negotiateIfNeeded_congr h]
  split
  · exact ⟨rfl, rfl⟩
  · split
    · exact ⟨rfl, rfl⟩
    · rename_i peer' hneg
      rw [hneg] at hquiet
      split
      · refine handleOutput_congr ?_ now _
        intro track hmem
        exact h track (hquiet.refs ▸ hmem)
      · exact ⟨rfl, rfl⟩

theorem drain_congr {clock : List Instant} {heap heap' : Heap} {peer : Peer S}
    {drained : Drained S} (h : peer.Agrees heap heap')
    (hdrain : peer.drain clock heap = some drained) :
    ∃ drained', peer.drain clock heap' = some drained' ∧ drained'.queue = drained.queue ∧
      drained'.peer = drained.peer ∧ drained'.wake = drained.wake := by
  induction clock generalizing heap heap' peer drained with
  | nil =>
      rw [drain] at hdrain ⊢
      split at hdrain
      · rename_i hdead
        cases hdrain
        exact ⟨{ queue := [], peer := peer, heap := heap', wake := none }, by rw [if_pos hdead],
          rfl, rfl, rfl⟩
      · cases hdrain
  | cons now clock ih =>
      rw [drain] at hdrain ⊢
      split at hdrain
      · rename_i hdead
        cases hdrain
        exact ⟨{ queue := [], peer := peer, heap := heap', wake := none }, by rw [if_pos hdead],
          rfl, rfl, rfl⟩
      · rename_i halive
        rw [if_neg halive]
        have hpolled := pollOutput_polled heap now peer
        have hpolled' := pollOutput_polled heap' now peer
        obtain ⟨hfst, hsnd⟩ := pollOutput_congr h now
        generalize peer.pollOutput heap now = polled at hdrain hpolled hfst hsnd
        generalize peer.pollOutput heap' now = polled' at hpolled' hfst hsnd
        obtain ⟨propagated, peer₁, heap₁⟩ := polled
        obtain ⟨propagated', peer₁', heap₁'⟩ := polled'
        obtain rfl : propagated = propagated' := hfst
        obtain rfl : peer₁ = peer₁' := hsnd
        -- What a poll opens is the same in both heaps, so they still agree on the subscriptions.
        have hagrees : peer₁.Agrees heap₁ heap₁' := by
          have hheap : heap₁ = heap ++ opens [propagated] := hpolled.heap
          have hheap' : heap₁' = heap' ++ opens [propagated] := hpolled'.heap
          rw [hheap, hheap']
          exact h.append hpolled.refs _
        cases propagated with
        | timeout wake =>
            cases hdrain
            exact ⟨{ queue := [], peer := peer₁, heap := heap₁', wake := some wake }, rfl, rfl,
              rfl, rfl⟩
        | noop | trackOpen | media | keyframeRequest =>
            obtain ⟨rest, hrest, rfl⟩ := Option.map_eq_some_iff.mp hdrain
            obtain ⟨rest', hrest', hqueue, hsame⟩ := ih hagrees hrest
            exact ⟨_, Option.map_eq_some_iff.mpr ⟨rest', hrest', rfl⟩, by simp only [hqueue], hsame⟩

theorem receive_congr {heap heap' : Heap} {peer : Peer S} (h : peer.Agrees heap heap')
    (propagated : Propagated S) :
    peer.receive heap propagated = peer.receive heap' propagated := by
  cases propagated with
  | media id data => exact forward_congr h id data
  | noop | timeout | trackOpen | keyframeRequest => rfl

theorem foldl_receive_congr {heap heap' : Heap} {queue : List (Propagated S)} {peer : Peer S}
    (h : peer.Agrees heap heap') (hopens : ∀ track ∈ opens queue, track ∈ heap ↔ track ∈ heap') :
    queue.foldl (fun peer propagated => peer.receive heap propagated) peer =
      queue.foldl (fun peer propagated => peer.receive heap' propagated) peer := by
  induction queue generalizing peer with
  | nil => rfl
  | cons propagated queue ih =>
      simp only [List.foldl_cons]
      rw [opens_cons] at hopens
      rw [receive_congr h propagated]
      refine ih ?_ fun track hmem => hopens track (List.mem_append_right _ hmem)
      intro track hmem
      rw [(receive_frame heap' propagated peer).2.2.1] at hmem
      rcases List.mem_append.mp hmem with hmem | hmem
      · exact h track hmem
      · exact hopens track (List.mem_append_left _ hmem)

end Peer

theorem drainPeers_congr {clock : ℕ → List Instant} {heap heap' : Heap} {timeout : Instant}
    (timeout' : Instant) {peers : List (Peer S)} {drained : DrainedPeers S}
    (h : ∀ peer ∈ peers, peer.Agrees heap heap')
    (hdrain : drainPeers clock heap timeout peers = some drained) :
    ∃ drained', drainPeers clock heap' timeout' peers = some drained' ∧
      drained'.peers = drained.peers ∧ drained'.queue = drained.queue ∧
      (timeout ≤ timeout' → drained.timeout ≤ drained'.timeout) := by
  induction peers generalizing clock heap heap' timeout timeout' drained with
  | nil =>
      cases hdrain
      exact ⟨{ peers := [], queue := [], heap := heap', timeout := timeout' }, rfl, rfl, rfl, id⟩
  | cons peer peers ih =>
      obtain ⟨first, rest, hfirst, hrest, rfl⟩ := drainPeers_cons hdrain
      obtain ⟨first', hfirst', hqueue, hpeer, hwake⟩ := Peer.drain_congr (h peer (by simp)) hfirst
      have hagrees : ∀ peer' ∈ peers, peer'.Agrees first.heap first'.heap := by
        intro peer' hmem
        rw [(Peer.drain_polled hfirst).heap, (Peer.drain_polled hfirst').heap, hqueue]
        exact (h peer' (by simp [hmem])).append rfl _
      obtain ⟨rest', hrest', hpeers, hqueue', hlater⟩ :=
        ih ((first'.wake.map fun wake => min timeout' wake).getD timeout') hagrees hrest
      refine ⟨{ rest' with peers := first'.peer :: rest'.peers,
                           queue := first'.queue ++ rest'.queue }, ?_, ?_, ?_, fun hle => hlater ?_⟩
      · simp only [drainPeers, hfirst', Option.bind_some, hrest', Option.map_some]
      · simp [hpeer, hpeers]
      · simp [hqueue, hqueue']
      · rw [hwake]
        cases first.wake with
        | none => exact hle
        | some wake => exact le_min ((Nat.min_le_left _ _).trans hle) (Nat.min_le_right _ _)

/-- Heaps that agreed before the peers of a room were polled agree afterwards. -/
theorem drainPeers_agrees {clock : ℕ → List Instant} {heap heap' : Heap}
    {timeout timeout' : Instant} {peers : List (Peer S)} {drained drained' : DrainedPeers S}
    (hids : (peers.map Peer.id).Nodup) (h : ∀ peer ∈ peers, peer.Agrees heap heap')
    (hdrain : drainPeers clock heap timeout peers = some drained)
    (hdrain' : drainPeers clock heap' timeout' peers = some drained')
    (hqueue : drained'.queue = drained.queue) :
    (∀ peer ∈ drained.peers, peer.Agrees drained.heap drained'.heap) ∧
      ∀ peer : Peer S, ∀ track ∈ opens (peer.fromOthers drained.queue),
        track ∈ drained.heap ↔ track ∈ drained'.heap := by
  obtain ⟨hheap, -, -, hall⟩ := drainPeers_polled hids hdrain
  obtain ⟨hheap', -, -, -⟩ := drainPeers_polled hids hdrain'
  refine ⟨fun peer' hmem => ?_, fun peer track hmem => ?_⟩
  · obtain ⟨peer, hpeer, queue, heap₁, heap₂, hpolled, -⟩ := hall.exists_left hmem
    rw [hheap, hheap', hqueue]
    exact (h peer hpeer).append hpolled.refs _
  · have hopens : track ∈ opens drained.queue := by
      obtain ⟨propagated, hp, ho⟩ := List.mem_filterMap.mp hmem
      exact List.mem_filterMap.mpr ⟨propagated, List.mem_of_mem_filter hp, ho⟩
    simp [hheap, hheap', hqueue, hopens]

/-- A pass over a room looks at the heap only where its subscriptions point. -/
theorem Room.poll_congr {clock : ℕ → List Instant} {heap heap' : Heap} {timeout : Instant}
    (timeout' : Instant) {room : Room S} {next : PolledRoom S}
    (hids : (room.peers.map Peer.id).Nodup)
    (h : ∀ peer ∈ room.peers, peer.Agrees heap heap')
    (hpoll : room.poll clock heap timeout = some next) :
    ∃ next', room.poll clock heap' timeout' = some next' ∧ next'.room = next.room ∧
      (timeout ≤ timeout' → next.timeout ≤ next'.timeout) := by
  obtain ⟨drained, hdrained, rfl⟩ := Option.map_eq_some_iff.mp hpoll
  obtain ⟨drained', hdrained', hpeers, hqueue, hlater⟩ := drainPeers_congr timeout' h hdrained
  obtain ⟨hagrees, hopens⟩ := drainPeers_agrees hids h hdrained hdrained' hqueue
  refine ⟨_, by rw [poll, hdrained', Option.map_some], ?_, hlater⟩
  simp only [propagateAll_eq, hpeers, hqueue, Room.mk.injEq, true_and, and_true]
  refine List.map_congr_left fun peer hmem => ?_
  exact (Peer.foldl_receive_congr (hagrees peer hmem) (hopens peer)).symm

end FerriteSfu
