import FerriteSfu.Call.RoomRule

/-!
The two rules behind every statement about the peers of a call.

`PeersInvariant` is about the list of peers: it is `RoomInvariant` with the
effect of each operation on that list written out. `PeerInvariant` is the
special case of a predicate on one peer, stated over the operations on a peer
alone.
-/

namespace FerriteSfu

variable {S : Str0m} {config : Config} {name : String}

/-! ### Passes, peer by peer -/

/-- `heap'` is `heap` after peers among `ids` have opened more tracks. -/
structure Heap.Grown (ids : List PeerId) (heap heap' : Heap) : Prop where
  kept : heap ⊆ heap'
  origin : ∀ track ∈ heap', track ∈ heap ∨ track.origin ∈ ids

theorem Heap.Grown.refl (ids : List PeerId) (heap : Heap) : Heap.Grown ids heap heap :=
  ⟨List.Subset.refl heap, fun _ hmem => .inl hmem⟩

theorem Heap.Grown.polled {ids : List PeerId} {heap₀ heap heap' : Heap} {peer peer' : Peer S}
    {queue : List (Propagated S)} (h : Heap.Grown ids heap₀ heap)
    (hpolled : Peer.Polled heap peer queue peer' heap') (hid : peer.id ∈ ids) :
    Heap.Grown ids heap₀ heap' := by
  rw [hpolled.heap]
  refine ⟨List.Subset.trans h.kept (List.subset_append_left _ _), fun track hmem => ?_⟩
  rcases List.mem_append.mp hmem with hmem | hmem
  · exact h.origin track hmem
  · exact .inr (hpolled.origin track hmem ▸ hid)

theorem Peer.drain_induct {I : Peer S → Prop} {ids : List PeerId} {heap₀ : Heap}
    (hpoll : ∀ heap now (peer : Peer S), Heap.Grown ids heap₀ heap → peer.id ∈ ids → I peer →
      I (peer.pollOutput heap now).2.1)
    {clock : List Instant} {heap : Heap} {peer : Peer S} {drained : Drained S}
    (hheap : Heap.Grown ids heap₀ heap) (hid : peer.id ∈ ids) (h : I peer)
    (hdrain : peer.drain clock heap = some drained) : I drained.peer := by
  refine drain_rule (P := fun _ heap peer drained =>
    Heap.Grown ids heap₀ heap → peer.id ∈ ids → I peer → I drained.peer)
    (fun _ _ _ _ _ _ h => h) ?asleep ?goesOn hdrain hheap hid h
  case asleep =>
    intro now _ heap heap' wake peer peer' _ hp hheap hid h
    have hnext := hpoll heap now peer hheap hid h
    rwa [hp] at hnext
  case goesOn =>
    intro now _ heap heap' propagated peer peer' rest _ _ hp _ ih hheap hid h
    have hnext := hpoll heap now peer hheap hid h
    have hpolled := pollOutput_polled heap now peer
    simp only [hp] at hnext hpolled
    exact ih (hheap.polled hpolled hid) (id_eq_of_card hpolled.card ▸ hid) hnext

theorem drainPeers_forall {I : Peer S → Prop} {ids : List PeerId} {heap₀ : Heap}
    (hpoll : ∀ heap now (peer : Peer S), Heap.Grown ids heap₀ heap → peer.id ∈ ids → I peer →
      I (peer.pollOutput heap now).2.1)
    {clock : ℕ → List Instant} {heap : Heap} {timeout : Instant} {peers : List (Peer S)}
    {drained : DrainedPeers S} (hheap : Heap.Grown ids heap₀ heap)
    (hids : ∀ peer ∈ peers, peer.id ∈ ids) (h : ∀ peer ∈ peers, I peer)
    (hdrain : drainPeers clock heap timeout peers = some drained) :
    ∀ peer ∈ drained.peers, I peer := by
  induction peers generalizing clock heap timeout drained with
  | nil =>
      cases hdrain
      simp
  | cons peer peers ih =>
      obtain ⟨first, rest, hfirst, hrest, rfl⟩ := drainPeers_cons hdrain
      have hid := hids peer (by simp)
      have hgrown := hheap.polled (Peer.drain_polled hfirst) hid
      intro peer' hmem
      rcases List.mem_cons.mp hmem with rfl | hmem
      · exact Peer.drain_induct hpoll hheap hid (h peer (by simp)) hfirst
      · exact ih hgrown (fun other hother => hids other (by simp [hother]))
          (fun other hother => h other (by simp [hother])) hrest peer' hmem

/-- The tracks a pass over the peers opens are theirs. -/
theorem drainPeers_origins {ids : List PeerId} {clock : ℕ → List Instant} {heap : Heap}
    {timeout : Instant} {peers : List (Peer S)} {drained : DrainedPeers S}
    (hids : ∀ peer ∈ peers, peer.id ∈ ids)
    (hdrain : drainPeers clock heap timeout peers = some drained) :
    ∀ track ∈ opens drained.queue, track.origin ∈ ids := by
  induction peers generalizing clock heap timeout drained with
  | nil =>
      cases hdrain
      simp
  | cons peer peers ih =>
      obtain ⟨first, rest, hfirst, hrest, rfl⟩ := drainPeers_cons hdrain
      intro track hmem
      rw [opens_append] at hmem
      rcases List.mem_append.mp hmem with hmem | hmem
      · rw [(Peer.drain_polled hfirst).origin track hmem]
        exact hids peer (by simp)
      · exact ih (fun other hother => hids other (by simp [hother])) hrest track hmem

/-- What polling keeps, and then receiving keeps, a pass keeps. -/
theorem Room.poll_forall {I J : Peer S → Prop} {clock : ℕ → List Instant} {heap : Heap}
    {timeout : Instant} {room : Room S} {next : PolledRoom S}
    (hroom : room.poll clock heap timeout = some next) (h : ∀ peer ∈ room.peers, I peer)
    (hpoll : ∀ heap' now (peer : Peer S), Heap.Grown room.ids heap heap' → peer.id ∈ room.ids →
      I peer → I (peer.pollOutput heap' now).2.1)
    (hswitch : ∀ peer, I peer → J peer)
    (hreceive : ∀ heap' propagated (peer : Peer S),
      (∀ track ∈ opens [propagated], track.origin ∈ room.ids) → J peer →
      J (peer.receive heap' propagated)) :
    ∀ peer ∈ next.room.peers, J peer := by
  obtain ⟨drained, hdrain, rfl⟩ := Option.map_eq_some_iff.mp hroom
  have hids : ∀ peer ∈ room.peers, peer.id ∈ room.ids := fun peer hmem => List.mem_map_of_mem hmem
  have hall := drainPeers_forall hpoll (.refl room.ids heap) hids h hdrain
  have horigins := drainPeers_origins hids hdrain
  intro peer hmem
  simp only [propagateAll_eq] at hmem
  obtain ⟨peer', hmem', rfl⟩ := List.mem_map.mp hmem
  have hfold : ∀ (queue : List (Propagated S)) (peer : Peer S),
      (∀ track ∈ opens queue, track.origin ∈ room.ids) → J peer →
      J (queue.foldl (fun peer propagated => peer.receive drained.heap propagated) peer) := by
    intro queue
    induction queue with
    | nil => exact fun _ _ hpeer => hpeer
    | cons propagated queue ih =>
        intro peer hopens hpeer
        rw [opens_cons] at hopens
        exact ih _ (fun track hmem => hopens track (List.mem_append_right _ hmem))
          (hreceive _ _ _ (fun track hmem => hopens track (List.mem_append_left _ hmem)) hpeer)
  refine hfold _ _ (fun track hmem => horigins track ?_) (hswitch _ (hall peer' hmem'))
  exact (List.filter_sublist.filterMap _).subset hmem

/-! ### The peers of a call -/

namespace Call

/-- What a predicate on the next id and the peers has to survive, when the ids
below `low` have been handed out. Steps that a guard `ok` forbids need not be
survived. -/
structure PeersInvariantFrom (low : ℕ) (config : Config) (ok : Call S → CallEvent S → Prop)
    (P : ℕ → List (Peer S) → Prop) : Prop where
  empty : ∀ next, P next []
  later : ∀ next peers, P next peers → P (next + 1) peers
  leave : ∀ next (peers : List (Peer S)) (id : PeerId), (peers.map Peer.id).Nodup →
    P next peers →
    P next ((peers.filter fun peer => peer.id ≠ id).map (Peer.send (.peerLeft id.asString)))
  enter : ∀ (room : Room S) request seed offer next callId answer, low ≤ next → room.ids.Nodup →
    (∀ peer ∈ room.peers, peer.id.val < next) → P next room.peers →
    let peer := admitted config request seed offer ⟨next⟩
    P (next + 1) (room.peers.map (Peer.send (.peerJoined peer.info)) ++
      [room.welcome peer callId answer])
  answer : ∀ (call : Call S) id sdp answer, call.Numbered → ok call (.answer id sdp) →
    S.answerFromSdpString sdp = .ok answer → P call.nextPeer call.peers →
    P call.nextPeer (call.peers.map fun peer =>
      if peer.id = id then (peer.acceptAnswer answer).2 else peer)
  setState : ∀ next (peers : List (Peer S)) (id : PeerId) (muted screen : Bool),
    (peers.map Peer.id).Nodup → id ∈ peers.map Peer.id → P next peers →
    P next (peers.map fun peer => Peer.send (.peerState id.asString muted screen)
      (if peer.id = id then { peer with muted := muted, screen := screen } else peer))
  poll : ∀ (room : Room S) clock next polled, room.ids.Nodup →
    (∀ peer ∈ room.peers, peer.id.val < next) → P next room.peers →
    room.poll clock room.tracks 0 = some polled → P next polled.room.peers
  markReported : ∀ next (peers : List (Peer S)), P next peers →
    P next (peers.map fun peer => if peer.isArriving then { peer with reported := true } else peer)
  syncSpeaking : ∀ next (peers : List (Peer S)) speakers, P next peers →
    P next (peers.map (Peer.send (.speaking speakers)))
  handleInput : ∀ next (peers : List (Peer S)) input, P next peers →
    P next (peers.updateFirst (Peer.accepts input) (Peer.handleInput input))
  advanceTime : ∀ next (peers : List (Peer S)) (now : Instant), P next peers →
    P next (peers.map (Peer.handleInput (.timeout now)))

abbrev PeersInvariant (config : Config) (ok : Call S → CallEvent S → Prop)
    (P : ℕ → List (Peer S) → Prop) : Prop :=
  PeersInvariantFrom 0 config ok P

variable {ok : Call S → CallEvent S → Prop}

namespace PeersInvariantFrom

variable {low : ℕ} {P : ℕ → List (Peer S) → Prop}

/-- A predicate on the peers is one on the room. -/
theorem toRoom (h : PeersInvariantFrom low config ok P) :
    RoomInvariantGiven config ok (fun next _ => low ≤ next) fun next room => P next room.peers where
  start next _ := h.empty next
  later next room hroom := h.later next room.peers hroom
  remove next room room' id peer hids _ hroom hremove := by
    obtain ⟨-, rfl⟩ := Room.remove_eq_some hids hremove
    exact h.leave next room.peers id hids hroom
  admitPeer room request seed offer next callId answer hids hfresh hlow hroom := by
    rw [Room.admit_eq hids _ (Room.next_not_mem hfresh)]
    exact h.enter room request seed offer next callId answer hlow hids hfresh hroom
  answer call room id sdp answer hroom hnum hok hparse _ hpeers := by
    have hids : room.ids.Nodup := by simpa [Room.ids, hroom] using hnum.ids
    rw [Room.updatePeer_peers hids]
    rw [← peers_of_room hroom] at hpeers ⊢
    exact h.answer call id sdp answer hnum hok hparse hpeers
  setState next room id peer muted screen hids hpeer hid _ hroom := by
    rw [Room.updatePeer_broadcast_peers hids]
    exact h.setState next room.peers id muted screen hids (hid ▸ List.mem_map_of_mem hpeer) hroom
  poll room clock next polled hids hfresh _ hroom hpolled :=
    h.poll room clock next polled hids hfresh hroom hpolled
  markReported next room _ hroom := h.markReported next room.peers hroom
  syncSpeaking next room now _ _ hroom := by
    rcases Room.syncSpeaking_cases now room with ⟨-, heq⟩ | ⟨-, heq⟩ <;> rw [heq]
    · exact hroom
    · exact h.syncSpeaking next room.peers _ hroom
  handleInput next room input _ hroom := h.handleInput next room.peers input hroom
  advanceTime next room now _ hroom := h.advanceTime next room.peers now hroom

theorem of_inRoom (h : PeersInvariantFrom low config ok P) {call : Call S}
    (hcall : call.InRoom fun next room => P next room.peers) : P call.nextPeer call.peers := by
  cases hroom : call.room with
  | none =>
      rw [peers_of_none hroom]
      exact h.empty _
  | some room =>
      rw [peers_of_room hroom]
      exact hcall room hroom

end PeersInvariantFrom

theorem PeersInvariant.toRoom {P : ℕ → List (Peer S) → Prop} (h : PeersInvariant config ok P) :
    RoomInvariant config ok fun next room => P next room.peers :=
  PeersInvariantFrom.toRoom h |>.weaken fun next _ _ => Nat.zero_le next

/-- **A predicate that survives every operation holds of the peers of every call.** -/
theorem PeersInvariant.holds {P : ℕ → List (Peer S) → Prop} (h : PeersInvariant config ok P)
    {call : Call S} (hcall : (machine S config name).ReachableVia ok call) :
    P call.nextPeer call.peers :=
  h.of_inRoom (h.toRoom.holds hcall)

/-! ### One peer of a call -/

/-- What a predicate on one peer has to survive while the peer is there. -/
structure PeerKept (ok : Call S → CallEvent S → Prop) (I : Peer S → Prop) : Prop where
  send : ∀ message (peer : Peer S), (∀ sdp tracks, message ≠ .offer sdp tracks) → I peer →
    I (peer.send message)
  subscribe : ∀ tracks (peer : Peer S), I peer → I (peer.subscribe tracks)
  flags : ∀ (muted screen reported : Bool) (peer : Peer S), I peer →
    I { peer with muted := muted, screen := screen, reported := reported }
  answer : ∀ (call : Call S) id sdp answer, ok call (.answer id sdp) →
    S.answerFromSdpString sdp = .ok answer → ∀ peer ∈ call.peers, peer.id = id → I peer →
    I (peer.acceptAnswer answer).2
  pollOutput : ∀ heap now (peer : Peer S), I peer → I (peer.pollOutput heap now).2.1
  receive : ∀ heap propagated (peer : Peer S), I peer → I (peer.receive heap propagated)
  handleInput : ∀ input (peer : Peer S), I peer → I (peer.handleInput input)

/-- What a predicate on one peer has to survive. -/
structure PeerInvariant (config : Config) (ok : Call S → CallEvent S → Prop)
    (I : Peer S → Prop) : Prop extends PeerKept ok I where
  start : ∀ request seed offer id, I (admitted config request seed offer id)

theorem PeerKept.toPeers {low : ℕ} {I : Peer S → Prop} (h : PeerKept ok I)
    (hstart : ∀ request seed offer id, low ≤ id.val →
      I (admitted config request seed offer id)) :
    PeersInvariantFrom low config ok fun _ peers => ∀ peer ∈ peers, I peer where
  empty _ := by simp
  later _ _ hpeers := hpeers
  leave next peers id _ hpeers peer hmem := by
    obtain ⟨peer', hmem', rfl⟩ := List.mem_map.mp hmem
    exact h.send _ _ (by simp) (hpeers peer' (List.mem_of_mem_filter hmem'))
  enter room request seed offer next callId answer hlow _ _ hpeers := by
    intro newcomer peer hmem
    rcases List.mem_append.mp hmem with hmem | hmem
    · obtain ⟨peer', hmem', rfl⟩ := List.mem_map.mp hmem
      exact h.send _ _ (by simp) (hpeers peer' hmem')
    · rw [List.mem_singleton.mp hmem]
      exact h.subscribe room.tracks _
        (h.send _ newcomer (by simp) (hstart request seed offer _ hlow))
  answer call id sdp answer _ hok hparse hpeers peer hmem := by
    obtain ⟨peer', hmem', rfl⟩ := List.mem_map.mp hmem
    split
    · rename_i hid
      exact h.answer call id sdp answer hok hparse peer' hmem' hid (hpeers peer' hmem')
    · exact hpeers peer' hmem'
  setState next peers id muted screen _ _ hpeers peer hmem := by
    obtain ⟨peer', hmem', rfl⟩ := List.mem_map.mp hmem
    refine h.send _ _ (by simp) ?_
    split
    · exact h.flags muted screen peer'.reported peer' (hpeers peer' hmem')
    · exact hpeers peer' hmem'
  poll room clock next polled _ _ hpeers hpolled :=
    Room.poll_forall hpolled hpeers (fun heap now peer _ _ => h.pollOutput heap now peer)
      (fun _ hpeer => hpeer) fun heap propagated peer _ => h.receive heap propagated peer
  markReported next peers hpeers peer hmem := by
    obtain ⟨peer', hmem', rfl⟩ := List.mem_map.mp hmem
    split
    · exact h.flags peer'.muted peer'.screen true peer' (hpeers peer' hmem')
    · exact hpeers peer' hmem'
  syncSpeaking next peers speakers hpeers peer hmem := by
    obtain ⟨peer', hmem', rfl⟩ := List.mem_map.mp hmem
    exact h.send _ _ (by simp) (hpeers peer' hmem')
  handleInput next peers input hpeers peer hmem := by
    have hall : List.Forall₂ (fun peer peer' : Peer S => I peer → I peer') peers
        (peers.updateFirst (Peer.accepts input) (Peer.handleInput input)) :=
      List.forall₂_updateFirst (fun _ _ hpeer => hpeer) fun peer _ _ => h.handleInput input peer
    obtain ⟨peer', hmem', himp⟩ := hall.exists_left hmem
    exact himp (hpeers peer' hmem')
  advanceTime next peers now hpeers peer hmem := by
    obtain ⟨peer', hmem', rfl⟩ := List.mem_map.mp hmem
    exact h.handleInput _ _ (hpeers peer' hmem')

/-- **A predicate that survives every operation on a peer holds of every peer.** -/
theorem PeerInvariant.holds {I : Peer S → Prop} (h : PeerInvariant config ok I) {call : Call S}
    (hcall : (machine S config name).ReachableVia ok call) : ∀ peer ∈ call.peers, I peer :=
  PeersInvariant.holds (h.toPeerKept.toPeers fun request seed offer id _ =>
    h.start request seed offer id) hcall

/-- A relation to some peer of which `B` is known. -/
theorem PeerKept.exists {B : Peer S → Prop} {R : Peer S → Peer S → Prop}
    (h : ∀ old, PeerKept ok (R old)) : PeerKept ok fun peer => ∃ old, B old ∧ R old peer where
  send message peer hoffer hpeer := by
    obtain ⟨old, hold, hrel⟩ := hpeer
    exact ⟨old, hold, (h old).send message peer hoffer hrel⟩
  subscribe tracks peer hpeer := by
    obtain ⟨old, hold, hrel⟩ := hpeer
    exact ⟨old, hold, (h old).subscribe tracks peer hrel⟩
  flags muted screen reported peer hpeer := by
    obtain ⟨old, hold, hrel⟩ := hpeer
    exact ⟨old, hold, (h old).flags muted screen reported peer hrel⟩
  answer call id sdp answer hok hparse peer hmem hid hpeer := by
    obtain ⟨old, hold, hrel⟩ := hpeer
    exact ⟨old, hold, (h old).answer call id sdp answer hok hparse peer hmem hid hrel⟩
  pollOutput heap now peer hpeer := by
    obtain ⟨old, hold, hrel⟩ := hpeer
    exact ⟨old, hold, (h old).pollOutput heap now peer hrel⟩
  receive heap propagated peer hpeer := by
    obtain ⟨old, hold, hrel⟩ := hpeer
    exact ⟨old, hold, (h old).receive heap propagated peer hrel⟩
  handleInput input peer hpeer := by
    obtain ⟨old, hold, hrel⟩ := hpeer
    exact ⟨old, hold, (h old).handleInput input peer hrel⟩

/-- Who is behind a peer after a step: one that was there, or one just admitted. -/
def Behind (config : Config) (call : Call S) (old : Peer S) : Prop :=
  old ∈ call.peers ∨ ∃ request seed offer id, call.nextPeer ≤ id.val ∧
    old = admitted config request seed offer id

/-- One step, for a relation that survives every operation on a peer. -/
theorem step_related {R : Peer S → Peer S → Prop} (hrefl : ∀ peer, R peer peer)
    (hkept : ∀ old, PeerKept ok (R old)) {call call' : Call S} (hnum : call.Numbered)
    {event : CallEvent S} (hok : ok call event)
    (hstep : call.step config name event = some call') :
    ∀ peer' ∈ call'.peers, ∃ old, call.Behind config old ∧ R old peer' := by
  have hpeers : PeersInvariantFrom call.nextPeer config ok fun _ (peers : List (Peer S)) =>
      ∀ peer' ∈ peers, ∃ old, call.Behind config old ∧ R old peer' :=
    (PeerKept.exists hkept).toPeers fun request seed offer id hlow =>
      ⟨_, .inr ⟨request, seed, offer, id, hlow, rfl⟩, hrefl _⟩
  refine hpeers.of_inRoom (hpeers.toRoom.step hnum (fun _ => le_refl _) ?_ hok hstep)
  intro room hroom peer hpeer
  rw [← peers_of_room hroom] at hpeer
  exact ⟨peer, .inl hpeer, hrefl peer⟩

/-! ### Steps that poll nobody -/

/-- What a relation of a peer to what becomes of it has to survive while nobody is
polled. -/
structure Unpolled (ok : Call S → CallEvent S → Prop) (R : Peer S → Peer S → Prop) : Prop where
  refl : ∀ peer, R peer peer
  trans : ∀ peer peer' peer'', R peer peer' → R peer' peer'' → R peer peer''
  send : ∀ message (peer : Peer S), R peer (peer.send message)
  flags : ∀ (muted screen reported : Bool) (peer : Peer S),
    R peer { peer with muted := muted, screen := screen, reported := reported }
  answer : ∀ (call : Call S) id sdp answer, ok call (.answer id sdp) →
    S.answerFromSdpString sdp = .ok answer → ∀ peer ∈ call.peers, peer.id = id →
    R peer (peer.acceptAnswer answer).2
  handleInput : ∀ input (peer : Peer S), R peer (peer.handleInput input)

/-- The peer is one that a join admits in the next step. -/
def Entrant (config : Config) (call : Call S) (peer : Peer S) : Prop :=
  ∃ (room : Room S) (request : JoinRequest) (seed : S.Seed) (offer : S.SdpOffer)
    (callId answer : String),
    peer = room.welcome (admitted config request seed offer ⟨call.nextPeer⟩) callId answer

namespace Unpolled

variable {R : Peer S → Peer S → Prop} {before : Call S}

/-- An operation on each of the peers. -/
theorem map (h : Unpolled ok R) {peers : List (Peer S)}
    (hpeers : ∀ peer ∈ peers, ∃ old ∈ before.peers, R old peer) {f : Peer S → Peer S}
    (hf : ∀ peer ∈ peers, R peer (f peer)) : ∀ peer' ∈ peers.map f, ∃ old ∈ before.peers, R old peer' := by
  intro peer' hpeer'
  obtain ⟨peer, hpeer, rfl⟩ := List.mem_map.mp hpeer'
  obtain ⟨old, hold, hrel⟩ := hpeers peer hpeer
  exact ⟨old, hold, h.trans _ _ _ hrel (hf peer hpeer)⟩

theorem toStep (h : Unpolled ok R) (before : Call S) :
    RoomStepUnpolled config ok before.nextPeer
      (fun room => ∀ peer ∈ room.peers, ∃ old ∈ before.peers, R old peer)
      fun _ room => ∀ peer ∈ room.peers,
        (∃ old ∈ before.peers, R old peer) ∨ before.Entrant config peer where
  start callId := fun _ hpeer => absurd hpeer List.not_mem_nil
  remove room room' id peer hids hroom hremove := by
    obtain ⟨-, rfl⟩ := Room.remove_eq_some hids hremove
    exact h.map (fun other hother => hroom other (List.mem_of_mem_filter hother))
      fun other _ => h.send _ other
  stay room hroom := fun peer hpeer => .inl (hroom peer hpeer)
  later room hroom := fun peer hpeer => .inl (hroom peer hpeer)
  admitPeer room request seed offer callId answer hids hfresh hroom := by
    rw [Room.admit_eq hids _ (Room.next_not_mem hfresh)]
    intro peer hpeer
    rcases List.mem_append.mp hpeer with hold | hnew
    · exact .inl (h.map hroom (fun other _ => h.send _ other) peer hold)
    · exact .inr ⟨room, request, seed, offer, callId, answer, List.mem_singleton.mp hnew⟩
  answer call room id sdp answer hnext hbefore hnum hok hparse hroom := by
    have hids : room.ids.Nodup := by simpa [Room.ids, hbefore] using hnum.ids
    rw [Room.updatePeer_peers hids]
    refine fun peer hpeer => .inl (h.map hroom (fun other hother => ?_) peer hpeer)
    split
    · rename_i hid
      exact h.answer call id sdp answer hok hparse other (peers_of_room hbefore ▸ hother) hid
    · exact h.refl other
  setState room id peer muted screen hids hpeer hid hroom := by
    rw [Room.updatePeer_broadcast_peers hids]
    refine fun peer hpeer => .inl (h.map hroom (fun other _ => ?_) peer hpeer)
    refine h.trans _ _ _ ?_ (h.send _ _)
    split
    · exact h.flags muted screen other.reported other
    · exact h.refl other
  markReported room hroom := by
    refine fun peer hpeer => .inl (h.map hroom (fun other _ => ?_) peer hpeer)
    split
    · exact h.flags other.muted other.screen true other
    · exact h.refl other
  syncSpeaking room now hids hroom := by
    rcases Room.syncSpeaking_cases now room with ⟨-, heq⟩ | ⟨-, heq⟩ <;> rw [heq]
    · exact fun peer hpeer => .inl (hroom peer hpeer)
    · exact fun peer hpeer => .inl (h.map hroom (fun other _ => h.send _ other) peer hpeer)
  handleInput room input hroom := by
    intro peer hpeer
    have hall : List.Forall₂ R room.peers
        (room.peers.updateFirst (Peer.accepts input) (Peer.handleInput input)) :=
      List.forall₂_updateFirst (fun other _ => h.refl other) fun other _ _ =>
        h.handleInput input other
    obtain ⟨other, hother, hrel⟩ := hall.exists_left hpeer
    obtain ⟨old, hold, hrel'⟩ := hroom other hother
    exact .inl ⟨old, hold, h.trans _ _ _ hrel' hrel⟩
  advanceTime room now hroom := fun peer hpeer =>
    .inl (h.map hroom (fun other _ => h.handleInput (.timeout now) other) peer hpeer)

/-- **One step that polls nobody.** Whoever is there afterwards was there before
and is related to what it was, or is a newcomer. -/
theorem step (h : Unpolled ok R) {call call' : Call S} (hnum : call.Numbered)
    {event : CallEvent S} (hpolled : ∀ clock, event ≠ .poll clock) (hok : ok call event)
    (hstep : call.step config name event = some call') :
    ∀ peer' ∈ call'.peers,
      (∃ peer ∈ call.peers, R peer peer') ∨ call.Entrant config peer' := by
  have hrule : RoomStepUnpolled config ok call.nextPeer _ _ := h.toStep call
  have hroom := hrule.step hnum
    (fun room hroom peer hpeer => ⟨peer, peers_of_room hroom ▸ hpeer, h.refl peer⟩) hpolled hok
    hstep
  intro peer' hpeer'
  cases hroom' : call'.room with
  | none => simp [peers_of_none hroom'] at hpeer'
  | some room' => exact hroom room' hroom' peer' (peers_of_room hroom' ▸ hpeer')

end Unpolled

end Call

end FerriteSfu
