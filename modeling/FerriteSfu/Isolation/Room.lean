import FerriteSfu.Isolation.Peer
import FerriteSfu.Sfu.Engine
import FerriteSfu.Lib.Sorted

/-!
What a room does, it does under any names.

Who is speaking is kept sorted by name and compared as a list, so for that the
room has to be in order to begin with.
-/

namespace FerriteSfu

variable {S : Str0m} {ρ : PeerId ↪ PeerId} (L : S.Relabel ρ)

/-! ### Polling -/

def Drained.rename (drained : Drained S) : Drained S where
  queue := drained.queue.map (Propagated.rename ρ)
  peer := drained.peer.rename L
  heap := drained.heap.rename ρ
  wake := drained.wake

def DrainedPeers.rename (drained : DrainedPeers S) : DrainedPeers S where
  peers := drained.peers.map (Peer.rename L)
  queue := drained.queue.map (Propagated.rename ρ)
  heap := drained.heap.rename ρ
  timeout := drained.timeout

def PolledRoom.rename (polled : PolledRoom S) : PolledRoom S where
  room := polled.room.rename L
  heap := polled.heap.rename ρ
  timeout := polled.timeout

theorem Peer.rename_drain (clock : List Instant) (heap : Heap) (peer : Peer S) :
    (peer.rename L).drain clock (heap.rename ρ) = (peer.drain clock heap).map (Drained.rename L) := by
  induction clock generalizing heap peer with
  | nil =>
      rw [drain, drain, rename_rtc, L.isAlive]
      split <;> rfl
  | cons now clock ih =>
      rw [drain, drain, rename_rtc, L.isAlive]
      split
      · rfl
      · simp only [rename_pollOutput]
        rcases peer.pollOutput heap now with ⟨propagated, peer', heap'⟩
        cases propagated with
        | timeout wake => rfl
        | noop | trackOpen | media | keyframeRequest =>
            dsimp only [Propagated.rename]
            rw [ih, Option.map_map, Option.map_map]
            rfl

theorem drainPeers_rename (clock : ℕ → List Instant) (heap : Heap) (timeout : Instant)
    (peers : List (Peer S)) :
    drainPeers clock (heap.rename ρ) timeout (peers.map (Peer.rename L)) =
      (drainPeers clock heap timeout peers).map (DrainedPeers.rename L) := by
  induction peers generalizing clock heap timeout with
  | nil => rfl
  | cons peer peers ih =>
      rw [List.map_cons, drainPeers, drainPeers, Peer.rename_drain]
      cases peer.drain (clock 0) heap with
      | none => rfl
      | some drained =>
          simp only [Option.map_some, Option.bind_some, Drained.rename, ih, Option.map_map]
          congr 1
          funext rest
          simp [DrainedPeers.rename]

theorem Propagated.rename_source (propagated : Propagated S) :
    (propagated.rename ρ).source = propagated.source.map ρ := by
  cases propagated <;> rfl

namespace Room

theorem rename_propagate (heap : Heap) (propagated : Propagated S) (room : Room S) :
    (room.rename L).propagate (heap.rename ρ) (propagated.rename ρ) =
      (room.propagate heap propagated).rename L := by
  unfold propagate
  rw [Propagated.rename_source]
  cases propagated.source with
  | none => rfl
  | some origin =>
      simp only [Option.map_some, Room.rename, List.map_map, Room.mk.injEq, true_and, and_true]
      refine List.map_congr_left fun peer _ => ?_
      simp only [Function.comp_apply, Peer.rename_id, ρ.injective.eq_iff]
      split
      · rfl
      · exact Peer.rename_receive L heap propagated peer

theorem rename_propagateAll (heap : Heap) (queue : List (Propagated S)) (room : Room S) :
    (room.rename L).propagateAll (heap.rename ρ) (queue.map (Propagated.rename ρ)) =
      (room.propagateAll heap queue).rename L := by
  unfold propagateAll
  induction queue generalizing room with
  | nil => rfl
  | cons propagated queue ih =>
      rw [List.map_cons, List.foldl_cons, List.foldl_cons, rename_propagate, ih]

theorem rename_poll (clock : ℕ → List Instant) (heap : Heap) (timeout : Instant) (room : Room S) :
    (room.rename L).poll clock (heap.rename ρ) timeout =
      (room.poll clock heap timeout).map (PolledRoom.rename L) := by
  have hdrain := drainPeers_rename L clock heap timeout room.peers
  unfold poll
  rw [Room.rename, hdrain, Option.map_map, Option.map_map]
  congr 1
  funext drained
  have hall := rename_propagateAll L drained.heap drained.queue { room with peers := drained.peers }
  simp only [Function.comp_apply, DrainedPeers.rename, PolledRoom.rename, PolledRoom.mk.injEq,
    and_true]
  exact hall

/-! ### Members -/

theorem rename_tracks (room : Room S) : (room.rename L).tracks = Heap.rename ρ room.tracks := by
  simp only [tracks, Room.rename, Heap.rename, List.flatMap_map, List.map_flatMap,
    Peer.rename_tracks]

theorem rename_roster (room : Room S) :
    (room.rename L).roster = room.roster.map (PeerInfo.rename ρ) := by
  simp [roster, Room.rename, Peer.rename_info, Function.comp_def]

theorem rename_broadcast (message : ServerMsg) (room : Room S) :
    (room.rename L).broadcast (message.rename L) = (room.broadcast message).rename L := by
  simp [broadcast, Room.rename, Peer.rename_send, Function.comp_def]

theorem rename_updatePeer (id : PeerId) {f g : Peer S → Peer S}
    (h : ∀ peer : Peer S, g (peer.rename L) = (f peer).rename L) (room : Room S) :
    (room.rename L).updatePeer (ρ id) g = (room.updatePeer id f).rename L := by
  simp only [updatePeer, Room.rename, Room.mk.injEq, true_and, and_true]
  exact List.updateFirst_map (by simp [ρ.injective.eq_iff]) h room.peers

theorem rename_find (id : PeerId) (room : Room S) :
    ((room.rename L).peers.find? fun peer => peer.id = ρ id) =
      (room.peers.find? fun peer => peer.id = id).map (Peer.rename L) := by
  have hsame : ((fun peer : Peer S => decide (peer.id = ρ id)) ∘ Peer.rename L) =
      fun peer => decide (peer.id = id) := by
    funext peer
    exact decide_eq_decide.mpr ρ.injective.eq_iff
  rw [Room.rename, List.find?_map, hsame]

theorem rename_remove (id : PeerId) (room : Room S) :
    (room.rename L).remove (ρ id) =
      (room.remove id).map (Prod.map (Peer.rename L) (Room.rename L)) := by
  have herase : ((room.peers.map (Peer.rename L)).eraseP fun peer => peer.id = ρ id) =
      (room.peers.eraseP fun peer => peer.id = id).map (Peer.rename L) := by
    simp [List.eraseP_map, Function.comp_def, ρ.injective.eq_iff]
  have hspeaking : ((room.speaking.map (renameText ρ)).insertionSort (· ≤ ·)).filter
        (fun entry => entry ≠ (ρ id).asString) =
      ((room.speaking.filter fun entry => entry ≠ id.asString).map
        (renameText ρ)).insertionSort (· ≤ ·) := by
    rw [List.filter_insertionSort, List.filter_map, ← renameText_asString]
    simp [Function.comp_def, (renameText_injective ρ).eq_iff]
  unfold remove
  rw [rename_find, Option.map_map, Option.map_map]
  congr 1
  funext peer
  simp only [Function.comp_apply, Prod.map, Prod.mk.injEq, true_and]
  rw [← rename_broadcast, ServerMsg.rename, renameText_asString]
  simp only [Room.rename, herase, hspeaking]

theorem rename_isEmpty (room : Room S) : (room.rename L).isEmpty = room.isEmpty := by
  simp [isEmpty, Room.rename]

theorem rename_retire (stale : List PeerId) (room : Room S) :
    (room.rename L).retire (stale.map ρ) =
      Prod.map (Room.rename L) (List.map (Peer.rename L)) (room.retire stale) := by
  induction stale generalizing room with
  | nil => rfl
  | cons old stale ih =>
      rw [List.map_cons, retire, retire, rename_remove]
      cases room.remove old with
      | none => exact ih room
      | some removed =>
          obtain ⟨previous, room'⟩ := removed
          simp only [Option.map_some, Prod.map, ih, List.map_cons, Peer.rename_send,
            Prod.mk.injEq, true_and, List.cons.injEq, and_true]
          simp [Peer.rename, L.disconnect, ServerMsg.rename, Peer.send]

theorem rename_subscribeToExisting (joining : PeerId) (room : Room S) :
    (room.rename L).subscribeToExisting (ρ joining) =
      (room.subscribeToExisting joining).rename L := by
  have hexisting : ((room.rename L).peers.filter fun peer => peer.id ≠ ρ joining).flatMap
      Peer.tracks = ((room.peers.filter fun peer => peer.id ≠ joining).flatMap Peer.tracks).map
        (TrackIn.rename ρ) := by
    simp only [Room.rename, List.filter_map, List.flatMap_map, List.map_flatMap,
      Peer.rename_tracks, Function.comp_def, Peer.rename_id, ne_eq, ρ.injective.eq_iff]
  unfold subscribeToExisting
  rw [hexisting]
  refine rename_updatePeer L joining (fun peer => ?_) room
  simp [Peer.rename, TrackOut.rename, Function.comp_def]

theorem rename_admitPeer (peer : Peer S) (callId answer : String) (room : Room S) :
    (room.rename L).admitPeer (peer.rename L) callId answer =
      (room.admitPeer peer callId answer).rename L := by
  have hsend : (peer.rename L).send (.joined (peer.rename L).id.asString callId answer
      (room.rename L).roster) =
      (peer.send (.joined peer.id.asString callId answer room.roster)).rename L := by
    rw [Peer.rename_send, ServerMsg.rename, rename_roster, renameText_asString]
    rfl
  have hnews : (room.rename L).broadcast (.peerJoined (peer.rename L).info) =
      (room.broadcast (.peerJoined peer.info)).rename L := by
    rw [← rename_broadcast, ServerMsg.rename, Peer.rename_info]
  unfold admitPeer
  dsimp only
  rw [hsend, hnews, Peer.rename_id, ← rename_subscribeToExisting]
  simp [Room.rename]

/-! ### Sweeps -/

/-- Who was last said to be speaking, in the order of the broadcast. -/
def InOrder (room : Room S) : Prop := room.speaking.Pairwise (· ≤ ·)

theorem rename_currentSpeakers (now : Instant) (room : Room S) :
    (room.rename L).currentSpeakers now =
      ((room.currentSpeakers now).map (renameText ρ)).insertionSort (· ≤ ·) := by
  unfold currentSpeakers
  rw [List.insertionSort_map_insertionSort]
  simp only [Room.rename, List.filter_map, List.map_map, Function.comp_def, Peer.rename_muted,
    Peer.rename_isSpeaking, Peer.rename_id, renameText_asString]

theorem rename_syncSpeaking (now : Instant) {room : Room S} (h : room.InOrder) :
    (room.rename L).syncSpeaking now = (room.syncSpeaking now).rename L := by
  have hsame : (room.rename L).currentSpeakers now = (room.rename L).speaking ↔
      room.currentSpeakers now = room.speaking := by
    rw [rename_currentSpeakers]
    exact List.insertionSort_map_inj (renameText_injective ρ)
      (List.pairwise_insertionSort _ _) h
  unfold syncSpeaking
  dsimp only
  by_cases hmoved : room.currentSpeakers now = room.speaking
  · rw [if_pos hmoved, if_pos (hsame.mpr hmoved)]
  · rw [if_neg hmoved, if_neg fun he => hmoved (hsame.mp he), ← rename_broadcast,
      rename_currentSpeakers]
    rfl

theorem rename_markReported (room : Room S) :
    (room.rename L).markReported = room.markReported.rename L := by
  simp only [markReported, Room.rename, List.map_map, Room.mk.injEq, true_and, and_true]
  refine List.map_congr_left fun peer _ => ?_
  have harriving : (peer.rename L).isArriving = peer.isArriving := rfl
  simp only [Function.comp_apply, harriving]
  split <;> rfl

theorem rename_handleInput (input : S.Input) (room : Room S) :
    (room.rename L).handleInput input = (room.handleInput input).rename L := by
  simp only [handleInput, Room.rename, Room.mk.injEq, true_and, and_true]
  exact List.updateFirst_map (fun peer => L.accepts peer.rtc input)
    (Peer.rename_handleInput L input) room.peers

theorem rename_advanceTime (now : Instant) (room : Room S) :
    (room.rename L).advanceTime now = (room.advanceTime now).rename L := by
  simp only [advanceTime, Room.rename, List.map_map, Room.mk.injEq, true_and, and_true]
  exact List.map_congr_left fun peer _ => Peer.rename_handleInput L (.timeout now) peer

end Room

end FerriteSfu
