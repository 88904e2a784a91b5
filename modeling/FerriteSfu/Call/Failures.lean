import FerriteSfu.Call.Fanout

/-!
A pass over a room in which the writes on somebody come to something else.

Whether a write succeeds is up to the `Rtc` of the subscriber. Here it is up to a
parameter, which is asked wherever the room asks `S.write`. All that a write
touches is the peer it is made on, so two passes that agree on the others end
with the same others.
-/

namespace FerriteSfu

variable {S : Str0m}

/-- What becomes of a write on a peer. -/
abbrev Writing (S : Str0m) :=
  Peer S → S.Writer → S.Pt → Instant → S.MediaTime → List UInt8 → Except String Unit × S.Rtc

namespace Peer

/-- `forward`, with `write` for the write of the `Rtc`. -/
def forwardBy (write : Writing S) (heap : Heap) (origin : PeerId) (data : S.Media)
    (peer : Peer S) : Peer S :=
  match peer.forwardMid heap origin data.mid with
  | none => peer
  | some mid =>
      match S.writer peer.rtc mid with
      | none => peer
      | some writer =>
          match S.matchParams writer data.params with
          | none => peer
          | some pt =>
              peer.written mid origin data
                (write peer (withAudioLevel data writer) pt data.networkTime data.time data.data)

def receiveBy (write : Writing S) (heap : Heap) (propagated : Propagated S) (peer : Peer S) :
    Peer S :=
  match propagated with
  | .media origin data => peer.forwardBy write heap origin data
  | _ => peer.receive heap propagated

theorem forwardBy_write (heap : Heap) (origin : PeerId) (data : S.Media) (peer : Peer S) :
    peer.forwardBy (fun _ => S.write) heap origin data = peer.forward heap origin data := by
  unfold forwardBy forward
  cases peer.forwardMid heap origin data.mid with
  | none => rfl
  | some mid =>
      dsimp only
      cases S.writer peer.rtc mid with
      | none => rfl
      | some writer =>
          dsimp only
          cases S.matchParams writer data.params with
          | none => rfl
          | some pt =>
              rcases hresult : S.write (withAudioLevel data writer) pt data.networkTime data.time
                data.data with ⟨_ | _, rtc⟩ <;>
                simp only [written, hresult]

theorem receiveBy_write (heap : Heap) (propagated : Propagated S) (peer : Peer S) :
    peer.receiveBy (fun _ => S.write) heap propagated = peer.receive heap propagated := by
  cases propagated with
  | noop | timeout | trackOpen | keyframeRequest => rfl
  | media origin data => exact forwardBy_write heap origin data peer

/-- A peer hears what becomes of its own writes only. -/
theorem receiveBy_congr {write write' : Writing S} {peer : Peer S} (h : write' peer = write peer)
    (heap : Heap) (propagated : Propagated S) :
    peer.receiveBy write' heap propagated = peer.receiveBy write heap propagated := by
  cases propagated with
  | noop | timeout | trackOpen | keyframeRequest => rfl
  | media origin data => simp only [receiveBy, forwardBy, h]

theorem written_id (mid : Mid) (origin : PeerId) (data : S.Media)
    (result : Except String Unit × S.Rtc) (peer : Peer S) :
    (peer.written mid origin data result).id = peer.id := by
  rcases result with ⟨_ | _, rtc⟩ <;> rfl

theorem receiveBy_id (write : Writing S) (heap : Heap) (propagated : Propagated S)
    (peer : Peer S) : (peer.receiveBy write heap propagated).id = peer.id := by
  cases propagated with
  | noop | timeout | trackOpen | keyframeRequest => exact receive_id heap _ peer
  | media origin data =>
      simp only [receiveBy, forwardBy]
      repeat' split
      all_goals first
        | rfl
        | exact written_id ..

/-- The same peer, unless it is the peer `id`. -/
def AlikeBut (id : PeerId) (peer peer' : Peer S) : Prop :=
  peer'.id = peer.id ∧ (peer.id ≠ id → peer' = peer)

theorem AlikeBut.refl (id : PeerId) (peer : Peer S) : peer.AlikeBut id peer :=
  ⟨rfl, fun _ => rfl⟩

theorem AlikeBut.receiveBy {id : PeerId} {peer peer' : Peer S} (h : peer.AlikeBut id peer')
    {write write' : Writing S} (hwrite : ∀ peer : Peer S, peer.id ≠ id → write' peer = write peer)
    (heap : Heap) (propagated : Propagated S) :
    (peer.receiveBy write heap propagated).AlikeBut id
      (peer'.receiveBy write' heap propagated) := by
  obtain ⟨hid, hsame⟩ := h
  refine ⟨?_, fun hne => ?_⟩
  · rw [receiveBy_id, receiveBy_id, hid]
  · rw [receiveBy_id] at hne
    rw [hsame hne]
    exact receiveBy_congr (hwrite peer hne) heap propagated

end Peer

namespace Room

def propagateBy (write : Writing S) (heap : Heap) (propagated : Propagated S) (room : Room S) :
    Room S :=
  match propagated.source with
  | none => room
  | some origin =>
      { room with
        peers := room.peers.map fun peer =>
          if peer.id = origin then peer else peer.receiveBy write heap propagated }

/-- `poll`, with `write` for the write of the `Rtc`s. -/
def pollBy (write : Writing S) (clock : ℕ → List Instant) (heap : Heap) (timeout : Instant)
    (room : Room S) : Option (PolledRoom S) :=
  (drainPeers clock heap timeout room.peers).map fun drained =>
    { room := drained.queue.foldl
        (fun room propagated => room.propagateBy write drained.heap propagated)
        { room with peers := drained.peers }
      heap := drained.heap
      timeout := drained.timeout }

theorem propagateBy_write (heap : Heap) (propagated : Propagated S) (room : Room S) :
    room.propagateBy (fun _ => S.write) heap propagated = room.propagate heap propagated := by
  unfold propagateBy propagate
  cases propagated.source with
  | none => rfl
  | some origin => simp only [Peer.receiveBy_write]

theorem pollBy_write (clock : ℕ → List Instant) (heap : Heap) (timeout : Instant)
    (room : Room S) :
    room.pollBy (fun _ => S.write) clock heap timeout = room.poll clock heap timeout := by
  simp only [pollBy, poll, propagateAll, propagateBy_write]

/-- The same room, but for the peer `id`. -/
structure AlikeBut (id : PeerId) (room room' : Room S) : Prop where
  callId : room'.callId = room.callId
  speaking : room'.speaking = room.speaking
  peers : List.Forall₂ (Peer.AlikeBut id) room.peers room'.peers

namespace AlikeBut

variable {id : PeerId} {room room' : Room S} {write write' : Writing S}

theorem refl (id : PeerId) (room : Room S) : room.AlikeBut id room where
  callId := rfl
  speaking := rfl
  peers := List.forall₂_same.mpr fun peer _ => .refl id peer

theorem propagateBy (h : room.AlikeBut id room')
    (hwrite : ∀ peer : Peer S, peer.id ≠ id → write' peer = write peer) (heap : Heap)
    (propagated : Propagated S) :
    (room.propagateBy write heap propagated).AlikeBut id
      (room'.propagateBy write' heap propagated) := by
  unfold Room.propagateBy
  cases propagated.source with
  | none => exact h
  | some origin =>
      refine ⟨h.callId, h.speaking, ?_⟩
      simp only [List.forall₂_map_left_iff, List.forall₂_map_right_iff]
      refine h.peers.imp fun peer peer' halike => ?_
      rw [halike.1]
      split
      · exact halike
      · exact halike.receiveBy hwrite heap propagated

theorem foldl_propagateBy (h : room.AlikeBut id room')
    (hwrite : ∀ peer : Peer S, peer.id ≠ id → write' peer = write peer) (heap : Heap)
    (queue : List (Propagated S)) :
    (queue.foldl (fun room propagated => room.propagateBy write heap propagated) room).AlikeBut id
      (queue.foldl (fun room propagated => room.propagateBy write' heap propagated) room') := by
  induction queue generalizing room room' with
  | nil => exact h
  | cons propagated queue ih => exact ih (h.propagateBy hwrite heap propagated)

end AlikeBut

/-- **The others in the room do not notice what becomes of the writes on a peer.** -/
theorem pollBy_alikeBut {id : PeerId} {write write' : Writing S}
    (hwrite : ∀ peer : Peer S, peer.id ≠ id → write' peer = write peer)
    {clock : ℕ → List Instant} {heap : Heap} {timeout : Instant} {room : Room S}
    {polled : PolledRoom S} (h : room.pollBy write clock heap timeout = some polled) :
    ∃ room', room.pollBy write' clock heap timeout = some { polled with room := room' } ∧
      polled.room.AlikeBut id room' := by
  obtain ⟨drained, hdrained, rfl⟩ := Option.map_eq_some_iff.mp h
  exact ⟨_, by rw [pollBy, hdrained]; rfl,
    (AlikeBut.refl id _).foldl_propagateBy hwrite drained.heap drained.queue⟩

end Room

end FerriteSfu
