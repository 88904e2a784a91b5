import FerriteSfu.Sfu.Engine
import FerriteSfu.Sfu.Frame

/-!
What joining, leaving and the broadcasts do to the peers of a room, when its
ids are distinct.
-/

namespace FerriteSfu

variable {S : Str0m}

namespace Peer

/-- The peer with subscriptions to `tracks`, yet to be negotiated. -/
def subscribe (tracks : List TrackIn) (peer : Peer S) : Peer S :=
  let added := tracks.map fun trackIn => { trackIn := trackIn, state := .toOpen }
  { peer with tracksOut := peer.tracksOut ++ added }

@[simp] theorem subscribe_card (tracks : List TrackIn) (peer : Peer S) :
    (peer.subscribe tracks).card = peer.card := rfl

@[simp] theorem subscribe_tracks (tracks : List TrackIn) (peer : Peer S) :
    (peer.subscribe tracks).tracks = peer.tracks := rfl

@[simp] theorem subscribe_out (tracks : List TrackIn) (peer : Peer S) :
    (peer.subscribe tracks).out = peer.out := rfl

@[simp] theorem subscribe_refs (tracks : List TrackIn) (peer : Peer S) :
    (peer.subscribe tracks).refs = peer.refs ++ tracks := by
  simp [subscribe, refs, Function.comp_def]

end Peer

namespace Room

def cards (room : Room S) : List Card := room.peers.map Peer.card

def ids (room : Room S) : List PeerId := room.peers.map Peer.id

theorem mem_ids {room : Room S} {id : PeerId} :
    id ∈ room.ids ↔ ∃ peer ∈ room.peers, peer.id = id :=
  List.mem_map

theorem mem_tracks {room : Room S} {track : TrackIn} :
    track ∈ room.tracks ↔ ∃ pub ∈ room.peers, track ∈ pub.tracks :=
  List.mem_flatMap

theorem cards_map_id (room : Room S) : room.cards.map Card.id = room.ids := by
  simp [cards, ids]

@[simp] theorem broadcast_peers (message : ServerMsg) (room : Room S) :
    (room.broadcast message).peers = room.peers.map (Peer.send message) := rfl

@[simp] theorem broadcast_cards (message : ServerMsg) (room : Room S) :
    (room.broadcast message).cards = room.cards := by
  simp [cards, Function.comp_def]

@[simp] theorem broadcast_tracks (message : ServerMsg) (room : Room S) :
    (room.broadcast message).tracks = room.tracks := by
  simp [tracks, List.flatMap_map]

theorem updatePeer_peers {room : Room S} (hids : room.ids.Nodup) (id : PeerId)
    (f : Peer S → Peer S) :
    (room.updatePeer id f).peers = room.peers.map fun peer => if peer.id = id then f peer else peer :=
  List.updateFirst_eq_map hids id

/-- The members once one of them has changed its state and all have been told. -/
theorem updatePeer_broadcast_peers {room : Room S} (hids : room.ids.Nodup) (id : PeerId)
    (f : Peer S → Peer S) (message : ServerMsg) :
    ((room.updatePeer id f).broadcast message).peers =
      room.peers.map fun peer => (if peer.id = id then f peer else peer).send message := by
  rw [broadcast_peers, updatePeer_peers hids, List.map_map]
  rfl

/-! ### Leaving -/

theorem remove_eq_none {room : Room S} {id : PeerId} :
    room.remove id = none ↔ ∀ peer ∈ room.peers, peer.id ≠ id := by
  simp [remove]

theorem remove_eq_some {room room' : Room S} {id : PeerId} {peer : Peer S}
    (hids : room.ids.Nodup) (h : room.remove id = some (peer, room')) :
    (peer ∈ room.peers ∧ peer.id = id) ∧
      room' = { room with
        peers := (room.peers.filter fun peer => peer.id ≠ id).map
          (Peer.send (.peerLeft id.asString))
        speaking := room.speaking.filter fun entry => entry ≠ id.asString } := by
  obtain ⟨peer', hfind, heq⟩ := Option.map_eq_some_iff.mp h
  cases heq
  refine ⟨(List.find?_key_eq_some hids).mp hfind, ?_⟩
  simp only [broadcast, List.eraseP_eq_filter hids]

theorem remove_cards {room room' : Room S} {id : PeerId} {peer : Peer S}
    (hids : room.ids.Nodup) (h : room.remove id = some (peer, room')) :
    room'.cards = room.cards.filter fun card => card.id ≠ id := by
  obtain ⟨-, rfl⟩ := remove_eq_some hids h
  simp only [cards, List.filter_map, List.map_map]
  rfl

/-- Nobody is left just when the peer was alone. -/
theorem remove_isEmpty {room room' : Room S} {id : PeerId} {peer : Peer S}
    (hids : room.ids.Nodup) (h : room.remove id = some (peer, room')) :
    room'.isEmpty = true ↔ room.peers = [peer] := by
  obtain ⟨⟨hpeer, hid⟩, rfl⟩ := remove_eq_some hids h
  have hone := List.filter_key_eq_singleton hids hpeer hid
  rw [isEmpty, List.isEmpty_iff, List.map_eq_nil_iff, List.filter_eq_nil_iff]
  constructor
  · intro hall
    rw [← hone]
    refine (List.filter_eq_self.mpr fun other hother => ?_).symm
    simpa using hall other hother
  · intro hpeers other hother
    rw [hpeers, List.mem_singleton] at hother
    simp [hother, hid]

theorem remove_ids {room room' : Room S} {id : PeerId} {peer : Peer S}
    (hids : room.ids.Nodup) (h : room.remove id = some (peer, room')) :
    room'.ids = room.ids.filter fun id' => id' ≠ id := by
  obtain ⟨-, rfl⟩ := remove_eq_some hids h
  simp only [ids, List.filter_map, List.map_map]
  rfl

theorem remove_ids_nodup {room room' : Room S} {id : PeerId} {peer : Peer S}
    (hids : room.ids.Nodup) (h : room.remove id = some (peer, room')) : room'.ids.Nodup :=
  remove_ids hids h ▸ hids.filter _

/-- Whatever one removal keeps, the replacement of a reconnecting user keeps. -/
theorem retire_induct {P : Room S → Prop}
    (hremove : ∀ room id peer room', room.ids.Nodup → P room →
      room.remove id = some (peer, room') → P room')
    {room : Room S} (hids : room.ids.Nodup) (h : P room) (stale : List PeerId) :
    (room.retire stale).1.ids.Nodup ∧ P (room.retire stale).1 := by
  induction stale generalizing room with
  | nil => exact ⟨hids, h⟩
  | cons old stale ih =>
      rw [retire]
      split
      · exact ih hids h
      · rename_i peer room' hsome
        exact ih (remove_ids_nodup hids hsome) (hremove room old peer room' hids h hsome)

theorem retire_cards {room : Room S} (hids : room.ids.Nodup) (stale : List PeerId) :
    (room.retire stale).1.cards = room.cards.filter fun card => card.id ∉ stale := by
  induction stale generalizing room with
  | nil => simp [retire]
  | cons old stale ih =>
      rw [retire]
      split
      · rename_i hnone
        have hne : ∀ card ∈ room.cards, card.id ≠ old := by
          intro card hmem
          obtain ⟨peer, hpeer, rfl⟩ := List.mem_map.mp hmem
          exact remove_eq_none.mp hnone peer hpeer
        rw [ih hids]
        exact List.filter_congr fun card hmem => by simp [hne card hmem]
      · rename_i peer room' hsome
        rw [ih (remove_ids_nodup hids hsome), remove_cards hids hsome, List.filter_filter]
        exact List.filter_congr fun card _ => by simp [not_or, Bool.and_comm]

/-- What a replacement leaves of the room, and what the replaced peers published. -/
theorem retire_spec {room : Room S} (hids : room.ids.Nodup) (stale : List PeerId) :
    List.Forall₂ (fun peer peer' : Peer S => peer'.id = peer.id ∧ peer'.tracks = peer.tracks ∧
        peer'.refs = peer.refs) (room.peers.filter fun peer => peer.id ∉ stale)
        (room.retire stale).1.peers ∧
      ∀ track, (∃ gone ∈ (room.retire stale).2, track ∈ gone.tracks) ↔
        ∃ peer ∈ room.peers, peer.id ∈ stale ∧ track ∈ peer.tracks := by
  induction stale generalizing room with
  | nil => exact ⟨by simp [retire, List.forall₂_same], by simp [retire]⟩
  | cons old stale ih =>
      rw [retire]
      split
      · rename_i hnone
        have hne := remove_eq_none.mp hnone
        obtain ⟨hkept, hgone⟩ := ih hids
        refine ⟨?_, fun track => (hgone track).trans ?_⟩
        · have hfilter : (room.peers.filter fun peer => peer.id ∉ old :: stale) =
              room.peers.filter fun peer => peer.id ∉ stale :=
            List.filter_congr fun peer hmem => by simp [hne peer hmem]
          rwa [hfilter]
        · constructor
          · rintro ⟨peer, hpeer, hid, htrack⟩
            exact ⟨peer, hpeer, List.mem_cons_of_mem _ hid, htrack⟩
          · rintro ⟨peer, hpeer, hid, htrack⟩
            exact ⟨peer, hpeer, (List.mem_cons.mp hid).resolve_left (hne peer hpeer), htrack⟩
      · rename_i gone room' hsome
        obtain ⟨⟨hgone, hgoneid⟩, hroom'⟩ := remove_eq_some hids hsome
        obtain ⟨hkept, hothers⟩ := ih (remove_ids_nodup hids hsome)
        have hpeers : room'.peers = (room.peers.filter fun peer => peer.id ≠ old).map
            (Peer.send (.peerLeft old.asString)) := by
          rw [hroom']
        refine ⟨?_, fun track => ?_⟩
        · rw [hpeers, List.filter_map, List.forall₂_map_left_iff, List.filter_filter] at hkept
          have hfilter : (room.peers.filter fun peer => peer.id ∉ old :: stale) =
              room.peers.filter fun peer => (((fun peer : Peer S => decide (peer.id ∉ stale)) ∘
                Peer.send (.peerLeft old.asString)) peer && decide (peer.id ≠ old)) :=
            List.filter_congr fun peer _ => by
              by_cases hold : peer.id = old <;> by_cases hstale : peer.id ∈ stale <;>
                simp [hold, hstale]
          rwa [hfilter]
        · -- Goodbyes touch no tracks, so those of the others can be read off the old room.
          have htracks : (∃ peer ∈ room'.peers, peer.id ∈ stale ∧ track ∈ peer.tracks) ↔
              ∃ peer ∈ room.peers, peer.id ≠ old ∧ peer.id ∈ stale ∧ track ∈ peer.tracks := by
            simp [hpeers, and_assoc]
          have hfirst : track ∈ gone.tracks ↔
              ∃ peer ∈ room.peers, peer.id = old ∧ track ∈ peer.tracks := by
            constructor
            · intro htrack
              exact ⟨gone, hgone, hgoneid, htrack⟩
            · rintro ⟨peer, hpeer, hid, htrack⟩
              rwa [List.eq_of_map_eq hids hpeer hgone (hid.trans hgoneid.symm)] at htrack
          have hsend : ∀ message,
              track ∈ (Peer.send message { gone with
                reported := false, rtc := S.disconnect gone.rtc }).tracks ↔
                track ∈ gone.tracks := fun _ => Iff.rfl
          simp only [List.mem_cons, exists_eq_or_imp, hothers track, htracks, hsend, hfirst]
          constructor
          · rintro (⟨peer, hpeer, hid, htrack⟩ | ⟨peer, hpeer, -, hid, htrack⟩)
            · exact ⟨peer, hpeer, .inl hid, htrack⟩
            · exact ⟨peer, hpeer, .inr hid, htrack⟩
          · rintro ⟨peer, hpeer, hid, htrack⟩
            by_cases hold : peer.id = old
            · exact .inl ⟨peer, hpeer, hold, htrack⟩
            · exact .inr ⟨peer, hpeer, hold, hid.resolve_left hold, htrack⟩

/-! ### Joining -/

/-- The joining peer, with the roster and a subscription to everything that is
already being published. -/
def welcome (peer : Peer S) (callId answer : String) (room : Room S) : Peer S :=
  (peer.send (.joined peer.id.asString callId answer room.roster)).subscribe room.tracks

theorem admit_eq {room : Room S} (hids : room.ids.Nodup) (peer : Peer S)
    (hnew : peer.id ∉ room.ids) (callId answer : String) :
    room.admitPeer peer callId answer = { room with
      peers := room.peers.map (Peer.send (.peerJoined peer.info)) ++
        [room.welcome peer callId answer] } := by
  have hne : ∀ other ∈ room.peers, other.id ≠ peer.id :=
    fun other hmem he => hnew (he ▸ List.mem_map_of_mem hmem)
  have hnodup : (((room.peers.map (Peer.send (.peerJoined peer.info))) ++
      [peer.send (.joined peer.id.asString callId answer room.roster)]).map Peer.id).Nodup := by
    simp only [List.map_append, List.map_map, Function.comp_def, Peer.send_id, List.map_cons,
      List.map_nil]
    exact List.nodup_append.mpr ⟨hids, by simp, by simpa using hne⟩
  have hothers : (room.peers.map (Peer.send (.peerJoined peer.info))).filter
      (fun other => other.id ≠ peer.id) = room.peers.map (Peer.send (.peerJoined peer.info)) :=
    List.filter_eq_self.mpr (by simpa using hne)
  simp only [admitPeer, subscribeToExisting, broadcast, updatePeer]
  rw [List.updateFirst_eq_map hnodup, List.filter_append, Peer.send_id, hothers]
  simp only [List.map_append, List.map_map, Room.mk.injEq, true_and, and_true]
  congr 1
  · refine List.map_congr_left fun other hmem => ?_
    simp [hne other hmem]
  · simp [welcome, Peer.subscribe, tracks, List.flatMap_map]

theorem admit_cards {room : Room S} {peer : Peer S} (hids : room.ids.Nodup)
    (hnew : peer.id ∉ room.ids) (callId answer : String) :
    (room.admitPeer peer callId answer).cards = room.cards ++ [peer.card] := by
  simp [admit_eq hids peer hnew, cards, welcome, Function.comp_def]

/-! ### Staying -/

/-- The speakers are broadcast if the set has moved, and nothing else changes. -/
theorem syncSpeaking_cases (now : Instant) (room : Room S) :
    (room.currentSpeakers now = room.speaking ∧ room.syncSpeaking now = room) ∨
    (room.currentSpeakers now ≠ room.speaking ∧ room.syncSpeaking now = { room with
      peers := room.peers.map (Peer.send (.speaking (room.currentSpeakers now)))
      speaking := room.currentSpeakers now }) := by
  by_cases hsame : room.currentSpeakers now = room.speaking
  · exact .inl ⟨hsame, if_pos hsame⟩
  · exact .inr ⟨hsame, if_neg hsame⟩

theorem syncSpeaking_quiet (now : Instant) (room : Room S) :
    List.Forall₂ Peer.Quiet room.peers (room.syncSpeaking now).peers := by
  rcases syncSpeaking_cases now room with ⟨-, heq⟩ | ⟨-, heq⟩
  · rw [heq]
    exact List.forall₂_same.mpr fun peer _ => .refl peer
  · simp only [heq, List.forall₂_map_right_iff]
    exact List.forall₂_same.mpr fun peer _ => ⟨rfl, rfl, rfl, .push _ rfl⟩

theorem handleInput_quiet (input : S.Input) (room : Room S) :
    List.Forall₂ Peer.Quiet room.peers (room.handleInput input).peers :=
  List.forall₂_updateFirst (fun peer _ => .refl peer)
    fun peer _ _ => Peer.handleInput_quiet input peer

theorem advanceTime_quiet (now : Instant) (room : Room S) :
    List.Forall₂ Peer.Quiet room.peers (room.advanceTime now).peers := by
  simp only [advanceTime, List.forall₂_map_right_iff]
  exact List.forall₂_same.mpr fun peer _ => Peer.handleInput_quiet (.timeout now) peer

theorem cards_eq_of_quiet {room room' : Room S}
    (h : List.Forall₂ Peer.Quiet room.peers room'.peers) : room'.cards = room.cards :=
  h.map_eq fun _ _ hquiet => hquiet.card

end Room

end FerriteSfu
