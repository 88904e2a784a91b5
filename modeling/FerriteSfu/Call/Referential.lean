import FerriteSfu.Call.Roster
import FerriteSfu.Call.Subscriptions
import FerriteSfu.Call.Speaking
import FerriteSfu.Sfu.Index
import FerriteSfu.Lib.Episodes

/-!
Whom the messages to a peer name.

Offers come out of the polling pass, the roster deltas out of commands and
reaps, the speaking sets out of a timer. Each of the three names members of the
room as it is then, and the view a client has of the room is the room without
the client itself, so a message never names anyone its receiver does not know.
-/

namespace FerriteSfu

variable {S : Str0m} {config : Config} {name : String}

/-- The peer ids a message names. -/
def ServerMsg.named : ServerMsg → List String
  | .joined peerId _ _ peers => peerId :: peers.map PeerInfo.peerId
  | .offer _ tracks => tracks.map TrackMap.peerId
  | .peerJoined peer => [peer.peerId]
  | .peerLeft peerId => [peerId]
  | .peerState peerId _ _ => [peerId]
  | .speaking peerIds => peerIds
  | .error _ _ | .pong => []

/-- The members a client knows of that was sent `out`. -/
def rosterIds (out : List ServerMsg) : List String := (replayRoster out).map PeerInfo.peerId

/-- A message makes sense to the peer `own` that was sent `before`. -/
def ServerMsg.Sensible (own : String) (before : List ServerMsg) : ServerMsg → Prop
  | .offer _ tracks => ∀ track ∈ tracks, track.peerId ∈ rosterIds before ∧ track.peerId ≠ own
  | .peerState peerId _ _ => peerId ∈ rosterIds before ∨ peerId = own
  | .peerLeft peerId => peerId ∈ rosterIds before
  | .speaking peerIds => ∀ peerId ∈ peerIds, peerId ∈ rosterIds before ∨ peerId = own
  | .peerJoined peer => peer.peerId ∉ rosterIds before ∧ peer.peerId ≠ own
  | .joined _ _ _ _ | .error _ _ | .pong => True

/-- Every message to the peer `own` makes sense when it comes, and names nobody
who left before. -/
def Coherent (own : String) (out : List ServerMsg) : Prop :=
  Lib.Fits (fun before message => message.Sensible own before ∧
    ∀ peerId, .peerLeft peerId ∈ before → peerId ∉ message.named) out

namespace Call

theorem Informed.mem_rosterIds {peers : List (Peer S)} {peer : Peer S}
    (h : Informed (peers.map Peer.info) peer) {id : PeerId} :
    id.asString ∈ rosterIds peer.out ↔ id ∈ peers.map Peer.id ∧ id ≠ peer.id := by
  have hinfo : ∀ other : Peer S, other.info.peerId = other.id.asString := fun _ => rfl
  rw [rosterIds, h.view]
  simp only [List.mem_map, List.mem_filter, decide_eq_true_eq]
  constructor
  · rintro ⟨info, ⟨⟨other, hother, rfl⟩, hne⟩, hid⟩
    rw [hinfo, PeerId.asString_inj] at hid
    rw [hinfo, ne_eq, PeerId.asString_inj] at hne
    exact ⟨⟨other, hother, hid⟩, hid ▸ hne⟩
  · rintro ⟨⟨other, hother, rfl⟩, hne⟩
    refine ⟨other.info, ⟨⟨other, hother, rfl⟩, ?_⟩, rfl⟩
    rwa [hinfo, ne_eq, PeerId.asString_inj]

/-- The messages to the members make sense, and those they were told have left
are gone for good. -/
structure Referential (next : ℕ) (room : Room S) : Prop where
  fresh : ∀ peer ∈ room.peers, peer.id.val < next
  coherent : ∀ peer ∈ room.peers, Coherent peer.id.asString peer.out
  gone : ∀ peer ∈ room.peers, ∀ peerId, .peerLeft peerId ∈ peer.out →
    ∃ id : PeerId, id.asString = peerId ∧ id.val < next ∧ id ∉ room.ids

namespace Referential

variable {next : ℕ} {room room' : Room S} {peer : Peer S}

/-- A message that names members, or the next to join. -/
theorem push (h : Referential next room) (hpeer : peer ∈ room.peers) {message : ServerMsg}
    (hsensible : message.Sensible peer.id.asString peer.out)
    (hnamed : ∀ peerId ∈ message.named, ∃ id : PeerId, id.asString = peerId ∧
      (id ∈ room.ids ∨ next ≤ id.val)) :
    Coherent peer.id.asString (peer.out ++ [message]) := by
  refine (h.coherent peer hpeer).push ⟨hsensible, fun peerId hleft hmem => ?_⟩
  obtain ⟨id, rfl, hid⟩ := hnamed peerId hmem
  obtain ⟨id', heq, hlt, hnot⟩ := h.gone peer hpeer _ hleft
  obtain rfl := PeerId.asString_injective heq
  rcases hid with hid | hle
  · exact hnot hid
  · omega

/-- Members who are sent at most one message, not about someone leaving. -/
theorem of_told (h : Referential next room) (hids : room'.ids = room.ids)
    (htold : ∀ peer' ∈ room'.peers, ∃ peer ∈ room.peers, peer'.id = peer.id ∧
      (peer'.out = peer.out ∨ ∃ message, peer'.out = peer.out ++ [message] ∧
        message.Sensible peer.id.asString peer.out ∧ (∀ peerId, message ≠ .peerLeft peerId) ∧
        ∀ peerId ∈ message.named, ∃ id : PeerId, id.asString = peerId ∧ id ∈ room.ids)) :
    Referential next room' where
  fresh peer' hpeer' := by
    obtain ⟨peer, hpeer, hid, -⟩ := htold peer' hpeer'
    rw [hid]
    exact h.fresh peer hpeer
  coherent peer' hpeer' := by
    obtain ⟨peer, hpeer, hid, hout | ⟨message, hout, hsensible, -, hnamed⟩⟩ := htold peer' hpeer'
    · rw [hid, hout]
      exact h.coherent peer hpeer
    · rw [hid, hout]
      refine h.push hpeer hsensible fun peerId hmem => ?_
      obtain ⟨id, heq, hid⟩ := hnamed peerId hmem
      exact ⟨id, heq, .inl hid⟩
  gone peer' hpeer' peerId hleft := by
    rw [hids]
    obtain ⟨peer, hpeer, -, hout | ⟨message, hout, -, hnot, -⟩⟩ := htold peer' hpeer'
    · exact h.gone peer hpeer peerId (hout ▸ hleft)
    · rw [hout] at hleft
      rcases List.mem_append.mp hleft with hleft | hleft
      · exact h.gone peer hpeer peerId hleft
      · exact absurd (List.mem_singleton.mp hleft).symm (hnot peerId)

/-! ### One pass -/

/-- A member in the middle of a pass over the room. -/
structure Polling (next : ℕ) (room : Room S) (peer : Peer S) : Prop where
  knows : ∀ id ∈ room.ids, id ≠ peer.id → id.asString ∈ rosterIds peer.out
  others : ∀ track ∈ peer.refs, track.origin ≠ peer.id
  coherent : Coherent peer.id.asString peer.out
  gone : ∀ peerId, .peerLeft peerId ∈ peer.out →
    ∃ id : PeerId, id.asString = peerId ∧ id.val < next ∧ id ∉ room.ids

theorem Polling.congr (h : Polling next room peer) {peer' : Peer S} (hid : peer'.id = peer.id)
    (hrefs : peer'.refs = peer.refs) (hout : peer'.out = peer.out) : Polling next room peer' :=
  ⟨by rw [hid, hout]; exact h.knows, by rw [hid, hrefs]; exact h.others,
    by rw [hid, hout]; exact h.coherent, by rw [hout]; exact h.gone⟩

/-- An offer lists tracks of others, who are in the room. -/
theorem Polling.offer (h : Polling next room peer) {peer' : Peer S} (hid : peer'.id = peer.id)
    (hrefs : peer'.refs = peer.refs) {sdp : String} {tracks : List TrackMap}
    (hout : peer'.out = peer.out ++ [.offer sdp tracks])
    (htracks : ∀ entry ∈ tracks, ∃ id ∈ room.ids, id ≠ peer.id ∧ entry.peerId = id.asString) :
    Polling next room peer' where
  knows id hmem hne := by
    rw [hout, rosterIds, replayRoster_push rfl]
    exact h.knows id hmem (hid ▸ hne)
  others := by
    rw [hid, hrefs]
    exact h.others
  coherent := by
    rw [hid, hout]
    refine h.coherent.push ⟨fun entry hentry => ?_, fun peerId hleft hmem => ?_⟩
    · obtain ⟨id, hmember, hne, heq⟩ := htracks entry hentry
      rw [heq]
      exact ⟨h.knows id hmember hne, by simpa using hne⟩
    · obtain ⟨entry, hentry, rfl⟩ := List.mem_map.mp hmem
      obtain ⟨id, hmember, -, heq⟩ := htracks entry hentry
      obtain ⟨id', heq', -, hnot⟩ := h.gone _ hleft
      obtain rfl := PeerId.asString_injective (heq'.trans heq)
      exact hnot hmember
  gone peerId hleft := by
    rw [hout] at hleft
    exact h.gone peerId (by simpa using hleft)

theorem Polling.pollOutput (h : Polling next room peer) (howns : room.OriginsOwn) {heap : Heap}
    (hgrown : Heap.Grown room.ids room.tracks heap) (now : Instant) :
    Polling next room (peer.pollOutput heap now).2.1 := by
  have hpolled := Peer.pollOutput_polled heap now peer
  have hid := Peer.id_eq_of_card hpolled.card
  rcases Peer.pollOutput_out heap now peer with ⟨hout, -⟩ | ⟨-, sdp, hout, -⟩
  · exact h.congr hid hpolled.refs hout
  · refine h.offer hid hpolled.refs hout fun entry hentry => ?_
    obtain ⟨mid, track, href, hlive, rfl⟩ := Peer.mem_trackMap hentry
    exact ⟨track.origin, (hgrown.origin track hlive).elim howns.mem_ids (fun hmem => hmem),
      h.others track href, rfl⟩

theorem poll (h : Referential next room) (hinformed : AllInformed next room.peers)
    (hsub : Subscribed next room.peers) (hids : room.ids.Nodup) {clock : ℕ → List Instant}
    {polled : PolledRoom S} (hpolled : room.poll clock room.tracks 0 = some polled) :
    Referential next polled.room := by
  obtain ⟨opened, -, -, -, -, hall⟩ := Room.poll_pass hids hpolled
  have hstart : ∀ peer ∈ room.peers, Polling next room peer := by
    intro peer hpeer
    refine ⟨fun id hid hne => ?_, fun track href he => ?_, h.coherent peer hpeer, h.gone peer hpeer⟩
    · exact (hinformed peer hpeer).mem_rosterIds.mpr ⟨hid, hne⟩
    · exact absurd he (hsub.origin_ne hpeer href)
  have hend := Room.poll_forall (I := Polling next room)
    (J := fun peer => Coherent peer.id.asString peer.out ∧ ∀ peerId, .peerLeft peerId ∈ peer.out →
      ∃ id : PeerId, id.asString = peerId ∧ id.val < next ∧ id ∉ room.ids) hpolled hstart
    (fun heap now peer hgrown _ hpeer => hpeer.pollOutput hsub.origin hgrown now)
    (fun peer hpeer => ⟨hpeer.coherent, hpeer.gone⟩)
    (fun heap propagated peer _ hpeer => by rwa [Peer.receive_out, Peer.receive_id])
  have hsame : polled.room.ids = room.ids := Peer.passed_ids hall
  refine ⟨fun peer' hpeer' => ?_, fun peer' hpeer' => (hend peer' hpeer').1, ?_⟩
  · obtain ⟨peer, hpeer, hpassed⟩ := hall.exists_left hpeer'
    rw [Peer.id_eq_of_card hpassed.card]
    exact h.fresh peer hpeer
  · rw [hsame]
    exact fun peer' hpeer' => (hend peer' hpeer').2

/-! ### Coming and going -/

theorem remove (h : Referential next room) (hinformed : AllInformed next room.peers)
    (hids : room.ids.Nodup) {id : PeerId} (hremove : room.remove id = some (peer, room')) :
    Referential next room' := by
  have hroom' := Room.remove_ids hids hremove
  obtain ⟨⟨hpeer, hpeerid⟩, rfl⟩ := Room.remove_eq_some hids hremove
  have hmem : ∀ other ∈ room.peers, other.id ≠ id → id.asString ∈ rosterIds other.out :=
    fun other hother hne => (hinformed other hother).mem_rosterIds.mpr
      ⟨hpeerid ▸ List.mem_map_of_mem hpeer, hne.symm⟩
  refine ⟨fun other' hother' => ?_, fun other' hother' => ?_, fun other' hother' peerId hleft => ?_⟩
  all_goals
    obtain ⟨other, hother, rfl⟩ := List.mem_map.mp hother'
    obtain ⟨hother, hne⟩ := List.mem_filter.mp hother
    rw [decide_eq_true_eq] at hne
  · exact h.fresh other hother
  · refine h.push hother (hmem other hother hne) fun peerId hnamed => ?_
    exact ⟨id, (List.mem_singleton.mp hnamed).symm, .inl (hpeerid ▸ List.mem_map_of_mem hpeer)⟩
  · rw [hroom']
    rcases List.mem_append.mp hleft with hleft | hleft
    · obtain ⟨gone, heq, hlt, hnot⟩ := h.gone other hother peerId hleft
      exact ⟨gone, heq, hlt, fun hin => hnot (List.mem_of_mem_filter hin)⟩
    · cases List.mem_singleton.mp hleft
      refine ⟨id, rfl, ?_, by simp⟩
      rw [← hpeerid]
      exact h.fresh peer hpeer

theorem admitPeer (h : Referential next room) (hinformed : AllInformed next room.peers)
    (hids : room.ids.Nodup) {newcomer : Peer S} (hid : newcomer.id = ⟨next⟩)
    (hout : newcomer.out = []) (callId answer : String) :
    Referential (next + 1) (room.admitPeer newcomer callId answer) := by
  have hnew : newcomer.id ∉ room.ids := hid ▸ Room.next_not_mem h.fresh
  have hroom' : (room.admitPeer newcomer callId answer).ids = room.ids ++ [newcomer.id] := by
    rw [Room.admit_eq hids _ hnew]
    simp only [Room.ids, List.map_append, List.map_map, Function.comp_def, Peer.send_id]
    rfl
  have hwelcome : (room.welcome newcomer callId answer).out =
      [.joined newcomer.id.asString callId answer room.roster] := by
    simp [Room.welcome, hout]
  have hcoherent : Coherent newcomer.id.asString (room.welcome newcomer callId answer).out := by
    rw [hwelcome]
    exact (Lib.fits_nil _).push ⟨trivial, by simp⟩
  refine ⟨fun peer hpeer => ?_, fun peer hpeer => ?_, fun peer hpeer peerId hleft => ?_⟩
  all_goals
    rw [Room.admit_eq hids _ hnew] at hpeer
    rcases List.mem_append.mp hpeer with hpeer | hpeer
  · obtain ⟨other, hother, rfl⟩ := List.mem_map.mp hpeer
    exact (h.fresh other hother).trans (Nat.lt_succ_self next)
  · have heq : peer.id = ⟨next⟩ := by rw [List.mem_singleton.mp hpeer]; exact hid
    simp [heq]
  · obtain ⟨other, hother, rfl⟩ := List.mem_map.mp hpeer
    refine h.push hother ⟨fun hknown => ?_, fun he => ?_⟩ fun peerId hnamed => ?_
    · exact hnew ((hinformed other hother).mem_rosterIds.mp hknown).1
    · exact hnew (PeerId.asString_injective he ▸ List.mem_map_of_mem hother)
    · exact ⟨newcomer.id, (List.mem_singleton.mp hnamed).symm, .inr (by simp [hid])⟩
  · rw [List.mem_singleton.mp hpeer]
    exact hcoherent
  · obtain ⟨other, hother, rfl⟩ := List.mem_map.mp hpeer
    have hleft' : .peerLeft peerId ∈ other.out := by simpa using hleft
    obtain ⟨gone, heq, hlt, hnot⟩ := h.gone other hother peerId hleft'
    refine ⟨gone, heq, hlt.trans (Nat.lt_succ_self next), ?_⟩
    rw [hroom', List.mem_append, List.mem_singleton]
    rintro (hin | rfl)
    · exact hnot hin
    · simp [hid] at hlt
  · rw [List.mem_singleton.mp hpeer, hwelcome] at hleft
    simp at hleft

end Referential

/-- What the messages to a member rely on. -/
def Known (next : ℕ) (room : Room S) : Prop :=
  AllInformed next room.peers ∧ Subscribed next room.peers

theorem known_invariant (config : Config) (ok : Call S → CallEvent S → Prop) :
    RoomInvariant config ok (Known (S := S)) :=
  (allInformed_invariant config ok).toRoom.and
    ((subscribed_invariant config ok).toRoom.weaken fun _ _ _ => trivial)

theorem referential_given (config : Config) (ok : Call S → CallEvent S → Prop) :
    RoomInvariantGiven config ok (Known (S := S)) Referential where
  start next callId := ⟨by simp [Room.new], by simp [Room.new], by simp [Room.new]⟩
  later next room h :=
    ⟨fun peer hpeer => (h.fresh peer hpeer).trans (Nat.lt_succ_self next), h.coherent,
      fun peer hpeer peerId hleft => by
        obtain ⟨id, heq, hlt, hnot⟩ := h.gone peer hpeer peerId hleft
        exact ⟨id, heq, hlt.trans (Nat.lt_succ_self next), hnot⟩⟩
  remove next room room' id peer hids hknown h hremove := h.remove hknown.1 hids hremove
  admitPeer room request seed offer next callId answer hids _ hknown h :=
    h.admitPeer hknown.1 hids rfl rfl callId answer
  answer call room id sdp answer hroom hnum _ _ _ h := by
    have hids : room.ids.Nodup := by simpa [Room.ids, hroom] using hnum.ids
    have hkept := Room.Kept.updatePeer room id (Peer.acceptAnswer_keeps answer)
    refine h.of_told hkept.ids fun peer' hpeer' => ?_
    rw [Room.updatePeer_peers hids] at hpeer'
    obtain ⟨peer, hpeer, rfl⟩ := List.mem_map.mp hpeer'
    refine ⟨peer, hpeer, ?_⟩
    split
    · obtain ⟨hcard, -, hout⟩ := Peer.acceptAnswer_frame answer peer
      exact ⟨Peer.id_eq_of_card hcard, .inl hout⟩
    · exact ⟨rfl, .inl rfl⟩
  setState next room id peer muted screen hids hpeer hid hknown h := by
    have hpeers := Room.updatePeer_broadcast_peers hids id
      (fun peer => { peer with muted := muted, screen := screen })
      (.peerState id.asString muted screen)
    have hmember : id ∈ room.ids := hid ▸ List.mem_map_of_mem hpeer
    refine h.of_told ?_ fun other' hother' => ?_
    · rw [Room.ids, hpeers, List.map_map]
      exact List.map_congr_left fun other _ => by simp only [Function.comp_apply]; split <;> rfl
    · rw [hpeers] at hother'
      obtain ⟨other, hother, rfl⟩ := List.mem_map.mp hother'
      refine ⟨other, hother, by rw [Peer.send_id]; split <;> rfl,
        .inr ⟨.peerState id.asString muted screen, by rw [Peer.send_out]; split <;> rfl, ?_,
          by simp, by simpa [ServerMsg.named] using hmember⟩⟩
      by_cases hown : id = other.id
      · exact .inr (congrArg PeerId.asString hown)
      · exact .inl ((hknown.1 other hother).mem_rosterIds.mpr ⟨hmember, hown⟩)
  poll room clock next polled hids _ hknown h hpolled := h.poll hknown.1 hknown.2 hids hpolled
  markReported next room _ h := by
    refine h.of_told ?_ fun peer' hpeer' => ?_
    · rw [Room.ids, Room.markReported, List.map_map]
      exact List.map_congr_left fun peer _ => by simp only [Function.comp_apply]; split <;> rfl
    · obtain ⟨peer, hpeer, rfl⟩ := List.mem_map.mp hpeer'
      exact ⟨peer, hpeer, by split <;> rfl, .inl (by split <;> rfl)⟩
  syncSpeaking next room now hids hknown h := by
    rcases Room.syncSpeaking_cases now room with ⟨-, heq⟩ | ⟨-, heq⟩ <;> rw [heq]
    · exact h
    · have hspeaks : ∀ peerId ∈ room.currentSpeakers now,
          ∃ id : PeerId, id.asString = peerId ∧ id ∈ room.ids := by
        intro peerId hmem
        obtain ⟨peer, hpeer, -, -, heq⟩ := Room.mem_currentSpeakers.mp hmem
        exact ⟨peer.id, heq, List.mem_map_of_mem hpeer⟩
      refine h.of_told (by simp [Room.ids, Function.comp_def]) fun peer' hpeer' => ?_
      obtain ⟨peer, hpeer, rfl⟩ := List.mem_map.mp hpeer'
      refine ⟨peer, hpeer, rfl, .inr ⟨_, rfl, fun peerId hmem => ?_, by simp, hspeaks⟩⟩
      obtain ⟨id, rfl, hid⟩ := hspeaks peerId hmem
      by_cases hown : id = peer.id
      · exact .inr (congrArg PeerId.asString hown)
      · exact .inl ((hknown.1 peer hpeer).mem_rosterIds.mpr ⟨hid, hown⟩)
  handleInput next room input _ h := by
    have hall : List.Forall₂ (fun peer peer' : Peer S => peer'.id = peer.id ∧ peer'.out = peer.out)
        room.peers (room.handleInput input).peers :=
      List.forall₂_updateFirst (fun _ _ => ⟨rfl, rfl⟩) fun peer _ _ =>
        ⟨Peer.handleInput_id input peer, Peer.handleInput_out input peer⟩
    refine h.of_told (hall.map_eq fun _ _ hrel => hrel.1) fun peer' hpeer' => ?_
    obtain ⟨peer, hpeer, hid, hout⟩ := hall.exists_left hpeer'
    exact ⟨peer, hpeer, hid, .inl hout⟩
  advanceTime next room now _ h := by
    have hcards := Room.cards_eq_of_quiet (Room.advanceTime_quiet now room)
    refine h.of_told ?_ fun peer' hpeer' => ?_
    · rw [← Room.cards_map_id, ← Room.cards_map_id, hcards]
    · obtain ⟨peer, hpeer, rfl⟩ := List.mem_map.mp hpeer'
      exact ⟨peer, hpeer, Peer.handleInput_id _ peer,
        .inl (Peer.handleInput_out _ peer)⟩

theorem referential_invariant (config : Config) (ok : Call S → CallEvent S → Prop) :
    RoomInvariant config ok fun next (room : Room S) => Known next room ∧ Referential next room :=
  (known_invariant config ok).and
    ((referential_given config ok).weaken fun _ _ hknown => hknown.2)

end Call

end FerriteSfu
