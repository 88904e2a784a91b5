import FerriteSfu.Call.Rules
import FerriteSfu.Sfu.Outbox
import FerriteSfu.Lib.Sorted
import Mathlib.Data.String.Basic

/-!
Who is speaking, as the members of a call are told.

A room keeps the set it last broadcast. Whoever has been told a set at all
holds the set of the room, because departures edit both alike; whoever joined
since has not been told any.
-/

namespace FerriteSfu

variable {S : Str0m} {config : Config} {name : String}

/-! ### Replaying the messages -/

/-- What a message makes of the set of speakers a peer has been told, `none`
when it has not been told any. -/
def ServerMsg.tells (told : Option (List String)) : ServerMsg → Option (List String)
  | .joined _ _ _ _ => none
  | .speaking peerIds => some peerIds
  | .peerLeft peerId => told.map fun ids => ids.filter fun id => id ≠ peerId
  | .offer _ _ | .peerJoined _ | .peerState _ _ _ | .error _ _ | .pong => told

/-- The speakers a peer has been told since it joined. -/
def toldSpeakers (out : List ServerMsg) : Option (List String) := out.foldl ServerMsg.tells none

/-- What a message makes of a peer's view of who is speaking. -/
def ServerMsg.shows (view : List String) : ServerMsg → List String
  | .joined _ _ _ _ => []
  | .speaking peerIds => peerIds
  | .peerLeft peerId => view.filter fun id => id ≠ peerId
  | .offer _ _ | .peerJoined _ | .peerState _ _ _ | .error _ _ | .pong => view

/-- A peer's view of who is speaking. -/
def replaySpeakers (out : List ServerMsg) : List String := out.foldl ServerMsg.shows []

theorem toldSpeakers_push (out : List ServerMsg) (message : ServerMsg) :
    toldSpeakers (out ++ [message]) = message.tells (toldSpeakers out) := by
  simp [toldSpeakers]

theorem replaySpeakers_eq (out : List ServerMsg) :
    replaySpeakers out = (toldSpeakers out).getD [] := by
  have hfold : ∀ told, out.foldl ServerMsg.shows (told.getD []) =
      (out.foldl ServerMsg.tells told).getD [] := by
    induction out with
    | nil => exact fun _ => rfl
    | cons message out ih =>
        intro told
        have hone : message.shows (told.getD []) = (message.tells told).getD [] := by
          cases message <;> cases told <;> rfl
        rw [List.foldl_cons, List.foldl_cons, hone, ih]
  exact hfold none

/-! ### The room and its members -/

/-- Whether the id is that of a member who speaks at `now`. -/
def Room.IsSpeaker (now : Instant) (room : Room S) (id : String) : Prop :=
  ∃ peer ∈ room.peers, peer.muted = false ∧ peer.isSpeaking now = true ∧ peer.id.asString = id

theorem Room.mem_currentSpeakers {now : Instant} {room : Room S} {id : String} :
    id ∈ room.currentSpeakers now ↔ room.IsSpeaker now id := by
  simp [Room.currentSpeakers, Room.IsSpeaker, and_assoc]

theorem Room.currentSpeakers_nodup {room : Room S} (hids : room.ids.Nodup) (now : Instant) :
    (room.currentSpeakers now).Nodup := by
  refine (List.perm_insertionSort _ _).nodup_iff.mpr ?_
  have hnodup : ((room.peers.filter fun peer => !peer.muted && peer.isSpeaking now).map
      Peer.id).Nodup := hids.sublist (List.filter_sublist.map _)
  simpa [Function.comp_def] using hnodup.map PeerId.asString_injective

/-- Two sorted sets are the same list when they have the same members. -/
theorem Room.currentSpeakers_eq_iff {room : Room S} (hids : room.ids.Nodup) {now : Instant}
    {ids : List String} (hsorted : ids.Pairwise (· ≤ ·)) (hnodup : ids.Nodup) :
    room.currentSpeakers now = ids ↔ ∀ id, id ∈ ids ↔ room.IsSpeaker now id := by
  constructor
  · rintro rfl id
    exact mem_currentSpeakers
  · intro hmem
    refine List.Perm.eq_of_pairwise' (List.pairwise_insertionSort _ _) hsorted ?_
    refine (List.perm_ext_iff_of_nodup (room.currentSpeakers_nodup hids now) hnodup).mpr
      fun id => ?_
    rw [mem_currentSpeakers, hmem]

namespace Call

/-- Whoever has been told a set holds that of the room, which is sorted. -/
structure SpeakingTold (_next : ℕ) (room : Room S) : Prop where
  told : ∀ peer ∈ room.peers, ∀ ids, toldSpeakers peer.out = some ids → ids = room.speaking
  sorted : room.speaking.Pairwise (· ≤ ·)
  nodup : room.speaking.Nodup

namespace SpeakingTold

variable {next next' : ℕ} {room room' : Room S}

/-- Members who have been told nothing new about speakers. -/
theorem of_told (h : SpeakingTold next room) (hspeaking : room'.speaking = room.speaking)
    (hpeers : ∀ peer' ∈ room'.peers, toldSpeakers peer'.out = none ∨
      ∃ peer ∈ room.peers, toldSpeakers peer'.out = toldSpeakers peer.out) :
    SpeakingTold next' room' where
  told peer' hpeer' ids hids := by
    rw [hspeaking]
    rcases hpeers peer' hpeer' with hnone | ⟨peer, hpeer, heq⟩
    · rw [hnone] at hids
      cases hids
    · exact h.told peer hpeer ids (heq ▸ hids)
  sorted := hspeaking ▸ h.sorted
  nodup := hspeaking ▸ h.nodup

/-- An operation on each of the members. -/
theorem map (h : SpeakingTold next room) {f : Peer S → Peer S} (hpeers : room'.peers = room.peers.map f)
    (hspeaking : room'.speaking = room.speaking)
    (hf : ∀ peer, toldSpeakers (f peer).out = toldSpeakers peer.out) :
    SpeakingTold next room' := by
  refine h.of_told hspeaking fun peer' hmem => ?_
  rw [hpeers] at hmem
  obtain ⟨peer, hpeer, rfl⟩ := List.mem_map.mp hmem
  exact .inr ⟨peer, hpeer, hf peer⟩

end SpeakingTold

theorem speakingTold_invariant (config : Config) (ok : Call S → CallEvent S → Prop) :
    RoomInvariant config ok (SpeakingTold (S := S)) where
  start next callId := ⟨by simp [Room.new], by simp [Room.new], by simp [Room.new]⟩
  later next room h := ⟨h.told, h.sorted, h.nodup⟩
  remove next room room' id peer hids _ h hremove := by
    obtain ⟨-, rfl⟩ := Room.remove_eq_some hids hremove
    refine ⟨fun peer' hpeer' ids htold => ?_, h.sorted.filter _, h.nodup.filter _⟩
    obtain ⟨old, hold, rfl⟩ := List.mem_map.mp hpeer'
    rw [Peer.send_out, toldSpeakers_push] at htold
    obtain ⟨ids', hids', rfl⟩ := Option.map_eq_some_iff.mp htold
    rw [h.told old (List.mem_of_mem_filter hold) ids' hids']
  admitPeer room request seed offer next callId answer hids hfresh _ h := by
    rw [Room.admit_eq hids _ (Room.next_not_mem hfresh)]
    refine h.of_told rfl fun peer' hmem => ?_
    rcases List.mem_append.mp hmem with hmem | hmem
    · obtain ⟨peer, hpeer, rfl⟩ := List.mem_map.mp hmem
      exact .inr ⟨peer, hpeer, toldSpeakers_push _ _⟩
    · rw [List.mem_singleton.mp hmem]
      exact .inl rfl
  answer call room id sdp answer hroom hnum hok hparse _ h := by
    have hids : room.ids.Nodup := by simpa [Room.ids, hroom] using hnum.ids
    refine h.map (Room.updatePeer_peers hids id _) rfl fun peer => ?_
    split
    · rw [(Peer.acceptAnswer_frame answer peer).2.2]
    · rfl
  setState next room id peer muted screen hids hpeer hid _ h := by
    refine h.map (Room.updatePeer_broadcast_peers hids id _ _) rfl fun other => ?_
    rw [Peer.send_out, toldSpeakers_push]
    split <;> rfl
  poll room clock next polled hids hfresh _ h hpolled := by
    obtain ⟨-, -, -, -, hspeaking, -⟩ := Room.poll_pass hids hpolled
    refine ⟨?_, hspeaking ▸ h.sorted, hspeaking ▸ h.nodup⟩
    rw [hspeaking]
    refine Room.poll_forall hpolled h.told (fun heap now peer _ _ hpeer ids hids => ?_)
      (fun _ hpeer => hpeer) fun heap propagated peer _ hpeer ids hids => ?_
    · rcases Peer.pollOutput_out heap now peer with ⟨hout, -⟩ | ⟨-, sdp, hout, -⟩
      · exact hpeer ids (hout ▸ hids)
      · rw [hout, toldSpeakers_push] at hids
        exact hpeer ids hids
    · rw [Peer.receive_out] at hids
      exact hpeer ids hids
  markReported next room _ h := by
    refine h.map rfl rfl fun peer => ?_
    split <;> rfl
  syncSpeaking next room now hids _ h := by
    rcases Room.syncSpeaking_cases now room with ⟨-, heq⟩ | ⟨-, heq⟩ <;> rw [heq]
    · exact h
    · refine ⟨fun peer' hmem ids htold => ?_, List.pairwise_insertionSort _ _,
        room.currentSpeakers_nodup hids now⟩
      obtain ⟨peer, -, rfl⟩ := List.mem_map.mp hmem
      rw [Peer.send_out, toldSpeakers_push] at htold
      exact (Option.some.inj htold).symm
  handleInput next room input _ h := by
    have hall : List.Forall₂ (fun peer peer' : Peer S => peer'.out = peer.out) room.peers
        (room.handleInput input).peers :=
      List.forall₂_updateFirst (fun _ _ => rfl) fun peer _ _ => Peer.handleInput_out input peer
    refine h.of_told rfl fun peer' hmem => ?_
    obtain ⟨peer, hpeer, hout⟩ := hall.exists_left hmem
    exact .inr ⟨peer, hpeer, congrArg toldSpeakers hout⟩
  advanceTime next room now _ h := h.map rfl rfl fun peer => by rw [Peer.handleInput_out]

end Call

end FerriteSfu
