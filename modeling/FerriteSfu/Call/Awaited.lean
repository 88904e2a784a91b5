import FerriteSfu.Call.Rounds

/-!
Subscriptions that were never opened.

A subscription waits as `ToOpen` for the negotiation that opens its m-line. What a
peer waits for after a step it waited for before it, or somebody who is in the
room has published it. So a track that is waited for in vain is one whose
publisher has left in the meantime.
-/

namespace FerriteSfu

variable {S : Str0m} {config : Config} {name : String}

namespace Peer

/-- The peer has yet to open a subscription to the track. -/
def Awaits (peer : Peer S) (track : TrackIn) : Prop :=
  (⟨track, .toOpen⟩ : TrackOut) ∈ peer.tracksOut

theorem Awaits.of_tracksOut {peer peer' : Peer S} {track : TrackIn} (h : peer'.Awaits track)
    (heq : peer'.tracksOut = peer.tracksOut) : peer.Awaits track := by
  unfold Awaits at h ⊢
  rwa [← heq]

theorem Awaits.mem_refs {peer : Peer S} {track : TrackIn} (h : peer.Awaits track) :
    track ∈ peer.refs :=
  List.mem_map_of_mem (f := (·.trackIn)) h

/-- What waits after a negotiation waited before it. -/
theorem Awaits.of_changes {peer : Peer S} {heap : Heap} {track : TrackIn}
    (h : (⟨track, .toOpen⟩ : TrackOut) ∈ (peer.changes heap).1) : peer.Awaits track := by
  obtain ⟨⟨old, state⟩, hold, change, heq⟩ := mem_changes h
  cases state with
  | toOpen =>
      have hsame := congrArg TrackOut.trackIn heq
      rw [TrackOut.negotiate_trackIn, TrackOut.stopDead_trackIn] at hsame
      obtain rfl : track = old := hsame
      exact hold
  | negotiating | toStop | negotiatingStop => cases heq
  | opened mid =>
      simp only [TrackOut.stopDead] at heq
      split at heq <;> cases heq

theorem Awaits.of_negotiateIfNeeded {peer : Peer S} {heap : Heap} {track : TrackIn}
    (h : (peer.negotiateIfNeeded heap).2.Awaits track) : peer.Awaits track := by
  rcases negotiateIfNeeded_tracksOut heap peer with heq | heq
  · exact h.of_tracksOut heq
  · unfold Awaits at h
    rw [heq] at h
    exact .of_changes h

theorem Awaits.of_pollOutput {peer : Peer S} {heap : Heap} {now : Instant} {track : TrackIn}
    (h : (peer.pollOutput heap now).2.1.Awaits track) : peer.Awaits track := by
  rcases pollOutput_cases heap now peer with ⟨-, heq⟩ | ⟨-, -, heq⟩ | ⟨-, -, output, rtc, -, heq⟩ |
    ⟨-, -, error, rtc, -, heq⟩
  all_goals rw [heq] at h
  · exact h
  · exact h.of_negotiateIfNeeded
  · have hhandled := handleOutput_handled heap now output
      (Peer.record (.polled output) { (peer.negotiateIfNeeded heap).2 with rtc := rtc })
    exact (h.of_tracksOut hhandled.tracksOut).of_negotiateIfNeeded
  · exact .of_negotiateIfNeeded h

theorem Awaits.of_receive {peer : Peer S} {heap : Heap} {propagated : Propagated S}
    {track : TrackIn} (h : (peer.receive heap propagated).Awaits track) :
    peer.Awaits track ∨ track ∈ opens [propagated] := by
  unfold Awaits at h ⊢
  rw [receive_tracksOut] at h
  rcases List.mem_append.mp h with h | h
  · exact .inl h
  · obtain ⟨opened, hopened, heq⟩ := List.mem_map.mp h
    cases heq
    exact .inr hopened

theorem Awaits.of_acceptAnswer {peer : Peer S} {answer : S.SdpAnswer} {track : TrackIn}
    (h : (peer.acceptAnswer answer).2.Awaits track) : peer.Awaits track := by
  rcases acceptAnswer_tracksOut answer peer with heq | heq
  · exact h.of_tracksOut heq
  · unfold Awaits at h
    rw [heq] at h
    obtain ⟨⟨old, state⟩, hold, heq⟩ := List.mem_map.mp (List.mem_of_mem_filter h)
    -- An answer opens what was being negotiated; it never makes anything wait.
    cases state with
    | toOpen =>
        cases heq
        exact hold
    | negotiating | opened | toStop | negotiatingStop => cases heq

end Peer

namespace Call

/-- The subscribers of a room are those of before, each with the subscriptions it
had. -/
def Remain (old : List (Peer S)) (room : Room S) : Prop :=
  room.OriginsOwn ∧ ∀ sub' ∈ room.peers, ∃ sub ∈ old, sub.id = sub'.id ∧
    sub'.tracksOut = sub.tracksOut

/-- Whatever is waited for in the room was waited for before, or its publisher is
there. -/
def AwaitsKnown (old : List (Peer S)) (room : Room S) : Prop :=
  ∀ sub' ∈ room.peers, ∀ track, sub'.Awaits track →
    (∃ sub ∈ old, sub.id = sub'.id ∧ sub.Awaits track) ∨ track.origin ∈ room.ids

theorem Remain.awaitsKnown {old : List (Peer S)} {room room' : Room S} (h : Remain old room)
    (hpeers : ∀ sub' ∈ room'.peers, ∃ sub ∈ room.peers, sub.id = sub'.id ∧
      ∀ track, sub'.Awaits track → sub.Awaits track) : AwaitsKnown old room' := by
  intro sub' hsub' track hawaits
  obtain ⟨middle, hmiddle, hid, hsame⟩ := hpeers sub' hsub'
  obtain ⟨sub, hsub, hid', htracks⟩ := h.2 middle hmiddle
  exact .inl ⟨sub, hsub, hid'.trans hid, (hsame track hawaits).of_tracksOut htracks⟩

/-- Operations that leave all subscriptions as they are. -/
theorem Remain.of_map {old : List (Peer S)} {room room' : Room S} (h : Remain old room)
    {f : Peer S → Peer S} (heq : room'.peers = room.peers.map f)
    (hf : ∀ peer, (f peer).id = peer.id ∧ ∀ track, (f peer).Awaits track → peer.Awaits track) :
    AwaitsKnown old room' := by
  refine h.awaitsKnown fun sub' hsub' => ?_
  rw [heq] at hsub'
  obtain ⟨sub, hsub, rfl⟩ := List.mem_map.mp hsub'
  exact ⟨sub, hsub, (hf sub).1.symm, (hf sub).2⟩

theorem awaitsKnown_step (config : Config) (ok : Call S → CallEvent S → Prop) (next : ℕ)
    (old : List (Peer S)) :
    RoomStep config ok next (Remain old) fun _ => AwaitsKnown old where
  start callId :=
    ⟨fun _ hmem => absurd hmem List.not_mem_nil, fun _ hmem => absurd hmem List.not_mem_nil⟩
  remove room room' id peer hids h hremove := by
    obtain ⟨-, rfl⟩ := Room.remove_eq_some hids hremove
    constructor
    · intro pub hpub track htrack
      obtain ⟨pub', hpub', rfl⟩ := List.mem_map.mp hpub
      exact h.1 pub' (List.mem_of_mem_filter hpub') track htrack
    · intro sub' hsub'
      obtain ⟨middle, hmiddle, rfl⟩ := List.mem_map.mp hsub'
      exact h.2 middle (List.mem_of_mem_filter hmiddle)
  stay room h := h.awaitsKnown fun sub hsub => ⟨sub, hsub, rfl, fun _ hawaits => hawaits⟩
  later room h := h.awaitsKnown fun sub hsub => ⟨sub, hsub, rfl, fun _ hawaits => hawaits⟩
  admitPeer room request seed offer callId answer hids hfresh h := by
    rw [Room.admit_eq hids _ (Room.next_not_mem hfresh)]
    intro sub' hsub' track hawaits
    rcases List.mem_append.mp hsub' with hsub' | hsub'
    · obtain ⟨middle, hmiddle, rfl⟩ := List.mem_map.mp hsub'
      obtain ⟨sub, hsub, hid, htracks⟩ := h.2 middle hmiddle
      exact .inl ⟨sub, hsub, hid, hawaits.of_tracksOut htracks⟩
    · -- The newcomer waits for what is being published when it enters.
      rw [List.mem_singleton.mp hsub'] at hawaits
      have hpublished : track ∈ room.tracks := by
        simpa [Peer.Awaits, Room.welcome, Peer.subscribe, Peer.send, admitted, newPeer, Peer.new]
          using hawaits
      refine .inr ?_
      simp only [Room.ids, List.map_append, List.map_map]
      exact List.mem_append_left _ (h.1.mem_ids hpublished)
  answer call room id sdp answer _ hroom hnum _ _ h := by
    have hids : room.ids.Nodup := by simpa [Room.ids, hroom] using hnum.ids
    refine h.of_map (Room.updatePeer_peers hids id _) fun peer => ?_
    split
    · exact ⟨Peer.id_eq_of_card (Peer.acceptAnswer_frame answer peer).1,
        fun _ hawaits => hawaits.of_acceptAnswer⟩
    · exact ⟨rfl, fun _ hawaits => hawaits⟩
  setState room id peer muted screen hids _ _ h := by
    refine h.of_map (Room.updatePeer_broadcast_peers hids id _ _) fun peer => ?_
    split <;> exact ⟨rfl, fun _ hawaits => hawaits⟩
  poll room clock polled hids _ h hpolled := by
    obtain ⟨_, -, -, -, -, hall⟩ := Room.poll_pass hids hpolled
    have hsame : polled.room.ids = room.ids := Peer.passed_ids hall
    refine Room.poll_forall (I := fun sub' => ∃ sub ∈ old, sub.id = sub'.id ∧
        ∀ track, sub'.Awaits track → sub.Awaits track)
      (J := fun sub' => ∀ track, sub'.Awaits track →
        (∃ sub ∈ old, sub.id = sub'.id ∧ sub.Awaits track) ∨ track.origin ∈ polled.room.ids)
      hpolled (fun sub' hsub' => ?_) (fun heap now sub' _ _ hsub' => ?_) (fun sub' hsub' => ?_)
      fun heap propagated sub' horigins hsub' => ?_
    · obtain ⟨sub, hsub, hid, htracks⟩ := h.2 sub' hsub'
      exact ⟨sub, hsub, hid, fun _ hawaits => hawaits.of_tracksOut htracks⟩
    · obtain ⟨sub, hsub, hid, hawaited⟩ := hsub'
      exact ⟨sub, hsub,
        hid.trans (Peer.id_eq_of_card (Peer.pollOutput_polled heap now sub').card).symm,
        fun track hawaits => hawaited track hawaits.of_pollOutput⟩
    · obtain ⟨sub, hsub, hid, hawaited⟩ := hsub'
      exact fun track hawaits => .inl ⟨sub, hsub, hid, hawaited track hawaits⟩
    · intro track hawaits
      rw [Peer.receive_id]
      rcases hawaits.of_receive with hawaits | hopened
      · exact hsub' track hawaits
      · exact .inr (hsame ▸ horigins track hopened)
  markReported room h := h.of_map rfl fun peer => by
    split <;> exact ⟨rfl, fun _ hawaits => hawaits⟩
  syncSpeaking room now _ h := by
    rcases Room.syncSpeaking_cases now room with ⟨-, heq⟩ | ⟨-, heq⟩ <;> rw [heq]
    · exact h.awaitsKnown fun sub hsub => ⟨sub, hsub, rfl, fun _ hawaits => hawaits⟩
    · exact h.of_map rfl fun peer => ⟨rfl, fun _ hawaits => hawaits⟩
  handleInput room input h := by
    refine h.awaitsKnown fun sub' hsub' => ?_
    have hall : List.Forall₂ SameTracks room.peers (room.handleInput input).peers :=
      List.forall₂_updateFirst (fun _ _ => ⟨rfl, rfl, rfl⟩)
        fun peer _ _ => SameTracks.handleInput input peer
    obtain ⟨sub, hsub, hid, -, htracks⟩ := hall.exists_left hsub'
    exact ⟨sub, hsub, hid.symm, fun _ hawaits => hawaits.of_tracksOut htracks⟩
  advanceTime room now h := h.of_map rfl fun peer =>
    ⟨(SameTracks.handleInput _ peer).1,
      fun _ hawaits => hawaits.of_tracksOut (SameTracks.handleInput _ peer).2.2⟩

/-- Whatever is waited for after a step was waited for before it, or its publisher
is there. -/
theorem step_awaits {call call' : Call S} (hnum : call.Numbered)
    (hown : ∀ room, call.room = some room → room.OriginsOwn) {event : CallEvent S}
    (hstep : call.step config name event = some call') :
    ∀ sub' ∈ call'.peers, ∀ track, sub'.Awaits track →
      (∃ sub ∈ call.peers, sub.id = sub'.id ∧ sub.Awaits track) ∨
        track.origin ∈ call'.peers.map Peer.id := by
  have hroom : call.InRoom fun _ => Remain call.peers := by
    intro room hroom
    refine ⟨hown room hroom, fun sub hsub => ⟨sub, ?_, rfl, rfl⟩⟩
    rwa [peers_of_room hroom]
  have hnext := (awaitsKnown_step config (fun _ _ => True) call.nextPeer call.peers).step hnum hroom
    trivial hstep
  intro sub' hsub' track hawaits
  cases hafter : call'.room with
  | none => simp [peers, hafter] at hsub'
  | some room' =>
      rw [peers_of_room hafter] at hsub' ⊢
      exact hnext room' hafter sub' hsub' track hawaits

end Call

end FerriteSfu
