import FerriteSfu.Call.Standstill
import FerriteSfu.Loop.Convergence

/-!
The steps of the media loop, for a room in which nothing new is published.
-/

namespace FerriteSfu

variable {S : Str0m} {config : Config}

def Event.isPoll : Event S → Bool
  | .pollRooms _ _ _ => true
  | _ => false

namespace Engine

theorem callEvent_poll {name : String} {engine : Engine S} {event : Event S}
    {clock : ℕ → List Instant} (h : engine.callEvent name event = some (.poll clock)) :
    event.isPoll = true := by
  cases event with
  | command command seed =>
      cases command with
      | join request =>
          simp only [callEvent] at h
          split at h
          · cases h
          · split at h <;> cases h
      | answer | mute | screen | leave | shutdown => cases h
  | pollRooms => rfl
  | reportConnections | reap | advanceTime => cases h
  | tickSpeaking | readOnce =>
      simp only [callEvent] at h
      split at h <;> cases h

/-- Steps that poll nobody leave a peer that is ready as it is, and make no offers. -/
theorem Sound.step_abides {engine engine' : Engine S} (h : engine.Sound) {event : Event S}
    (hstep : engine.step event = some engine') (hpolled : event.isPoll = false) {name : String}
    {peer' : Peer S} (hpeer' : peer' ∈ (engine'.call name).peers) :
    (∃ peer ∈ (engine.call name).peers, peer.Abides peer') ∨ engine.nextPeer ≤ peer'.id.val := by
  have hcall := (h.step_calls hstep).2.2 name
  unfold CallStep at hcall
  cases hev : engine.callEvent name event with
  | none =>
      simp only [hev] at hcall
      rw [hcall] at hpeer'
      exact .inl ⟨peer', hpeer', .of_eq rfl rfl rfl⟩
  | some ev =>
      simp only [hev] at hcall
      have hquiet : ∀ clock, ev ≠ .poll clock := by
        rintro clock rfl
        rw [callEvent_poll hev] at hpolled
        cases hpolled
      have hunpolled :=
        Call.abides_unpolled.step (h.numbered name) hquiet trivial hcall peer' hpeer'
      refine hunpolled.imp_right ?_
      rintro ⟨room, request, seed, offer, callId, answer, rfl⟩
      exact le_refl _

/-- Polling makes whoever is near ready, when it opens no track in the room. -/
theorem Sound.step_readied (hlaw : S.OffersMedia) (hdrops : S.DropsChanges)
    {engine engine' : Engine S} (h : engine.Sound) {event : Event S}
    (hstep : engine.step event = some engine') (hpolled : event.isPoll = true) {name : String}
    {room room' : Room S} (hroom : engine.rooms.lookup name = some room)
    (hroom' : engine'.rooms.lookup name = some room') (hsame : room'.tracks = room.tracks) :
    List.Forall₂ (fun peer peer' : Peer S => peer'.id = peer.id ∧
      (peer.Covers TrackOut.isNegotiating → Peer.Readied room.tracks peer peer'))
      room.peers room'.peers := by
  cases event with
  | pollRooms now order clock =>
      have hcall : (engine.call name).poll (clock name) = some (engine'.call name) :=
        (h.step_calls hstep).2.2 name
      rw [Call.poll, call_room, hroom] at hcall
      obtain ⟨polled, hpass, heq⟩ := Option.map_eq_some_iff.mp hcall
      have hnext : polled.room = room' := by
        have hafter := congrArg Call.room heq
        rw [call_room, hroom'] at hafter
        exact Option.some.inj hafter
      subst hnext
      exact Room.poll_readied hlaw hdrops (h.ids hroom) hpass hsame
  | command | reportConnections | reap | tickSpeaking | readOnce | advanceTime => cases hpolled

/-- The peer is alive in the room `name`, which publishes `tracks`. -/
def Attends (name : String) (tracks : List TrackIn) (engine : Engine S) (peer : Peer S) : Prop :=
  ∃ room, engine.rooms.lookup name = some room ∧ peer ∈ room.peers ∧ peer.isAlive = true ∧
    room.tracks = tracks

variable {name : String} {tracks : List TrackIn} {engine engine' : Engine S} {sub sub' : Peer S}

theorem Attends.mem_call (h : engine.Attends name tracks sub) : sub ∈ (engine.call name).peers := by
  obtain ⟨room, hroom, hsub, -⟩ := h
  exact mem_call_peers.mpr ⟨room, hroom, hsub⟩

theorem Attends.holds (h : engine.Attends name tracks sub) : engine.Holds sub := by
  obtain ⟨room, hroom, hsub, -⟩ := h
  exact ⟨name, room, hroom, hsub⟩

theorem Attends.isAlive (h : engine.Attends name tracks sub) : sub.isAlive = true := by
  obtain ⟨room, -, -, halive, -⟩ := h
  exact halive

/-- What a step makes of a peer that attends the room before and after it. -/
theorem Sound.step_attends (hlaw : S.OffersMedia) (hdrops : S.DropsChanges) (h : engine.Sound)
    {event : Event S} (hstep : engine.step event = some engine')
    (hsub : engine.Attends name tracks sub) (hsub' : engine'.Attends name tracks sub')
    (hid : sub'.id = sub.id) :
    (event.isPoll = false → sub.Abides sub') ∧
      (event.isPoll = true → sub.Covers TrackOut.isNegotiating → Peer.Readied tracks sub sub') := by
  have hsame : ∀ peer ∈ (engine.call name).peers, peer.id = sub.id → peer = sub :=
    fun peer hpeer he => List.eq_of_map_eq (h.numbered name).ids hpeer hsub.mem_call he
  refine ⟨fun hpolled => ?_, fun hpolled hcovers => ?_⟩
  · rcases h.step_abides hstep hpolled hsub'.mem_call with ⟨peer, hpeer, habides⟩ | hnew
    · exact hsame peer hpeer (habides.id.symm.trans hid) ▸ habides
    · exact absurd ((h.numbered name).fresh sub hsub.mem_call) (Nat.not_lt.mpr (hid ▸ hnew))
  · obtain ⟨room, hroom, hmem, -, rfl⟩ := hsub
    obtain ⟨room', hroom', hmem', -, htracks⟩ := hsub'
    obtain ⟨peer, hpeer, hpid, hreadied⟩ :=
      (h.step_readied hlaw hdrops hstep hpolled hroom hroom' htracks).exists_left hmem'
    obtain rfl := hsame peer (mem_call_peers.mpr ⟨room, hroom, hpeer⟩) (hpid.symm.trans hid)
    exact hreadied hcovers

/-- Whoever attends the room, is ready and has nothing outstanding is served. -/
theorem Attends.serves (hfresh : S.FreshMids) {ok : Engine S → Event S → Prop}
    (h : (machine S config).ReachableVia ok engine) (hsub : engine.Attends name tracks sub)
    (hready : sub.Ready tracks) (hopened : ∀ track ∈ sub.tracksOut, track.isNegotiating = false) :
    ∀ room, engine.rooms.lookup name = some room → room.Serves sub := by
  intro room hroom
  obtain ⟨hsound, -⟩ := reachable_sound h
  have hcall : (Call.machine S config name).ReachableVia (fun _ _ => True) (engine.call name) :=
    reachable_call (fun _ _ _ _ _ _ _ => trivial) h
  have hlogged := Call.reachable_logged hcall sub hsub.mem_call
  have hdrawn := Call.reachable_drawn hcall sub hsub.mem_call
  obtain ⟨room', hroom', hmem, -, rfl⟩ := hsub
  obtain rfl := Option.some.inj (hroom.symm.trans hroom')
  exact (hsound.subscribed hroom).serves hfresh (hsound.ids hroom) hmem hlogged hdrawn
    hready hopened

end Engine

end FerriteSfu
