import FerriteSfu.Call.Keyframes
import FerriteSfu.Call.Simulation
import FerriteSfu.Scripted

/-!
Keyframe requests in the media loop.
-/

namespace FerriteSfu

variable {S : Str0m} {config : Config}

namespace Engine

/-- **Routing keyframe requests is the inverse of routing media.** -/
theorem reachable_keyframes (hfresh : S.FreshMids) (hlaw : S.AnnouncesOnce) {engine : Engine S}
    (h : (machine S config).Reachable engine) {name : String} {room : Room S}
    (hroom : engine.rooms.lookup name = some room) {sub : Peer S} (hsub : sub ∈ room.peers)
    (request : KeyframeRequest) : room.RoutesBack engine.heap sub request := by
  obtain ⟨hsound, -⟩ := reachable_sound h
  have hlogged := Call.reachable_logged (hsound.calls name)
  have hdrawn := Call.reachable_drawn (hsound.calls name)
  rw [call_peers hroom] at hlogged hdrawn
  exact (hsound.subscribed hroom).routesBack hfresh hlaw (hsound.ids hroom) hlogged hsub
    (hdrawn sub hsub) (hsound.agrees hroom hsub) request

/-- Bob, to whom Ann's voice is forwarded, asks for a keyframe on its m-line. -/
theorem reachable_keyframes_talk :
    ∃ engine room sub, ∃ track : TrackIn, ∃ mid,
      (machine scripted Puppet.config).Reachable engine ∧
      engine.rooms.lookup "red" = some room ∧ sub ∈ room.peers ∧
      sub.forwardMid engine.heap track.origin track.mid = some mid ∧
      ∀ rid kind, room.RoutesBack engine.heap sub ⟨mid, rid, kind⟩ := by
  obtain ⟨engine, hreach, hcheck⟩ := Puppet.plays Puppet.talk (fun engine =>
    (engine.rooms.lookup "red").any fun room => room.peers.any fun sub => sub.refs.any fun track =>
      (sub.forwardMid engine.heap track.origin track.mid).isSome) (by decide +kernel)
  obtain ⟨room, hroom, hany⟩ := (Option.any_eq_true _ _).mp hcheck
  obtain ⟨sub, hsub, hrefs⟩ := List.any_eq_true.mp hany
  obtain ⟨track, -, hsome⟩ := List.any_eq_true.mp hrefs
  obtain ⟨mid, hmid⟩ := Option.isSome_iff_exists.mp hsome
  have hreach := Engine.loop_reachable hreach
  exact ⟨engine, room, sub, track, mid, hreach, hroom, hsub, hmid, fun rid kind =>
    reachable_keyframes scripted_freshMids scripted_announcesOnce hreach hroom hsub _⟩

end Engine

end FerriteSfu
