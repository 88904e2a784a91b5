import FerriteSfu.Call.Requests
import FerriteSfu.Loop.Voices

/-!
Keyframe requests for gaps, in every run of the media loop.
-/

namespace FerriteSfu

variable {S : Str0m} {config : Config}

namespace Engine

/-- How keyframes of the track `mid` are requested, and how many of the requests
are taken between two readings of the clock. -/
structure Metered (mid : Mid) (log : List (Poll S)) : Prop where
  throttled : Throttled mid log
  rate : ∀ lo hi : Instant,
    ((grantedAt mid log).filter fun t => decide (lo ≤ t ∧ t ≤ hi)).length * keyframeInterval ≤
      hi - lo + keyframeInterval

/-- **In every run a peer is asked for a keyframe of a video track when there is a
gap in it, and at most one request in a second is taken.** -/
theorem run_metered {began : Instant} {events : List (Event S)} {engine : Engine S}
    (hrun : (machine S config).run (start config began) events = some engine) {name : String}
    {room : Room S} (hroom : engine.rooms.lookup name = some room) {peer : Peer S}
    (hpeer : peer ∈ room.peers) (mid : Mid) :
    Metered mid (pollLog peer.id config began events) := by
  obtain ⟨newborn, hborn, hlives⟩ :=
    (run_grown hrun peer.id).life name peer (mem_call_peers.mpr ⟨room, hroom, hpeer⟩) rfl
  have hasking := hlives.asking hborn mid
  refine ⟨hasking.throttled, fun lo hi => ?_⟩
  refine (hasking.spaced.sublist List.filter_sublist).length_mul_le fun t ht => ?_
  exact of_decide_eq_true (List.mem_filter.mp ht).2

/-- A packet of the m-line `name` comes after others were lost. -/
def lossy (name : String) : RtcEvent Unit Unit :=
  .mediaData { mid := ⟨name⟩, contiguous := false, params := (),
               extVals := { audioLevel := none, voiceActivity := none },
               networkTime := 0, time := (), data := [1, 2, 3] }

/-- Packets of Ann's video are lost again and again. -/
def stutter : List (Event scripted) :=
  .command (Puppet.joins "ann" "red" "a").1 "a" ::
    (utters (Duration.fromMillis 0) "a" [Puppet.announces "1" .video, lossy "1"] ++
      utters (Duration.fromMillis 400) "a" [lossy "1", Puppet.packet "1"] ++
      utters (Duration.fromMillis 1200) "a" [lossy "1", lossy "1"] ++
      utters (Duration.fromMillis 2500) "a" [lossy "1"])

theorem run_metered_stutter :
    ∃ engine room peer,
      (machine scripted Puppet.config).run (start Puppet.config 0) stutter = some engine ∧
      engine.rooms.lookup "red" = some room ∧ peer ∈ room.peers ∧
      grantedAt ⟨"1"⟩ (pollLog peer.id Puppet.config 0 stutter) =
        [0, Duration.fromMillis 1200, Duration.fromMillis 2500] ∧
      Metered ⟨"1"⟩ (pollLog peer.id Puppet.config 0 stutter) := by
  obtain ⟨engine, hrun, hcheck⟩ := (Option.any_eq_true _ _).mp (by decide +kernel :
    ((machine scripted Puppet.config).run (start Puppet.config 0) stutter).any (fun engine =>
      (engine.rooms.lookup "red").any fun room =>
        room.peers.any fun peer => decide (peer.id = ⟨1⟩)) = true)
  obtain ⟨room, hroom, hany⟩ := (Option.any_eq_true _ _).mp hcheck
  obtain ⟨peer, hpeer, hid⟩ := List.any_eq_true.mp hany
  have hmetered := run_metered hrun hroom hpeer ⟨"1"⟩
  refine ⟨engine, room, peer, hrun, hroom, hpeer, ?_, hmetered⟩
  rw [of_decide_eq_true hid]
  decide +kernel

end Engine

end FerriteSfu
