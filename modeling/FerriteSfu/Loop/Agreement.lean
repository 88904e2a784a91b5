import FerriteSfu.Call.Agreement
import FerriteSfu.Call.Simulation
import FerriteSfu.Scripted

/-!
A room is told its news in one order.
-/

namespace FerriteSfu

variable {S : Str0m} {config : Config}

namespace Engine

/-- **A room is told its news in one order.** Of two peers of a room the one that
came first has heard, from the announcement of the other on, exactly what the
other has heard. -/
theorem reachable_inStep {engine : Engine S} (h : (machine S config).Reachable engine)
    {name : String} {room : Room S} (hroom : engine.rooms.lookup name = some room) :
    room.peers.Pairwise fun earlier later =>
      ∃ before, earlier.news = before ++ .peerJoined later.entry :: later.news := by
  have hcall := (Call.inStep_invariant _ _).holds ((reachable_sound h).1.calls name)
  rwa [call_peers hroom] at hcall

/-- Ann, Bob and Carl come to the red room, Bob mutes himself and Ann leaves. -/
def gathering : List (Turn scripted) :=
  [Puppet.turn [Puppet.joins "ann" "red" "a", Puppet.joins "bob" "red" "b"] ["red"] none,
    Puppet.turn [Puppet.joins "carl" "red" "c", (.mute ⟨2⟩ true, ""), (.leave ⟨1⟩, "")] ["red"] none]

theorem reachable_inStep_gathering :
    ∃ engine room, (machine scripted Puppet.config).Reachable engine ∧
      engine.rooms.lookup "red" = some room ∧
      (room.peers.map fun peer => peer.news.length) = [3, 2] ∧
      room.peers.Pairwise fun earlier later =>
        ∃ before, earlier.news = before ++ .peerJoined later.entry :: later.news := by
  obtain ⟨engine, room, hreach, hroom, hcheck⟩ := Puppet.stages gathering "red"
    (fun room => decide ((room.peers.map fun peer => peer.news.length) = [3, 2]))
    (by decide +kernel)
  exact ⟨engine, room, hreach, hroom, of_decide_eq_true hcheck, reachable_inStep hreach hroom⟩

end Engine

end FerriteSfu
