import FerriteSfu.Call.Voices
import FerriteSfu.Loop.Lives
import FerriteSfu.Loop.Speaking

/-!
Who is shown as speaking, in terms of the packets that came in.
-/

namespace FerriteSfu

variable {S : Str0m} {config : Config}

theorem Room.syncSpeaking_speaking (now : Instant) (room : Room S) :
    (room.syncSpeaking now).speaking = room.currentSpeakers now := by
  rcases room.syncSpeaking_cases now with ⟨hsame, heq⟩ | ⟨-, heq⟩ <;> rw [heq]
  exact hsame.symm

namespace Engine

/-- All the `Rtc` of the peer `id` has put out in a run. -/
def heardOf (id : PeerId) (config : Config) (now : Instant) (events : List (Event S)) :
    Timeline S :=
  timeline (pollLog id config now events)

theorem run_heard {began : Instant} {events : List (Event S)} {engine : Engine S}
    (hrun : (machine S config).run (start config began) events = some engine) {name : String}
    {peer : Peer S} (hpeer : peer ∈ (engine.call name).peers) :
    Peer.Heard peer.id (heardOf peer.id config began events) peer := by
  obtain ⟨newborn, hborn, hlives⟩ := (run_grown hrun peer.id).life name peer hpeer rfl
  exact hlives.heard hborn

/-- **A tick that is due shows as speaking those who are not muted and of whom a
voice packet came less than 600 ms ago, and nobody else.** -/
theorem run_voices {began : Instant} {events : List (Event S)} {engine engine' : Engine S}
    (hrun : (machine S config).run (start config began) events = some engine)
    {now : Instant} {order : List String}
    (hstep : engine.step (.tickSpeaking now order) = some engine')
    (hdue : speakingTick ≤ now - engine.lastSpeaking) {name : String} {room room' : Room S}
    (hroom : engine.rooms.lookup name = some room)
    (hroom' : engine'.rooms.lookup name = some room')
    (hclock : ∀ peer ∈ room.peers, (heardOf peer.id config began events).Pairwise
      fun entry entry' => entry.1 ≤ entry'.1) :
    (∀ peer ∈ room.peers, (heardOf peer.id config began events).map Prod.snd = peer.outputs) ∧
    ∀ id, id ∈ room'.speaking ↔ ∃ peer ∈ room.peers, peer.id.asString = id ∧
      peer.muted = false ∧ (heardOf peer.id config began events).VoiceAt now := by
  have hheard : ∀ peer ∈ room.peers, Peer.Heard peer.id (heardOf peer.id config began events) peer :=
    fun peer hpeer => run_heard hrun (mem_call_peers.mpr ⟨room, hroom, hpeer⟩)
  refine ⟨fun peer hpeer => (hheard peer hpeer).outputs.symm, fun id => ?_⟩
  have hsynced : room' = room.syncSpeaking now := by
    obtain ⟨horder, heq⟩ := step_eq_some hstep
    cases heq
    have hcall := congrArg Call.room
      (tickSpeaking_call now (horder order rfl) name (Nat.not_lt.mpr hdue))
    simpa only [call_room, hroom, hroom', Option.map_some, Option.some.injEq] using hcall
  rw [hsynced, Room.syncSpeaking_speaking, Room.mem_currentSpeakers]
  constructor
  · rintro ⟨peer, hpeer, hmuted, hspeaks, hid⟩
    exact ⟨peer, hpeer, hid, hmuted,
      ((hheard peer hpeer).isSpeaking_iff (hclock peer hpeer) now).mp hspeaks⟩
  · rintro ⟨peer, hpeer, hid, hmuted, hvoice⟩
    exact ⟨peer, hpeer, hmuted,
      ((hheard peer hpeer).isSpeaking_iff (hclock peer hpeer) now).mpr hvoice, hid⟩

/-- The instance of `name` reports `events` while the clock shows `now`. -/
def utters (now : Instant) (name : String) (events : List (RtcEvent Unit Unit)) :
    List (Event scripted) :=
  [.readOnce now ⟨name, events⟩ ["red"], .pollRooms now ["red"] fun _ _ => List.replicate 8 now]

/-- Ann and Bob both talk, and Bob mutes himself; Carl only sends packets. -/
def chatter : List (Event scripted) :=
  [.command (Puppet.joins "ann" "red" "a").1 "a", .command (Puppet.joins "bob" "red" "b").1 "b",
    .command (Puppet.joins "carl" "red" "c").1 "c"] ++
    utters (Duration.fromMillis 100) "a" [Puppet.announces "0" .audio, Puppet.voice "0"] ++
    utters (Duration.fromMillis 150) "b" [Puppet.announces "0" .audio, Puppet.voice "0"] ++
    utters (Duration.fromMillis 200) "c" [Puppet.announces "0" .audio, Puppet.packet "0"] ++
    [.command (.mute ⟨2⟩ true) ""]

theorem run_voices_chatter :
    ∃ engine engine' room room',
      (machine scripted Puppet.config).run (start Puppet.config 0) chatter = some engine ∧
      engine.step (.tickSpeaking (Duration.fromMillis 400) ["red"]) = some engine' ∧
      engine.rooms.lookup "red" = some room ∧ engine'.rooms.lookup "red" = some room' ∧
      room'.speaking = ["1"] ∧
      ∀ id, id ∈ room'.speaking ↔ ∃ peer ∈ room.peers, peer.id.asString = id ∧
        peer.muted = false ∧
        (heardOf peer.id Puppet.config 0 chatter).VoiceAt (Duration.fromMillis 400) := by
  obtain ⟨engine, engine', room, room', hrun, hstep, hdue, hroom, hroom', hcheck⟩ :=
    ticked_check chatter (fun room room' => decide (room'.speaking = ["1"]) &&
      decide (room.ids = [⟨1⟩, ⟨2⟩, ⟨3⟩])) (by decide +kernel)
  rw [Bool.and_eq_true, decide_eq_true_eq, decide_eq_true_eq] at hcheck
  have hclock : ∀ id ∈ room.ids, (heardOf id Puppet.config 0 chatter).Pairwise
      fun entry entry' => entry.1 ≤ entry'.1 := by
    rw [hcheck.2]
    decide +kernel
  exact ⟨engine, engine', room, room', hrun, hstep, hroom, hroom', hcheck.1,
    (run_voices hrun hstep hdue hroom hroom' fun peer hpeer =>
      hclock peer.id (List.mem_map_of_mem hpeer)).2⟩

end Engine

end FerriteSfu
