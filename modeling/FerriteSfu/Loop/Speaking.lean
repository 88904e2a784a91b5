import FerriteSfu.Call.Simulation
import FerriteSfu.Call.Speaking
import FerriteSfu.Scripted

/-!
Who is speaking, as the members of a room of the media loop see it.

The broadcast is left out when the set has not moved since the last one. That
stands for everyone only if everyone was there for the last one.
-/

namespace FerriteSfu

variable {S : Str0m} {config : Config}

/-- Every member's view is the set of those who speak at `now`. -/
def Room.EveryoneSees (now : Instant) (room : Room S) : Prop :=
  ∀ peer ∈ room.peers, ∀ id, id ∈ replaySpeakers peer.out ↔ room.IsSpeaker now id

/-- Somebody is speaking, and they are those of the last broadcast, only if
everyone has been told of a set since joining. -/
def Room.EveryoneTold (now : Instant) (room : Room S) : Prop :=
  room.speaking ≠ [] → (∀ id, id ∈ room.speaking ↔ room.IsSpeaker now id) →
    ∀ peer ∈ room.peers, (toldSpeakers peer.out).isSome = true

namespace Room

theorem isSpeaker_syncSpeaking {now : Instant} {room : Room S} {id : String} :
    (room.syncSpeaking now).IsSpeaker now id ↔ room.IsSpeaker now id := by
  rcases syncSpeaking_cases now room with ⟨-, heq⟩ | ⟨-, heq⟩ <;> rw [heq]
  · simp only [IsSpeaker, List.mem_map, exists_exists_and_eq_and]
    rfl

/-- **After the tick everyone sees who speaks, exactly if the tick did not skip
anyone who has not been told.** -/
theorem everyoneSees_iff {next : ℕ} {room : Room S} (h : Call.SpeakingTold next room)
    (hids : room.ids.Nodup) (now : Instant) :
    (room.syncSpeaking now).EveryoneSees now ↔ room.EveryoneTold now := by
  unfold EveryoneSees
  simp only [isSpeaker_syncSpeaking, replaySpeakers_eq]
  rcases syncSpeaking_cases now room with ⟨hsame, heq⟩ | ⟨hsame, heq⟩ <;> rw [heq]
  · have hset := (currentSpeakers_eq_iff hids h.sorted h.nodup).mp hsame
    simp only [← hset]
    constructor
    · intro hsees hspeaking _ peer hpeer
      -- Whoever has not been told sees nobody.
      by_contra hnot
      rw [Bool.not_eq_true, Option.isSome_eq_false_iff, Option.isNone_iff_eq_none] at hnot
      obtain ⟨id, hid⟩ := List.exists_mem_of_ne_nil _ hspeaking
      have hmem := (hsees peer hpeer id).mpr hid
      simp [hnot] at hmem
    · intro htold peer hpeer id
      by_cases hspeaking : room.speaking = []
      · cases hids' : toldSpeakers peer.out with
        | none => simp [hspeaking]
        | some ids => rw [h.told peer hpeer ids hids', Option.getD_some]
      · obtain ⟨ids, hids'⟩ := Option.isSome_iff_exists.mp (htold hspeaking hset peer hpeer)
        rw [hids', h.told peer hpeer ids hids', Option.getD_some]
  · have hmoved : ¬∀ id, id ∈ room.speaking ↔ room.IsSpeaker now id :=
      fun hset => hsame ((currentSpeakers_eq_iff hids h.sorted h.nodup).mpr hset)
    refine iff_of_true (fun peer hpeer id => ?_) fun _ hset => absurd hset hmoved
    obtain ⟨old, -, rfl⟩ := List.mem_map.mp hpeer
    rw [Peer.send_out, toldSpeakers_push]
    exact mem_currentSpeakers

end Room

namespace Engine

/-- **In every run, a tick leaves everyone in a room seeing who speaks, exactly
if it does not keep an unchanged set from someone who has not been told any.** -/
theorem run_speakers {began : Instant} {events : List (Event S)} {engine engine' : Engine S}
    (hrun : (machine S config).run (start config began) events = some engine)
    {now : Instant} {order : List String}
    (hstep : engine.step (.tickSpeaking now order) = some engine')
    (hdue : speakingTick ≤ now - engine.lastSpeaking) {name : String} {room room' : Room S}
    (hroom : engine.rooms.lookup name = some room)
    (hroom' : engine'.rooms.lookup name = some room') :
    room'.EveryoneSees now ↔ room.EveryoneTold now := by
  have hreach : (machine S config).Reachable engine := .of_run (.init ⟨began, rfl⟩) hrun
  obtain ⟨hsound, -⟩ := reachable_sound hreach
  obtain ⟨horder, heq⟩ := step_eq_some hstep
  cases heq
  have hcall := tickSpeaking_call now (horder order rfl) name (Nat.not_lt.mpr hdue)
  have hlookup := congrArg Call.room hcall
  rw [call_room, hroom'] at hlookup
  simp only [call_room, hroom, Option.map_some, Option.some.injEq] at hlookup
  rw [hlookup]
  exact Room.everyoneSees_iff
    ((Call.speakingTold_invariant _ _).holds (hsound.calls name) room hroom)
    (hsound.ids hroom) now

/-- Ann is heard in the red room, and the tick at 200 ms tells so. -/
def monologue : List (Event scripted) :=
  [Puppet.turn [Puppet.joins "ann" "red" "a"] ["red"]
      (some ⟨"a", [Puppet.announces "0" .audio, Puppet.voice "0"]⟩),
    { Puppet.turn [] ["red"] none with tickNow := Duration.fromMillis 200 }].flatMap Turn.events

/-- Bob joins while Ann is still speaking, and is polled before the next tick. -/
def latecomer : List (Event scripted) :=
  monologue ++ [.command (Puppet.joins "bob" "red" "b").1 "b",
    .pollRooms 0 ["red"] fun _ _ => List.replicate 8 0, .reportConnections ["red"], .reap 0 ["red"]]

/-- The tick at 400 ms after the events. -/
def ticked (events : List (Event scripted)) : Option (Engine scripted × Engine scripted) :=
  ((machine scripted Puppet.config).run (start Puppet.config 0) events).bind fun engine =>
    (engine.step (.tickSpeaking (Duration.fromMillis 400) ["red"])).map fun engine' =>
      (engine, engine')

/-- A tick that is due, with the red room before and after it. -/
theorem ticked_check (events : List (Event scripted))
    (check : Room scripted → Room scripted → Bool)
    (h : (ticked events).any (fun ticked =>
      decide (speakingTick ≤ Duration.fromMillis 400 - ticked.1.lastSpeaking) &&
        (ticked.1.rooms.lookup "red").any fun room =>
          (ticked.2.rooms.lookup "red").any fun room' => check room room') = true) :
    ∃ engine engine' room room',
      (machine scripted Puppet.config).run (start Puppet.config 0) events = some engine ∧
      engine.step (.tickSpeaking (Duration.fromMillis 400) ["red"]) = some engine' ∧
      speakingTick ≤ Duration.fromMillis 400 - engine.lastSpeaking ∧
      engine.rooms.lookup "red" = some room ∧ engine'.rooms.lookup "red" = some room' ∧
      check room room' = true := by
  obtain ⟨pair, hticked, hcheck⟩ := (Option.any_eq_true _ _).mp h
  obtain ⟨engine, hrun, hmap⟩ := Option.bind_eq_some_iff.mp hticked
  obtain ⟨engine', hstep, rfl⟩ := Option.map_eq_some_iff.mp hmap
  rw [Bool.and_eq_true, decide_eq_true_eq] at hcheck
  obtain ⟨room, hroom, hrest⟩ := (Option.any_eq_true _ _).mp hcheck.2
  obtain ⟨room', hroom', hall⟩ := (Option.any_eq_true _ _).mp hrest
  exact ⟨engine, engine', room, room', hrun, hstep, hcheck.1, hroom, hroom', hall⟩

theorem run_speakers_monologue :
    ∃ engine engine' room room',
      (machine scripted Puppet.config).run (start Puppet.config 0) monologue = some engine ∧
      engine.step (.tickSpeaking (Duration.fromMillis 400) ["red"]) = some engine' ∧
      engine.rooms.lookup "red" = some room ∧ engine'.rooms.lookup "red" = some room' ∧
      room.speaking ≠ [] ∧ room'.EveryoneSees (Duration.fromMillis 400) := by
  obtain ⟨engine, engine', room, room', hrun, hstep, hdue, hroom, hroom', hcheck⟩ :=
    ticked_check monologue (fun room _ =>
      decide (room.speaking ≠ []) &&
        room.peers.all fun peer => (toldSpeakers peer.out).isSome) (by decide +kernel)
  rw [Bool.and_eq_true, decide_eq_true_eq, List.all_eq_true] at hcheck
  exact ⟨engine, engine', room, room', hrun, hstep, hroom, hroom', hcheck.1,
    (run_speakers hrun hstep hdue hroom hroom').mpr fun _ _ => hcheck.2⟩

/-- **Bob, who joined while Ann was speaking, sees nobody speak.** -/
theorem speakers_fails :
    ∃ engine engine' room',
      (machine scripted Puppet.config).run (start Puppet.config 0) latecomer = some engine ∧
      engine.step (.tickSpeaking (Duration.fromMillis 400) ["red"]) = some engine' ∧
      speakingTick ≤ Duration.fromMillis 400 - engine.lastSpeaking ∧
      engine'.rooms.lookup "red" = some room' ∧
      ¬room'.EveryoneSees (Duration.fromMillis 400) := by
  obtain ⟨engine, engine', room, room', hrun, hstep, hdue, -, hroom', hcheck⟩ :=
    ticked_check latecomer (fun _ room =>
      (room.peers.any fun peer => !peer.muted && peer.isSpeaking (Duration.fromMillis 400)) &&
        room.peers.any fun peer => decide (replaySpeakers peer.out = [])) (by decide +kernel)
  rw [Bool.and_eq_true, List.any_eq_true, List.any_eq_true] at hcheck
  obtain ⟨⟨ann, hann, hspeaks⟩, bob, hbob, hnobody⟩ := hcheck
  rw [Bool.and_eq_true, Bool.not_eq_true'] at hspeaks
  refine ⟨engine, engine', room', hrun, hstep, hdue, hroom', fun hsees => ?_⟩
  have hmem := (hsees bob hbob ann.id.asString).mpr ⟨ann, hann, hspeaks.1, hspeaks.2, rfl⟩
  simp [of_decide_eq_true hnobody] at hmem

end Engine

end FerriteSfu
