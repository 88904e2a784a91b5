import FerriteSfu.Call.SpeakingCache
import FerriteSfu.Loop.Speaking

/-!
The set of speakers every room keeps, in every run of the media loop.
-/

namespace FerriteSfu

variable {S : Str0m} {config : Config}

open Lib (News LastTold)

namespace Engine

/-- What a step makes of the room `name`, as far as its speakers are concerned. -/
def speakingNews (name : String) (engine : Engine S) (event : Event S) : List (News String) :=
  ((engine.step event).map fun engine' =>
    (engine.call name).chronicle (engine'.call name)).getD []

/-- What a run makes of it. -/
def speakingLog (name : String) (config : Config) (now : Instant) (events : List (Event S)) :
    List (News String) :=
  (machine S config).outputs (speakingNews name) (start config now) events

/-- **Each step keeps what a room keeps in line with its chronicle.** -/
theorem Sound.step_chronicled {engine engine' : Engine S} (h : engine.Sound) {event : Event S}
    (hstep : engine.step event = some engine') {name : String} {log : List (News String)}
    (hlog : (engine.call name).Chronicled log) :
    (engine'.call name).Chronicled (log ++ (engine.call name).chronicle (engine'.call name)) ∧
      ∀ peer ∈ (engine'.call name).peers, spoken peer.out =
        (engine.call name).heard peer.id ++ (engine.call name).toldSince (engine'.call name) := by
  have hnum := h.numbered name
  have hpeople : ∀ room', (engine'.call name).room = some room' → room'.peers ≠ [] :=
    fun room' hroom' => (h.step hstep).indexed.nonempty name room' hroom'
  have hcall := (h.step_calls hstep).2.2 name
  unfold CallStep at hcall
  split at hcall
  · -- The step is no business of this room.
    rw [hcall]
    have hself := Call.chronicle_self hnum.ids
    have htold : (engine.call name).toldSince (engine.call name) = [] := by
      unfold Call.chronicle at hself
      exact List.map_eq_nil_iff.mp (List.append_eq_nil_iff.mp hself).2
    rw [hself, htold, List.append_nil]
    exact ⟨hlog, fun peer hpeer => by rw [Call.heard_of_mem hnum.ids hpeer, List.append_nil]⟩
  · exact hlog.step hnum hpeople hcall

/-- What a room keeps, and what it broadcast. -/
structure CacheCoherent (name : String) (engine : Engine S) (log : List (News String)) :
    Prop where
  /-- The list of the last broadcast without the ids removed since. -/
  kept : ∀ room, engine.rooms.lookup name = some room →
    room.speaking = (LastTold.of log).kept
  sorted : ∀ room, engine.rooms.lookup name = some room → room.speaking.Pairwise (· ≤ ·)
  nodup : ∀ room, engine.rooms.lookup name = some room → room.speaking.Nodup
  members : ∀ room, engine.rooms.lookup name = some room →
    ∀ id ∈ room.speaking, ∃ peer ∈ room.peers, peer.id.asString = id
  /-- Between two equal lists the room was opened anew, or a third was broadcast. -/
  noRepeats : ∀ before ids mid ids' after, log = before ++ .told ids :: (mid ++ .told ids' :: after) →
    (∀ news ∈ mid, ∃ id, news = .removed id) → ids ≠ ids'

/-- In this step every member hears what the chronicle has it broadcast. -/
def ToldAlike (name : String) (engine engine' : Engine S) : Prop :=
  ∀ peer ∈ (engine'.call name).peers, spoken peer.out =
    (engine.call name).heard peer.id ++ (engine.call name).toldSince (engine'.call name)

/-- **The set a room keeps is coherent, and no broadcast is redundant.** -/
theorem run_cacheCoherent {now : Instant} {events : List (Event S)} {engine : Engine S}
    (hrun : (machine S config).run (start config now) events = some engine) (name : String) :
    CacheCoherent name engine (speakingLog name config now events) ∧
      ∀ before event after, events = before ++ event :: after → ∃ mid mid',
        (machine S config).run (start config now) before = some mid ∧
          mid.step event = some mid' ∧ ToldAlike name mid mid' := by
  have hstart : (machine S config).Reachable (Engine.start config now : Engine S) :=
    .init ⟨now, rfl⟩
  have hfirst : ((Engine.start config now : Engine S).call name).Chronicled [] := by
    refine ⟨fun hsome => ?_, fun id hid => ?_, fun id hid => ?_, trivial⟩
    · simp [call, Engine.start] at hsome
    · simp [Call.speaking, call, Engine.start] at hid
    · cases hid
  have hchronicled : ∀ {events : List (Event S)} {engine : Engine S},
      (machine S config).run (start config now) events = some engine →
        (engine.call name).Chronicled (speakingLog name config now events) := by
    intro events engine hrun
    refine Lib.Machine.outputs_holds (m := machine S config) (f := speakingNews name)
      (I := fun engine log => (engine.call name).Chronicled log)
      (fun engine log event engine' hreach hlog hstep => ?_) hstart hfirst hrun
    have hstep' : engine.step event = some engine' := hstep
    rw [speakingNews, hstep', Option.map_some, Option.getD_some]
    exact ((reachable_sound hreach).1.step_chronicled hstep hlog).1
  have hlast := hchronicled hrun
  have htold := Call.RoomInvariant.holds (Call.speakingTold_invariant config fun _ _ => True)
    ((reachable_sound (hstart.of_run hrun)).2 ▸
      (reachable_sound (hstart.of_run hrun)).1.calls name)
  refine ⟨⟨fun room hroom => ?kept, fun room hroom => (htold room hroom).sorted,
    fun room hroom => (htold room hroom).nodup, fun room hroom id hid => ?members,
    fun before ids mid ids' after heq hmid => ?noRepeats⟩, fun before event after heq => ?steps⟩
  case kept =>
    have hspeaking : (engine.call name).speaking = room.speaking := Call.speaking_of_room hroom
    exact hspeaking ▸ hlast.kept (by simp [hroom])
  case members =>
    have hspeaking : (engine.call name).speaking = room.speaking := Call.speaking_of_room hroom
    obtain ⟨peer, hpeer, he⟩ := hlast.members id (hspeaking.symm ▸ hid)
    exact ⟨peer, call_peers hroom ▸ hpeer, he⟩
  case noRepeats =>
    have hnoRepeats := hlast.noRepeats
    rw [heq] at hnoRepeats
    exact hnoRepeats.ne hmid
  case steps =>
    rw [heq, Lib.Machine.run_append] at hrun
    obtain ⟨mid, hmid, hrest⟩ := Option.bind_eq_some_iff.mp hrun
    obtain ⟨mid', hstep, -⟩ := Option.bind_eq_some_iff.mp hrest
    exact ⟨mid, mid', hmid, hstep,
      ((reachable_sound (hstart.of_run hmid)).1.step_chronicled hstep (hchronicled hmid)).2⟩

/-- Ann is heard again, with Bob there, and Bob leaves. -/
def encore : List (Event scripted) :=
  monologue ++ [.command (Puppet.joins "bob" "red" "b").1 "b",
    .tickSpeaking (Duration.fromSecs 2) ["red"], .command (.leave ⟨2⟩) ""]

theorem run_cacheCoherent_encore :
    ∃ engine, (machine scripted Puppet.config).run (start Puppet.config 0) encore = some engine ∧
      speakingLog "red" Puppet.config 0 encore =
        [.opened, .told ["1"], .told [], .removed "2"] ∧
      CacheCoherent "red" engine (speakingLog "red" Puppet.config 0 encore) := by
  obtain ⟨engine, hrun⟩ := Option.isSome_iff_exists.mp (by decide +kernel :
    ((machine scripted Puppet.config).run (start Puppet.config 0) encore).isSome = true)
  exact ⟨engine, hrun, by decide +kernel, (run_cacheCoherent hrun "red").1⟩

end Engine

end FerriteSfu
