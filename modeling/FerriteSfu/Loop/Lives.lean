import FerriteSfu.Call.Lives
import FerriteSfu.Loop.Grace

/-!
The lives of the peers in a run of the media loop.
-/

namespace FerriteSfu

variable {S : Str0m} {config : Config}

open Lib (Lived)

namespace Engine

/-- The iterations that poll the peer `id` in a step. -/
def polls (id : PeerId) (engine : Engine S) (event : Event S) : List (Poll S) :=
  ((engine.peerRooms.lookup id).bind fun name =>
    (engine.callEvent name event).map ((engine.call name).polls id)).getD []

/-- The iterations that poll it in a run. -/
def pollLog (id : PeerId) (config : Config) (now : Instant) (events : List (Event S)) :
    List (Poll S) :=
  (machine S config).outputs (polls id) (start config now) events

/-- The peer `id` was born, and has gone through these iterations. -/
structure Grown (id : PeerId) (engine : Engine S) (log : List (Poll S)) : Prop where
  life : ∀ name, ∀ peer ∈ (engine.call name).peers, peer.id = id →
    ∃ newborn : Peer S, newborn.Newborn ∧ Peer.Lives log newborn peer
  fresh : engine.nextPeer ≤ id.val → log = []

theorem Sound.polls_fresh {engine : Engine S} (h : engine.Sound) {id : PeerId}
    (hid : engine.nextPeer ≤ id.val) (event : Event S) : engine.polls id event = [] := by
  have hnone : engine.peerRooms.lookup id = none := by
    cases hlookup : engine.peerRooms.lookup id with
    | none => rfl
    | some name =>
        obtain ⟨room, hroom, hmem⟩ := (h.indexed.index id name).mp hlookup
        obtain ⟨peer, hpeer, rfl⟩ := List.mem_map.mp hmem
        have hlt := (h.numbered name).fresh peer (mem_call_peers.mpr ⟨room, hroom, hpeer⟩)
        exact absurd hid (Nat.not_le.mpr hlt)
  rw [polls, hnone]
  rfl

theorem Sound.polls_eq {engine : Engine S} (h : engine.Sound) {name : String} {peer : Peer S}
    (hpeer : peer ∈ (engine.call name).peers) (event : Event S) :
    engine.polls peer.id event =
      ((engine.callEvent name event).map ((engine.call name).polls peer.id)).getD [] := by
  rw [polls, h.lookup_of_mem hpeer, Option.bind_some]

/-- A step takes a peer through the iterations that poll it. -/
theorem Sound.step_lives {engine engine' : Engine S} (h : engine.Sound) {event : Event S}
    (hstep : engine.step event = some engine') {name : String} {peer' : Peer S}
    (hpeer' : peer' ∈ (engine'.call name).peers) :
    (∃ peer ∈ (engine.call name).peers, Peer.Lives (engine.polls peer.id event) peer peer') ∨
      (engine.call name).HasNewborn peer' := by
  have hcall := (h.step_calls hstep).2.2 name
  unfold CallStep at hcall
  cases hev : engine.callEvent name event with
  | none =>
      simp only [hev] at hcall
      rw [hcall] at hpeer'
      refine .inl ⟨peer', hpeer', ?_⟩
      rw [h.polls_eq hpeer', hev]
      exact .refl peer'
  | some ev =>
      simp only [hev] at hcall
      refine (Call.step_lives (h.numbered name) hcall peer' hpeer').imp_left fun hold => ?_
      obtain ⟨peer, hmem, hlives⟩ := hold
      refine ⟨peer, hmem, ?_⟩
      rw [h.polls_eq hmem, hev]
      exact hlives

theorem Sound.step_grown {engine engine' : Engine S} (h : engine.Sound) {id : PeerId}
    {log : List (Poll S)} (hlog : Grown id engine log) {event : Event S}
    (hstep : engine.step event = some engine') :
    Grown id engine' (log ++ engine.polls id event) := by
  -- Nothing is known of an id that has not been handed out.
  have hnew : engine.nextPeer ≤ id.val → log ++ engine.polls id event = [] := by
    intro hfresh
    rw [hlog.fresh hfresh, h.polls_fresh hfresh event, List.append_nil]
  refine ⟨fun name peer' hpeer' hid => ?_, fun hfresh => hnew ((h.nextPeer_le hstep).trans hfresh)⟩
  rcases h.step_lives hstep hpeer' with ⟨peer, hmem, hlives⟩ | ⟨hfresh, hborn⟩
  · have hsame : peer.id = id := hlives.id.symm.trans hid
    obtain ⟨newborn, hborn, hlived⟩ := hlog.life name peer hmem hsame
    exact ⟨newborn, hborn, hlived.trans (hsame ▸ hlives)⟩
  · rw [hnew (hid ▸ hfresh)]
    exact ⟨peer', hborn, .refl peer'⟩

/-- **In every run each peer was born, and has gone through the iterations that
polled it.** -/
theorem run_grown {now : Instant} {events : List (Event S)} {engine : Engine S}
    (hrun : (machine S config).run (start config now) events = some engine) (id : PeerId) :
    Grown id engine (pollLog id config now events) := by
  have hnobody : ∀ name, ((Engine.start config now : Engine S).call name).peers = [] :=
    fun name => Call.peers_of_none (by simp [Engine.start])
  refine Lib.Machine.outputs_holds (m := machine S config) (f := polls id)
    (I := fun engine log => Grown id engine log)
    (fun engine log event engine' hreach hlog hstep => ?_) (.init ⟨now, rfl⟩)
    ⟨by simp [hnobody], fun _ => rfl⟩ hrun
  exact (reachable_sound hreach).1.step_grown hlog hstep

end Engine

end FerriteSfu
