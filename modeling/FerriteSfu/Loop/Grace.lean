import FerriteSfu.Call.Grace
import FerriteSfu.Loop.Blocking

/-!
How long a peer whose ICE is disconnected is kept, in every run of the media loop.
-/

namespace FerriteSfu

variable {S : Str0m} {config : Config}

open Lib (firstOpen)
open IceConnectionState (isDisconnect isRecovery)

namespace Engine

/-- The ICE states the peer `id` reports in a step. -/
def iceChanges (id : PeerId) (engine : Engine S) (event : Event S) : IceLog :=
  ((engine.peerRooms.lookup id).bind fun name =>
    (engine.callEvent name event).map ((engine.call name).iceChanges id)).getD []

/-- The ICE states it reports in a run. -/
def iceLog (id : PeerId) (config : Config) (now : Instant) (events : List (Event S)) : IceLog :=
  (machine S config).outputs (iceChanges id) (start config now) events

/-- What the peer `id` remembers is in line with what it has reported. -/
structure IceLogged (id : PeerId) (engine : Engine S) (log : IceLog) : Prop where
  since : ∀ name, ∀ peer ∈ (engine.call name).peers, peer.id = id → peer.disconnectedSince =
    firstOpen isDisconnect isRecovery log
  states : ∀ name, ∀ peer ∈ (engine.call name).peers, peer.id = id →
    peer.iceStates = log.map Prod.snd
  fresh : engine.nextPeer ≤ id.val → log = []

theorem Sound.lookup_of_mem {engine : Engine S} (h : engine.Sound) {name : String} {peer : Peer S}
    (hpeer : peer ∈ (engine.call name).peers) :
    engine.peerRooms.lookup peer.id = some name := by
  obtain ⟨room, hroom, hmem⟩ := mem_call_peers.mp hpeer
  exact (h.indexed.index _ _).mpr ⟨room, hroom, List.mem_map_of_mem hmem⟩

/-- Nobody has an id that has not been handed out. -/
theorem Sound.iceChanges_fresh {engine : Engine S} (h : engine.Sound) {id : PeerId}
    (hid : engine.nextPeer ≤ id.val) (event : Event S) : engine.iceChanges id event = [] := by
  have hnone : engine.peerRooms.lookup id = none := by
    cases hlookup : engine.peerRooms.lookup id with
    | none => rfl
    | some name =>
        obtain ⟨room, hroom, hmem⟩ := (h.indexed.index id name).mp hlookup
        obtain ⟨peer, hpeer, rfl⟩ := List.mem_map.mp hmem
        have hlt := (h.numbered name).fresh peer (mem_call_peers.mpr ⟨room, hroom, hpeer⟩)
        exact absurd hid (Nat.not_le.mpr hlt)
  rw [iceChanges, hnone]
  rfl

/-- **A step keeps what a peer remembers in line with what it has reported.** -/
theorem Sound.step_iceLogged {engine engine' : Engine S} (h : engine.Sound) {id : PeerId}
    {log : IceLog} (hlog : IceLogged id engine log) {event : Event S}
    (hstep : engine.step event = some engine') :
    IceLogged id engine' (log ++ engine.iceChanges id event) := by
  have hpeer : ∀ name, ∀ peer' ∈ (engine'.call name).peers, peer'.id = id →
      (∃ peer ∈ (engine.call name).peers, peer.id = id ∧
        Peer.IceMoved (engine.iceChanges id event) peer peer') ∨
      (engine.call name).Newcomer peer' := by
    intro name peer' hpeer' hid
    have hcall := (h.step_calls hstep).2.2 name
    unfold CallStep at hcall
    split at hcall
    · rename_i hnone
      rw [hcall] at hpeer'
      have hquiet : engine.iceChanges peer'.id event = [] := by
        rw [iceChanges, h.lookup_of_mem hpeer', Option.bind_some, hnone]
        rfl
      exact .inl ⟨peer', hpeer', hid, hid ▸ hquiet ▸ .refl peer'⟩
    · rename_i ev hev
      refine (Call.step_iceMoved (h.numbered name) hcall peer' hpeer').imp_left fun hold => ?_
      obtain ⟨peer, hmem, hmoved⟩ := hold
      have hsame : peer.id = id := hmoved.id.symm.trans hid
      have hchanges : engine.iceChanges peer.id event =
          (engine.call name).iceChanges peer.id ev := by
        rw [iceChanges, h.lookup_of_mem hmem, Option.bind_some, hev]
        rfl
      exact ⟨peer, hmem, hsame, hsame ▸ hchanges ▸ hmoved⟩
  -- A newcomer has an id of which nothing is known.
  have hnew : engine.nextPeer ≤ id.val → log ++ engine.iceChanges id event = [] := by
    intro hfresh
    rw [hlog.fresh hfresh, h.iceChanges_fresh hfresh event, List.append_nil]
  refine ⟨fun name peer' hpeer' hid => ?_, fun name peer' hpeer' hid => ?_, fun hfresh => ?_⟩
  · rcases hpeer name peer' hpeer' hid with ⟨peer, hmem, hsame, hmoved⟩ | hnewcomer
    · rw [hmoved.since, hlog.since name peer hmem hsame, Lib.firstOpen_append]
    · rw [hnewcomer.since, hnew (hid ▸ hnewcomer.id)]
      rfl
  · rcases hpeer name peer' hpeer' hid with ⟨peer, hmem, hsame, hmoved⟩ | hnewcomer
    · rw [hmoved.states, hlog.states name peer hmem hsame, List.map_append]
    · rw [hnewcomer.states, hnew (hid ▸ hnewcomer.id)]
      rfl
  · exact hnew ((h.nextPeer_le hstep).trans hfresh)

/-- **In every run a peer remembers the first of its disconnects it has not
recovered from.** -/
theorem run_iceLogged {now : Instant} {events : List (Event S)} {engine : Engine S}
    (hrun : (machine S config).run (start config now) events = some engine) (id : PeerId) :
    IceLogged id engine (iceLog id config now events) := by
  have hstart : (machine S config).Reachable (Engine.start config now : Engine S) :=
    .init ⟨now, rfl⟩
  have hnobody : ∀ name, ((Engine.start config now : Engine S).call name).peers = [] :=
    fun name => Call.peers_of_none (by simp [Engine.start])
  refine Lib.Machine.outputs_holds (m := machine S config) (f := iceChanges id)
    (I := fun engine log => IceLogged id engine log)
    (fun engine log event engine' hreach hlog hstep => ?_) hstart
    ⟨by simp [hnobody], by simp [hnobody], fun _ => rfl⟩ hrun
  exact (reachable_sound hreach).1.step_iceLogged hlog hstep

/-! ### Reaping -/

/-- A reap removes those it gives up on, and nobody else. -/
theorem Sound.reap_removes_iff {engine engine' : Engine S} (h : engine.Sound) {now : Instant}
    {order : List String} (hstep : engine.step (.reap now order) = some engine') {name : String}
    {peer : Peer S} (hpeer : peer ∈ (engine.call name).peers) :
    (∀ other, peer.id ∉ (engine'.call other).peers.map Peer.id) ↔ isDead now peer = true := by
  have hsurvive : ∀ other, Survive (fun peer => !isDead now peer) (engine.call other).peers
      (engine'.call other).peers := by
    intro other
    have hcall := (h.step_calls hstep).2.2 other
    simp only [CallStep, callEvent, Call.step, Option.some.injEq] at hcall
    rw [← hcall]
    exact Call.reap_survive (h.numbered other).ids other now
  constructor
  · intro hgone
    by_contra hkept
    obtain ⟨peer', hpeer', huntouched⟩ := (hsurvive name).to_kept peer hpeer (by simpa using hkept)
    exact hgone name (huntouched.id ▸ List.mem_map_of_mem hpeer')
  · intro hdead other hmem
    obtain ⟨peer', hpeer', hid⟩ := List.mem_map.mp hmem
    obtain ⟨old, hold, hkept, huntouched⟩ := (hsurvive other).from_kept peer' hpeer'
    have hsame : old.id = peer.id := huntouched.id.symm.trans hid
    -- Whoever has the id is the peer itself, since an id leads to one room only.
    have hroom : other = name := by
      have hlookup := h.lookup_of_mem hold
      rw [hsame, h.lookup_of_mem hpeer] at hlookup
      exact (Option.some.inj hlookup).symm
    subst hroom
    obtain rfl := List.eq_of_map_eq (h.numbered other).ids hold hpeer hsame
    rw [hdead] at hkept
    cases hkept

theorem isDead_iff_since {now : Instant} {peer : Peer S} (halive : peer.isAlive = true) :
    isDead now peer = true ↔
      ∃ t, peer.disconnectedSince = some t ∧ iceDisconnectGrace ≤ now - t := by
  rw [isDead, halive, Bool.not_true, Bool.false_or, Peer.isAbandoned]
  cases peer.disconnectedSince <;> simp

/-- What a reap at `now` does to the peer `id` that is alive and has reported `log`. -/
structure Graced (now : Instant) (id : PeerId) (log : IceLog) (engine' : Engine S) : Prop where
  removed_iff : (∀ name room, engine'.rooms.lookup name = some room → id ∉ room.ids) ↔
    ∃ before t after, log = before ++ (t, .disconnected) :: after ∧
      iceDisconnectGrace ≤ now - t ∧
      ∀ change ∈ after, change.2 ≠ .connected ∧ change.2 ≠ .completed
  /-- After a first disconnect nothing but a recovery makes a difference. -/
  first : ∀ before t after, log = before ++ (t, .disconnected) :: after →
    (∀ before' s after', before = before' ++ (s, .disconnected) :: after' →
      ∃ change ∈ after', change.2 = .connected ∨ change.2 = .completed) →
    (∀ change ∈ after, change.2 ≠ .connected ∧ change.2 ≠ .completed) →
    ((∀ name room, engine'.rooms.lookup name = some room → id ∉ room.ids) ↔
      iceDisconnectGrace ≤ now - t)

/-- **A peer is given up on for the first disconnect it has not recovered from.** -/
theorem run_graced {start : Instant} {events : List (Event S)} {engine engine' : Engine S}
    (hrun : (machine S config).run (Engine.start config start) events = some engine)
    {name : String} {room : Room S} {peer : Peer S}
    (hroom : engine.rooms.lookup name = some room) (hpeer : peer ∈ room.peers)
    (halive : peer.isAlive = true)
    (htimes : (iceLog peer.id config start events).Pairwise fun change change' =>
      change.1 ≤ change'.1)
    {now : Instant} {order : List String} (hreap : engine.step (.reap now order) = some engine') :
    (iceLog peer.id config start events).map Prod.snd = peer.iceStates ∧
      Graced now peer.id (iceLog peer.id config start events) engine' := by
  have hstart : (machine S config).Reachable (Engine.start config start : Engine S) :=
    .init ⟨start, rfl⟩
  have hsound := (reachable_sound (hstart.of_run hrun)).1
  have hmem : peer ∈ (engine.call name).peers := mem_call_peers.mpr ⟨room, hroom, hpeer⟩
  have hlog := run_iceLogged hrun peer.id
  have hslot := hlog.since name peer hmem rfl
  have hgone : (∀ other room', engine'.rooms.lookup other = some room' → peer.id ∉ room'.ids) ↔
      ∃ t, peer.disconnectedSince = some t ∧ iceDisconnectGrace ≤ now - t := by
    rw [← isDead_iff_since halive, ← hsound.reap_removes_iff hreap hmem]
    refine forall_congr' fun other => ?_
    cases hother : engine'.rooms.lookup other with
    | none => simp [Call.peers, hother]
    | some room' => simp [call_peers hother, Room.ids]
  refine ⟨(hlog.states name peer hmem rfl).symm, ?removed, ?first⟩
  case removed =>
    rw [hgone, hslot, ← IceLog.openSince_iff]
    exact Lib.exists_firstOpen_iff IceConnectionState.isRecovery_of_isDisconnect htimes
      fun s t hle ht => ht.trans (Nat.sub_le_sub_left hle now)
  case first =>
    intro before t after heq hbefore hafter
    have hfree : firstOpen isDisconnect isRecovery
        before = none := by
      cases hopen : firstOpen isDisconnect isRecovery
          before with
      | none => rfl
      | some s =>
          obtain ⟨before', s', after', rfl, -, hnone⟩ := (IceLog.openSince_iff (P := fun _ => True)).mp
            ⟨s, Lib.openSince_of_firstOpen hopen, trivial⟩
          obtain ⟨change, hchange, hrecovery⟩ := hbefore before' s' after' rfl
          exact absurd hrecovery (not_or.mpr (hnone change hchange))
    have hsince : peer.disconnectedSince = some t := by
      rw [hslot, heq, Lib.firstOpen_append_cons IceConnectionState.isRecovery_of_isDisconnect
        before t rfl fun change hchange =>
          IceConnectionState.isRecovery_eq_false.mpr (hafter change hchange), hfree]
      rfl
    rw [hgone, hsince]
    simp

/-- Ann's instance reports `states` while the clock shows `now`. -/
def flaps (now : Instant) (states : List IceConnectionState) : List (Event scripted) :=
  [.readOnce now ⟨"a", states.map .iceConnectionStateChange⟩ ["red"],
    .pollRooms now ["red"] fun _ _ => List.replicate 8 now]

/-- Ann's connection breaks off, recovers, breaks off for good and does not stop
saying so; a reap in between leaves her alone. -/
def flapping : List (Event scripted) :=
  .command (Puppet.joins "ann" "red" "a").1 "a" ::
    (flaps (Duration.fromSecs 1) [.connected, .disconnected] ++
      flaps (Duration.fromSecs 5) [.completed] ++
      flaps (Duration.fromSecs 10) [.disconnected] ++
      [.reap (Duration.fromSecs 21) ["red"]] ++
      flaps (Duration.fromSecs 25) [.checking, .disconnected])

theorem run_graced_flapping :
    ∃ engine engine', (machine scripted Puppet.config).run (start Puppet.config 0) flapping =
        some engine ∧
      engine.step (.reap (Duration.fromSecs 30) ["red"]) = some engine' ∧
      (iceLog ⟨1⟩ Puppet.config 0 flapping).map Prod.snd =
        [.connected, .disconnected, .completed, .disconnected, .checking, .disconnected] ∧
      Graced (Duration.fromSecs 30) ⟨1⟩ (iceLog ⟨1⟩ Puppet.config 0 flapping) engine' := by
  obtain ⟨engine, hrun, hcheck⟩ := (Option.any_eq_true _ _).mp (by decide +kernel :
    ((machine scripted Puppet.config).run (start Puppet.config 0) flapping).any (fun engine =>
      (engine.step (.reap (Duration.fromSecs 30) ["red"])).isSome &&
      (engine.rooms.lookup "red").any fun room =>
        room.peers.any fun peer => decide (peer.id = ⟨1⟩) && peer.isAlive) = true)
  obtain ⟨hsome, hany⟩ := Bool.and_eq_true_iff.mp hcheck
  obtain ⟨engine', hreap⟩ := Option.isSome_iff_exists.mp hsome
  obtain ⟨room, hroom, hany⟩ := (Option.any_eq_true _ _).mp hany
  obtain ⟨peer, hpeer, hboth⟩ := List.any_eq_true.mp hany
  obtain ⟨hid, halive⟩ := Bool.and_eq_true_iff.mp hboth
  have hgraced := (run_graced hrun hroom hpeer halive
    (by rw [of_decide_eq_true hid]; decide +kernel) hreap).2
  rw [of_decide_eq_true hid] at hgraced
  exact ⟨engine, engine', hrun, hreap, by decide +kernel, hgraced⟩

end Engine

end FerriteSfu
