import FerriteSfu.Loop.Departures
import FerriteSfu.Scripted

/-!
The peers that leave, and what becomes of them.

A peer leaves by a command, by a reap, or because its user joined again. Its id
is then in no room and in no index, and since ids are handed out in ascending
order nothing ever puts it back: whatever its socket still sends is ignored.
-/

namespace FerriteSfu

variable {S : Str0m} {config : Config}

/-- A peer as a replacement leaves it. -/
def Peer.replaced (peer : Peer S) : Peer S :=
  Peer.send (.error "replaced" "Joined from another tab.")
    { peer with reported := false, rtc := S.disconnect peer.rtc }

/-- Every replaced peer was a member of the room, or of what the removals before
its own had left of it. -/
theorem Room.mem_retired {P : Room S → Prop}
    (hremove : ∀ room id peer room', room.ids.Nodup → P room →
      room.remove id = some (peer, room') → P room')
    {room : Room S} (hids : room.ids.Nodup) (h : P room) {stale : List PeerId} {gone : Peer S}
    (hgone : gone ∈ (room.retire stale).2) :
    ∃ room', P room' ∧ ∃ peer ∈ room'.peers, gone = peer.replaced := by
  induction stale generalizing room with
  | nil => simp [retire] at hgone
  | cons old stale ih =>
      rw [retire] at hgone
      split at hgone
      · exact ih hids h hgone
      · rename_i peer room' hsome
        rcases List.mem_cons.mp hgone with rfl | hgone
        · exact ⟨room, h, peer, (remove_eq_some hids hsome).1.1, rfl⟩
        · exact ih (remove_ids_nodup hids hsome) (hremove room old peer room' hids h hsome) hgone

/-- A user who joins again is in the room once, so a join replaces one peer at most. -/
theorem Room.retire_stale {room : Room S} (hids : room.ids.Nodup)
    (husers : (room.peers.map (·.userId)).Nodup) (sub : String) :
    (room.retire (Call.stale sub room)).2 =
      (room.peers.filter fun peer => peer.userId = sub).map Peer.replaced := by
  unfold Call.stale
  by_cases hsub : ∃ peer ∈ room.peers, peer.userId = sub
  · obtain ⟨peer, hpeer, rfl⟩ := hsub
    have hone : (room.peers.filter fun existing => existing.userId = peer.userId) = [peer] :=
      List.filter_key_eq_singleton husers hpeer rfl
    have hfind : room.peers.find? (fun other => other.id = peer.id) = some peer :=
      (List.find?_key_eq_some hids).mpr ⟨hpeer, rfl⟩
    simp [hone, retire, remove, hfind, Peer.replaced]
  · have hnone : (room.peers.filter fun existing => existing.userId = sub) = [] :=
      List.filter_eq_nil_iff.mpr fun peer hpeer => by simpa using fun he => hsub ⟨peer, hpeer, he⟩
    simp [hnone, retire]

namespace Engine

/-- The peer `room_of_mut` and `peer_mut` lead to. -/
def peerOf (id : PeerId) (engine : Engine S) : Option (Peer S) :=
  (engine.peerRooms.lookup id).bind fun name =>
    (engine.rooms.lookup name).bind fun room => room.peers.find? fun peer => peer.id = id

/-- The peer a call of `drop_peer` removes, as the call finds it. -/
def removed (call : PeerId × Engine S) : Option (Peer S) := call.2.peerOf call.1

/-- The peers an event makes leave, as the engine lets go of them. -/
def leavers (engine : Engine S) : Event S → List (Peer S)
  | .command (.join request) seed => (engine.handleJoin request seed).2.replaced
  | event => (engine.dropCalls event).filterMap removed

/-- Everyone who left in the course of a run. -/
def departed (config : Config) (now : Instant) (events : List (Event S)) : List (Peer S) :=
  (machine S config).outputs leavers (start config now) events

/-- The peer is in one of the rooms. -/
def Holds (engine : Engine S) (peer : Peer S) : Prop :=
  ∃ name room, engine.rooms.lookup name = some room ∧ peer ∈ room.peers

theorem Sound.holds_indexed {engine : Engine S} (h : engine.Sound) {peer : Peer S}
    (hpeer : engine.Holds peer) : (engine.peerRooms.lookup peer.id).isSome = true := by
  obtain ⟨name, room, hroom, hmem⟩ := hpeer
  have hindex := (h.indexed.index peer.id name).mpr ⟨room, hroom, List.mem_map_of_mem hmem⟩
  rw [hindex]
  rfl

theorem peerOf_eq_some {engine : Engine S} {id : PeerId} {peer : Peer S}
    (h : engine.peerOf id = some peer) : engine.Holds peer ∧ peer.id = id := by
  obtain ⟨name, -, hin⟩ := Option.bind_eq_some_iff.mp h
  obtain ⟨room, hroom, hfind⟩ := Option.bind_eq_some_iff.mp hin
  exact ⟨⟨name, room, hroom, List.mem_of_find?_eq_some hfind⟩, by simpa using List.find?_some hfind⟩

theorem peerOf_none {engine : Engine S} {id : PeerId} (h : engine.peerRooms.lookup id = none) :
    engine.peerOf id = none := by
  simp [peerOf, h]

theorem Sound.peerOf_holds {engine : Engine S} (h : engine.Sound) {peer : Peer S}
    (hpeer : engine.Holds peer) : engine.peerOf peer.id = some peer := by
  obtain ⟨name, room, hroom, hmem⟩ := hpeer
  have hindex := (h.indexed.index peer.id name).mpr ⟨room, hroom, List.mem_map_of_mem hmem⟩
  have hfind : room.peers.find? (fun other => other.id = peer.id) = some peer :=
    (List.find?_key_eq_some (h.ids hroom)).mpr ⟨hmem, rfl⟩
  simp [peerOf, hindex, hroom, hfind]

theorem Sound.peerOf_isSome {engine : Engine S} (h : engine.Sound) {id : PeerId} {name : String}
    (hlookup : engine.peerRooms.lookup id = some name) :
    ∃ peer, engine.peerOf id = some peer ∧ peer.id = id := by
  obtain ⟨room, peer, hroom, hpeer, hid, hfind⟩ := h.lookup_find hlookup
  exact ⟨peer, by simp [peerOf, hlookup, hroom, hfind], hid⟩

/-! ### Dropped peers -/

/-- A sweep removes, once each, those of its peers who are there. -/
theorem Sound.drops_removed {engine : Engine S} (h : engine.Sound) (ids : List PeerId) :
    (((drops ids engine).filterMap removed).map Peer.id).Nodup ∧
      ∀ id, id ∈ ((drops ids engine).filterMap removed).map Peer.id ↔
        id ∈ ids ∧ (engine.peerRooms.lookup id).isSome = true := by
  induction ids generalizing engine with
  | nil => simp [drops]
  | cons id ids ih =>
      obtain ⟨hnodup, hmem⟩ := ih (h.dropPeer id)
      rw [drops]
      cases hlookup : engine.peerRooms.lookup id with
      | none =>
          have hnobody : removed (id, engine) = none := peerOf_none hlookup
          rw [List.filterMap_cons_none hnobody]
          refine ⟨hnodup, fun id' => (hmem id').trans ?_⟩
          rw [dropPeer_of_none hlookup, List.mem_cons]
          refine and_congr_left fun hthere => ⟨.inr, fun hid => hid.resolve_left fun he => ?_⟩
          rw [he, hlookup] at hthere
          cases hthere
      | some name =>
          obtain ⟨gone, hpeer, hid⟩ := h.peerOf_isSome hlookup
          have hgone : removed (id, engine) = some gone := hpeer
          have hrest : ∀ id', id' ∈ ((drops ids (engine.dropPeer id)).filterMap removed).map
              Peer.id ↔ id' ∈ ids ∧ id' ≠ id ∧ (engine.peerRooms.lookup id').isSome = true := by
            intro id'
            rw [hmem id', dropPeer_lookup]
            by_cases he : id' = id <;> simp [he]
          rw [List.filterMap_cons_some hgone, List.map_cons, hid]
          refine ⟨List.nodup_cons.mpr ⟨fun hin => ((hrest id).mp hin).2.1 rfl, hnodup⟩,
            fun id' => ?_⟩
          rw [List.mem_cons, hrest id', List.mem_cons]
          by_cases he : id' = id
          · rw [he, hlookup]
            simp
          · simp [he]

theorem foldl_dropPeer_lookup_eq (ids : List PeerId) (engine : Engine S) (id : PeerId) :
    (ids.foldl (fun engine id => engine.dropPeer id) engine).peerRooms.lookup id =
      if id ∈ ids then none else engine.peerRooms.lookup id := by
  induction ids generalizing engine with
  | nil => simp
  | cons id' ids ih =>
      rw [List.foldl_cons, ih, dropPeer_lookup]
      by_cases hid : id = id' <;> by_cases hids : id ∈ ids <;> simp [hid, hids]

/-! ### Steps that let nobody go -/

/-- A step is a sweep of `drop_peer` calls, a join, or leaves the index alone. -/
theorem step_leavers {engine engine' : Engine S} {event : Event S}
    (hstep : engine.step event = some engine') :
    (∃ ids, engine.dropCalls event = drops ids engine ∧
      engine.leavers event = (drops ids engine).filterMap removed ∧
      engine' = ids.foldl (fun engine id => engine.dropPeer id) engine) ∨
    (∃ request seed, event = .command (.join request) seed ∧
      engine' = (engine.handleJoin request seed).1) ∨
    (engine.leavers event = [] ∧ engine'.peerRooms = engine.peerRooms) := by
  obtain ⟨-, heq⟩ := step_eq_some hstep
  cases event with
  | command command seed =>
      cases heq
      cases command with
      | join request => exact .inr (.inl ⟨request, seed, rfl, rfl⟩)
      | leave id => exact .inl ⟨[id], rfl, rfl, rfl⟩
      | mute | screen => exact .inr (.inr ⟨rfl, by rw [Engine.apply, setState_eq]⟩)
      | answer => exact .inr (.inr ⟨rfl, by rw [Engine.apply, handleAnswer_eq]⟩)
      | shutdown => exact .inr (.inr ⟨rfl, rfl⟩)
  | reap now order =>
      cases heq
      exact .inl ⟨_, rfl, rfl, reap_eq now order engine⟩
  | pollRooms now order clock =>
      obtain ⟨polled, hpolled, rfl⟩ := Option.map_eq_some_iff.mp heq
      exact .inr (.inr ⟨rfl, by rw [foldlM_pollRoom_eq hpolled]⟩)
  | reportConnections order =>
      cases heq
      exact .inr (.inr ⟨rfl, by rw [reportConnections_eq]⟩)
  | tickSpeaking now order =>
      cases heq
      exact .inr (.inr ⟨rfl, by rw [tickSpeaking_eq]⟩)
  | readOnce now datagram order =>
      cases heq
      exact .inr (.inr ⟨rfl, by rw [readOnce_eq]⟩)
  | advanceTime now order =>
      cases heq
      exact .inr (.inr ⟨rfl, rfl⟩)

/-! ### Joins -/

theorem handleJoin_replaced (request : JoinRequest) (seed : S.Seed) (engine : Engine S) :
    (engine.handleJoin request seed).2.replaced =
      if (engine.handleJoin request seed).2.assigned.isSome then
        ((engine.lobby request.claims).retire
          (Call.stale request.claims.sub (engine.lobby request.claims))).2
      else [] := by
  unfold handleJoin
  dsimp only
  repeat' split
  all_goals first | rfl | simp_all

/-- A join replaces the peer its user has in the room, if there is one. -/
theorem Sound.replaced_eq {engine : Engine S} (h : engine.Sound) (request : JoinRequest)
    (seed : S.Seed) :
    (engine.handleJoin request seed).2.replaced =
      if (engine.handleJoin request seed).2.assigned.isSome then
        ((engine.lobby request.claims).peers.filter fun peer =>
          peer.userId = request.claims.sub).map Peer.replaced
      else [] := by
  have husers : ((engine.lobby request.claims).peers.map (·.userId)).Nodup := by
    unfold lobby
    cases hroom : engine.rooms.lookup request.claims.room with
    | none => simp [Room.new]
    | some room => exact h.users hroom
  rw [handleJoin_replaced, Room.retire_stale (h.lobby_ids request.claims) husers]

/-- Those a join retires are in the index before it, and not after it. -/
theorem Sound.mem_stale_iff {engine : Engine S} (h : engine.Sound) (claims : JoinClaims)
    {peer : Peer S} (hpeer : peer.id = ⟨engine.nextPeer⟩) (answer : String) (id : PeerId) :
    id ∈ Call.stale claims.sub (engine.lobby claims) ↔
      (engine.peerRooms.lookup id).isSome = true ∧
        (engine.entered claims peer answer).peerRooms.lookup id = none := by
  rw [entered_peerRooms, hpeer]
  constructor
  · intro hid
    obtain ⟨old, hold, -, rfl⟩ := mem_stale.mp hid
    have hindex := h.mem_lobby_ids.mp (List.mem_map_of_mem hold)
    have hne : old.id ≠ ⟨engine.nextPeer⟩ := fun he => by
      rw [he, h.new_not_indexed] at hindex
      cases hindex
    exact ⟨by rw [hindex]; rfl, by rw [if_neg hne, if_pos hid]⟩
  · rintro ⟨hthere, hnone⟩
    by_contra hid
    rw [if_neg hid] at hnone
    split at hnone
    · cases hnone
    · rw [hnone] at hthere
      cases hthere

/-- **The leavers of a step are those who are in the index before it and not
after it, once each.** -/
theorem Sound.leavers_ids {engine engine' : Engine S} (h : engine.Sound) {event : Event S}
    (hstep : engine.step event = some engine') :
    ((engine.leavers event).map Peer.id).Nodup ∧
      ∀ id, id ∈ (engine.leavers event).map Peer.id ↔
        (engine.peerRooms.lookup id).isSome = true ∧ engine'.peerRooms.lookup id = none := by
  have hsame : ∀ id : PeerId, ¬((engine.peerRooms.lookup id).isSome = true ∧
      engine.peerRooms.lookup id = none) := by
    rintro id ⟨hthere, hnone⟩
    rw [hnone] at hthere
    cases hthere
  rcases step_leavers hstep with ⟨ids, -, hleavers, rfl⟩ | ⟨request, seed, rfl, rfl⟩ |
    ⟨hleavers, hindex⟩
  · obtain ⟨hnodup, hmem⟩ := h.drops_removed ids
    rw [hleavers]
    refine ⟨hnodup, fun id => (hmem id).trans ?_⟩
    rw [foldl_dropPeer_lookup_eq, and_comm]
    refine and_congr_right fun hthere => ?_
    by_cases hid : id ∈ ids
    · simp [hid]
    · rw [if_neg hid]
      exact iff_of_false hid fun hnone => hsame id ⟨hthere, hnone⟩
  · have hreplaced := h.replaced_eq request seed
    rcases handleJoin_cases request seed engine with ⟨-, -, heq, hassigned, -⟩ |
      ⟨-, -, heq, hassigned, -⟩ | ⟨-, -, offer, answer, heq, hassigned, -⟩
    · rw [hassigned] at hreplaced
      simpa [leavers, hreplaced, heq] using hsame
    · rw [hassigned] at hreplaced
      simpa [leavers, hreplaced, heq] using hsame
    · rw [hassigned, Option.isSome_some, if_pos rfl] at hreplaced
      -- A join that is accepted takes out the peers it replaces.
      have hids : (engine.leavers (.command (.join request) seed)).map Peer.id =
          Call.stale request.claims.sub (engine.lobby request.claims) := by
        rw [leavers, hreplaced, List.map_map]
        rfl
      rw [hids, heq]
      exact ⟨(h.lobby_ids request.claims).sublist (List.filter_sublist.map _),
        h.mem_stale_iff request.claims rfl answer⟩
  · rw [hleavers, hindex]
    exact ⟨by simp, fun id => iff_of_false (by simp) (hsame id)⟩

/-! ### Everyone there ever was -/

theorem Sound.room_holds {engine : Engine S} (h : engine.Sound) {P : ℕ → Room S → Prop}
    (hP : ∀ config, Call.RoomInvariant config (fun _ _ => True) P) {name : String} {room : Room S}
    (hroom : engine.rooms.lookup name = some room) : P engine.nextPeer room :=
  (hP engine.config).holds (h.calls name) room hroom

/-- What a property of rooms says of their members holds of those who leave. -/
theorem Sound.leavers_forall {engine engine' : Engine S} (h : engine.Sound) {event : Event S}
    (hstep : engine.step event = some engine') {P : ℕ → Room S → Prop} {I : Peer S → Prop}
    (hP : ∀ config, Call.RoomInvariant config (fun _ _ => True) P)
    (hI : ∀ next room, P next room → ∀ peer ∈ room.peers, I peer)
    (hreplaced : ∀ peer, I peer → I peer.replaced) :
    ∀ gone ∈ engine.leavers event, I gone := by
  intro gone hgone
  rcases step_leavers hstep with ⟨ids, -, hleavers, -⟩ | ⟨request, seed, rfl, -⟩ | ⟨hleavers, -⟩
  · rw [hleavers] at hgone
    obtain ⟨⟨id, engine'⟩, hcall, hremoved⟩ := List.mem_filterMap.mp hgone
    obtain ⟨⟨name, room, hroom, hmem⟩, -⟩ := peerOf_eq_some hremoved
    exact hI _ room ((h.mem_drops hcall).room_holds hP hroom) gone hmem
  · rw [leavers, handleJoin_replaced] at hgone
    split at hgone
    · have hlobby : P engine.nextPeer (engine.lobby request.claims) := by
        unfold lobby
        cases hroom : engine.rooms.lookup request.claims.room with
        | none => exact (hP engine.config).start _ _
        | some room => exact h.room_holds hP hroom
      obtain ⟨room, hroom, peer, hpeer, rfl⟩ := Room.mem_retired
        (fun room id peer room' hids hroom hremove =>
          (hP engine.config).remove _ room room' id peer hids trivial hroom hremove)
        (h.lobby_ids request.claims) hlobby hgone
      exact hreplaced peer (hI _ room hroom peer hpeer)
    · cases hgone
  · rw [hleavers] at hgone
    cases hgone

/-- A join takes out peers that were there. -/
theorem Sound.mem_replaced {engine : Engine S} (h : engine.Sound) {request : JoinRequest}
    {seed : S.Seed} {gone : Peer S} (hgone : gone ∈ engine.leavers (.command (.join request) seed)) :
    ∃ peer, engine.Holds peer ∧ gone = peer.replaced := by
  rw [leavers, h.replaced_eq request seed] at hgone
  split at hgone
  · obtain ⟨peer, hpeer, rfl⟩ := List.mem_map.mp hgone
    have hpeer := List.mem_of_mem_filter hpeer
    exact ⟨peer, ⟨request.claims.room, _, lookup_of_mem_lobby hpeer, hpeer⟩, rfl⟩
  · cases hgone

/-- Those who stay when a peer is dropped are told that it has left. -/
theorem Sound.dropPeer_forall {I : Peer S → Prop}
    (hleft : ∀ peer id, I peer → I (peer.send (.peerLeft id))) {engine : Engine S}
    (h : engine.Sound) (hall : ∀ peer, engine.Holds peer → I peer) (id : PeerId) :
    ∀ peer, (engine.dropPeer id).Holds peer → I peer := by
  cases hlookup : engine.peerRooms.lookup id with
  | none =>
      rw [dropPeer_of_none hlookup]
      exact hall
  | some name =>
      obtain ⟨room, gone, room', hroom, hremove, hdropped⟩ := h.dropPeer_dropped hlookup
      rintro peer ⟨other, rest, hrest, hpeer⟩
      rw [hdropped.rooms other] at hrest
      split at hrest
      · split at hrest
        · cases hrest
        · cases hrest
          obtain ⟨before, hbefore, -, rfl⟩ := (mem_removed (h.ids hroom) hremove).mp hpeer
          exact hleft before _ (hall before ⟨name, room, hroom, hbefore⟩)
      · exact hall peer ⟨other, rest, hrest, hpeer⟩

/-- What holds of everyone, and of whoever is told that another has left or that
it is replaced, holds of those who leave. -/
theorem Sound.leavers_of_holds {I : Peer S → Prop}
    (hleft : ∀ peer id, I peer → I (peer.send (.peerLeft id)))
    (hreplaced : ∀ peer, I peer → I peer.replaced) {engine engine' : Engine S} (h : engine.Sound)
    {event : Event S} (hstep : engine.step event = some engine')
    (hall : ∀ peer, engine.Holds peer → I peer) : ∀ gone ∈ engine.leavers event, I gone := by
  have hdrops : ∀ (ids : List PeerId) (engine : Engine S), engine.Sound →
      (∀ peer, engine.Holds peer → I peer) →
        ∀ gone ∈ (drops ids engine).filterMap removed, I gone := by
    intro ids
    induction ids with
    | nil => exact fun _ _ _ gone hgone => absurd hgone List.not_mem_nil
    | cons id ids ih =>
        intro engine hsound hall gone hgone
        obtain ⟨call, hcall, hremoved⟩ := List.mem_filterMap.mp hgone
        rw [drops] at hcall
        rcases List.mem_cons.mp hcall with rfl | hcall
        · exact hall gone (peerOf_eq_some hremoved).1
        · exact ih (engine.dropPeer id) (hsound.dropPeer id)
            (hsound.dropPeer_forall hleft hall id) gone
            (List.mem_filterMap.mpr ⟨call, hcall, hremoved⟩)
  intro gone hgone
  rcases step_leavers hstep with ⟨ids, -, hleavers, -⟩ | ⟨request, seed, rfl, -⟩ | ⟨hleavers, -⟩
  · rw [hleavers] at hgone
    exact hdrops ids engine h hall gone hgone
  · obtain ⟨peer, hholds, rfl⟩ := h.mem_replaced hgone
    exact hreplaced peer (hall peer hholds)
  · rw [hleavers] at hgone
    cases hgone

/-- What a property of rooms says of their members holds of everyone there ever
was in a run. -/
theorem run_everyone {P : ℕ → Room S → Prop} {I : Peer S → Prop}
    (hP : ∀ config, Call.RoomInvariant config (fun _ _ => True) P)
    (hI : ∀ next room, P next room → ∀ peer ∈ room.peers, I peer)
    (hreplaced : ∀ peer, I peer → I peer.replaced) {began : Instant} {events : List (Event S)}
    {engine : Engine S} (hrun : (machine S config).run (start config began) events = some engine) :
    (∀ peer, engine.Holds peer → I peer) ∧ ∀ peer ∈ departed config began events, I peer := by
  have hstart : (machine S config).Reachable (Engine.start config began : Engine S) :=
    .init ⟨began, rfl⟩
  refine ⟨fun peer hpeer => ?_, ?_⟩
  · obtain ⟨name, room, hroom, hmem⟩ := hpeer
    exact hI _ room ((reachable_sound (hstart.of_run hrun)).1.room_holds hP hroom) peer hmem
  · refine Lib.Machine.outputs_holds (m := machine S config) (f := leavers)
      (I := fun _ log => ∀ peer ∈ log, I peer)
      (fun engine log event engine' hreach hlog hstep => ?_)
      hstart (by simp) hrun
    intro peer hmem
    rcases List.mem_append.mp hmem with hmem | hmem
    · exact hlog peer hmem
    · exact (reachable_sound hreach).1.leavers_forall hstep hP hI hreplaced peer hmem

/-! ### Gone for good -/

end Engine

/-- The peer a command is sent on behalf of. -/
def Command.sender : Command → Option PeerId
  | .answer peer _ | .mute peer _ | .screen peer _ | .leave peer => some peer
  | .join _ | .shutdown => none

namespace Engine

/-- The engine has nothing to do with the peer any more. -/
structure Inert (id : PeerId) (engine : Engine S) : Prop where
  unindexed : engine.peerRooms.lookup id = none
  absent : ∀ peer, engine.Holds peer → peer.id ≠ id
  unassigned : ∀ request seed, (engine.handleJoin request seed).2.assigned ≠ some id
  ignored : ∀ command seed, command.sender = some id → engine.apply command seed = (engine, none)

theorem Sound.inert {engine : Engine S} (h : engine.Sound) {id : PeerId}
    (hold : id.val < engine.nextPeer) (hgone : engine.peerRooms.lookup id = none) :
    engine.Inert id where
  unindexed := hgone
  absent peer hpeer he := by
    have hthere := h.holds_indexed hpeer
    rw [he, hgone] at hthere
    cases hthere
  unassigned request seed hassigned := by
    rcases handleJoin_cases request seed engine with ⟨-, -, -, hnone, -⟩ | ⟨-, -, -, hnone, -⟩ |
      ⟨-, -, offer, answer, -, hnew, -⟩
    · rw [hnone] at hassigned
      cases hassigned
    · rw [hnone] at hassigned
      cases hassigned
    · rw [hnew] at hassigned
      cases hassigned
      exact lt_irrefl _ hold
  ignored command seed hsender := by
    cases command with
    | join | shutdown => cases hsender
    | answer peer sdp =>
        cases hsender
        simp [Engine.apply, Engine.handleAnswer, hgone]
    | mute | screen =>
        cases hsender
        simp [Engine.apply, Engine.setState, hgone]
    | leave peer =>
        cases hsender
        simp [Engine.apply, dropPeer_of_none hgone]

/-- How the engine parts with a peer: one that is replaced is told so, one that
leaves or is reaped is let go as it is. -/
def Parts (engine : Engine S) (gone : Peer S) : Event S → Prop
  | .command (.join _) _ => ∃ peer, engine.Holds peer ∧ peer.id = gone.id ∧
      gone.out = peer.out ++ [.error "replaced" "Joined from another tab."]
  | event => ∃ engine', (gone.id, engine') ∈ engine.dropCalls event ∧ engine'.Holds gone

theorem Sound.parts {engine engine' : Engine S} (h : engine.Sound) {event : Event S}
    (hstep : engine.step event = some engine') {gone : Peer S}
    (hgone : gone ∈ engine.leavers event) : engine.Parts gone event := by
  have hdropped : gone ∈ (engine.dropCalls event).filterMap removed →
      ∃ engine', (gone.id, engine') ∈ engine.dropCalls event ∧ engine'.Holds gone := by
    intro hmem
    obtain ⟨⟨id, engine'⟩, hcall, hremoved⟩ := List.mem_filterMap.mp hmem
    obtain ⟨hholds, rfl⟩ := peerOf_eq_some hremoved
    exact ⟨engine', hcall, hholds⟩
  rcases step_leavers hstep with ⟨ids, hdrops, hleavers, -⟩ | ⟨request, seed, rfl, -⟩ |
    ⟨hleavers, -⟩
  · rw [hleavers, ← hdrops] at hgone
    have hparts := hdropped hgone
    cases event with
    | command command seed =>
        cases command with
        | join request => exact absurd hparts (by simp [dropCalls])
        | _ => exact hparts
    | _ => exact hparts
  · obtain ⟨peer, hholds, rfl⟩ := h.mem_replaced hgone
    exact ⟨peer, hholds, rfl, rfl⟩
  · rw [hleavers] at hgone
    cases hgone

/-- A peer that is gone has no part in the rest of a run: nothing the steps put
out about peers who are there is about it. -/
theorem run_absent {α : Type*} {f : Engine S → Event S → List α} {g : α → PeerId}
    (hf : ∀ engine event engine', engine.Sound → engine.step event = some engine' →
      ∀ a ∈ f engine event, (engine.peerRooms.lookup (g a)).isSome = true)
    {engine engine' : Engine S} (hreach : (machine S config).Reachable engine) {id : PeerId}
    (hold : id.val < engine.nextPeer) (hgone : engine.peerRooms.lookup id = none)
    {events : List (Event S)} (hrun : (machine S config).run engine events = some engine') :
    id.val < engine'.nextPeer ∧ engine'.peerRooms.lookup id = none ∧
      ∀ a ∈ (machine S config).outputs f engine events, g a ≠ id := by
  refine Lib.Machine.outputs_holds (I := fun engine log => id.val < engine.nextPeer ∧
    engine.peerRooms.lookup id = none ∧ ∀ a ∈ log, g a ≠ id) ?_ hreach ⟨hold, hgone, by simp⟩ hrun
  rintro engine log event engine' hreach ⟨hold, hgone, hlog⟩ hstep
  obtain ⟨hsound, -⟩ := reachable_sound hreach
  refine ⟨hold.trans_le (by rw [hsound.step_nextPeer hstep]; omega),
    hsound.step_indexed hstep hold hgone, fun a hmem he => ?_⟩
  rcases List.mem_append.mp hmem with hmem | hmem
  · exact hlog a hmem he
  · have hthere := hf engine event engine' hsound hstep a hmem
    rw [he, hgone] at hthere
    cases hthere

theorem Sound.leavers_indexed {engine engine' : Engine S} (h : engine.Sound) {event : Event S}
    (hstep : engine.step event = some engine') :
    ∀ peer ∈ engine.leavers event, (engine.peerRooms.lookup peer.id).isSome = true :=
  fun peer hmem => (((h.leavers_ids hstep).2 peer.id).mp (List.mem_map_of_mem hmem)).1

/-- **In every run, a peer that was removed is inert from then on.** The engine
parts with it once, and nobody of its id ever leaves again. -/
theorem run_retired {began : Instant} {before after : List (Event S)} {event : Event S}
    {engine engine' engine'' : Engine S}
    (hbefore : (machine S config).run (start config began) before = some engine)
    (hstep : engine.step event = some engine')
    (hafter : (machine S config).run engine' after = some engine'') {id : PeerId}
    (hthere : (engine.peerRooms.lookup id).isSome = true)
    (hgone : engine'.peerRooms.lookup id = none) :
    engine''.Inert id ∧
      (∃ gone, ((engine.leavers event).filter fun peer => peer.id = id) = [gone] ∧
        engine.Parts gone event) ∧
      ∀ peer ∈ (machine S config).outputs leavers engine' after, peer.id ≠ id := by
  have hreach : (machine S config).Reachable engine := .of_run (.init ⟨began, rfl⟩) hbefore
  have hreach' : (machine S config).Reachable engine' := .step hreach trivial hstep
  obtain ⟨hsound, -⟩ := reachable_sound hreach
  have hold : id.val < engine'.nextPeer :=
    (hsound.indexed_lt hthere).trans_le (by rw [hsound.step_nextPeer hstep]; omega)
  obtain ⟨hold', hgone', hleavers⟩ := run_absent (g := Peer.id)
    (fun _ _ _ hsound hstep => hsound.leavers_indexed hstep) hreach' hold hgone hafter
  obtain ⟨hnodup, hmem⟩ := hsound.leavers_ids hstep
  obtain ⟨gone, hleaves, rfl⟩ := List.mem_map.mp ((hmem id).mpr ⟨hthere, hgone⟩)
  exact ⟨(reachable_sound (hreach'.of_run hafter)).1.inert hold' hgone',
    ⟨gone, List.filter_key_eq_singleton hnodup hleaves rfl, hsound.parts hstep hleaves⟩, hleavers⟩

/-- Ann joins the red room from another tab. -/
def takeover : Event scripted := .command (Puppet.joins "ann" "red" "b").1 "b"

/-- The tab Ann has left goes on sending. -/
def oldTab : List (Event scripted) :=
  [.command (.mute ⟨1⟩ true) "", .command (.answer ⟨1⟩ "answer") "",
    .pollRooms 0 ["red"] fun _ _ => List.replicate 8 0, .command (.leave ⟨1⟩) ""]

theorem run_retired_takeover :
    ∃ engine engine' engine'',
      (machine scripted Puppet.config).run (start Puppet.config 0)
        [.command (Puppet.joins "ann" "red" "a").1 "a"] = some engine ∧
      engine.step takeover = some engine' ∧
      (machine scripted Puppet.config).run engine' oldTab = some engine'' ∧
      engine''.Inert ⟨1⟩ ∧ ∃ gone, engine.leavers takeover = [gone] ∧
        engine.Parts gone takeover := by
  obtain ⟨engine, hrun, hany⟩ := (Option.any_eq_true _ _).mp (by decide +kernel :
    ((machine scripted Puppet.config).run (start Puppet.config 0)
      [.command (Puppet.joins "ann" "red" "a").1 "a"]).any (fun engine =>
      (engine.peerRooms.lookup ⟨1⟩).isSome &&
        decide ((engine.leavers takeover).map Peer.id = [⟨1⟩]) &&
        (engine.step takeover).any fun engine' =>
          decide (engine'.peerRooms.lookup ⟨1⟩ = none) &&
            ((machine scripted Puppet.config).run engine' oldTab).isSome) = true)
  simp only [Bool.and_eq_true, decide_eq_true_eq] at hany
  obtain ⟨engine', hstep, hcheck⟩ := (Option.any_eq_true _ _).mp hany.2
  simp only [Bool.and_eq_true, decide_eq_true_eq] at hcheck
  obtain ⟨engine'', hafter⟩ := Option.isSome_iff_exists.mp hcheck.2
  obtain ⟨hinert, ⟨gone, hgone, hparts⟩, -⟩ :=
    run_retired hrun hstep hafter hany.1.1 hcheck.1
  refine ⟨engine, engine', engine'', hrun, hstep, hafter, hinert, gone, ?_, hparts⟩
  rw [← hgone, List.filter_eq_self.mpr fun peer hpeer => ?_]
  have hid : peer.id ∈ (engine.leavers takeover).map Peer.id := List.mem_map_of_mem hpeer
  rw [hany.1.2, List.mem_singleton] at hid
  simpa using hid

end Engine

end FerriteSfu
