import FerriteSfu.Loop.Departures
import FerriteSfu.Scripted

/-!
The limit on the size of a room, and those who come back.

`handle_join` holds the room as it finds it against the limit, before it retires
the peers the joiner replaces. Someone who is in a full room is refused when they
join again, though the room would not grow.
-/

namespace FerriteSfu

variable {S : Str0m} {config : Config}

namespace Engine

/-- How many peers the room of a join holds once the join has replaced those of
its own user and entered. -/
def sizeAfter (claims : JoinClaims) (engine : Engine S) : ℕ :=
  ((engine.lobby claims).retire (Call.stale claims.sub (engine.lobby claims))).1.peers.length + 1

/-- The room is refused as full only if the join would overfill it. -/
def RefusesOverfull (engine : Engine S) (request : JoinRequest) (seed : S.Seed) : Prop :=
  (engine.handleJoin request seed).2.refusal = [.error "room_full" "This call is full."] →
    engine.config.maxRoomPeers < engine.sizeAfter request.claims

/-- A user who is in the room can join it again. -/
def Readmits (engine : Engine S) (request : JoinRequest) (seed : S.Seed) : Prop :=
  (∃ peer ∈ (engine.lobby request.claims).peers, peer.userId = request.claims.sub) →
    (engine.handleJoin request seed).2.assigned.isSome = true

/-- The room is not full, or its members are all of other users. -/
def Roomy (engine : Engine S) (claims : JoinClaims) : Prop :=
  ∀ room, engine.rooms.lookup claims.room = some room →
    room.peers.length < engine.config.maxRoomPeers ∨ ∀ peer ∈ room.peers, peer.userId ≠ claims.sub

/-- The room a join makes has the size foretold. -/
theorem Sound.entered_size {engine : Engine S} (h : engine.Sound) (claims : JoinClaims)
    {peer : Peer S} (hid : peer.id = ⟨engine.nextPeer⟩) (answer : String) {room' : Room S}
    (hroom : (engine.entered claims peer answer).rooms.lookup claims.room = some room') :
    room'.peers.length = engine.sizeAfter claims := by
  obtain ⟨room, hrooms, rfl⟩ := entered_rooms claims peer answer engine
  rw [hrooms, if_pos rfl] at hroom
  obtain rfl := Option.some_inj.mp hroom
  have hnew : peer.id ∉ (engine.lobby claims).ids := by
    intro hmem
    have hindex := h.mem_lobby_ids.mp hmem
    rw [hid, h.new_not_indexed] at hindex
    cases hindex
  obtain ⟨hids, hnew⟩ := Room.retire_induct (P := fun room => peer.id ∉ room.ids)
    (fun room id other room' hids hnot hsome hmem =>
      hnot (List.mem_of_mem_filter (Room.remove_ids hids hsome ▸ hmem)))
    (h.lobby_ids claims) hnew (Call.stale claims.sub (engine.lobby claims))
  have hcards := congrArg List.length (Room.admit_cards hids hnew claims.callId answer)
  simpa [Room.cards, sizeAfter] using hcards

theorem Sound.sizeAfter_eq {engine : Engine S} (h : engine.Sound) (claims : JoinClaims) :
    engine.sizeAfter claims =
      ((engine.lobby claims).peers.filter fun peer => peer.userId ≠ claims.sub).length + 1 := by
  have hids : ((engine.lobby claims).peers.map Peer.id).Nodup := h.lobby_ids claims
  have hcards := congrArg List.length
    (Room.retire_cards (h.lobby_ids claims) (Call.stale claims.sub (engine.lobby claims)))
  simp only [Room.cards, List.length_map, List.filter_map] at hcards
  have hrest : ((engine.lobby claims).peers.filter fun peer =>
      peer.id ∉ Call.stale claims.sub (engine.lobby claims)) =
        (engine.lobby claims).peers.filter fun peer => peer.userId ≠ claims.sub := by
    rw [Call.stale, List.filter_key_notMem hids]
    simp
  rw [sizeAfter, ← hrest, hcards]
  rfl

/-- A join whose offer str0m accepts enters, unless the room is full. -/
theorem handleJoin_accepted {engine : Engine S} {request : JoinRequest} {seed : S.Seed}
    (haccept : Call.verdict engine.config request seed = some true) :
    (∃ room, engine.rooms.lookup request.claims.room = some room ∧
      engine.config.maxRoomPeers ≤ room.peers.length ∧
      (engine.handleJoin request seed).2.refusal = [.error "room_full" "This call is full."] ∧
      (engine.handleJoin request seed).2.assigned = none) ∨
    ((∀ room, engine.rooms.lookup request.claims.room = some room →
        room.peers.length < engine.config.maxRoomPeers) ∧
      (engine.handleJoin request seed).2.refusal = [] ∧
      (engine.handleJoin request seed).2.assigned = some ⟨engine.nextPeer⟩) := by
  by_cases hfull : ∃ room, engine.rooms.lookup request.claims.room = some room ∧
      engine.config.maxRoomPeers ≤ room.peers.length
  · obtain ⟨room, hroom, hlen⟩ := hfull
    exact .inl ⟨room, hroom, hlen, by simp [handleJoin, hroom, hlen],
      by simp [handleJoin, hroom, hlen]⟩
  · have hspace : ((engine.rooms.lookup request.claims.room).map fun room =>
        decide (room.peers.length ≥ engine.config.maxRoomPeers)).getD false = false := by
      cases hroom : engine.rooms.lookup request.claims.room with
      | none => rfl
      | some room =>
          refine decide_eq_false fun hlen => hfull ⟨room, hroom, hlen⟩
    refine .inr ⟨fun room hroom => lt_of_not_ge fun hlen => hfull ⟨room, hroom, hlen⟩, ?_⟩
    unfold Call.verdict at haccept
    unfold handleJoin Peer.acceptOffer
    simp only [hspace]
    cases hparse : S.offerFromSdpString request.sdp with
    | error reason =>
        rw [hparse] at haccept
        cases haccept
    | ok offer =>
        rw [hparse] at haccept
        rcases hresult : S.acceptOffer (S.build seed engine.config.iceLite) offer with ⟨result, rtc⟩
        cases result with
        | error reason => simp [hresult, Except.isOk, Except.toBool] at haccept
        | ok answer => simp [Peer.new, hresult]

theorem Sound.refusesOverfull_iff {engine : Engine S} (h : engine.Sound) {request : JoinRequest}
    {seed : S.Seed} (haccept : Call.verdict engine.config request seed = some true) :
    engine.RefusesOverfull request seed ↔
      engine.Roomy request.claims ∨ engine.config.maxRoomPeers = 0 := by
  unfold RefusesOverfull
  rw [h.sizeAfter_eq]
  rcases handleJoin_accepted haccept with ⟨room, hroom, hfull, hrefused, -⟩ |
    ⟨hspace, hlet, -⟩
  · have hlobby := lobby_of_lookup hroom
    rw [hrefused, hlobby]
    simp only [forall_const]
    by_cases hback : ∃ peer ∈ room.peers, peer.userId = request.claims.sub
    · -- One peer makes way for the joiner, so the room keeps its size.
      obtain ⟨peer, hpeer, huser⟩ := hback
      have hone : (room.peers.filter fun peer => peer.userId = request.claims.sub) = [peer] :=
        List.filter_key_eq_singleton (h.users hroom) hpeer huser
      have hparts : room.peers.length =
          1 + (room.peers.filter fun peer => peer.userId ≠ request.claims.sub).length := by
        have hsplit := List.length_eq_length_filter_add (l := room.peers)
          fun peer => peer.userId = request.claims.sub
        rw [hone, List.length_singleton] at hsplit
        simpa using hsplit
      have hsize : room.peers.length ≤ max engine.config.maxRoomPeers 1 := by
        simpa [call_peers hroom] using
          (Call.reachable_wellFormed (h.calls request.claims.room)).size
      have hcrowded : ¬engine.Roomy request.claims := by
        intro hroomy
        rcases hroomy room hroom with hspace | hothers
        · omega
        · exact hothers peer hpeer huser
      simp only [hcrowded, false_or]
      omega
    · have hall : (room.peers.filter fun peer => peer.userId ≠ request.claims.sub) = room.peers :=
        List.filter_eq_self.mpr fun peer hpeer => by simpa using fun he => hback ⟨peer, hpeer, he⟩
      rw [hall]
      refine iff_of_true (Nat.lt_succ_of_le hfull) (.inl fun room' hroom' => .inr ?_)
      obtain rfl := Option.some_inj.mp (hroom.symm.trans hroom')
      exact fun peer hpeer he => hback ⟨peer, hpeer, he⟩
  · rw [hlet]
    exact iff_of_true (fun he => absurd he (by simp))
      (.inl fun room hroom => .inl (hspace room hroom))

theorem readmits_iff {engine : Engine S} {request : JoinRequest}
    {seed : S.Seed} (haccept : Call.verdict engine.config request seed = some true) :
    engine.Readmits request seed ↔ engine.Roomy request.claims := by
  rcases handleJoin_accepted haccept with ⟨room, hroom, hfull, -, hnobody⟩ | ⟨hspace, -, hnew⟩
  · have hlobby := lobby_of_lookup hroom
    unfold Readmits Roomy
    rw [hnobody, hlobby]
    simp [hroom, hfull]
  · exact iff_of_true (fun _ => by rw [hnew]; rfl) fun room hroom => .inl (hspace room hroom)

/-- **When a reconnect is counted against itself.** Someone who is in the room can
join it again, and is refused only where they would overfill it, exactly if the
room is not full or they are not in it. -/
theorem reachable_readmits {engine : Engine S} (h : (machine S config).Reachable engine)
    {request : JoinRequest} {seed : S.Seed}
    (haccept : Call.verdict config request seed = some true) :
    (engine.RefusesOverfull request seed ∧ engine.Readmits request seed ↔
      engine.Roomy request.claims) ∧
    (engine.RefusesOverfull request seed ↔
      engine.Roomy request.claims ∨ config.maxRoomPeers = 0) := by
  obtain ⟨hsound, rfl⟩ := reachable_sound h
  have hrefuses := hsound.refusesOverfull_iff haccept
  refine ⟨⟨fun hboth => (readmits_iff haccept).mp hboth.2, fun hroomy => ?_⟩, hrefuses⟩
  exact ⟨hrefuses.mpr (.inl hroomy), (readmits_iff haccept).mpr hroomy⟩

/-- Rooms of two. -/
def pair : Config where
  iceLite := true
  maxRoomPeers := 2

def annJoins (ufrag : String) : Event scripted :=
  .command (Puppet.joins "ann" "red" ufrag).1 ufrag

/-- What Ann asks for in her second tab. -/
def again : JoinRequest where
  claims := { sub := "ann", room := "red", callId := "call", name := "ann", avatarUrl := "" }
  sdp := "offer"

theorem reachable_readmits_alone :
    ∃ engine, (machine scripted pair).run (start pair 0) [annJoins "a"] = some engine ∧
      (∃ peer ∈ (engine.lobby again.claims).peers, peer.userId = "ann") ∧
      engine.RefusesOverfull again "c" ∧ engine.Readmits again "c" := by
  obtain ⟨engine, hrun, hcheck⟩ := (Option.any_eq_true _ _).mp (by decide +kernel :
    ((machine scripted pair).run (start pair 0) [annJoins "a"]).any (fun engine =>
      ((engine.lobby again.claims).peers.any fun peer => decide (peer.userId = "ann")) &&
        decide ((engine.lobby again.claims).peers.length = 1)) = true)
  simp only [Bool.and_eq_true, List.any_eq_true, decide_eq_true_eq] at hcheck
  have hreach : (machine scripted pair).Reachable engine := .of_run (.init ⟨0, rfl⟩) hrun
  have hroomy : engine.Roomy again.claims := by
    intro room hroom
    have hone := hcheck.2
    rw [lobby_of_lookup hroom] at hone
    exact .inl (by rw [hone, (reachable_sound hreach).2]; decide)
  have haccept : Call.verdict (S := scripted) pair again "c" = some true := by decide
  have hboth := (reachable_readmits hreach haccept).1.mpr hroomy
  exact ⟨engine, hrun, hcheck.1, hboth.1, hboth.2⟩

/-- Ann is in a room of two with Bob, and cannot join it from another tab. -/
theorem readmits_fails :
    ∃ engine, (machine scripted pair).run (start pair 0)
        [annJoins "a", .command (Puppet.joins "bob" "red" "b").1 "b"] = some engine ∧
      Call.verdict (S := scripted) pair again "c" = some true ∧
      ¬engine.RefusesOverfull again "c" ∧ ¬engine.Readmits again "c" := by
  obtain ⟨engine, hrun, hcheck⟩ := (Option.any_eq_true _ _).mp (by decide +kernel :
    ((machine scripted pair).run (start pair 0)
        [annJoins "a", .command (Puppet.joins "bob" "red" "b").1 "b"]).any (fun engine =>
      decide ((engine.handleJoin again "c").2.refusal =
          [.error "room_full" "This call is full."]) &&
        decide (engine.sizeAfter again.claims = 2) && decide (engine.config.maxRoomPeers = 2) &&
        ((engine.lobby again.claims).peers.any fun peer => decide (peer.userId = "ann")) &&
        !(engine.handleJoin again "c").2.assigned.isSome) = true)
  simp only [Bool.and_eq_true, List.any_eq_true, decide_eq_true_eq, Bool.not_eq_true'] at hcheck
  obtain ⟨⟨⟨⟨hrefused, hsize⟩, hlimit⟩, hthere⟩, hnobody⟩ := hcheck
  refine ⟨engine, hrun, by decide, fun hover => ?_, fun hreadmits => ?_⟩
  · have hlt := hover hrefused
    rw [hsize, hlimit] at hlt
    exact lt_irrefl _ hlt
  · rw [hreadmits hthere] at hnobody
    cases hnobody

end Engine

end FerriteSfu
