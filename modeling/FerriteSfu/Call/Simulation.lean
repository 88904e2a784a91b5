import FerriteSfu.Call.Sweep

/-!
Each room of the engine is a call.

`CallStep` says how a step of the engine shows in the call of one room, and
`step_calls` that it shows in every room that way.
-/

namespace FerriteSfu

variable {S : Str0m}

namespace Engine

/-- How a step of the engine shows in the call `name`. -/
def CallStep (name : String) (engine : Engine S) (event : Event S) (engine' : Engine S) : Prop :=
  match engine.callEvent name event with
  | none => engine'.call name = engine.call name
  | some ev => (engine.call name).step engine.config name ev = some (engine'.call name)

/-! ### Joining -/

/-- The room a join finds or opens. -/
def lobby (claims : JoinClaims) (engine : Engine S) : Room S :=
  (engine.rooms.lookup claims.room).getD (Room.new claims.callId)

/-- The engine after the peer of an accepted offer has entered. -/
def entered (claims : JoinClaims) (peer : Peer S) (answer : String) (engine : Engine S) :
    Engine S :=
  let stale := Call.stale claims.sub (engine.lobby claims)
  let retired := (engine.lobby claims).retire stale
  { engine with
    rooms := engine.rooms.insert claims.room (retired.1.admitPeer peer claims.callId answer)
    peerRooms := (stale.foldl (fun rooms old => rooms.erase old) engine.peerRooms).insert peer.id
      claims.room
    nextPeer := engine.nextPeer + 1
    heap := retired.2.foldl Heap.dropPeer engine.heap }

/-- A join is refused, consumes an id, or enters the room, for the engine as for
the call it concerns. -/
theorem handleJoin_cases (request : JoinRequest) (seed : S.Seed) (engine : Engine S) :
    let call := engine.call request.claims.room
    let joined := engine.handleJoin request seed
    (call.consumes engine.config request seed = false ∧
      call.admits engine.config request seed = false ∧
      joined.1 = engine ∧ joined.2.assigned = none ∧
      call.join engine.config request seed = call) ∨
    (call.consumes engine.config request seed = true ∧
      call.admits engine.config request seed = false ∧
      joined.1 = { engine with nextPeer := engine.nextPeer + 1 } ∧ joined.2.assigned = none ∧
      call.join engine.config request seed = { call with nextPeer := engine.nextPeer + 1 }) ∨
    (call.consumes engine.config request seed = true ∧
      call.admits engine.config request seed = true ∧
      ∃ offer answer,
        joined.1 = engine.entered request.claims
          (Call.admitted engine.config request seed offer ⟨engine.nextPeer⟩) answer ∧
        joined.2.assigned = some ⟨engine.nextPeer⟩ ∧
        call.join engine.config request seed =
          Call.enter (Call.admitted engine.config request seed offer ⟨engine.nextPeer⟩) answer
            request.claims { call with nextPeer := engine.nextPeer + 1 }) := by
  unfold handleJoin Call.consumes Call.admits Call.verdict Call.join Peer.acceptOffer
  dsimp only
  have hfull : ((engine.rooms.lookup request.claims.room).map fun room =>
      decide (room.peers.length ≥ engine.config.maxRoomPeers)).getD false =
        (engine.call request.claims.room).isFull engine.config := rfl
  rw [hfull]
  cases (engine.call request.claims.room).isFull engine.config with
  | true => exact .inl ⟨rfl, rfl, rfl, rfl, rfl⟩
  | false =>
      cases hparse : S.offerFromSdpString request.sdp with
      | error reason => exact .inl ⟨rfl, rfl, rfl, rfl, rfl⟩
      | ok offer =>
          have hrtc : (Peer.new ⟨engine.nextPeer⟩ (S.build seed engine.config.iceLite)
              request.claims.sub request.claims.name request.claims.avatarUrl).rtc =
                S.build seed engine.config.iceLite := rfl
          have hrtc' : (Call.newPeer engine.config request seed
              ⟨(engine.call request.claims.room).nextPeer⟩).rtc =
                S.build seed engine.config.iceLite := rfl
          simp only [hrtc, hrtc']
          rcases haccept : S.acceptOffer (S.build seed engine.config.iceLite) offer with
            ⟨result, rtc⟩
          cases result with
          | error reason => exact .inr (.inl ⟨rfl, rfl, rfl, rfl, rfl⟩)
          | ok answer =>
              refine .inr (.inr ⟨rfl, rfl, offer, S.answerToSdpString answer, ?_, rfl, ?_⟩)
              all_goals
                simp only [Call.admitted, haccept]
                rfl

theorem entered_call (claims : JoinClaims) (peer : Peer S) (answer : String)
    (engine : Engine S) :
    (engine.entered claims peer answer).call claims.room =
      Call.enter peer answer claims
        { engine.call claims.room with nextPeer := engine.nextPeer + 1 } := by
  simp [entered, call, Call.enter, lobby]

theorem entered_call_of_ne {claims : JoinClaims} (peer : Peer S) (answer : String)
    (engine : Engine S) {name : String} (hname : name ≠ claims.room) :
    (engine.entered claims peer answer).call name =
      { engine.call name with nextPeer := engine.nextPeer + 1 } := by
  simp [entered, call, hname]

theorem handleJoin_callStep (request : JoinRequest) (seed : S.Seed) (engine : Engine S)
    (name : String) :
    engine.CallStep name (.command (.join request) seed) (engine.handleJoin request seed).1 := by
  simp only [CallStep, callEvent]
  by_cases hname : request.claims.room = name
  · subst hname
    rw [if_pos rfl]
    refine congrArg some ?_
    rcases handleJoin_cases request seed engine with ⟨-, -, hjoined, -, hjoin⟩ |
      ⟨-, -, hjoined, -, hjoin⟩ | ⟨-, -, offer, answer, hjoined, -, hjoin⟩
    · rw [hjoined, hjoin]
    · rw [hjoined, hjoin]
      rfl
    · rw [hjoined, hjoin, entered_call]
  · rw [if_neg hname]
    rcases handleJoin_cases request seed engine with ⟨hconsumes, -, hjoined, -⟩ |
      ⟨hconsumes, -, hjoined, -⟩ | ⟨hconsumes, -, offer, answer, hjoined, -⟩
    · simp [hconsumes, hjoined]
    · simp only [hconsumes, if_true, hjoined]
      rfl
    · simp only [hconsumes, if_true, hjoined, entered_call_of_ne _ _ _ (Ne.symm hname)]
      rfl

theorem mem_foldl_dropPeer {gone : List (Peer S)} {heap : Heap} {track : TrackIn} :
    track ∈ gone.foldl Heap.dropPeer heap ↔ track ∈ heap ∧ ∀ peer ∈ gone, track ∉ peer.tracks := by
  induction gone generalizing heap with
  | nil => simp
  | cons peer gone ih => simp [ih, mem_dropPeer, and_assoc]

theorem lobby_of_lookup {engine : Engine S} {claims : JoinClaims} {room : Room S}
    (hroom : engine.rooms.lookup claims.room = some room) : engine.lobby claims = room := by
  simp [lobby, hroom]

/-- A peer of the lobby is a peer of the room the join addresses. -/
theorem lookup_of_mem_lobby {engine : Engine S} {claims : JoinClaims} {peer : Peer S}
    (hpeer : peer ∈ (engine.lobby claims).peers) :
    engine.rooms.lookup claims.room = some (engine.lobby claims) := by
  unfold lobby at hpeer ⊢
  cases hroom : engine.rooms.lookup claims.room with
  | none => simp [hroom, Room.new] at hpeer
  | some room => rfl

theorem Sound.lobby_ids {engine : Engine S} (h : engine.Sound) (claims : JoinClaims) :
    (engine.lobby claims).ids.Nodup := by
  cases hroom : engine.rooms.lookup claims.room with
  | none => simp [lobby, hroom, Room.new, Room.ids]
  | some room =>
      rw [lobby_of_lookup hroom]
      exact h.ids hroom

theorem Sound.mem_lobby_ids {engine : Engine S} (h : engine.Sound) {claims : JoinClaims}
    {id : PeerId} :
    id ∈ (engine.lobby claims).ids ↔ engine.peerRooms.lookup id = some claims.room := by
  rw [h.indexed.index]
  constructor
  · intro hid
    obtain ⟨peer, hpeer, -⟩ := Room.mem_ids.mp hid
    exact ⟨_, lookup_of_mem_lobby hpeer, hid⟩
  · rintro ⟨room, hroom, hid⟩
    rwa [lobby_of_lookup hroom]

/-- What the room of a join holds afterwards. -/
structure Entered (stale : List PeerId) (room : Room S) (peer : Peer S) (room' : Room S) :
    Prop where
  ids : ∀ id, id ∈ room'.ids ↔ (id ∈ room.ids ∧ id ∉ stale) ∨ id = peer.id
  tracks : ∀ track, track ∈ room'.tracks ↔
    ∃ other ∈ room.peers, other.id ∉ stale ∧ track ∈ other.tracks
  refers : ∀ track, room'.Refers track → room.Refers track ∨ track ∈ room.tracks

theorem entered_room {room : Room S} (hids : room.ids.Nodup) {peer : Peer S}
    (hnew : peer.id ∉ room.ids) (htracks : peer.tracks = []) (hrefs : peer.refs = [])
    (stale : List PeerId) (callId answer : String) :
    Entered stale room peer ((room.retire stale).1.admitPeer peer callId answer) := by
  obtain ⟨hkept, -⟩ := Room.retire_spec hids stale
  have hcards := Room.retire_cards hids stale
  have hids' : (room.retire stale).1.ids = room.ids.filter fun id => id ∉ stale := by
    rw [← Room.cards_map_id, hcards, ← Room.cards_map_id, List.filter_map]
    rfl
  have hnew' : peer.id ∉ (room.retire stale).1.ids := by
    rw [hids']
    exact fun hmem => hnew (List.mem_of_mem_filter hmem)
  -- Retiring the stale peers keeps the tracks of the others.
  have hold : ∀ track, track ∈ (room.retire stale).1.tracks ↔
      ∃ other ∈ room.peers, other.id ∉ stale ∧ track ∈ other.tracks := by
    intro track
    rw [Room.mem_tracks]
    constructor
    · rintro ⟨pub', hpub', htrack⟩
      obtain ⟨pub, hpub, -, heq, -⟩ := hkept.exists_left hpub'
      obtain ⟨hpub, hstale⟩ := List.mem_filter.mp hpub
      exact ⟨pub, hpub, by simpa using hstale, heq ▸ htrack⟩
    · rintro ⟨pub, hpub, hstale, htrack⟩
      obtain ⟨pub', hpub', -, heq, -⟩ :=
        hkept.exists_right (List.mem_filter.mpr ⟨hpub, by simpa using hstale⟩)
      exact ⟨pub', hpub', heq ▸ htrack⟩
  rw [Room.admit_eq (hids' ▸ hids.filter _) peer hnew']
  refine ⟨fun id => ?_, fun track => ?_, fun track href => ?_⟩
  · have heq : (((room.retire stale).1.peers.map (Peer.send (.peerJoined peer.info)) ++
        [(room.retire stale).1.welcome peer callId answer]).map Peer.id) =
          (room.retire stale).1.ids ++ [peer.id] := by
      simp [Room.ids, Room.welcome, Peer.subscribe, Function.comp_def]
    simp only [Room.ids] at heq hids' ⊢
    rw [heq, hids']
    simp
  · rw [← hold, Room.mem_tracks, Room.mem_tracks]
    simp [Room.welcome, htracks]
  · obtain ⟨sub, hsub, hmem⟩ := href
    rcases List.mem_append.mp hsub with hsub | hsub
    · obtain ⟨other, hother, rfl⟩ := List.mem_map.mp hsub
      obtain ⟨other', hother', -, -, heq⟩ := hkept.exists_left hother
      exact .inl ⟨other', List.mem_of_mem_filter hother', heq ▸ hmem⟩
    · rw [List.mem_singleton.mp hsub] at hmem
      simp only [Room.welcome, Peer.subscribe_refs, Peer.send_refs, hrefs, List.nil_append] at hmem
      obtain ⟨other, hother, -, htrack⟩ := (hold track).mp hmem
      exact .inr (Room.mem_tracks.mpr ⟨other, hother, htrack⟩)

theorem mem_stale {sub : String} {room : Room S} {id : PeerId} :
    id ∈ Call.stale sub room ↔ ∃ peer ∈ room.peers, peer.userId = sub ∧ peer.id = id := by
  simp [Call.stale, and_assoc]

theorem entered_peerRooms (claims : JoinClaims) (peer : Peer S) (answer : String)
    (engine : Engine S) (id : PeerId) :
    (engine.entered claims peer answer).peerRooms.lookup id =
      if id = peer.id then some claims.room
      else if id ∈ Call.stale claims.sub (engine.lobby claims) then none
      else engine.peerRooms.lookup id := by
  simp only [entered, AList.lookup_insert_eq_ite, AList.lookup_foldl_erase]

theorem entered_rooms (claims : JoinClaims) (peer : Peer S) (answer : String)
    (engine : Engine S) :
    ∃ room', (∀ name, (engine.entered claims peer answer).rooms.lookup name =
        if name = claims.room then some room' else engine.rooms.lookup name) ∧
      room' = ((engine.lobby claims).retire (Call.stale claims.sub
        (engine.lobby claims))).1.admitPeer peer claims.callId answer :=
  ⟨_, fun name => by simp only [entered, AList.lookup_insert_eq_ite], rfl⟩

theorem Sound.entered_indexed {engine : Engine S} (h : engine.Sound) (claims : JoinClaims)
    {peer : Peer S} (hid : peer.id = ⟨engine.nextPeer⟩) (htracks : peer.tracks = [])
    (hrefs : peer.refs = []) (answer : String) :
    (engine.entered claims peer answer).Indexed := by
  have hids := h.lobby_ids claims
  have hnone : engine.peerRooms.lookup peer.id = none := hid ▸ h.new_not_indexed
  have hnew : peer.id ∉ (engine.lobby claims).ids := by
    rw [h.mem_lobby_ids, hnone]
    exact fun he => by cases he
  obtain ⟨room', hrooms, heq⟩ := entered_rooms claims peer answer engine
  have hentered := entered_room hids hnew htracks hrefs
    (Call.stale claims.sub (engine.lobby claims)) claims.callId answer
  rw [← heq] at hentered
  have hpeerRooms := entered_peerRooms claims peer answer engine
  have howns : ∀ pub ∈ (engine.lobby claims).peers, ∀ track ∈ pub.tracks,
      track.origin = pub.id := by
    intro pub hpub
    exact h.originsOwn (lookup_of_mem_lobby hpub) pub hpub
  have hstale : ∀ id ∈ Call.stale claims.sub (engine.lobby claims),
      engine.peerRooms.lookup id = some claims.room := by
    intro id hmem
    obtain ⟨pub, hpub, -, rfl⟩ := mem_stale.mp hmem
    exact h.mem_lobby_ids.mp (List.mem_map_of_mem hpub)
  generalize hstales : Call.stale claims.sub (engine.lobby claims) = stale at *
  suffices hreplaced : Replaced claims.room room' engine (engine.entered claims peer answer) from
    h.indexed.of_replaced hreplaced
  refine ⟨fun name room => ?rooms, fun id name => ?peerRooms, fun track => ?heap,
    fun track href name => ?refers,
    fun name room hname hroom track href horigin => ?others⟩
  case rooms =>
    have hne : room'.peers ≠ [] := fun hnil => by
      have hmem := (hentered.ids peer.id).mpr (.inr rfl)
      simp [Room.ids, hnil] at hmem
    rw [hrooms]
    by_cases hname : name = claims.room <;> simp [hname, hne, eq_comm]
  case peerRooms =>
    rw [hpeerRooms, hentered.ids, h.mem_lobby_ids]
    by_cases hname : name = claims.room
    · subst hname
      by_cases hidp : id = peer.id
      · simp [hidp]
      · by_cases hids : id ∈ stale <;> simp [hidp, hids]
    · by_cases hidp : id = peer.id
      · rw [hidp, if_pos rfl, hnone]
        simp [hname, Ne.symm hname]
      · by_cases hids : id ∈ stale
        · simp [hidp, hids, hname, hstale id hids, Ne.symm hname]
        · simp [hidp, hids, hname]
  case heap =>
    -- The tracks that go are those of the peers the newcomer replaces.
    have hgone := (Room.retire_spec hids stale).2 track
    have hheap : track ∈ (engine.entered claims peer answer).heap ↔ track ∈ engine.heap ∧
        ∀ other ∈ (engine.lobby claims).peers, other.id ∈ stale → track ∉ other.tracks := by
      simp only [entered, hstales, mem_foldl_dropPeer]
      refine and_congr_right fun _ => ?_
      rw [← not_iff_not]
      push Not
      exact hgone
    rw [hheap, hentered.tracks]
    exact h.indexed.heap_without (fun _ _ => h.originsOwn)
      (fun next hnext => (lobby_of_lookup hnext).symm) (fun pub hpub => lookup_of_mem_lobby hpub)
      stale track
  case refers =>
    rw [hpeerRooms]
    split
    · exact fun he => (Option.some_inj.mp he).symm
    · split
      · exact fun he => by cases he
      · intro hname
        rcases hentered.refers track href with ⟨sub, hsub, hmem⟩ | htrack
        · exact h.indexed.apart claims.room (engine.lobby claims) track name
            (lookup_of_mem_lobby hsub) ⟨sub, hsub, hmem⟩ hname
        · obtain ⟨pub, hpub, hpubtrack⟩ := Room.mem_tracks.mp htrack
          have horigin := h.mem_lobby_ids.mp (List.mem_map_of_mem hpub)
          rw [← howns pub hpub track hpubtrack] at horigin
          exact Option.some_inj.mp (hname.symm.trans horigin)
  case others =>
    rcases (hentered.ids track.origin).mp horigin with ⟨hlobby, -⟩ | hnewest
    · exact hname (h.indexed.apart name room track claims.room hroom href
        (h.mem_lobby_ids.mp hlobby)).symm
    · -- Nobody can be subscribed to the newcomer, whose id has not been given out yet.
      obtain ⟨sub, hsub, hmem⟩ := href
      have hlt := (h.subscribed hroom).fresh sub hsub track hmem
      rw [hnewest, hid] at hlt
      exact lt_irrefl _ hlt

theorem Indexed.later {engine : Engine S} (h : engine.Indexed) (next : ℕ) :
    { engine with nextPeer := next }.Indexed :=
  ⟨h.index, h.nonempty, h.heap, h.apart⟩

/-! ### Every step -/

/-- Each room takes a step of its own, and the maps stay in line. -/
theorem Sound.of_callSteps {engine engine' : Engine S} (h : engine.Sound) (event : Event S)
    (hconfig : engine'.config = engine.config) (hindexed : engine'.Indexed)
    (hcalls : ∀ name, engine.CallStep name event engine') : engine'.Sound := by
  refine h.of_calls hconfig hindexed fun name => ?_
  have hstep := hcalls name
  unfold CallStep at hstep
  split at hstep
  · exact .inl hstep
  · rename_i ev _
    exact .inr ⟨ev, hstep⟩

theorem Sound.handleJoin_indexed {engine : Engine S} (h : engine.Sound) (request : JoinRequest)
    (seed : S.Seed) : (engine.handleJoin request seed).1.Indexed := by
  rcases handleJoin_cases request seed engine with ⟨-, -, hjoined, -⟩ | ⟨-, -, hjoined, -⟩ |
    ⟨-, -, offer, answer, hjoined, -⟩
  · rw [hjoined]
    exact h.indexed
  · rw [hjoined]
    exact h.indexed.later _
  · rw [hjoined]
    exact h.entered_indexed request.claims rfl rfl rfl answer

theorem handleJoin_config (request : JoinRequest) (seed : S.Seed) (engine : Engine S) :
    (engine.handleJoin request seed).1.config = engine.config := by
  rcases handleJoin_cases request seed engine with ⟨-, -, hjoined, -⟩ | ⟨-, -, hjoined, -⟩ |
    ⟨-, -, offer, answer, hjoined, -⟩
  all_goals simp only [hjoined, entered]

theorem Sound.apply {engine : Engine S} (h : engine.Sound) (command : Command) (seed : S.Seed) :
    (engine.apply command seed).1.Indexed ∧
      (engine.apply command seed).1.config = engine.config ∧
      ∀ name, engine.CallStep name (.command command seed) (engine.apply command seed).1 := by
  cases command with
  | join request =>
      exact ⟨h.handleJoin_indexed request seed, handleJoin_config request seed engine,
        handleJoin_callStep request seed engine⟩
  | answer id sdp =>
      exact ⟨(h.handleAnswer id sdp).indexed, handleAnswer_config id sdp engine,
        fun name => congrArg some (h.handleAnswer_call id sdp name).symm⟩
  | mute id muted =>
      exact ⟨(h.setState id (some muted) none).indexed, setState_config id _ _ engine,
        fun name => congrArg some (h.setState_call id (some muted) none name).symm⟩
  | screen id active =>
      exact ⟨(h.setState id none (some active)).indexed, setState_config id _ _ engine,
        fun name => congrArg some (h.setState_call id none (some active) name).symm⟩
  | leave id =>
      exact ⟨h.dropPeer_indexed id, dropPeer_config id engine,
        fun name => congrArg some (h.dropPeer_call id name).symm⟩
  | shutdown => exact ⟨h.indexed, rfl, fun _ => rfl⟩

/-- Commands are always taken. -/
theorem step_command (command : Command) (seed : S.Seed) (engine : Engine S) :
    engine.step (.command command seed) = some (engine.apply command seed).1 := rfl

theorem step_eq_some {engine engine' : Engine S} {event : Event S} :
    engine.step event = some engine' →
    (∀ order, event.order = some order → order.Perm engine.rooms.keys) ∧
    (match event with
      | .command command seed => some (engine.apply command seed).1
      | .pollRooms now order clock => (engine.pollRooms now order clock).map (·.1)
      | .reportConnections order => some (engine.reportConnections order)
      | .reap now order => some (engine.reap now order)
      | .tickSpeaking now order => some (engine.tickSpeaking now order)
      | .readOnce now datagram order => some (engine.readOnce now datagram order)
      | .advanceTime now order => some (engine.advanceTime now order)) = some engine' := by
  intro hstep
  unfold Engine.step at hstep
  split at hstep
  · rename_i hvisits
    refine ⟨fun order horder => ?_, hstep⟩
    rw [horder] at hvisits
    exact of_decide_eq_true hvisits
  · cases hstep

/-- **Every step of the engine is a step of each of its calls.** -/
theorem Sound.step_calls {engine engine' : Engine S} (h : engine.Sound) {event : Event S}
    (hstep : engine.step event = some engine') :
    engine'.Indexed ∧ engine'.config = engine.config ∧
      ∀ name, engine.CallStep name event engine' := by
  obtain ⟨horder, heq⟩ := step_eq_some hstep
  cases event with
  | command command seed =>
      cases heq
      exact h.apply command seed
  | pollRooms now order clock =>
      obtain ⟨⟨next, timeout⟩, hpoll, rfl⟩ := Option.map_eq_some_iff.mp heq
      obtain ⟨hsound, hconfig, hcalls⟩ := h.pollRooms (horder order rfl) hpoll
      exact ⟨hsound.indexed, hconfig, hcalls⟩
  | reportConnections order =>
      cases heq
      refine ⟨?_, ?_,
        fun name => congrArg some (reportConnections_call (horder order rfl) name).symm⟩
      · rw [reportConnections_eq]
        exact h.indexed.sweep (horder order rfl) markReported_kept rfl rfl rfl
      · rw [reportConnections_eq]
  | reap now order =>
      cases heq
      refine ⟨?_, ?_, fun name => congrArg some (h.reap_call now (horder order rfl) name).symm⟩
      · rw [reap_eq]
        exact (h.foldl_dropPeer _).1.indexed
      · rw [reap_eq]
        exact (h.foldl_dropPeer _).2.1
  | tickSpeaking now order =>
      cases heq
      by_cases hdue : now - engine.lastSpeaking < speakingTick
      · have hsame : engine.tickSpeaking now order = engine := by simp [tickSpeaking, hdue]
        rw [hsame]
        exact ⟨h.indexed, rfl, fun name => by simp [CallStep, callEvent, hdue]⟩
      · refine ⟨?_, ?_, fun name => ?_⟩
        · refine h.indexed.sweep (horder order rfl)
            (fun room => .of_quiet (Room.syncSpeaking_quiet now room)) ?_ ?_ ?_ <;>
            simp [tickSpeaking, hdue]
        · simp [tickSpeaking, hdue]
        · simp only [CallStep, callEvent, if_neg hdue]
          exact congrArg some (tickSpeaking_call now (horder order rfl) name hdue).symm
  | readOnce now datagram order =>
      cases heq
      refine ⟨h.readOnce_indexed now datagram order, ?_, fun name => ?_⟩
      · rw [readOnce_eq]
      · have hcall := readOnce_call engine now datagram order name
        simp only [CallStep, callEvent]
        by_cases hreceiver : engine.receiver (.receive now datagram) order = some name
        · rw [if_pos hreceiver] at hcall ⊢
          exact congrArg some hcall.symm
        · rw [if_neg hreceiver] at hcall ⊢
          exact hcall
  | advanceTime now order =>
      cases heq
      refine ⟨?_, rfl,
        fun name => congrArg some (advanceTime_call now (horder order rfl) name).symm⟩
      exact h.indexed.sweep (horder order rfl)
        (fun room => .of_quiet (Room.advanceTime_quiet now room)) rfl rfl rfl

theorem Sound.start (config : Config) (now : Instant) :
    (Engine.start config now : Engine S).Sound where
  indexed := .start config now
  calls name := by
    refine .init ?_
    exact Call.ext (by simp [Engine.start, call, Call.idle]) rfl rfl

theorem Sound.step {engine engine' : Engine S} (h : engine.Sound) {event : Event S}
    (hstep : engine.step event = some engine') : engine'.Sound := by
  obtain ⟨hindexed, hconfig, hcalls⟩ := h.step_calls hstep
  exact h.of_callSteps event hconfig hindexed hcalls

theorem Sound.nextPeer_le {engine engine' : Engine S} (h : engine.Sound) {event : Event S}
    (hstep : engine.step event = some engine') : engine.nextPeer ≤ engine'.nextPeer := by
  have hcall := (h.step_calls hstep).2.2 ""
  unfold CallStep at hcall
  split at hcall
  · exact (congrArg Call.nextPeer hcall).ge
  · exact Call.nextPeer_le (h.numbered "") hcall

theorem reachable_sound {config : Config} {ok : Engine S → Event S → Prop} {engine : Engine S}
    (h : (machine S config).ReachableVia ok engine) : engine.Sound ∧ engine.config = config := by
  refine Lib.Machine.Invariant.holds (I := fun engine => engine.Sound ∧ engine.config = config)
    ⟨?_, ?_⟩ h
  · rintro engine ⟨now, rfl⟩
    exact ⟨.start config now, rfl⟩
  · rintro engine event engine' - ⟨hsound, hconfig⟩ - hstep
    exact ⟨hsound.step hstep, (hsound.step_calls hstep).2.1.trans hconfig⟩

/-- **The rooms of a run of the engine are runs of calls**, and a guard on the
events of the engine that says `okC` of each call is a guard on the calls. -/
theorem reachable_call {config : Config} {ok : Engine S → Event S → Prop} {name : String}
    {okC : Call S → CallEvent S → Prop}
    (hok : ∀ engine event ev, engine.Sound → engine.config = config → ok engine event →
      engine.callEvent name event = some ev → okC (engine.call name) ev)
    {engine : Engine S} (h : (machine S config).ReachableVia ok engine) :
    (Call.machine S config name).ReachableVia okC (engine.call name) := by
  induction h with
  | init hinit =>
      obtain ⟨now, rfl⟩ := hinit
      exact .init (Call.ext (by simp [Engine.start, call, Call.idle]) rfl rfl)
  | @step engine engine' event hs hguard hstep ih =>
      obtain ⟨hsound, hconfig⟩ := reachable_sound hs
      have hcall := (hsound.step_calls hstep).2.2 name
      unfold CallStep at hcall
      cases hev : engine.callEvent name event with
      | none =>
          rw [hev] at hcall
          exact hcall ▸ ih
      | some ev =>
          rw [hev, hconfig] at hcall
          exact .step ih (hok engine event ev hsound hconfig hguard hev) hcall

/-! ### Handing out ids -/

/-- The id an event takes, if it takes one, and the room it is meant for. -/
def hands (engine : Engine S) : Event S → List (PeerId × String)
  | .command (.join request) seed =>
      if (engine.call request.claims.room).consumes engine.config request seed then
        [(⟨engine.nextPeer⟩, request.claims.room)]
      else []
  | _ => []

theorem mem_hands {engine : Engine S} {event : Event S} {entry : PeerId × String}
    (h : entry ∈ engine.hands event) :
    entry.1 = ⟨engine.nextPeer⟩ ∧ (engine.hands event).length = 1 ∧
      ∃ request seed, event = .command (.join request) seed ∧ request.claims.room = entry.2 := by
  unfold hands at h ⊢
  split at h
  · rename_i request seed
    split at h
    · rename_i hconsumes
      obtain rfl := List.mem_singleton.mp h
      exact ⟨rfl, by simp [hconsumes], request, seed, rfl, rfl⟩
    · cases h
  · cases h

theorem callEvent_join {name : String} {engine : Engine S} {event : Event S} {request : JoinRequest}
    {seed : S.Seed} (h : engine.callEvent name event = some (.join request seed)) :
    event = .command (.join request) seed ∧ request.claims.room = name := by
  cases event with
  | command command seed' =>
      cases command with
      | join request' =>
          simp only [callEvent] at h
          split at h
          · rename_i hname
            cases h
            exact ⟨rfl, hname⟩
          · split at h <;> cases h
      | answer | mute | screen | leave | shutdown => cases h
  | pollRooms | reportConnections | reap | advanceTime => cases h
  | tickSpeaking | readOnce =>
      simp only [callEvent] at h
      split at h <;> cases h

theorem callEvent_answer {name : String} {engine : Engine S} {event : Event S} {id : PeerId}
    {sdp : String} (h : engine.callEvent name event = some (.answer id sdp)) :
    ∃ seed, event = .command (.answer id sdp) seed := by
  cases event with
  | command command seed =>
      cases command with
      | join request =>
          simp only [callEvent] at h
          split at h
          · cases h
          · split at h <;> cases h
      | answer id' sdp' =>
          cases h
          exact ⟨seed, rfl⟩
      | mute | screen | leave | shutdown => cases h
  | pollRooms | reportConnections | reap | advanceTime => cases h
  | tickSpeaking | readOnce =>
      simp only [callEvent] at h
      split at h <;> cases h

theorem callEvent_elsewhere {name : String} {engine : Engine S} {event : Event S}
    (h : engine.callEvent name event = some .elsewhere) :
    ∃ entry ∈ engine.hands event, entry.2 ≠ name := by
  cases event with
  | command command seed =>
      cases command with
      | join request =>
          simp only [callEvent] at h
          split at h
          · cases h
          · rename_i hname
            split at h
            · rename_i hconsumes
              exact ⟨(⟨engine.nextPeer⟩, request.claims.room), by simp [hands, hconsumes], hname⟩
            · cases h
      | answer | mute | screen | leave | shutdown => cases h
  | pollRooms | reportConnections | reap | advanceTime => cases h
  | tickSpeaking | readOnce =>
      simp only [callEvent] at h
      split at h <;> cases h

/-- Ids are taken from the counter one by one. -/
theorem Sound.step_nextPeer {engine engine' : Engine S} (h : engine.Sound) {event : Event S}
    (hstep : engine.step event = some engine') :
    engine'.nextPeer = engine.nextPeer + (engine.hands event).length := by
  have hcalls := (h.step_calls hstep).2.2
  by_cases hjoin : ∃ request seed, event = .command (.join request) seed
  · obtain ⟨request, seed, rfl⟩ := hjoin
    have hcall := hcalls request.claims.room
    simp only [CallStep, callEvent, if_true, Call.step, Option.some.injEq] at hcall
    have hnext : engine'.nextPeer = _ := (congrArg Call.nextPeer hcall).symm
    rw [hnext, hands]
    rcases (engine.call request.claims.room).join_cases engine.config request seed with
      ⟨hconsumes, -, heq⟩ | ⟨hconsumes, -, heq⟩ | ⟨hconsumes, -, offer, answer, heq⟩
    · simp [heq, hconsumes]
    · simp [heq, hconsumes]
    · simp [heq, hconsumes, Call.enter]
  · have hnone : engine.hands event = [] := by
      unfold hands
      split
      · exact absurd ⟨_, _, rfl⟩ hjoin
      · rfl
    rw [hnone, List.length_nil, Nat.add_zero]
    have hcall := hcalls ""
    unfold CallStep at hcall
    split at hcall
    · exact congrArg Call.nextPeer hcall
    · rename_i ev hev
      have hquiet : Call.CallEvent.isJoin ev = false := by
        cases ev with
        | join request seed => exact absurd ⟨request, seed, (callEvent_join hev).1⟩ hjoin
        | elsewhere =>
            obtain ⟨entry, hentry, -⟩ := callEvent_elsewhere hev
            rw [hnone] at hentry
            cases hentry
        | _ => rfl
      have hle := Call.step_nextPeer (h.numbered "") hcall
      have hge := Call.nextPeer_le (h.numbered "") hcall
      rw [hquiet] at hle
      exact le_antisymm hle hge

end Engine

end FerriteSfu
