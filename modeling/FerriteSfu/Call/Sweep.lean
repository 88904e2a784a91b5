import FerriteSfu.Call.Sound

/-!
How the commands to one peer and the sweeps over all rooms show in the call of
a room. A sweep visits the rooms one by one, so the invariant `Sound` is carried
through the single visits.
-/

namespace FerriteSfu

variable {S : Str0m}

namespace Engine

/-! ### Commands to one peer -/

theorem Sound.of_calls {engine engine' : Engine S} (h : engine.Sound)
    (hconfig : engine'.config = engine.config) (hindexed : engine'.Indexed)
    (hcalls : ∀ name, engine'.call name = engine.call name ∨ ∃ event,
      (engine.call name).step engine.config name event = some (engine'.call name)) :
    engine'.Sound where
  indexed := hindexed
  calls name := by
    rw [hconfig]
    rcases hcalls name with heq | ⟨event, hstep⟩
    · exact heq ▸ h.calls name
    · exact reachable_step (h.calls name) event hstep

end Engine

theorem Room.updatePeer_of_not_mem {room : Room S} {id : PeerId}
    (h : ∀ peer ∈ room.peers, peer.id ≠ id) (f : Peer S → Peer S) :
    room.updatePeer id f = room := by
  unfold updatePeer
  rw [List.updateFirst_of_forall_not fun peer hmem => by simpa using h peer hmem]

namespace Call

theorem answer_of_not_mem {call : Call S} {id : PeerId}
    (h : ∀ peer ∈ call.peers, peer.id ≠ id) (sdp : String) : call.answer id sdp = call := by
  unfold answer
  split
  · rfl
  · refine Call.ext ?_ rfl rfl
    cases hroom : call.room with
    | none => rfl
    | some room =>
        rw [peers_of_room hroom] at h
        exact congrArg some (Room.updatePeer_of_not_mem h _)

theorem setState_of_not_mem {call : Call S} {id : PeerId}
    (h : ∀ peer ∈ call.peers, peer.id ≠ id) (name : String) (muted screen : Option Bool) :
    call.setState name id muted screen = call := by
  unfold setState
  cases hroom : call.room with
  | none => rfl
  | some room =>
      rw [peers_of_room hroom] at h
      have hfind : room.peers.find? (fun peer => peer.id = id) = none := by simpa using h
      simp [hfind]

end Call

namespace Engine

theorem Sound.not_mem_call {engine : Engine S} (h : engine.Sound) {id : PeerId} {name : String}
    (hlookup : engine.peerRooms.lookup id ≠ some name) :
    ∀ peer ∈ (engine.call name).peers, peer.id ≠ id := by
  intro peer hpeer he
  exact hlookup (h.mem_call.mp (he ▸ List.mem_map_of_mem hpeer))

theorem Sound.handleAnswer_call {engine : Engine S} (h : engine.Sound) (id : PeerId)
    (sdp : String) (name : String) :
    (engine.handleAnswer id sdp).call name = (engine.call name).answer id sdp := by
  unfold handleAnswer
  cases hlookup : engine.peerRooms.lookup id with
  | none => exact (Call.answer_of_not_mem (h.not_mem_call (by simp [hlookup])) sdp).symm
  | some home =>
      by_cases hname : name = home
      · subst hname
        unfold Call.answer
        cases S.answerFromSdpString sdp with
        | error reason => rfl
        | ok answer => simp [call, AList.lookup_modify]
      · rw [Call.answer_of_not_mem (h.not_mem_call fun he =>
          hname (Option.some.inj (hlookup.symm.trans he)).symm)]
        cases S.answerFromSdpString sdp with
        | error reason => rfl
        | ok answer => exact call_congr (by simp [AList.lookup_modify, hname]) rfl rfl

/-- Mutating one room in place. -/
theorem Indexed.modify {engine : Engine S} (h : engine.Indexed) (home : String)
    {f : Room S → Room S}
    (hf : ∀ room, engine.rooms.lookup home = some room → room.Kept (f room))
    {engine' : Engine S} (hrooms : engine'.rooms = engine.rooms.modify home f)
    (hpeers : engine'.peerRooms = engine.peerRooms) (hheap : engine'.heap = engine.heap) :
    engine'.Indexed := by
  refine h.of_kept (f := fun name room => if name = home then f room else room)
    (fun name => ?_) hpeers hheap fun name room hroom => ?_
  · rw [hrooms, AList.lookup_modify]
    by_cases hname : name = home
    · simp [hname]
    · simp [hname]
  · by_cases hname : name = home
    · subst hname
      rw [if_pos rfl]
      exact hf room hroom
    · rw [if_neg hname]
      exact .refl room

/-- Writing one room back. -/
theorem Indexed.insert {engine engine' : Engine S} (h : engine.Indexed) {home : String}
    {room room' : Room S} (hroom : engine.rooms.lookup home = some room) (hkept : room.Kept room')
    (hrooms : engine'.rooms = engine.rooms.insert home room')
    (hpeers : engine'.peerRooms = engine.peerRooms) (hheap : engine'.heap = engine.heap) :
    engine'.Indexed := by
  refine h.modify home (f := fun _ => room') (fun room₀ hroom₀ => ?_) ?_ hpeers hheap
  · rw [Option.some.inj (hroom₀.symm.trans hroom)]
    exact hkept
  · rw [hrooms, AList.modify, hroom]

theorem handleAnswer_config (id : PeerId) (sdp : String) (engine : Engine S) :
    (engine.handleAnswer id sdp).config = engine.config := by
  rw [handleAnswer_eq]

theorem Sound.handleAnswer {engine : Engine S} (h : engine.Sound) (id : PeerId) (sdp : String) :
    (engine.handleAnswer id sdp).Sound := by
  refine h.of_calls (handleAnswer_config id sdp engine) ?_ fun name =>
    .inr ⟨.answer id sdp, congrArg some (h.handleAnswer_call id sdp name).symm⟩
  · unfold Engine.handleAnswer
    split
    · exact h.indexed
    · rename_i home _
      split
      · exact h.indexed
      · rename_i answer _
        exact h.indexed.modify home
          (fun room _ => .updatePeer room id (Peer.acceptAnswer_keeps answer)) rfl rfl rfl

/-- Reports about another room do not show. -/
theorem filter_report (name other : String) {reports : List ReportEvent} {report : ReportEvent}
    (hroom : report.room.name = name) :
    ((reports ++ [report]).filter fun event => event.room.name = other) =
      (reports.filter fun event => event.room.name = other) ++
        if other = name then [report] else [] := by
  rw [List.filter_append]
  by_cases hname : other = name
  · simp [hname, hroom]
  · simp [hname, hroom, Ne.symm hname]

theorem Sound.setState_call {engine : Engine S} (h : engine.Sound) (id : PeerId)
    (muted screen : Option Bool) (name : String) :
    (engine.setState id muted screen).call name =
      (engine.call name).setState name id muted screen := by
  unfold setState
  cases hlookup : engine.peerRooms.lookup id with
  | none =>
      exact (Call.setState_of_not_mem (h.not_mem_call (by simp [hlookup])) name muted screen).symm
  | some home =>
      obtain ⟨room, peer, hroom, -, -, hfind⟩ := h.lookup_find hlookup
      simp only [hroom, hfind]
      by_cases hname : name = home
      · subst hname
        unfold Call.setState
        simp only [call_room, hroom, hfind]
        split
        · simp [call]
        · refine Call.ext ?_ ?_ rfl
          · simp [call, report, Call.report]
          · simp only [call, report, Call.report]
            rw [filter_report name name rfl, if_pos rfl]
      · rw [Call.setState_of_not_mem (h.not_mem_call fun he =>
          hname (Option.some.inj (hlookup.symm.trans he)).symm)]
        split
        · exact call_congr (by simp [hname]) rfl rfl
        · refine call_congr (by simp [report, hname]) ?_ rfl
          simp only [report]
          rw [filter_report home name rfl, if_neg hname, List.append_nil]

theorem setState_config (id : PeerId) (muted screen : Option Bool) (engine : Engine S) :
    (engine.setState id muted screen).config = engine.config := by
  rw [setState_eq]

theorem Sound.setState {engine : Engine S} (h : engine.Sound) (id : PeerId)
    (muted screen : Option Bool) : (engine.setState id muted screen).Sound := by
  refine h.of_calls (setState_config id muted screen engine) ?_ fun name =>
    .inr ⟨.setState id muted screen, congrArg some (h.setState_call id muted screen name).symm⟩
  · unfold Engine.setState
    cases hlookup : engine.peerRooms.lookup id with
    | none => exact h.indexed
    | some home =>
        obtain ⟨room, peer, hroom, -, -, hfind⟩ := h.lookup_find hlookup
        simp only [hroom, hfind]
        have hkept : room.Kept ((room.updatePeer id fun other =>
            { other with muted := muted.getD peer.muted,
                         screen := screen.getD peer.screen }).broadcast
            (.peerState id.asString (muted.getD peer.muted) (screen.getD peer.screen))) := by
          refine .map (Room.updatePeer_broadcast_peers (h.ids hroom) id _ _) fun other => ?_
          split <;> exact ⟨rfl, rfl, fun _ hmem => hmem⟩
        split <;> exact h.indexed.insert hroom hkept rfl rfl rfl

/-! ### Sweeps that touch each room by itself -/

/-- The room `name`, after a sweep that applies `f` to every room. -/
theorem lookup_sweep {engine : Engine S} {order : List String}
    (horder : order.Perm engine.rooms.keys) (f : Room S → Room S) (name : String) :
    (order.foldl (fun rooms name => rooms.modify name f) engine.rooms).lookup name =
      (engine.rooms.lookup name).map f := by
  rw [AList.lookup_foldl_modify f order (horder.nodup_iff.mpr engine.rooms.nodupKeys)]
  by_cases hname : name ∈ order
  · rw [if_pos hname]
  · rw [if_neg hname, call_peers_of_not_visited horder hname]
    rfl

theorem Indexed.sweep {engine engine' : Engine S} (h : engine.Indexed) {order : List String}
    (horder : order.Perm engine.rooms.keys) {f : Room S → Room S}
    (hf : ∀ room : Room S, room.Kept (f room))
    (hrooms : engine'.rooms = order.foldl (fun rooms name => rooms.modify name f) engine.rooms)
    (hpeers : engine'.peerRooms = engine.peerRooms) (hheap : engine'.heap = engine.heap) :
    engine'.Indexed :=
  h.of_kept (f := fun _ => f) (fun name => by rw [hrooms, lookup_sweep horder]) hpeers hheap
    fun _ room _ => hf room

theorem tickSpeaking_call {engine : Engine S} (now : Instant) {order : List String}
    (horder : order.Perm engine.rooms.keys) (name : String)
    (hdue : ¬now - engine.lastSpeaking < speakingTick) :
    (engine.tickSpeaking now order).call name =
      { engine.call name with
        room := (engine.call name).room.map (Room.syncSpeaking now) } := by
  unfold tickSpeaking
  rw [if_neg hdue]
  exact Call.ext (lookup_sweep horder _ name) rfl rfl

theorem advanceTime_call {engine : Engine S} (now : Instant) {order : List String}
    (horder : order.Perm engine.rooms.keys) (name : String) :
    (engine.advanceTime now order).call name =
      { engine.call name with room := (engine.call name).room.map (Room.advanceTime now) } :=
  Call.ext (lookup_sweep horder _ name) rfl rfl

theorem foldl_report (arrived : List (String × String)) (engine : Engine S) :
    arrived.foldl (fun engine arrival =>
      engine.report ((ReportEvent.new .participantJoined arrival.1).identity arrival.2)) engine =
    { engine with reports := engine.reports ++ arrived.map fun arrival =>
      (ReportEvent.new .participantJoined arrival.1).identity arrival.2 } := by
  induction arrived generalizing engine with
  | nil => simp
  | cons arrival arrived ih =>
      rw [List.foldl_cons, ih]
      simp [report]

/-- The reports of the peers of one room that have just arrived. -/
def arrivals (name : String) (engine : Engine S) : List ReportEvent :=
  ((engine.call name).peers.filter Peer.isArriving).map fun peer =>
    (ReportEvent.new .participantJoined name).identity peer.userId

theorem reportConnections_eq (order : List String) (engine : Engine S) :
    engine.reportConnections order = { engine with
      rooms := order.foldl (fun rooms name => rooms.modify name Room.markReported) engine.rooms
      reports := engine.reports ++ order.flatMap fun name => engine.arrivals name } := by
  unfold reportConnections
  rw [foldl_report, List.map_flatMap]
  simp only [Engine.mk.injEq, List.append_cancel_left_eq, and_true, true_and]
  refine List.flatMap_congr fun name _ => ?_
  cases hroom : engine.rooms.lookup name <;>
    simp [arrivals, Call.peers, hroom, Function.comp_def]

theorem markReported_kept (room : Room S) : room.Kept room.markReported :=
  .map (f := fun peer => if peer.isArriving then { peer with reported := true } else peer) rfl
    fun peer => by split <;> exact ⟨rfl, rfl, fun _ hmem => hmem⟩

theorem reportConnections_call {engine : Engine S} {order : List String}
    (horder : order.Perm engine.rooms.keys) (name : String) :
    (engine.reportConnections order).call name = (engine.call name).reportConnections name := by
  rw [reportConnections_eq]
  refine Call.ext (lookup_sweep horder _ name) ?_ rfl
  have hkey : ∀ other ∈ order, ∀ event ∈ engine.arrivals other, event.room.name = id other := by
    intro other _ event hevent
    obtain ⟨peer, -, rfl⟩ := List.mem_map.mp hevent
    rfl
  simp only [call, Call.reportConnections, List.filter_append, List.append_cancel_left_eq]
  by_cases hname : name ∈ order
  · have hids : (order.map id).Nodup := by
      simpa using horder.nodup_iff.mpr engine.rooms.nodupKeys
    exact List.filter_flatMap_key hids hkey hname
  · have hnone : Call.peers (engine.call name) = [] :=
      Call.peers_of_none (call_peers_of_not_visited horder hname)
    have hnil : ((order.flatMap fun other => engine.arrivals other).filter
        fun event => event.room.name = name) = [] := by
      refine List.filter_eq_nil_iff.mpr fun event hevent => ?_
      obtain ⟨other, hother, hmem⟩ := List.mem_flatMap.mp hevent
      have hroom : event.room.name = other := hkey other hother event hmem
      simpa [hroom] using fun he : other = name => hname (he ▸ hother)
    rw [hnil]
    change [] = (List.filter Peer.isArriving (Call.peers (engine.call name))).map _
    rw [hnone]
    rfl

/-! ### Reading a datagram -/

theorem Sound.readOnce_indexed {engine : Engine S} (h : engine.Sound) (now : Instant)
    (datagram : S.Datagram) (order : List String) :
    (engine.readOnce now datagram order).Indexed := by
  unfold readOnce
  dsimp only
  split
  · exact h.indexed
  · rename_i name _
    exact h.indexed.modify name (fun room _ => .of_quiet (Room.handleInput_quiet _ room))
      rfl rfl rfl

theorem readOnce_call (engine : Engine S) (now : Instant) (datagram : S.Datagram)
    (order : List String) (name : String) :
    (engine.readOnce now datagram order).call name =
      if engine.receiver (.receive now datagram) order = some name then
        { engine.call name with
          room := (engine.call name).room.map (Room.handleInput (.receive now datagram)) }
      else engine.call name := by
  unfold readOnce
  dsimp only
  split
  · rename_i hnone
    have hreceiver : engine.receiver (.receive now datagram) order = none := hnone
    simp [hreceiver]
  · rename_i target hsome
    have hreceiver : engine.receiver (.receive now datagram) order = some target := hsome
    rw [hreceiver]
    by_cases hname : name = target
    · subst hname
      rw [if_pos rfl]
      exact Call.ext (by simp [call, AList.lookup_modify]) rfl rfl
    · rw [if_neg fun he => hname (Option.some.inj he).symm]
      exact call_congr (by simp [AList.lookup_modify, hname]) rfl rfl

/-! ### Polling the rooms -/

theorem passed_tracks {opened : List TrackIn} {room room' : Room S}
    (h : List.Forall₂ (Peer.Passed opened) room.peers room'.peers) (track : TrackIn) :
    track ∈ room'.tracks ↔
      track ∈ room.tracks ∨ (track ∈ opened ∧ track.origin ∈ room.ids) := by
  rw [Room.mem_tracks, Room.mem_tracks, Room.mem_ids]
  constructor
  · rintro ⟨pub', hpub', hmem⟩
    obtain ⟨pub, hpub, hpassed⟩ := h.exists_left hpub'
    rw [hpassed.tracks, List.mem_append] at hmem
    rcases hmem with hmem | hmem
    · exact .inl ⟨pub, hpub, hmem⟩
    · obtain ⟨hopened, horigin⟩ := List.mem_filter.mp hmem
      exact .inr ⟨hopened, pub, hpub, (of_decide_eq_true horigin).symm⟩
  · rintro (⟨pub, hpub, hmem⟩ | ⟨hopened, pub, hpub, horigin⟩)
    · obtain ⟨pub', hpub', hpassed⟩ := h.exists_right hpub
      exact ⟨pub', hpub', by rw [hpassed.tracks]; exact List.mem_append_left _ hmem⟩
    · obtain ⟨pub', hpub', hpassed⟩ := h.exists_right hpub
      refine ⟨pub', hpub', ?_⟩
      rw [hpassed.tracks]
      exact List.mem_append_right _ (List.mem_filter.mpr ⟨hopened, by simpa using horigin.symm⟩)

theorem passed_refers {opened : List TrackIn} {room room' : Room S}
    (h : List.Forall₂ (Peer.Passed opened) room.peers room'.peers) {track : TrackIn}
    (href : room'.Refers track) : room.Refers track ∨ track ∈ opened := by
  obtain ⟨sub', hsub', hmem⟩ := href
  obtain ⟨sub, hsub, hpassed⟩ := h.exists_left hsub'
  rw [hpassed.refs, List.mem_append] at hmem
  rcases hmem with hmem | hmem
  · exact .inl ⟨sub, hsub, hmem⟩
  · exact .inr (List.mem_of_mem_filter hmem)

/-- A pass over the rooms touches the rooms and the heap. -/
theorem foldlM_pollRoom_eq {clock : String → ℕ → List Instant} {order : List String}
    {polled polled' : Engine S × Instant}
    (h : order.foldlM (Engine.pollRoom clock) polled = some polled') :
    polled'.1 = { polled.1 with rooms := polled'.1.rooms, heap := polled'.1.heap } := by
  induction order generalizing polled with
  | nil =>
      cases h
      rfl
  | cons name order ih =>
      rw [List.foldlM_cons] at h
      obtain ⟨next, hnext, hrest⟩ := Option.bind_eq_some_iff.mp h
      rw [ih hrest]
      unfold Engine.pollRoom at hnext
      split at hnext
      · cases hnext
        rfl
      · obtain ⟨room, -, rfl⟩ := Option.map_eq_some_iff.mp hnext
        rfl

/-- A pass over one room. -/
theorem Indexed.pass {engine : Engine S} (h : engine.Indexed) {name : String} {room room' : Room S}
    (hroom : engine.rooms.lookup name = some room) {opened : List TrackIn}
    (hall : List.Forall₂ (Peer.Passed opened) room.peers room'.peers)
    (hopened : ∀ track ∈ opened, track.origin ∈ room.ids) :
    Indexed { engine with
      rooms := engine.rooms.insert name room', heap := engine.heap ++ opened } := by
  refine h.of_rooms (f := fun other room => if other = name then room' else room) opened
    (fun other => ?rooms) rfl (fun other room₀ hroom₀ => ?ids) (fun track => List.mem_append)
    (fun track hmem => ⟨name, room, hroom, hopened track hmem⟩)
    (fun other room₀ hroom₀ track => ?tracks) fun other room₀ hroom₀ track href => ?refers
  case rooms =>
    by_cases hother : other = name
    · subst hother
      simp [hroom]
    · simp [hother]
  case ids =>
    by_cases hother : other = name
    · subst hother
      cases hroom.symm.trans hroom₀
      rw [if_pos rfl]
      exact Peer.passed_ids hall
    · rw [if_neg hother]
  case tracks =>
    by_cases hother : other = name
    · subst hother
      cases hroom.symm.trans hroom₀
      rw [if_pos rfl]
      exact passed_tracks hall track
    · rw [if_neg hother]
      refine ⟨.inl, fun hmem => hmem.elim id fun hopen => ?_⟩
      -- A track that was just opened would have its publisher in two rooms.
      exact absurd (h.room_unique hroom (hopened track hopen.1) hroom₀ hopen.2) hother
  case refers =>
    by_cases hother : other = name
    · subst hother
      cases hroom.symm.trans hroom₀
      rw [if_pos rfl] at href
      exact (passed_refers hall href).imp id (hopened track)
    · rw [if_neg hother] at href
      exact .inl href

/-- One visit of the sweep: the room is polled as a call, the others are left alone. -/
theorem Sound.pollRoom {engine engine' : Engine S} {timeout timeout' : Instant}
    (h : engine.Sound) {clock : String → ℕ → List Instant} {name : String}
    (hpoll : pollRoom clock (engine, timeout) name = some (engine', timeout')) :
    engine'.Sound ∧ engine'.config = engine.config ∧
      (engine.call name).poll (clock name) = some (engine'.call name) ∧
      ∀ other, other ≠ name → engine'.call other = engine.call other := by
  unfold Engine.pollRoom at hpoll
  cases hroom : engine.rooms.lookup name with
  | none =>
      rw [hroom] at hpoll
      cases hpoll
      exact ⟨h, rfl, by simp [Call.poll, hroom], fun _ _ => rfl⟩
  | some room =>
      rw [hroom] at hpoll
      obtain ⟨next, hnext, heq⟩ := Option.map_eq_some_iff.mp hpoll
      cases heq
      have hids := h.ids hroom
      -- The engine polls with its heap and timeout, the call with the tracks of the room and 0.
      have hagrees : ∀ peer ∈ room.peers, peer.Agrees engine.heap room.tracks :=
        fun peer hpeer => h.agrees hroom hpeer
      obtain ⟨next', hnext', hsame, -⟩ := Room.poll_congr 0 hids hagrees hnext
      obtain ⟨opened, hheap, hopened, -, -, hall⟩ := Room.poll_pass hids hnext
      have hcall : (engine.call name).poll (clock name) = some (call name { engine with
          rooms := engine.rooms.insert name next.room, heap := next.heap }) := by
        simp [Call.poll, hroom, hnext', hsame, call]
      have hothers : ∀ other, other ≠ name → call other { engine with
          rooms := engine.rooms.insert name next.room, heap := next.heap } =
            engine.call other :=
        fun other hother => call_congr (by simp [hother]) rfl rfl
      have hopenids : ∀ track ∈ opened, track.origin ∈ room.ids := by
        intro track hmem
        obtain ⟨peer, hpeer, hid⟩ := hopened track hmem
        exact hid ▸ List.mem_map_of_mem hpeer
      refine ⟨h.of_calls rfl ?_ fun other => ?_, rfl, hcall, hothers⟩
      · rw [hheap]
        exact h.indexed.pass hroom hall hopenids
      · by_cases hother : other = name
        · subst hother
          exact .inr ⟨.poll (clock other), hcall⟩
        · exact .inl (hothers other hother)

theorem Sound.foldlM_pollRoom {engine engine' : Engine S} {timeout timeout' : Instant}
    (h : engine.Sound) {clock : String → ℕ → List Instant} {order : List String}
    (horder : order.Nodup)
    (hpoll : order.foldlM (Engine.pollRoom clock) (engine, timeout) = some (engine', timeout')) :
    engine'.Sound ∧ engine'.config = engine.config ∧ ∀ name,
      if name ∈ order then (engine.call name).poll (clock name) = some (engine'.call name)
      else engine'.call name = engine.call name := by
  induction order generalizing engine timeout with
  | nil =>
      cases hpoll
      exact ⟨h, rfl, by simp⟩
  | cons first order ih =>
      obtain ⟨hnot, horder⟩ := List.nodup_cons.mp horder
      rw [List.foldlM_cons] at hpoll
      obtain ⟨⟨engine₁, timeout₁⟩, hfirst, hrest⟩ := Option.bind_eq_some_iff.mp hpoll
      obtain ⟨hsound₁, hconfig₁, hown, hothers⟩ := h.pollRoom hfirst
      obtain ⟨hsound, hconfig, hcalls⟩ := ih hsound₁ horder hrest
      refine ⟨hsound, hconfig.trans hconfig₁, fun name => ?_⟩
      have hname := hcalls name
      by_cases hfirst : name = first
      · subst hfirst
        rw [if_neg hnot] at hname
        rw [if_pos (by simp), hname]
        exact hown
      · simp only [List.mem_cons, hfirst, false_or]
        rwa [hothers name hfirst] at hname

theorem Sound.pollRooms {engine engine' : Engine S} {timeout : Instant} (h : engine.Sound)
    {now : Instant} {clock : String → ℕ → List Instant} {order : List String}
    (horder : order.Perm engine.rooms.keys)
    (hpoll : engine.pollRooms now order clock = some (engine', timeout)) :
    engine'.Sound ∧ engine'.config = engine.config ∧
      ∀ name, (engine.call name).poll (clock name) = some (engine'.call name) := by
  obtain ⟨hsound, hconfig, hcalls⟩ :=
    h.foldlM_pollRoom (horder.nodup_iff.mpr engine.rooms.nodupKeys) hpoll
  refine ⟨hsound, hconfig, fun name => ?_⟩
  have hname := hcalls name
  by_cases hmem : name ∈ order
  · rwa [if_pos hmem] at hname
  · rw [if_neg hmem] at hname
    rw [hname]
    simp [Call.poll, call_peers_of_not_visited horder hmem]

end Engine

end FerriteSfu
