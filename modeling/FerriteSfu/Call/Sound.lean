import FerriteSfu.Call.Subscriptions
import FerriteSfu.Sfu.Index

/-!
The engine, one room at a time: how removals show in the call of a room.

`Sound` holds together what the engine knows of all rooms and what each of its
calls has become. It is carried through the single removals a reap consists of.
-/

namespace FerriteSfu

variable {S : Str0m}

namespace Engine

/-! ### What the operations touch -/

theorem handleAnswer_eq (id : PeerId) (sdp : String) (engine : Engine S) :
    engine.handleAnswer id sdp = { engine with rooms := (engine.handleAnswer id sdp).rooms } := by
  unfold handleAnswer
  repeat' split
  all_goals rfl

theorem setState_eq (id : PeerId) (muted screen : Option Bool) (engine : Engine S) :
    engine.setState id muted screen = { engine with
      rooms := (engine.setState id muted screen).rooms
      reports := (engine.setState id muted screen).reports } := by
  unfold setState
  dsimp only
  repeat' split
  all_goals rfl

theorem dropPeer_eq (id : PeerId) (engine : Engine S) :
    engine.dropPeer id = { engine with
      rooms := (engine.dropPeer id).rooms
      peerRooms := (engine.dropPeer id).peerRooms
      heap := (engine.dropPeer id).heap
      reports := (engine.dropPeer id).reports } := by
  unfold dropPeer
  dsimp only
  repeat' split
  all_goals rfl

theorem tickSpeaking_eq (now : Instant) (order : List String) (engine : Engine S) :
    engine.tickSpeaking now order = { engine with
      rooms := (engine.tickSpeaking now order).rooms
      lastSpeaking := (engine.tickSpeaking now order).lastSpeaking } := by
  unfold tickSpeaking
  split <;> rfl

theorem readOnce_eq (now : Instant) (datagram : S.Datagram) (order : List String)
    (engine : Engine S) :
    engine.readOnce now datagram order =
      { engine with rooms := (engine.readOnce now datagram order).rooms } := by
  unfold readOnce
  dsimp only
  split <;> rfl

/-! ### The invariant -/

structure Sound (engine : Engine S) : Prop where
  indexed : engine.Indexed
  calls : ∀ name, (Call.machine S engine.config name).Reachable (engine.call name)

@[simp] theorem call_room (name : String) (engine : Engine S) :
    (engine.call name).room = engine.rooms.lookup name := rfl

@[simp] theorem call_nextPeer (name : String) (engine : Engine S) :
    (engine.call name).nextPeer = engine.nextPeer := rfl

theorem call_peers {name : String} {engine : Engine S} {room : Room S}
    (h : engine.rooms.lookup name = some room) : (engine.call name).peers = room.peers :=
  Call.peers_of_room h

theorem mem_call_peers {engine : Engine S} {name : String} {peer : Peer S} :
    peer ∈ (engine.call name).peers ↔
      ∃ room, engine.rooms.lookup name = some room ∧ peer ∈ room.peers := by
  cases hroom : engine.rooms.lookup name <;> simp [Call.peers, hroom]

/-- Two engines with the same room, reports and counter have the same call. -/
theorem call_congr {name : String} {engine engine' : Engine S}
    (hroom : engine'.rooms.lookup name = engine.rooms.lookup name)
    (hreports : (engine'.reports.filter fun event => event.room.name = name) =
      engine.reports.filter fun event => event.room.name = name)
    (hnext : engine'.nextPeer = engine.nextPeer) : engine'.call name = engine.call name := by
  simp [call, hroom, hreports, hnext]

namespace Sound

variable {engine : Engine S} {name : String} {room : Room S}

theorem numbered (h : engine.Sound) (name : String) : (engine.call name).Numbered :=
  Call.reachable_numbered (h.calls name)

theorem ids (h : engine.Sound) (hroom : engine.rooms.lookup name = some room) :
    room.ids.Nodup := by
  simpa [Room.ids, call_peers hroom] using (h.numbered name).ids

theorem fresh (h : engine.Sound) (hroom : engine.rooms.lookup name = some room) :
    ∀ peer ∈ room.peers, peer.id.val < engine.nextPeer := by
  simpa [call_peers hroom] using (h.numbered name).fresh

theorem subscribed (h : engine.Sound) (hroom : engine.rooms.lookup name = some room) :
    Call.Subscribed engine.nextPeer room.peers := by
  have hsub := Call.reachable_subscribed (h.calls name)
  rwa [call_peers hroom] at hsub

theorem originsOwn (h : engine.Sound) (hroom : engine.rooms.lookup name = some room) :
    room.OriginsOwn :=
  (h.subscribed hroom).origin

/-- A subscription of a peer of the room is live exactly if the room publishes its
track. -/
theorem agrees (h : engine.Sound) (hroom : engine.rooms.lookup name = some room) {sub : Peer S}
    (hsub : sub ∈ room.peers) : sub.Agrees engine.heap room.tracks := fun _ href =>
  h.indexed.mem_heap_iff (fun _ _ hother => h.originsOwn hother) hroom ⟨sub, hsub, href⟩

theorem new_not_indexed (h : engine.Sound) :
    engine.peerRooms.lookup ⟨engine.nextPeer⟩ = none := by
  cases hlookup : engine.peerRooms.lookup ⟨engine.nextPeer⟩ with
  | none => rfl
  | some name =>
      obtain ⟨room, hroom, hid⟩ := (h.indexed.index _ _).mp hlookup
      obtain ⟨peer, hpeer, he⟩ := Room.mem_ids.mp hid
      have hlt := h.fresh hroom peer hpeer
      simp [he] at hlt

/-- The peer the index speaks of is there. -/
theorem lookup_find (h : engine.Sound) {id : PeerId}
    (hlookup : engine.peerRooms.lookup id = some name) :
    ∃ room peer, engine.rooms.lookup name = some room ∧ peer ∈ room.peers ∧ peer.id = id ∧
      room.peers.find? (fun peer => peer.id = id) = some peer := by
  obtain ⟨room, hroom, hid⟩ := (h.indexed.index id name).mp hlookup
  obtain ⟨peer, hpeer, hpid⟩ := Room.mem_ids.mp hid
  exact ⟨room, peer, hroom, hpeer, hpid, (List.find?_key_eq_some (h.ids hroom)).mpr ⟨hpeer, hpid⟩⟩

theorem not_mem_ids (h : engine.Sound) {id : PeerId}
    (hlookup : engine.peerRooms.lookup id ≠ some name)
    (hroom : engine.rooms.lookup name = some room) : ∀ peer ∈ room.peers, peer.id ≠ id := by
  intro peer hpeer he
  exact hlookup ((h.indexed.index id name).mpr ⟨room, hroom, he ▸ List.mem_map_of_mem hpeer⟩)

end Sound

/-! ### Removing one peer -/

/-- What the removal of `peer` from the room `name` comes to. -/
structure Dropped (name : String) (room : Room S) (peer : Peer S) (room' : Room S)
    (engine engine' : Engine S) : Prop where
  config : engine'.config = engine.config
  nextPeer : engine'.nextPeer = engine.nextPeer
  peerRooms : engine'.peerRooms = engine.peerRooms.erase peer.id
  rooms : ∀ other, engine'.rooms.lookup other =
    if other = name then if room'.isEmpty then none else some room'
    else engine.rooms.lookup other
  heap : engine'.heap = engine.heap.dropPeer peer
  reports : engine'.reports = engine.reports ++ Call.departure name peer room'.isEmpty

theorem dropPeer_of_none {engine : Engine S} {id : PeerId}
    (h : engine.peerRooms.lookup id = none) : engine.dropPeer id = engine := by
  simp [dropPeer, h]

theorem Sound.dropPeer_dropped {engine : Engine S} (h : engine.Sound) {id : PeerId}
    {name : String} (hlookup : engine.peerRooms.lookup id = some name) :
    ∃ room peer room', engine.rooms.lookup name = some room ∧
      room.remove id = some (peer, room') ∧
      Dropped name room peer room' engine (engine.dropPeer id) := by
  obtain ⟨room, peer, hroom, -, hid, hfind⟩ := h.lookup_find hlookup
  obtain ⟨room', hremove⟩ : ∃ room', room.remove id = some (peer, room') := by
    rw [Room.remove, hfind]
    exact ⟨_, rfl⟩
  refine ⟨room, peer, room', hroom, hremove, ?_⟩
  unfold dropPeer
  simp only [hlookup, hroom, hremove]
  refine ⟨?_, ?_, ?_, fun other => ?_, ?_, ?_⟩
  · split <;> split <;> rfl
  · split <;> split <;> rfl
  · rw [hid]
    split <;> split <;> rfl
  · by_cases hname : other = name <;> split <;> split <;>
      simp [report, AList.lookup_insert_eq_ite, AList.lookup_erase_eq_ite, hname]
  · split <;> split <;> rfl
  · cases hreported : peer.reported <;> cases hempty : room'.isEmpty <;>
      simp [report, Call.departure, hreported]

end Engine

/-- A removal of a peer that is not in the call changes nothing. -/
theorem Call.leave_of_not_mem {call : Call S} {id : PeerId}
    (h : ∀ peer ∈ call.peers, peer.id ≠ id) (name : String) : call.leave name id = call := by
  unfold leave
  cases hroom : call.room with
  | none => rfl
  | some room =>
      rw [peers_of_room hroom] at h
      simp [Room.remove_eq_none.mpr h]

namespace Engine

/-- Reports about another room do not show. -/
theorem filter_departure (name other : String) (peer : Peer S) (emptied : Bool) :
    ((Call.departure name peer emptied).filter fun event => event.room.name = other) =
      if other = name then Call.departure name peer emptied else [] := by
  by_cases hname : other = name
  · subst hname
    rw [if_pos rfl]
    refine List.filter_eq_self.mpr fun event hmem => ?_
    simp only [Call.departure, List.mem_append] at hmem
    rcases hmem with hmem | hmem <;> split at hmem <;> simp_all
  · rw [if_neg hname]
    refine List.filter_eq_nil_iff.mpr fun event hmem => ?_
    simp only [Call.departure, List.mem_append] at hmem
    rcases hmem with hmem | hmem <;> split at hmem <;> simp_all [Ne.symm hname]

/-- Each call sees the removal as its own, if the peer was in it. -/
theorem Sound.dropPeer_call {engine : Engine S} (h : engine.Sound) (id : PeerId)
    (name : String) : (engine.dropPeer id).call name = (engine.call name).leave name id := by
  cases hlookup : engine.peerRooms.lookup id with
  | none =>
      rw [dropPeer_of_none hlookup]
      refine (Call.leave_of_not_mem ?_ name).symm
      cases hroom : engine.rooms.lookup name with
      | none => simp [Call.peers, hroom]
      | some room =>
          rw [call_peers hroom]
          exact h.not_mem_ids (by simp [hlookup]) hroom
  | some home =>
      obtain ⟨room, peer, room', hroom, hremove, hdropped⟩ := h.dropPeer_dropped hlookup
      by_cases hname : name = home
      · subst hname
        have hbind : (engine.call name).room.bind (Room.remove id) = some (peer, room') := by
          simp [hroom, hremove]
        unfold Call.leave
        rw [hbind]
        simp [call, hdropped.rooms, hdropped.reports, hdropped.nextPeer, filter_departure]
      · rw [Call.leave_of_not_mem ?_ name]
        · refine call_congr ?_ ?_ hdropped.nextPeer
          · rw [hdropped.rooms, if_neg hname]
          · rw [hdropped.reports, List.filter_append, filter_departure, if_neg hname,
              List.append_nil]
        · cases hother : engine.rooms.lookup name with
          | none => simp [Call.peers, hother]
          | some other =>
              rw [call_peers hother]
              refine h.not_mem_ids ?_ hother
              rw [hlookup]
              exact fun he => hname (Option.some.inj he).symm

theorem mem_dropPeer {heap : Heap} {peer : Peer S} {track : TrackIn} :
    track ∈ heap.dropPeer peer ↔ track ∈ heap ∧ track ∉ peer.tracks := by
  simp [Heap.dropPeer, Peer.tracks]

/-- The peers left behind in a room that is told of a departure. -/
theorem mem_removed {room room' : Room S} {id : PeerId} {peer : Peer S} (hids : room.ids.Nodup)
    (hremove : room.remove id = some (peer, room')) {p : Peer S} :
    p ∈ room'.peers ↔ ∃ other ∈ room.peers, other.id ≠ id ∧
      p = other.send (.peerLeft id.asString) := by
  obtain ⟨-, rfl⟩ := Room.remove_eq_some hids hremove
  constructor
  · intro hmem
    obtain ⟨other, hother, rfl⟩ := List.mem_map.mp hmem
    obtain ⟨hother, hne⟩ := List.mem_filter.mp hother
    exact ⟨other, hother, by simpa using hne, rfl⟩
  · rintro ⟨other, hother, hne, rfl⟩
    exact List.mem_map_of_mem (List.mem_filter.mpr ⟨hother, by simpa using hne⟩)

theorem tracks_removed {room room' : Room S} {id : PeerId} {peer : Peer S} (hids : room.ids.Nodup)
    (hremove : room.remove id = some (peer, room')) {track : TrackIn} :
    track ∈ room'.tracks ↔ ∃ other ∈ room.peers, other.id ≠ id ∧ track ∈ other.tracks := by
  rw [Room.mem_tracks]
  constructor
  · rintro ⟨pub, hpub, htrack⟩
    obtain ⟨other, hother, hne, rfl⟩ := (mem_removed hids hremove).mp hpub
    exact ⟨other, hother, hne, htrack⟩
  · rintro ⟨other, hother, hne, htrack⟩
    exact ⟨_, (mem_removed hids hremove).mpr ⟨other, hother, hne, rfl⟩, htrack⟩

theorem Dropped.lookup {name other : String} {room room' next : Room S} {peer : Peer S}
    {engine engine' : Engine S} (h : Dropped name room peer room' engine engine') :
    engine'.rooms.lookup other = some next ↔ (other = name ∧ next = room' ∧ room'.peers ≠ []) ∨
      (other ≠ name ∧ engine.rooms.lookup other = some next) := by
  have hempty : room'.isEmpty = true ↔ room'.peers = [] := by simp [Room.isEmpty]
  rw [h.rooms]
  by_cases hother : other = name
  · rw [if_pos hother]
    by_cases hnil : room'.peers = []
    · simp [hempty.mpr hnil, hnil, hother]
    · rw [if_neg fun he => hnil (hempty.mp he)]
      simp [hnil, hother, eq_comm]
  · simp [hother]

theorem Sound.dropPeer_indexed {engine : Engine S} (h : engine.Sound) (id : PeerId) :
    (engine.dropPeer id).Indexed := by
  cases hlookup : engine.peerRooms.lookup id with
  | none =>
      rw [dropPeer_of_none hlookup]
      exact h.indexed
  | some home =>
      obtain ⟨room, peer, room', hroom, hremove, hdropped⟩ := h.dropPeer_dropped hlookup
      have hids := h.ids hroom
      obtain ⟨⟨hpeer, hid⟩, -⟩ := Room.remove_eq_some hids hremove
      have hmembers : ∀ i, i ∈ room'.ids ↔ engine.peerRooms.lookup i = some home ∧ i ≠ id := by
        intro i
        rw [Room.remove_ids hids hremove, h.indexed.index]
        simp [hroom]
      suffices hreplaced : Replaced home room' engine (engine.dropPeer id) from
        h.indexed.of_replaced hreplaced
      refine ⟨fun other next => hdropped.lookup,
        fun i name => ?peerRooms, fun track => ?heap, fun track href name => ?refers,
        fun name next hname hnext track href horigin => ?others⟩
      case peerRooms =>
        rw [hdropped.peerRooms, AList.lookup_erase_eq_ite, hid, hmembers]
        by_cases hi : i = id
        · subst hi
          simpa [hlookup] using fun hname he => hname he.symm
        · by_cases hname : name = home <;> simp [hi, hname]
      case heap =>
        -- The tracks freed are those of the one peer with that id.
        have hlone : track ∉ peer.tracks ↔
            ∀ other ∈ room.peers, other.id ∈ [id] → track ∉ other.tracks := by
          constructor
          · intro hnot other hother he
            have hsame := List.eq_of_map_eq hids hother hpeer
              ((List.mem_singleton.mp he).trans hid.symm)
            rwa [hsame]
          · exact fun hall => hall peer hpeer (List.mem_singleton.mpr hid)
        rw [hdropped.heap, mem_dropPeer, hlone, tracks_removed hids hremove,
          h.indexed.heap_without (fun _ _ => h.originsOwn)
            (fun next hnext => Option.some_inj.mp (hnext.symm.trans hroom)) fun _ _ => hroom]
        simp
      case refers =>
        rw [hdropped.peerRooms, AList.lookup_erase_eq_ite]
        split
        · exact fun he => by cases he
        · obtain ⟨sub, hsub, htrack⟩ := href
          obtain ⟨other, hother, -, rfl⟩ := (mem_removed hids hremove).mp hsub
          exact h.indexed.apart home room track name hroom ⟨other, hother, htrack⟩
      case others =>
        exact hname (h.indexed.apart name next track home hnext href
          ((hmembers _).mp horigin).1).symm

theorem dropPeer_config (id : PeerId) (engine : Engine S) :
    (engine.dropPeer id).config = engine.config := by
  rw [dropPeer_eq]

/-- A step of a call leads from a reachable call to a reachable one. -/
theorem reachable_step {config : Config} {name : String} {call call' : Call S}
    (h : (Call.machine S config name).Reachable call) (event : CallEvent S)
    (hstep : call.step config name event = some call') :
    (Call.machine S config name).Reachable call' :=
  .step h trivial hstep

/-- **Removing a peer keeps the engine sound.** -/
theorem Sound.dropPeer {engine : Engine S} (h : engine.Sound) (id : PeerId) :
    (engine.dropPeer id).Sound where
  indexed := h.dropPeer_indexed id
  calls name := by
    rw [dropPeer_config, h.dropPeer_call]
    exact reachable_step (h.calls name) (.leave id) rfl

/-! ### Sweeping the dead -/

theorem Sound.foldl_dropPeer {engine : Engine S} (h : engine.Sound) (ids : List PeerId) :
    (ids.foldl (fun engine id => engine.dropPeer id) engine).Sound ∧
      (ids.foldl (fun engine id => engine.dropPeer id) engine).config = engine.config ∧
      ∀ name, (ids.foldl (fun engine id => engine.dropPeer id) engine).call name =
        ids.foldl (fun call id => call.leave name id) (engine.call name) := by
  induction ids generalizing engine with
  | nil => exact ⟨h, rfl, fun _ => rfl⟩
  | cons id ids ih =>
      obtain ⟨hsound, hconfig, hcalls⟩ := ih (h.dropPeer id)
      refine ⟨hsound, hconfig.trans (dropPeer_config id engine), fun name => ?_⟩
      rw [List.foldl_cons, List.foldl_cons, hcalls, h.dropPeer_call]

end Engine

namespace Call

/-- Only the ids of the call matter to a sweep. -/
theorem foldl_leave_filter {call : Call S} (hids : (call.peers.map Peer.id).Nodup)
    {ids own : List PeerId} (name : String) (hown : ∀ id ∈ call.peers.map Peer.id, id ∈ own) :
    ids.foldl (fun call id => call.leave name id) call =
      (ids.filter fun id => id ∈ own).foldl (fun call id => call.leave name id) call := by
  induction ids generalizing call with
  | nil => rfl
  | cons id ids ih =>
      have hsub : ∀ id' ∈ (call.leave name id).peers.map Peer.id, id' ∈ own := by
        intro id' hmem
        refine hown id' ?_
        have hcards := congrArg Ledger.members (leave_ledger name hids id)
        have hids' : (call.leave name id).peers.map Peer.id =
            ((call.leave name id).ledger.members).map Card.id := by simp
        rw [hids', hcards] at hmem
        obtain ⟨card, hcard, rfl⟩ := List.mem_map.mp hmem
        obtain ⟨peer, hpeer, rfl⟩ := List.mem_map.mp (List.mem_of_mem_filter hcard)
        exact List.mem_map_of_mem hpeer
      by_cases hid : id ∈ own
      · rw [List.filter_cons_of_pos (by simpa using hid), List.foldl_cons, List.foldl_cons]
        exact ih (leave_ids_nodup hids id) hsub
      · have hnot : ∀ peer ∈ call.peers, peer.id ≠ id :=
          fun peer hpeer he => hid (hown id (he ▸ List.mem_map_of_mem hpeer))
        rw [List.filter_cons_of_neg (by simpa using hid), List.foldl_cons,
          leave_of_not_mem hnot name]
        exact ih hids hown

end Call

namespace Engine

/-- The ids a sweep over the rooms finds dead. -/
def deadIds (now : Instant) (order : List String) (engine : Engine S) : List PeerId :=
  order.flatMap fun name => (engine.call name).dead now

theorem reap_eq (now : Instant) (order : List String) (engine : Engine S) :
    engine.reap now order =
      (engine.deadIds now order).foldl (fun engine id => engine.dropPeer id) engine := by
  unfold reap deadIds
  dsimp only
  congr 1
  refine List.flatMap_congr fun name _ => ?_
  cases hroom : engine.rooms.lookup name <;> simp [Call.dead, Call.peers, hroom]

theorem Sound.mem_call {engine : Engine S} (h : engine.Sound) {name : String} {id : PeerId} :
    id ∈ (engine.call name).peers.map Peer.id ↔ engine.peerRooms.lookup id = some name := by
  rw [h.indexed.index id name]
  cases hroom : engine.rooms.lookup name with
  | none => simp [Call.peers, hroom]
  | some room => simp [call_peers hroom, Room.ids]

/-- Of all the dead, the ones of one room, in the order of the room. -/
theorem Sound.dead_filter {engine : Engine S} (h : engine.Sound) (now : Instant)
    {order : List String} (horder : order.Nodup) {name : String} (hname : name ∈ order) :
    ((engine.deadIds now order).filter fun id => id ∈ (engine.call name).peers.map Peer.id) =
      (engine.call name).dead now := by
  have hkey : ∀ other ∈ order, ∀ id ∈ (engine.call other).dead now,
      engine.peerRooms.lookup id = some other := by
    intro other _ id hid
    obtain ⟨peer, hpeer, rfl⟩ := List.mem_map.mp hid
    exact h.mem_call.mp (List.mem_map_of_mem (List.mem_of_mem_filter hpeer))
  have hsome : (order.map some).Nodup := horder.map (Option.some_injective _)
  rw [deadIds, ← List.filter_flatMap_key hsome hkey hname]
  exact List.filter_congr fun id _ => by simp only [h.mem_call]

/-- A call whose room is not visited has no room. -/
theorem call_peers_of_not_visited {engine : Engine S} {order : List String}
    (horder : order.Perm engine.rooms.keys) {name : String} (hname : name ∉ order) :
    engine.rooms.lookup name = none := by
  rw [AList.lookup_eq_none]
  exact fun hmem => hname (horder.mem_iff.mpr hmem)

theorem Sound.reap_call {engine : Engine S} (h : engine.Sound) (now : Instant)
    {order : List String} (horder : order.Perm engine.rooms.keys) (name : String) :
    (engine.reap now order).call name = (engine.call name).reap name now := by
  rw [reap_eq, (h.foldl_dropPeer _).2.2 name,
    Call.foldl_leave_filter (h.numbered name).ids name fun _ hid => hid, Call.reap]
  by_cases hname : name ∈ order
  · rw [h.dead_filter now (horder.nodup_iff.mpr engine.rooms.nodupKeys) hname]
  · have hnone : (engine.call name).peers = [] :=
      Call.peers_of_none (call_peers_of_not_visited horder hname)
    simp [Call.dead, hnone]

end Engine

end FerriteSfu
