import FerriteSfu.Loop.Rooms
import FerriteSfu.Call.Departures

/-!
What a reap makes of the rooms.

The dead are listed before the first of them is dropped. A drop touches only
the room of the peer it drops, and the goodbyes it sends to the rest of the
room change nobody's state but their queues, so a sweep of one room leaves what
a single step would leave that removes all its dead at once.
-/

namespace FerriteSfu

variable {S : Str0m} {config : Config}

open ReportEvent (left finished)

/-- The peer, with `messages` added to its queue. -/
def Peer.hear (messages : List ServerMsg) (peer : Peer S) : Peer S :=
  { peer with out := peer.out ++ messages }

@[simp] theorem Peer.hear_id (messages : List ServerMsg) (peer : Peer S) :
    (peer.hear messages).id = peer.id := rfl

@[simp] theorem Peer.hear_nil (peer : Peer S) : peer.hear [] = peer := by
  simp [hear]

theorem Peer.hear_hear (messages messages' : List ServerMsg) (peer : Peer S) :
    (peer.hear messages).hear messages' = peer.hear (messages ++ messages') := by
  simp [hear]

/-! ### Removals from one room -/

namespace Room

/-- The room once the peers `gone` have left it. -/
def without (gone : List (Peer S)) (room : Room S) : Room S :=
  { room with
    peers := (room.peers.filter fun peer => peer.id ∉ gone.map Peer.id).map
      (Peer.hear (gone.map fun peer => .peerLeft peer.id.asString))
    speaking := room.speaking.filter fun entry =>
      entry ∉ gone.map fun peer => peer.id.asString }

@[simp] theorem without_nil (room : Room S) : room.without [] = room := by
  have hhear : (Peer.hear (S := S) []) = id := funext Peer.hear_nil
  simp [without, hhear]

theorem remove_without {room room' : Room S} {id : PeerId} {peer : Peer S}
    (hids : room.ids.Nodup) (h : room.remove id = some (peer, room')) :
    room' = room.without [peer] := by
  obtain ⟨⟨-, rfl⟩, rfl⟩ := remove_eq_some hids h
  have hsend : Peer.hear (S := S) [.peerLeft peer.id.asString] =
      Peer.send (.peerLeft peer.id.asString) := rfl
  simp [without, hsend]

/-- Those who are still to go have heard of the one who has gone. -/
theorem hear_sublist {room : Room S} (hids : room.ids.Nodup) {peer : Peer S}
    {gone : List (Peer S)} (hgone : (peer :: gone).Sublist room.peers) :
    (gone.map (Peer.hear [.peerLeft peer.id.asString])).Sublist (room.without [peer]).peers := by
  have hnot : ∀ other ∈ gone, other.id ≠ peer.id := by
    have hnodup := (hgone.map Peer.id).nodup hids
    rw [List.map_cons, List.nodup_cons] at hnodup
    exact fun other hother he => hnodup.1 (he ▸ List.mem_map_of_mem hother)
  have hsame : (gone.filter fun other => other.id ∉ [peer].map Peer.id) = gone :=
    List.filter_eq_self.mpr fun other hother => by simpa using hnot other hother
  rw [← hsame]
  exact ((List.sublist_of_cons_sublist hgone).filter _).map _

/-- Leaving one after the other, where those who are still to go have heard of
those gone before. -/
theorem without_without (first gone : List (Peer S)) (messages : List ServerMsg)
    (room : Room S) :
    (room.without first).without (gone.map (Peer.hear messages)) =
      room.without (first ++ gone) := by
  have hhear : Peer.hear (gone.map fun peer => .peerLeft peer.id.asString) ∘
      Peer.hear (S := S) (first.map fun peer => .peerLeft peer.id.asString) =
      Peer.hear ((first ++ gone).map fun peer => .peerLeft peer.id.asString) := by
    funext peer
    simp [Peer.hear_hear]
  have hids : (gone.map (Peer.hear messages)).map Peer.id = gone.map Peer.id := by
    simp [Function.comp_def]
  unfold without
  simp only [List.map_map, List.filter_map, List.filter_filter, hids, Function.comp_def,
    Peer.hear_id] at hhear ⊢
  rw [hhear]
  congr 2
  · refine List.filter_congr fun peer _ => ?_
    simp [not_or, Bool.and_comm]
  · funext entry
    simp [not_or, Bool.and_comm]

end Room

/-- What the departures of `gone` report: each that had been announced, and in
the end the room, if it has been emptied. -/
def farewells (name : String) (gone : List (Peer S)) (emptied : Bool) : List ReportEvent :=
  ((gone.filter (·.reported)).map fun peer => left name peer.userId) ++
    if emptied then [finished name] else []

theorem farewells_cons (name : String) (peer : Peer S) (gone : List (Peer S))
    (messages : List ServerMsg) (emptied : Bool) :
    farewells name (peer :: gone) emptied =
      Call.departure name peer false ++ farewells name (gone.map (Peer.hear messages)) emptied := by
  have hgone : ((gone.map (Peer.hear messages)).filter (·.reported)).map
      (fun peer => left name peer.userId) =
      (gone.filter (·.reported)).map fun peer => left name peer.userId := by
    rw [List.filter_map, List.map_map]
    rfl
  unfold farewells Call.departure
  rw [hgone]
  cases hreported : peer.reported <;> simp [hreported, left]

namespace Engine

/-- What the departures of `gone` from the room `name` come to. -/
structure Swept (name : String) (room : Room S) (gone : List (Peer S))
    (engine engine' : Engine S) : Prop where
  rooms : ∀ other, engine'.rooms.lookup other =
    if other = name then
      if (room.without gone).isEmpty then none else some (room.without gone)
    else engine.rooms.lookup other
  reports : engine'.reports =
    engine.reports ++ farewells name gone (room.without gone).isEmpty

theorem Sound.dropPeer_without {engine : Engine S} (h : engine.Sound) {name : String}
    {room : Room S} (hroom : engine.rooms.lookup name = some room) {peer : Peer S}
    (hpeer : peer ∈ room.peers) :
    Dropped name room peer (room.without [peer]) engine (engine.dropPeer peer.id) := by
  have hids := h.ids hroom
  have hlookup : engine.peerRooms.lookup peer.id = some name :=
    (h.indexed.index _ _).mpr ⟨room, hroom, List.mem_map_of_mem hpeer⟩
  obtain ⟨room', peer', next, hroom', hremove, hdropped⟩ := h.dropPeer_dropped hlookup
  obtain rfl := Option.some.inj (hroom.symm.trans hroom')
  obtain ⟨⟨hpeer', hid⟩, -⟩ := Room.remove_eq_some hids hremove
  obtain rfl := List.eq_of_map_eq hids hpeer' hpeer hid
  obtain rfl := Room.remove_without hids hremove
  exact hdropped

/-- **Dropping members of a room one by one is a sweep of it.** -/
theorem Sound.foldl_swept {engine : Engine S} (h : engine.Sound) {name : String} {room : Room S}
    (hroom : engine.rooms.lookup name = some room) {gone : List (Peer S)}
    (hgone : gone.Sublist room.peers) :
    Swept name room gone engine
      ((gone.map Peer.id).foldl (fun engine id => engine.dropPeer id) engine) := by
  induction hlength : gone.length generalizing engine room gone with
  | zero =>
      obtain rfl := List.length_eq_zero_iff.mp hlength
      have hkept : room.isEmpty = false := by
        simpa [Room.isEmpty] using h.indexed.nonempty name room hroom
      refine ⟨fun other => ?_, ?_⟩
      · by_cases hother : other = name
        · rw [hother, if_pos rfl, Room.without_nil, hkept]
          exact hroom
        · simp [hother]
      · simp [farewells, hkept]
  | succ n ih =>
      obtain ⟨peer, gone, rfl⟩ := List.exists_cons_of_length_eq_add_one hlength
      have hdropped := h.dropPeer_without hroom (hgone.subset (List.mem_cons_self ..))
      have hrest := Room.hear_sublist (h.ids hroom) hgone
      rw [List.map_cons, List.foldl_cons]
      have hboth := Room.without_without [peer] gone [.peerLeft peer.id.asString] room
      rw [List.singleton_append] at hboth
      by_cases hempty : (room.without [peer]).isEmpty = true
      · obtain rfl : gone = [] := by
          rw [Room.isEmpty, List.isEmpty_iff] at hempty
          rw [hempty, List.sublist_nil] at hrest
          exact List.map_eq_nil_iff.mp hrest
        refine ⟨hdropped.rooms, hdropped.reports.trans ?_⟩
        rw [farewells_cons name peer [] []]
        simp [hempty, farewells, Call.departure, finished]
      · have hopen : (engine.dropPeer peer.id).rooms.lookup name =
            some (room.without [peer]) := by
          rw [hdropped.rooms, if_pos rfl, if_neg hempty]
        have hsame : (gone.map (Peer.hear [.peerLeft peer.id.asString])).map Peer.id =
            gone.map Peer.id := by
          simp [Function.comp_def]
        have hswept := ih (h.dropPeer peer.id) hopen hrest (by simpa using hlength)
        rw [hsame] at hswept
        refine ⟨fun other => ?_, ?_⟩
        · refine (hswept.rooms other).trans ?_
          rw [hboth, hdropped.rooms]
          by_cases hother : other = name <;> simp [hother]
        · have hfirst : (room.without [peer]).isEmpty = false := by simpa using hempty
          rw [hswept.reports, hboth, hdropped.reports, hfirst, List.append_assoc,
            farewells_cons name peer gone [.peerLeft peer.id.asString]]

/-! ### The whole sweep -/

end Engine

namespace Room

/-- The members of the room a reap at `now` removes, in the order of the room. -/
def dead (now : Instant) (room : Room S) : List (Peer S) :=
  room.peers.filter (Engine.isDead now)

theorem without_dead_isEmpty {room : Room S} (hids : room.ids.Nodup) (now : Instant) :
    (room.without (room.dead now)).isEmpty = room.peers.all (Engine.isDead now) := by
  have hkept := List.filter_key_notMem (g := Peer.id) hids (Engine.isDead now)
  unfold isEmpty without dead
  rw [hkept, Bool.eq_iff_iff, List.isEmpty_iff, List.map_eq_nil_iff, List.filter_eq_nil_iff]
  simp

end Room

namespace Engine

/-- What a reap at `now` reports about the room `name`. -/
def reapReports (now : Instant) (engine : Engine S) (name : String) : List ReportEvent :=
  ((engine.rooms.lookup name).map fun room =>
    farewells name (room.dead now) (room.peers.all (isDead now))).getD []

/-- What a reap at `now` leaves of the room `name`. -/
def reapRoom (now : Instant) (engine : Engine S) (name : String) : Option (Room S) :=
  (engine.rooms.lookup name).bind fun room =>
    if room.peers.all (isDead now) then none else some (room.without (room.dead now))

/-- One room after the other, each in the state in which the dead were listed. -/
theorem Sound.foldl_sweeps {origin engine : Engine S} (h : engine.Sound) (now : Instant)
    {names : List String} (hnames : names.Nodup)
    (hsame : ∀ name ∈ names, engine.rooms.lookup name = origin.rooms.lookup name) :
    let engine' := names.foldl (fun engine name =>
      ((origin.call name).dead now).foldl (fun engine id => engine.dropPeer id) engine) engine
    (∀ name, engine'.rooms.lookup name =
        if name ∈ names then origin.reapRoom now name else engine.rooms.lookup name) ∧
      engine'.reports = engine.reports ++ names.flatMap (origin.reapReports now) := by
  induction names generalizing engine with
  | nil => exact ⟨fun name => by simp, by simp⟩
  | cons name names ih =>
      obtain ⟨hnot, hnodup⟩ := List.nodup_cons.mp hnames
      have hhere := hsame name (List.mem_cons_self ..)
      have hsound := (h.foldl_dropPeer ((origin.call name).dead now)).1
      -- The room is what it was when the sweep began, and this is what becomes of it.
      obtain ⟨hrooms, hreports⟩ :
          (∀ other, (((origin.call name).dead now).foldl (fun engine id => engine.dropPeer id)
            engine).rooms.lookup other =
              if other = name then origin.reapRoom now name else engine.rooms.lookup other) ∧
          (((origin.call name).dead now).foldl (fun engine id => engine.dropPeer id)
            engine).reports = engine.reports ++ origin.reapReports now name := by
        cases hroom : origin.rooms.lookup name with
        | none =>
            have hdead : (origin.call name).dead now = [] := by
              simp [Call.dead, show (origin.call name).peers = [] from Call.peers_of_none hroom]
            rw [hdead]
            refine ⟨fun other => ?_, by simp [reapReports, hroom]⟩
            by_cases hother : other = name
            · rw [hother, if_pos rfl, reapRoom, hroom]
              exact hhere.trans hroom
            · simp [hother]
        | some room =>
            have hswept := h.foldl_swept (hhere.trans hroom)
              (List.filter_sublist (p := isDead now) (l := room.peers))
            have hempty := Room.without_dead_isEmpty (h.ids (hhere.trans hroom)) now
            have hdead : (origin.call name).dead now = (room.dead now).map Peer.id := by
              rw [Call.dead, call_peers hroom, Room.dead]
            rw [hdead]
            refine ⟨fun other => ?_, ?_⟩
            · rw [reapRoom, hroom, Option.bind_some, ← hempty]
              exact hswept.rooms other
            · rw [reapReports, hroom, Option.map_some, Option.getD_some, ← hempty]
              exact hswept.reports
      rw [List.foldl_cons]
      obtain ⟨hrest, hlog⟩ := ih hsound hnodup fun other hother => by
        rw [hrooms, if_neg (ne_of_mem_of_not_mem hother hnot)]
        exact hsame other (List.mem_cons_of_mem _ hother)
      refine ⟨fun other => ?_, ?_⟩
      · rw [hrest, hrooms]
        by_cases hother : other = name
        · simp [hother, hnot]
        · simp [hother]
      · rw [hlog, hreports, List.append_assoc, List.flatMap_cons]

/-- What a reap at `now` makes of the rooms, visited in the order `order`. -/
structure Reaped (now : Instant) (order : List String) (engine engine' : Engine S) : Prop where
  absent : ∀ name, engine.rooms.lookup name = none → engine'.rooms.lookup name = none
  /-- A room with none but dead members is gone. -/
  emptied : ∀ name room, engine.rooms.lookup name = some room →
    (∀ peer ∈ room.peers, isDead now peer = true) → engine'.rooms.lookup name = none
  /-- Elsewhere the living stay, and hear of each of the dead. -/
  kept : ∀ name room, engine.rooms.lookup name = some room →
    (∃ peer ∈ room.peers, isDead now peer = false) →
    engine'.rooms.lookup name = some { room with
      peers := (room.peers.filter fun peer => peer.isAlive && !peer.isAbandoned now).map
        fun peer => { peer with
          out := peer.out ++ (room.dead now).map fun gone => .peerLeft gone.id.asString }
      speaking := room.speaking.filter fun entry =>
        entry ∉ (room.dead now).map fun gone => gone.id.asString }
  untouched : ∀ name room, engine.rooms.lookup name = some room →
    (∀ peer ∈ room.peers, isDead now peer = false) → engine'.rooms.lookup name = some room
  /-- Room by room, each of the dead who had been announced, then the end of the
  room. -/
  reports : engine'.reports = engine.reports ++ order.flatMap fun name =>
    ((engine.rooms.lookup name).map fun room =>
      (((room.dead now).filter (·.reported)).map fun gone => left name gone.userId) ++
        if room.peers.all (isDead now) then [finished name] else []).getD []

theorem Sound.reap_reaped {engine : Engine S} (h : engine.Sound) (now : Instant)
    {order : List String} (horder : order.Perm engine.rooms.keys) :
    Reaped now order engine (engine.reap now order) := by
  have hnodup := horder.nodup_iff.mpr engine.rooms.nodupKeys
  have hfold : engine.reap now order = order.foldl (fun e name =>
      ((engine.call name).dead now).foldl (fun e id => e.dropPeer id) e) engine := by
    rw [reap_eq, deadIds, List.foldl_flatMap]
  obtain ⟨hrooms, hreports⟩ := h.foldl_sweeps now hnodup fun _ _ => rfl
  rw [← hfold] at hrooms hreports
  have hvisited : ∀ name room, engine.rooms.lookup name = some room →
      (engine.reap now order).rooms.lookup name =
        if room.peers.all (isDead now) then none else some (room.without (room.dead now)) := by
    intro name room hroom
    have hmem : name ∈ order := by
      by_contra hnot
      rw [call_peers_of_not_visited horder hnot] at hroom
      cases hroom
    rw [hrooms, if_pos hmem, reapRoom, hroom, Option.bind_some]
  refine ⟨fun name hroom => ?absent, fun name room hroom hall => ?emptied,
    fun name room hroom hsome => ?kept, fun name room hroom hnone => ?untouched, hreports⟩
  case absent =>
    rw [hrooms]
    split
    · rw [reapRoom, hroom, Option.bind_none]
    · exact hroom
  case emptied =>
    rw [hvisited name room hroom, if_pos (List.all_eq_true.mpr hall)]
  case kept =>
    obtain ⟨peer, hpeer, halive⟩ := hsome
    have hnotall : ¬room.peers.all (isDead now) = true := fun hall => by
      rw [List.all_eq_true.mp hall peer hpeer] at halive
      cases halive
    have hliving := List.filter_key_notMem (g := Peer.id) (h.ids hroom) (isDead now)
    rw [hvisited name room hroom, if_neg hnotall, Room.without, Room.dead, hliving]
    congr 3
    refine List.filter_congr fun peer _ => ?_
    simp [isDead]
  case untouched =>
    have hdead : room.dead now = [] :=
      List.filter_eq_nil_iff.mpr fun peer hpeer => by simp [hnone peer hpeer]
    rw [hvisited name room hroom, hdead, Room.without_nil, if_neg]
    intro hall
    obtain ⟨peer, hpeer⟩ := List.exists_mem_of_ne_nil _ (h.indexed.nonempty name room hroom)
    have hboth := (List.all_eq_true.mp hall peer hpeer).symm.trans (hnone peer hpeer)
    cases hboth

/-- **A reap removes exactly the dead, once each.** -/
theorem reachable_reaped {engine engine' : Engine S} (h : (machine S config).Reachable engine)
    {now : Instant} {order : List String}
    (hstep : engine.step (.reap now order) = some engine') : Reaped now order engine engine' := by
  obtain ⟨horder, heq⟩ := step_eq_some hstep
  cases heq
  exact (reachable_sound h).1.reap_reaped now (horder order rfl)

/-- Bob's connection breaks off. -/
def breakup : List (Turn scripted) :=
  Puppet.meeting ++ [Puppet.turn [] ["red"]
    (some ⟨"b", [.iceConnectionStateChange .disconnected]⟩), Puppet.turn [] ["red"] none]

theorem reachable_reaped_breakup :
    ∃ engine engine' room, (machine scripted Puppet.config).Reachable engine ∧
      engine.step (.reap iceDisconnectGrace ["red"]) = some engine' ∧
      engine.rooms.lookup "red" = some room ∧
      room.peers.map (isDead iceDisconnectGrace) = [false, true] ∧
      Reaped iceDisconnectGrace ["red"] engine engine' := by
  obtain ⟨engine, hreach, hcheck⟩ := Puppet.plays breakup
    (fun engine => (engine.step (.reap iceDisconnectGrace ["red"])).isSome &&
      (engine.rooms.lookup "red").any fun room =>
        room.peers.map (isDead iceDisconnectGrace) = [false, true]) (by decide +kernel)
  obtain ⟨hsome, hany⟩ := Bool.and_eq_true_iff.mp hcheck
  obtain ⟨engine', hstep⟩ := Option.isSome_iff_exists.mp hsome
  obtain ⟨room, hroom, hdead⟩ := (Option.any_eq_true _ _).mp hany
  have hreach' := loop_reachable hreach
  exact ⟨engine, engine', room, hreach', hstep, hroom, of_decide_eq_true hdead,
    reachable_reaped hreach' hstep⟩

end Engine

end FerriteSfu
