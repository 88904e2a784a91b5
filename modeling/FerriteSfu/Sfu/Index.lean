import FerriteSfu.Sfu.Members

/-!
What ties the maps of the engine together: the index of peers, the rooms, the
heap of live tracks, and the subscriptions, which never lead to another room.
-/

namespace FerriteSfu

variable {S : Str0m}

namespace Room

/-- Every track of the room carries the id of the peer that publishes it. -/
def OriginsOwn (room : Room S) : Prop :=
  ∀ pub ∈ room.peers, ∀ track ∈ pub.tracks, track.origin = pub.id

theorem OriginsOwn.mem_ids {room : Room S} (h : room.OriginsOwn) {track : TrackIn}
    (hmem : track ∈ room.tracks) : track.origin ∈ room.ids := by
  obtain ⟨pub, hpub, htrack⟩ := mem_tracks.mp hmem
  rw [h pub hpub track htrack]
  exact List.mem_map_of_mem hpub

/-- The tracks some peer of the room is subscribed to. -/
def Refers (room : Room S) (track : TrackIn) : Prop := ∃ sub ∈ room.peers, track ∈ sub.refs

/-- `room'` has the peers of `room`, with their tracks and no new subscription. -/
def Kept (room room' : Room S) : Prop :=
  List.Forall₂ (fun peer peer' : Peer S => peer'.id = peer.id ∧ peer'.tracks = peer.tracks ∧
    ∀ track ∈ peer'.refs, track ∈ peer.refs) room.peers room'.peers

theorem Kept.refl (room : Room S) : room.Kept room :=
  List.forall₂_same.mpr fun _ _ => ⟨rfl, rfl, fun _ hmem => hmem⟩

theorem Kept.ids {room room' : Room S} (h : room.Kept room') : room'.ids = room.ids :=
  h.map_eq fun _ _ hrel => hrel.1

theorem Kept.tracks {room room' : Room S} (h : room.Kept room') : room'.tracks = room.tracks := by
  rw [Room.tracks, Room.tracks, List.flatMap_def, List.flatMap_def,
    h.map_eq fun _ _ hrel => hrel.2.1]

theorem Kept.refers {room room' : Room S} (h : room.Kept room') {track : TrackIn}
    (href : room'.Refers track) : room.Refers track := by
  obtain ⟨sub', hsub', hmem⟩ := href
  obtain ⟨sub, hsub, -, -, hrefs⟩ := h.exists_left hsub'
  exact ⟨sub, hsub, hrefs track hmem⟩

theorem Kept.of_quiet {room room' : Room S}
    (h : List.Forall₂ Peer.Quiet room.peers room'.peers) : room.Kept room' :=
  h.imp fun _ _ hquiet => ⟨Peer.id_eq_of_card hquiet.card, hquiet.tracks,
    fun _ hmem => hquiet.refs ▸ hmem⟩

theorem Kept.map {room room' : Room S} {f : Peer S → Peer S} (heq : room'.peers = room.peers.map f)
    (hf : ∀ peer, (f peer).id = peer.id ∧ (f peer).tracks = peer.tracks ∧
      ∀ track ∈ (f peer).refs, track ∈ peer.refs) : room.Kept room' := by
  rw [Kept, heq]
  exact List.forall₂_map_right_iff.mpr (List.forall₂_same.mpr fun peer _ => hf peer)

theorem Kept.updatePeer (room : Room S) (id : PeerId) {f : Peer S → Peer S}
    (hf : ∀ peer, (f peer).id = peer.id ∧ (f peer).tracks = peer.tracks ∧
      ∀ track ∈ (f peer).refs, track ∈ peer.refs) : room.Kept (room.updatePeer id f) :=
  List.forall₂_updateFirst (fun _ _ => ⟨rfl, rfl, fun _ hmem => hmem⟩) fun peer _ _ => hf peer

end Room

namespace Peer

theorem acceptAnswer_keeps (answer : S.SdpAnswer) (peer : Peer S) :
    (peer.acceptAnswer answer).2.id = peer.id ∧
      (peer.acceptAnswer answer).2.tracks = peer.tracks ∧
      ∀ track ∈ (peer.acceptAnswer answer).2.refs, track ∈ peer.refs := by
  obtain ⟨hcard, htracks, -⟩ := acceptAnswer_frame answer peer
  refine ⟨id_eq_of_card hcard, congrArg (List.map _) htracks, fun track hmem => ?_⟩
  rcases acceptAnswer_tracksOut answer peer with heq | heq
  · rwa [refs, heq] at hmem
  · rw [refs, heq] at hmem
    obtain ⟨out, hout, rfl⟩ := List.mem_map.mp hmem
    obtain ⟨out', hout', rfl⟩ := List.mem_map.mp (List.mem_of_mem_filter hout)
    rw [TrackOut.settle_trackIn]
    exact List.mem_map_of_mem hout'

end Peer

namespace Engine

structure Indexed (engine : Engine S) : Prop where
  index : ∀ id name, engine.peerRooms.lookup id = some name ↔
    ∃ room, engine.rooms.lookup name = some room ∧ id ∈ room.ids
  nonempty : ∀ name room, engine.rooms.lookup name = some room → room.peers ≠ []
  heap : ∀ track, track ∈ engine.heap ↔
    ∃ name room, engine.rooms.lookup name = some room ∧ track ∈ room.tracks
  /-- A subscription that leads to a peer leads to a peer of the same room. -/
  apart : ∀ name room track name', engine.rooms.lookup name = some room → room.Refers track →
    engine.peerRooms.lookup track.origin = some name' → name' = name

/-- The room `home` has become `room'`, or is gone if nobody is left in that. The
other rooms are as they were, and do not know the members of `room'`. -/
structure Replaced (home : String) (room' : Room S) (engine engine' : Engine S) : Prop where
  rooms : ∀ name room, engine'.rooms.lookup name = some room ↔
    (name = home ∧ room = room' ∧ room'.peers ≠ []) ∨
      (name ≠ home ∧ engine.rooms.lookup name = some room)
  peerRooms : ∀ id name, engine'.peerRooms.lookup id = some name ↔
    (name = home ∧ id ∈ room'.ids) ∨ (name ≠ home ∧ engine.peerRooms.lookup id = some name)
  heap : ∀ track, track ∈ engine'.heap ↔ track ∈ room'.tracks ∨
    ∃ name room, name ≠ home ∧ engine.rooms.lookup name = some room ∧ track ∈ room.tracks
  refers : ∀ track, room'.Refers track → ∀ name,
    engine'.peerRooms.lookup track.origin = some name → name = home
  others : ∀ name room, name ≠ home → engine.rooms.lookup name = some room → ∀ track,
    room.Refers track → track.origin ∉ room'.ids

namespace Indexed

variable {engine engine' : Engine S}

theorem start (config : Config) (now : Instant) : (Engine.start config now : Engine S).Indexed where
  index := by simp [Engine.start]
  nonempty := by simp [Engine.start]
  heap := by simp [Engine.start]
  apart := by simp [Engine.start]

/-- A peer is in one room only. -/
theorem room_unique (h : engine.Indexed) {id : PeerId} {name name' : String}
    {room room' : Room S} (hroom : engine.rooms.lookup name = some room) (hid : id ∈ room.ids)
    (hroom' : engine.rooms.lookup name' = some room') (hid' : id ∈ room'.ids) : name' = name := by
  have hname := (h.index id name).mpr ⟨room, hroom, hid⟩
  have hname' := (h.index id name').mpr ⟨room', hroom', hid'⟩
  exact Option.some.inj (hname'.symm.trans hname)

/-- Where a subscription of a room points, the heap is the tracks of the room. -/
theorem mem_heap_iff (h : engine.Indexed) {name : String} {room : Room S}
    (howns : ∀ name room, engine.rooms.lookup name = some room → room.OriginsOwn)
    (hroom : engine.rooms.lookup name = some room) {track : TrackIn} (href : room.Refers track) :
    track ∈ engine.heap ↔ track ∈ room.tracks := by
  rw [h.heap track]
  constructor
  · rintro ⟨name', room', hroom', hmem⟩
    have hid := (howns name' room' hroom').mem_ids hmem
    obtain rfl := h.apart name room track name' hroom href
      ((h.index _ _).mpr ⟨room', hroom', hid⟩)
    rw [hroom] at hroom'
    cases hroom'
    exact hmem
  · intro hmem
    exact ⟨name, room, hroom, hmem⟩

/-- The live tracks that are left when some peers of one room go. -/
theorem heap_without (h : engine.Indexed)
    (howns : ∀ name room, engine.rooms.lookup name = some room → room.OriginsOwn)
    {home : String} {room : Room S} (hhome : ∀ next, engine.rooms.lookup home = some next → next = room)
    (hthere : ∀ peer ∈ room.peers, engine.rooms.lookup home = some room) (gone : List PeerId)
    (track : TrackIn) :
    (track ∈ engine.heap ∧ ∀ other ∈ room.peers, other.id ∈ gone → track ∉ other.tracks) ↔
      (∃ pub ∈ room.peers, pub.id ∉ gone ∧ track ∈ pub.tracks) ∨
      ∃ name next, name ≠ home ∧ engine.rooms.lookup name = some next ∧ track ∈ next.tracks := by
  have hown : ∀ pub ∈ room.peers, ∀ track ∈ pub.tracks, track.origin = pub.id :=
    fun pub hpub => howns home room (hthere pub hpub) pub hpub
  rw [h.heap]
  constructor
  · rintro ⟨⟨name, next, hnext, htrack⟩, hnot⟩
    by_cases hname : name = home
    · subst hname
      obtain rfl := hhome next hnext
      obtain ⟨pub, hpub, hpubtrack⟩ := Room.mem_tracks.mp htrack
      exact .inl ⟨pub, hpub, fun hgone => hnot pub hpub hgone hpubtrack, hpubtrack⟩
    · exact .inr ⟨name, next, hname, hnext, htrack⟩
  · rintro (⟨pub, hpub, hstays, htrack⟩ | ⟨name, next, hname, hnext, htrack⟩)
    · refine ⟨⟨home, room, hthere pub hpub, Room.mem_tracks.mpr ⟨pub, hpub, htrack⟩⟩,
        fun other hother hgone hothertrack => ?_⟩
      have hsame : pub.id = other.id :=
        (hown pub hpub track htrack).symm.trans (hown other hother track hothertrack)
      exact hstays (hsame ▸ hgone)
    · refine ⟨⟨name, next, hnext, htrack⟩, fun other hother _ hothertrack => ?_⟩
      -- Whoever goes is in one room only, so it has published nothing in this one.
      have horigin := (howns name next hnext).mem_ids htrack
      rw [hown other hother track hothertrack] at horigin
      exact hname (h.room_unique (hthere other hother) (List.mem_map_of_mem hother) hnext horigin)

/-- One room is replaced. -/
theorem of_replaced (h : engine.Indexed) {home : String} {room' : Room S}
    (hreplaced : Replaced home room' engine engine') : engine'.Indexed := by
  have hthere : ∀ {id}, id ∈ room'.ids → engine'.rooms.lookup home = some room' := by
    intro id hid
    obtain ⟨peer, hpeer, -⟩ := Room.mem_ids.mp hid
    exact (hreplaced.rooms home room').mpr (.inl ⟨rfl, rfl, List.ne_nil_of_mem hpeer⟩)
  refine ⟨fun id name => ?index, fun name room hroom => ?nonempty, fun track => ?heap,
    fun name room track name' hroom href hname' => ?apart⟩
  case index =>
    rw [hreplaced.peerRooms, h.index]
    constructor
    · rintro (⟨rfl, hid⟩ | ⟨hname, room, hroom, hid⟩)
      · exact ⟨room', hthere hid, hid⟩
      · exact ⟨room, (hreplaced.rooms name room).mpr (.inr ⟨hname, hroom⟩), hid⟩
    · rintro ⟨room, hroom, hid⟩
      rcases (hreplaced.rooms name room).mp hroom with ⟨hname, rfl, -⟩ | ⟨hname, hroom⟩
      · exact .inl ⟨hname, hid⟩
      · exact .inr ⟨hname, room, hroom, hid⟩
  case nonempty =>
    rcases (hreplaced.rooms name room).mp hroom with ⟨-, rfl, hne⟩ | ⟨-, hroom⟩
    · exact hne
    · exact h.nonempty name room hroom
  case heap =>
    rw [hreplaced.heap]
    constructor
    · rintro (htrack | ⟨name, room, hname, hroom, htrack⟩)
      · obtain ⟨pub, hpub, -⟩ := Room.mem_tracks.mp htrack
        exact ⟨home, room', hthere (List.mem_map_of_mem hpub), htrack⟩
      · exact ⟨name, room, (hreplaced.rooms name room).mpr (.inr ⟨hname, hroom⟩), htrack⟩
    · rintro ⟨name, room, hroom, htrack⟩
      rcases (hreplaced.rooms name room).mp hroom with ⟨-, rfl, -⟩ | ⟨hname, hroom⟩
      · exact .inl htrack
      · exact .inr ⟨name, room, hname, hroom, htrack⟩
  case apart =>
    rcases (hreplaced.rooms name room).mp hroom with ⟨rfl, rfl, -⟩ | ⟨hname, hroom⟩
    · exact hreplaced.refers track href name' hname'
    · rcases (hreplaced.peerRooms track.origin name').mp hname' with ⟨-, hid⟩ | ⟨-, hname'⟩
      · exact absurd hid (hreplaced.others name room hname hroom track href)
      · exact h.apart name room track name' hroom href hname'

/-- Rooms whose members are as before, and which may have published more. -/
theorem of_rooms (h : engine.Indexed) {f : String → Room S → Room S} (opened : List TrackIn)
    (hrooms : ∀ name, engine'.rooms.lookup name = (engine.rooms.lookup name).map (f name))
    (hpeers : engine'.peerRooms = engine.peerRooms)
    (hids : ∀ name room, engine.rooms.lookup name = some room → (f name room).ids = room.ids)
    (hheap : ∀ track, track ∈ engine'.heap ↔ track ∈ engine.heap ∨ track ∈ opened)
    (hopened : ∀ track ∈ opened, ∃ name room, engine.rooms.lookup name = some room ∧
      track.origin ∈ room.ids)
    (htracks : ∀ name room, engine.rooms.lookup name = some room → ∀ track,
      track ∈ (f name room).tracks ↔ track ∈ room.tracks ∨
        (track ∈ opened ∧ track.origin ∈ room.ids))
    (hrefs : ∀ name room, engine.rooms.lookup name = some room → ∀ track,
      (f name room).Refers track → room.Refers track ∨ track.origin ∈ room.ids) :
    engine'.Indexed := by
  have hback : ∀ {name room'}, engine'.rooms.lookup name = some room' →
      ∃ room, engine.rooms.lookup name = some room ∧ f name room = room' := by
    intro name room' hroom'
    rw [hrooms] at hroom'
    exact Option.map_eq_some_iff.mp hroom'
  have hforth : ∀ {name room}, engine.rooms.lookup name = some room →
      engine'.rooms.lookup name = some (f name room) := by
    intro name room hroom
    rw [hrooms, hroom]
    rfl
  refine ⟨fun id name => ?index, fun name room' hroom' => ?nonempty, fun track => ?heap,
    fun name room' track name' hroom' href hname' => ?apart⟩
  case index =>
    rw [hpeers, h.index]
    constructor
    · rintro ⟨room, hroom, hid⟩
      exact ⟨f name room, hforth hroom, by rwa [hids name room hroom]⟩
    · rintro ⟨room', hroom', hid⟩
      obtain ⟨room, hroom, rfl⟩ := hback hroom'
      exact ⟨room, hroom, by rwa [hids name room hroom] at hid⟩
  case nonempty =>
    obtain ⟨room, hroom, rfl⟩ := hback hroom'
    have hne := h.nonempty name room hroom
    have hlen := congrArg List.length (hids name room hroom)
    simp only [Room.ids, List.length_map] at hlen
    intro hnil
    rw [hnil] at hlen
    exact hne (List.length_eq_zero_iff.mp hlen.symm)
  case heap =>
    rw [hheap, h.heap]
    constructor
    · rintro (⟨name, room, hroom, hmem⟩ | hmem)
      · exact ⟨name, _, hforth hroom, (htracks name room hroom track).mpr (.inl hmem)⟩
      · obtain ⟨name, room, hroom, hid⟩ := hopened track hmem
        exact ⟨name, _, hforth hroom, (htracks name room hroom track).mpr (.inr ⟨hmem, hid⟩)⟩
    · rintro ⟨name, room', hroom', hmem⟩
      obtain ⟨room, hroom, rfl⟩ := hback hroom'
      rcases (htracks name room hroom track).mp hmem with hmem | ⟨hmem, -⟩
      · exact .inl ⟨name, room, hroom, hmem⟩
      · exact .inr hmem
  case apart =>
    obtain ⟨room, hroom, rfl⟩ := hback hroom'
    rw [hpeers] at hname'
    rcases hrefs name room hroom track href with href | hid
    · exact h.apart name room track name' hroom href hname'
    · exact Option.some.inj (hname'.symm.trans ((h.index _ _).mpr ⟨room, hroom, hid⟩))

/-- Rooms whose members and tracks are as before, and whose subscriptions lead
nowhere new. -/
theorem of_kept (h : engine.Indexed) {f : String → Room S → Room S}
    (hrooms : ∀ name, engine'.rooms.lookup name = (engine.rooms.lookup name).map (f name))
    (hpeers : engine'.peerRooms = engine.peerRooms) (hheap : engine'.heap = engine.heap)
    (hkept : ∀ name room, engine.rooms.lookup name = some room → room.Kept (f name room)) :
    engine'.Indexed :=
  h.of_rooms [] hrooms hpeers (fun name room hroom => (hkept name room hroom).ids)
    (by simp [hheap]) (by simp)
    (fun name room hroom track => by simp [(hkept name room hroom).tracks])
    (fun name room hroom track href => .inl ((hkept name room hroom).refers href))

end Indexed

end Engine

end FerriteSfu
