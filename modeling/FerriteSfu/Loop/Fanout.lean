import FerriteSfu.Call.Failures
import FerriteSfu.Call.Simulation
import FerriteSfu.Scripted

/-!
What a pass over the rooms makes of the packets its peers report.
-/

namespace FerriteSfu

variable {S : Str0m} {config : Config}

namespace Engine

/-! ### Writes that come to something else -/

def pollRoomBy (write : Writing S) (clock : String → ℕ → List Instant)
    (polled : Engine S × Instant) (name : String) : Option (Engine S × Instant) :=
  match polled.1.rooms.lookup name with
  | none => some polled
  | some room =>
      (room.pollBy write (clock name) polled.1.heap polled.2).map fun next =>
        ({ polled.1 with rooms := polled.1.rooms.insert name next.room, heap := next.heap },
          next.timeout)

/-- `poll_rooms`, with `write` for the write of the `Rtc`s. -/
def pollRoomsBy (write : Writing S) (now : Instant) (order : List String)
    (clock : String → ℕ → List Instant) (engine : Engine S) : Option (Engine S × Instant) :=
  order.foldlM (pollRoomBy write clock) (engine, now + maxIdle)

theorem pollRoomsBy_write (now : Instant) (order : List String)
    (clock : String → ℕ → List Instant) (engine : Engine S) :
    engine.pollRoomsBy (fun _ => S.write) now order clock = engine.pollRooms now order clock := by
  have hroom : pollRoomBy (fun _ : Peer S => S.write) clock = pollRoom clock := by
    funext polled name
    unfold pollRoomBy pollRoom
    cases polled.1.rooms.lookup name with
    | none => rfl
    | some room => simp only [Room.pollBy_write]
  rw [pollRoomsBy, pollRooms, hroom]

/-- The same engine, but for the peer `id`. -/
structure AlikeBut (id : PeerId) (engine engine' : Engine S) : Prop where
  others : { engine with rooms := engine'.rooms } = engine'
  rooms : ∀ name, Option.Rel (Room.AlikeBut id) (engine.rooms.lookup name)
    (engine'.rooms.lookup name)

theorem AlikeBut.refl (id : PeerId) (engine : Engine S) : engine.AlikeBut id engine where
  others := rfl
  rooms name := by
    cases engine.rooms.lookup name with
    | none => exact .none
    | some room => exact .some (.refl id room)

theorem AlikeBut.insert {id : PeerId} {engine engine' : Engine S} (h : engine.AlikeBut id engine')
    (heap : Heap) (name : String) {room room' : Room S} (halike : room.AlikeBut id room') :
    AlikeBut id { engine with rooms := engine.rooms.insert name room, heap := heap }
      { engine' with rooms := engine'.rooms.insert name room', heap := heap } where
  others := by rw [← h.others]
  rooms name' := by
    simp only [AList.lookup_insert_eq_ite]
    split
    · exact .some halike
    · exact h.rooms name'

/-- One room: the engines agreed on it before. -/
theorem pollRoomBy_alikeBut {id : PeerId} {write write' : Writing S}
    (hwrite : ∀ peer : Peer S, peer.id ≠ id → write' peer = write peer)
    {clock : String → ℕ → List Instant} {engine engine' next : Engine S}
    {timeout timeout' : Instant} {name : String} (halike : engine.AlikeBut id engine')
    (hsame : engine'.rooms.lookup name = engine.rooms.lookup name)
    (h : pollRoomBy write clock (engine, timeout) name = some (next, timeout')) :
    ∃ next', pollRoomBy write' clock (engine', timeout) name = some (next', timeout') ∧
      next.AlikeBut id next' ∧
      ∀ other ≠ name, next.rooms.lookup other = engine.rooms.lookup other ∧
        next'.rooms.lookup other = engine'.rooms.lookup other := by
  have hheap : engine'.heap = engine.heap := by rw [← halike.others]
  simp only [pollRoomBy, hsame, hheap] at h ⊢
  cases hroom : engine.rooms.lookup name with
  | none =>
      simp only [hroom] at h ⊢
      cases h
      exact ⟨engine', rfl, halike, fun _ _ => ⟨rfl, rfl⟩⟩
  | some room =>
      simp only [hroom] at h ⊢
      obtain ⟨polled, hpolled, heq⟩ := Option.map_eq_some_iff.mp h
      obtain ⟨room', hroom', hrooms⟩ := Room.pollBy_alikeBut hwrite hpolled
      cases heq
      rw [hroom']
      refine ⟨_, rfl, halike.insert polled.heap name hrooms, fun other hother => ?_⟩
      simp [AList.lookup_insert_ne hother]

/-- **Nobody else in the media loop notices what becomes of the writes on a peer.** -/
theorem pollRoomsBy_alikeBut {id : PeerId} {write write' : Writing S}
    (hwrite : ∀ peer : Peer S, peer.id ≠ id → write' peer = write peer) {now timeout : Instant}
    {order : List String} (horder : order.Nodup) {clock : String → ℕ → List Instant}
    {engine next : Engine S} (h : engine.pollRoomsBy write now order clock = some (next, timeout)) :
    ∃ next', engine.pollRoomsBy write' now order clock = some (next', timeout) ∧
      next.AlikeBut id next' := by
  -- The rooms that are still to be polled are the same in both engines.
  suffices hall : ∀ (wake : Instant) (engine engine' : Engine S), engine.AlikeBut id engine' →
      (∀ name ∈ order, engine'.rooms.lookup name = engine.rooms.lookup name) →
      order.foldlM (pollRoomBy write clock) (engine, wake) = some (next, timeout) →
      ∃ next', order.foldlM (pollRoomBy write' clock) (engine', wake) = some (next', timeout) ∧
        next.AlikeBut id next' from
    hall _ engine engine (.refl id engine) (fun _ _ => rfl) h
  clear h engine
  induction order with
  | nil =>
      intro wake engine engine' halike _ h
      cases h
      exact ⟨engine', rfl, halike⟩
  | cons name order ih =>
      intro wake engine engine' halike hsame h
      obtain ⟨hnot, hnodup⟩ := List.nodup_cons.mp horder
      rw [List.foldlM_cons] at h
      obtain ⟨⟨first, wake'⟩, hfirst, hrest⟩ := Option.bind_eq_some_iff.mp h
      obtain ⟨first', hfirst', halike', hothers⟩ :=
        pollRoomBy_alikeBut hwrite halike (hsame name (List.mem_cons_self ..)) hfirst
      obtain ⟨next', hnext', hend⟩ := ih hnodup wake' first first' halike'
        (fun other hother => by
          obtain ⟨heq, heq'⟩ := hothers other fun he => hnot (he ▸ hother)
          rw [heq, heq', hsame other (List.mem_cons_of_mem _ hother)]) hrest
      exact ⟨next', by rw [List.foldlM_cons, hfirst']; exact hnext', hend⟩

/-! ### The pass -/

/-- What a room has become in a pass of the loop over all of them. -/
theorem Sound.pollRooms_room {engine engine' : Engine S} (h : engine.Sound) {now : Instant}
    {order : List String} {clock : String → ℕ → List Instant}
    (hstep : engine.step (.pollRooms now order clock) = some engine') {name : String}
    {room : Room S} (hroom : engine.rooms.lookup name = some room) :
    ∃ polled, room.poll (clock name) engine.heap 0 = some polled ∧
      engine'.rooms.lookup name = some polled.room ∧
      ∀ sub ∈ polled.room.peers, sub.Agrees polled.heap engine'.heap := by
  have hcall := (h.step_calls hstep).2.2 name
  have hpoll : (engine.call name).poll (clock name) = some (engine'.call name) := hcall
  rw [Call.poll, call_room, hroom] at hpoll
  obtain ⟨next, hnext, hcall'⟩ := Option.map_eq_some_iff.mp hpoll
  have hroom' : engine'.rooms.lookup name = some next.room :=
    (congrArg Call.room hcall').symm
  -- The pass looks at the heap of the engine as it does at the tracks of the room.
  obtain ⟨polled, hpolled, heq, -⟩ := Room.poll_congr 0 (h.ids hroom)
    (fun sub hsub track href => (h.agrees hroom hsub track href).symm) hnext
  rw [← heq] at hroom'
  refine ⟨polled, hpolled, hroom', fun sub hsub track href => ?_⟩
  obtain ⟨opened, hheap, hopened, -, -, hpassed⟩ := Room.poll_pass (h.ids hroom) hpolled
  obtain ⟨old, hold, hsubpassed⟩ := hpassed.exists_left hsub
  have hafter := (h.step hstep).agrees hroom' hsub track href
  rw [hafter, passed_tracks hpassed, hheap, List.mem_append]
  rw [hsubpassed.refs, List.mem_append] at href
  rcases href with href | href
  · rw [h.agrees hroom hold track href]
    refine or_congr_right ⟨fun hmem => ⟨hmem, ?_⟩, And.left⟩
    exact Room.mem_ids.mpr (hopened track hmem)
  · have hmem := List.mem_of_mem_filter href
    exact iff_of_true (.inr hmem) (.inr ⟨hmem, Room.mem_ids.mpr (hopened track hmem)⟩)

/-- What a pass that makes `engine'` of the engine does with the packets it drains. -/
structure FansOut (now : Instant) (order : List String) (clock : String → ℕ → List Instant)
    (engine engine' : Engine S) : Prop where
  /-- In every room, every member goes through what the others report. -/
  rooms : ∀ name room, engine.rooms.lookup name = some room →
    ∃ room', engine'.rooms.lookup name = some room' ∧ room'.ids = room.ids ∧
      ∀ sub ∈ room.peers, ∀ sub' ∈ room'.peers, sub'.id = sub.id →
        Room.FansOut engine'.heap (room.arrivals sub.id (clock name) engine.heap) room room'
          sub sub'
  /-- Whatever became of the writes on one peer, all the others would be the same. -/
  isolated : ∀ id write, (∀ peer : Peer S, peer.id ≠ id → write peer = S.write) →
    ∃ other timeout, engine.pollRoomsBy write now order clock = some (other, timeout) ∧
      engine'.AlikeBut id other

/-- **Fan-out is exactly once, in order and faithful.** -/
theorem reachable_fansOut (hlaw : S.AnnouncesOnce) {engine engine' : Engine S}
    (h : (machine S config).Reachable engine) {now : Instant} {order : List String}
    {clock : String → ℕ → List Instant}
    (hstep : engine.step (.pollRooms now order clock) = some engine') :
    FansOut now order clock engine engine' := by
  obtain ⟨hsound, -⟩ := reachable_sound h
  have hsound' := hsound.step hstep
  refine ⟨fun name room hroom => ?rooms, fun id write hwrite => ?isolated⟩
  case rooms =>
    obtain ⟨polled, hpolled, hroom', hheap⟩ := hsound.pollRooms_room hstep hroom
    obtain ⟨opened, -, -, -, -, hpassed⟩ := Room.poll_pass (hsound.ids hroom) hpolled
    have hids : polled.room.ids = room.ids := Peer.passed_ids hpassed
    have hlogged := Call.reachable_logged (hsound'.calls name)
    rw [call_peers hroom'] at hlogged
    refine ⟨polled.room, hroom', hids, fun sub hsub sub' hsub' hid => ?_⟩
    refine Room.poll_fansOut (hsound.ids hroom) hpolled hheap (fun sub hsub id hmem => ?_)
      hsub hsub' hid
    obtain ⟨pub, hpub, rfl⟩ := Room.mem_ids.mp (hids ▸ hmem)
    exact (hsound'.subscribed hroom').mids_nodup hlaw hsub hpub (hlogged pub hpub)
  case isolated =>
    obtain ⟨horder, heq⟩ := step_eq_some hstep
    obtain ⟨⟨next, timeout⟩, hpolled, rfl⟩ := Option.map_eq_some_iff.mp heq
    have hnodup : order.Nodup := (horder order rfl).nodup_iff.mpr engine.rooms.nodupKeys
    rw [← pollRoomsBy_write] at hpolled
    obtain ⟨other, hother, halike⟩ := pollRoomsBy_alikeBut hwrite hnodup hpolled
    exact ⟨other, timeout, hother, halike⟩

/-- Ann has hail to Bob, and the loop is about to poll her. -/
def hail : List (Turn scripted) :=
  Puppet.meeting ++
    [Puppet.turn [(.answer ⟨2⟩ "answer", "")] ["red"] (some ⟨"a", [Puppet.packet "0"]⟩)]

theorem reachable_fansOut_hail :
    ∃ engine engine' room, (machine scripted Puppet.config).Reachable engine ∧
      engine.step (.pollRooms 0 ["red"] fun _ _ => List.replicate 8 0) = some engine' ∧
      engine.rooms.lookup "red" = some room ∧
      (∃ arrival ∈ room.arrivals ⟨2⟩ (fun _ => List.replicate 8 0) engine.heap,
        arrival.after.writes.length = arrival.before.writes.length + 1) ∧
      FansOut 0 ["red"] (fun _ _ => List.replicate 8 0) engine engine' := by
  obtain ⟨engine, hreach, hcheck⟩ := Puppet.plays hail (fun engine =>
    (engine.step (.pollRooms 0 ["red"] fun _ _ => List.replicate 8 0)).isSome &&
    (engine.rooms.lookup "red").any fun room =>
      (room.arrivals ⟨2⟩ (fun _ => List.replicate 8 0) engine.heap).any fun arrival =>
        decide (arrival.after.writes.length = arrival.before.writes.length + 1))
    (by decide +kernel)
  obtain ⟨hsome, hany⟩ := Bool.and_eq_true_iff.mp hcheck
  obtain ⟨engine', hstep⟩ := Option.isSome_iff_exists.mp hsome
  obtain ⟨room, hroom, hany⟩ := (Option.any_eq_true _ _).mp hany
  obtain ⟨arrival, harrival, hwrites⟩ := List.any_eq_true.mp hany
  have hreach := loop_reachable hreach
  exact ⟨engine, engine', room, hreach, hstep, hroom,
    ⟨arrival, harrival, of_decide_eq_true hwrites⟩,
    reachable_fansOut scripted_announcesOnce hreach hstep⟩

end Engine

end FerriteSfu
