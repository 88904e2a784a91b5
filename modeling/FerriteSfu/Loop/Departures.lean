import FerriteSfu.Loop.Emissions
import FerriteSfu.Scripted

/-!
Departures, in every run of the media loop.

Identities come back, peers do not. The order of the reports about an identity
is a matter of its room and is read off the ledger; that no peer is reported
twice is a matter of the ids, which are handed out once.
-/

namespace FerriteSfu

variable {S : Str0m} {config : Config}

open ReportEvent (joined left finished concerns)

theorem Call.reachable_departs {name : String} {ok : Call S → CallEvent S → Prop} {call : Call S}
    (h : (Call.machine S config name).ReachableVia ok call) : call.ledger.Departs name :=
  Ledger.reachable_departs ((Call.refines_ledger config name fun _ _ => True).reachable
    (h.mono fun _ _ _ _ _ => trivial))

theorem Call.reportConnections_peers (name : String) (call : Call S) :
    (call.reportConnections name).peers = call.peers.map fun peer =>
      if peer.isArriving then { peer with reported := true } else peer := by
  unfold reportConnections peers
  cases call.room <;> rfl

namespace Engine

theorem Sound.departs {engine : Engine S} (h : engine.Sound) (name : String) :
    (engine.call name).ledger.Departs name :=
  Call.reachable_departs (h.calls name)

theorem Sound.users {engine : Engine S} (h : engine.Sound) {name : String} {room : Room S}
    (hroom : engine.rooms.lookup name = some room) : (room.peers.map (·.userId)).Nodup := by
  have hwf := Call.reachable_wellFormed (h.calls name)
  simpa [Call.ledger, call_peers hroom, Function.comp_def, Peer.card] using hwf.users

/-- What an event of the engine is to the ledger of the room `name`. -/
def roomEvent (name : String) (engine : Engine S) (event : Event S) : Option LedgerEvent :=
  (engine.callEvent name event).bind fun ev => (engine.call name).ledgerEvent engine.config ev

/-- Every step of the engine is a step of the ledger of each room, or does not
show in it. -/
theorem Sound.step_ledger {engine engine' : Engine S} (h : engine.Sound) {event : Event S}
    (hstep : engine.step event = some engine') (name : String) :
    (engine.roomEvent name event = none ∧
      (engine'.call name).ledger = (engine.call name).ledger) ∨
    ∃ ev, engine.roomEvent name event = some ev ∧
      (engine.call name).ledger.step engine.config.maxRoomPeers name ev =
        some (engine'.call name).ledger := by
  have hcall := (h.step_calls hstep).2.2 name
  unfold CallStep at hcall
  unfold roomEvent
  cases hev : engine.callEvent name event with
  | none =>
      rw [hev] at hcall
      exact .inl ⟨rfl, congrArg Call.ledger hcall⟩
  | some ev =>
      rw [hev] at hcall
      have hledger := Call.step_ledger (h.numbered name) hcall
      unfold Call.LedgerStep at hledger
      cases hlev : (engine.call name).ledgerEvent engine.config ev with
      | none =>
          rw [hlev] at hledger
          exact .inl ⟨hlev, hledger⟩
      | some lev =>
          rw [hlev] at hledger
          exact .inr ⟨lev, hlev, hledger⟩

/-- A peer keeps its flag, and a new one has none. -/
theorem Sound.step_reported {engine engine' : Engine S} (h : engine.Sound) {event : Event S}
    (hstep : engine.step event = some engine') (name : String) :
    ∀ peer' ∈ (engine'.call name).peers, peer'.id = ⟨engine.nextPeer⟩ ∨
      ∃ peer ∈ (engine.call name).peers, peer.id = peer'.id ∧
        (peer.reported = true → peer'.reported = true) := by
  intro peer' hpeer'
  have hcard : peer'.card ∈ (engine'.call name).ledger.members := List.mem_map_of_mem hpeer'
  rcases h.step_ledger hstep name with ⟨-, hsame⟩ | ⟨ev, -, hledger⟩
  · rw [hsame] at hcard
    obtain ⟨peer, hpeer, hcard⟩ := List.mem_map.mp hcard
    exact .inr ⟨peer, hpeer, congrArg Card.id hcard, fun hreported =>
      (congrArg Card.reported hcard).symm.trans hreported⟩
  · rcases Ledger.step_reported hledger peer'.card hcard with hnew | ⟨card, hmem, hid, hkeep⟩
    · exact .inl hnew
    · obtain ⟨peer, hpeer, rfl⟩ := List.mem_map.mp hmem
      exact .inr ⟨peer, hpeer, hid, hkeep⟩

/-! ### What a single call reports -/

theorem tellDrop_none {call : PeerId × Engine S} (h : call.2.peerRooms.lookup call.1 = none) :
    tellDrop call = [] := by
  simp [tellDrop, tell, dropPeer_of_none h]

/-- A departure is reported on account of the peer that left. -/
theorem Sound.tellDrop_some {engine : Engine S} (h : engine.Sound) {id : PeerId} {name : String}
    (hlookup : engine.peerRooms.lookup id = some name) :
    ∃ room peer room', engine.rooms.lookup name = some room ∧
      room.remove id = some (peer, room') ∧ Dropped name room peer room' engine (engine.dropPeer id) ∧
      tellDrop (id, engine) = (Call.departure name peer room'.isEmpty).map fun report =>
        { cause := id, report := report, engine := engine.dropPeer id } := by
  obtain ⟨room, peer, room', hroom, hremove, hdropped⟩ := h.dropPeer_dropped hlookup
  refine ⟨room, peer, room', hroom, hremove, hdropped, ?_⟩
  simp [tellDrop, tell, hdropped.reports]

theorem mem_departure {name : String} {peer : Peer S} {emptied : Bool} {report : ReportEvent} :
    report ∈ Call.departure name peer emptied ↔
      (peer.reported = true ∧ report = left name peer.userId) ∨
        (emptied = true ∧ report = finished name) := by
  unfold Call.departure
  cases peer.reported <;> cases emptied <;> simp [left, finished]

theorem mem_tell_setState {id : PeerId} {muted screen : Option Bool} {engine : Engine S}
    {emission : Emission S} (h : emission ∈ tell id engine (engine.setState id muted screen)) :
    emission.report.event = .trackPublished ∨ emission.report.event = .trackUnpublished := by
  obtain ⟨report, hreport, rfl⟩ := List.mem_map.mp h
  rcases setState_reports id muted screen engine with heq | ⟨event, name, user, hevent, heq⟩
  · simp [heq] at hreport
  · rw [heq, List.drop_left, List.mem_singleton] at hreport
    rw [hreport]
    exact hevent

theorem Sound.mem_drops {ids : List PeerId} {engine : Engine S} (h : engine.Sound)
    {call : PeerId × Engine S} (hcall : call ∈ drops ids engine) : call.2.Sound := by
  induction ids generalizing engine with
  | nil => cases hcall
  | cons id ids ih =>
      rcases List.mem_cons.mp hcall with rfl | hcall
      · exact h
      · exact ih (h.dropPeer id) hcall

/-- Who caused the reports of one kind. -/
def causes (event : ReportName) (log : List (Emission S)) : List PeerId :=
  (log.filter fun emission => emission.report.event = event).map Emission.cause

theorem causes_append (event : ReportName) (log log' : List (Emission S)) :
    causes event (log ++ log') = causes event log ++ causes event log' := by
  simp [causes]

theorem mem_causes {event : ReportName} {log : List (Emission S)} {id : PeerId} :
    id ∈ causes event log ↔
      ∃ emission ∈ log, emission.report.event = event ∧ emission.cause = id := by
  simp [causes, and_assoc]

theorem causes_eq_nil {event : ReportName} {log : List (Emission S)}
    (h : ∀ emission ∈ log, emission.report.event ≠ event) : causes event log = [] := by
  simpa [causes, List.filter_eq_nil_iff] using h

/-! ### Once per peer -/

theorem dropPeer_lookup (id id' : PeerId) (engine : Engine S) :
    (engine.dropPeer id).peerRooms.lookup id' =
      if id' = id then none else engine.peerRooms.lookup id' := by
  unfold dropPeer
  split
  · rename_i hnone
    by_cases hid : id' = id
    · rw [if_pos hid, hid, hnone]
    · rw [if_neg hid]
  · dsimp only
    repeat' split
    all_goals simp_all [report, AList.lookup_erase_eq_ite]

theorem foldl_dropPeer_lookup (ids : List PeerId) {id : PeerId} {engine : Engine S}
    (h : engine.peerRooms.lookup id = none) :
    (ids.foldl (fun engine id => engine.dropPeer id) engine).peerRooms.lookup id = none := by
  induction ids generalizing engine with
  | nil => exact h
  | cons id' ids ih => exact ih (by simp [dropPeer_lookup, h])

/-- One call of `drop_peer` reports at most one departure, that of its peer. -/
theorem Sound.tellDrop_left {engine : Engine S} (h : engine.Sound) (id : PeerId) :
    causes .participantLeft (tellDrop (id, engine)) = [] ∨
      causes .participantLeft (tellDrop (id, engine)) = [id] ∧
        (engine.peerRooms.lookup id).isSome = true := by
  cases hlookup : engine.peerRooms.lookup id with
  | none =>
      rw [tellDrop_none hlookup]
      exact .inl rfl
  | some name =>
      obtain ⟨room, peer, room', -, -, -, htell⟩ := h.tellDrop_some hlookup
      rw [htell]
      unfold Call.departure causes
      cases peer.reported <;> cases room'.isEmpty <;> simp [ReportEvent.new, ReportEvent.identity]

/-- The departures a sweep of `drop_peer` calls reports are of peers that were
there, and are gone afterwards. -/
theorem Sound.drops_left {engine : Engine S} (h : engine.Sound) (ids : List PeerId) :
    (causes .participantLeft ((drops ids engine).flatMap tellDrop)).Nodup ∧
      ∀ id ∈ causes .participantLeft ((drops ids engine).flatMap tellDrop),
        (engine.peerRooms.lookup id).isSome ∧
        (ids.foldl (fun engine id => engine.dropPeer id) engine).peerRooms.lookup id = none := by
  induction ids generalizing engine with
  | nil => simp [drops, causes]
  | cons id ids ih =>
      obtain ⟨hnodup, hall⟩ := ih (h.dropPeer id)
      have hrest : ∀ id' ∈
          causes .participantLeft ((drops ids (engine.dropPeer id)).flatMap tellDrop),
          id' ≠ id ∧ (engine.peerRooms.lookup id').isSome ∧
            (ids.foldl (fun engine id => engine.dropPeer id)
              (engine.dropPeer id)).peerRooms.lookup id' = none := by
        intro id' hmem
        obtain ⟨hthere, hgone⟩ := hall id' hmem
        rw [dropPeer_lookup] at hthere
        split at hthere
        · cases hthere
        · rename_i hid
          exact ⟨hid, hthere, hgone⟩
      simp only [drops, List.flatMap_cons, causes_append, List.foldl_cons]
      rcases h.tellDrop_left id with hnone | ⟨hone, hthere⟩
      · rw [hnone, List.nil_append]
        exact ⟨hnodup, fun id' hmem => (hrest id' hmem).2⟩
      · rw [hone]
        refine ⟨List.nodup_cons.mpr ⟨fun hmem => (hrest id hmem).1 rfl, hnodup⟩, fun id' hmem => ?_⟩
        rcases List.mem_cons.mp hmem with rfl | hmem
        · exact ⟨hthere, foldl_dropPeer_lookup ids (by simp [dropPeer_lookup])⟩
        · exact (hrest id' hmem).2

/-- What a sweep of `drop_peer` calls reports are departures and the ends of
rooms. -/
theorem Sound.mem_tellDrop {engine : Engine S} (h : engine.Sound) {id : PeerId}
    {emission : Emission S} (hmem : emission ∈ tellDrop (id, engine)) :
    emission.report.event = .participantLeft ∨ emission.report.event = .roomFinished := by
  cases hlookup : engine.peerRooms.lookup id with
  | none =>
      rw [tellDrop_none hlookup] at hmem
      cases hmem
  | some name =>
      obtain ⟨room, peer, room', -, -, -, htell⟩ := h.tellDrop_some hlookup
      rw [htell] at hmem
      obtain ⟨report, hreport, rfl⟩ := List.mem_map.mp hmem
      rcases mem_departure.mp hreport with ⟨-, rfl⟩ | ⟨-, rfl⟩
      · exact .inl rfl
      · exact .inr rfl

/-- A step drops peers, reports arrivals, or reports no more than a screen
share. -/
theorem step_kinds {engine engine' : Engine S} {event : Event S}
    (hstep : engine.step event = some engine') :
    (∃ ids, engine.dropCalls event = drops ids engine ∧
      engine.emissions event = (drops ids engine).flatMap tellDrop ∧
      engine' = ids.foldl (fun engine id => engine.dropPeer id) engine) ∨
    (∃ order, event = .reportConnections order) ∨
    engine.dropCalls event = [] ∧ ∀ emission ∈ engine.emissions event,
      emission.report.event = .trackPublished ∨ emission.report.event = .trackUnpublished := by
  obtain ⟨-, heq⟩ := step_eq_some hstep
  cases event with
  | command command seed =>
      cases heq
      cases command with
      | leave id => exact .inl ⟨[id], rfl, rfl, rfl⟩
      | mute | screen => exact .inr (.inr ⟨rfl, fun emission hmem => mem_tell_setState hmem⟩)
      | join | answer | shutdown => exact .inr (.inr ⟨rfl, by simp [emissions]⟩)
  | reap now order =>
      cases heq
      exact .inl ⟨_, rfl, rfl, reap_eq now order engine⟩
  | reportConnections order => exact .inr (.inl ⟨order, rfl⟩)
  | pollRooms | tickSpeaking | readOnce | advanceTime =>
      exact .inr (.inr ⟨rfl, by simp [emissions]⟩)

/-- What the report of an arrival says, and who causes it. -/
theorem mem_arrivals {engine : Engine S} {order : List String} {emission : Emission S}
    (h : emission ∈ engine.emissions (.reportConnections order)) :
    ∃ name ∈ order, ∃ peer ∈ (engine.call name).peers, peer.isArriving = true ∧
      emission.cause = peer.id ∧ emission.report = joined name peer.userId := by
  obtain ⟨name, hname, hmem⟩ := List.mem_flatMap.mp h
  obtain ⟨peer, hpeer, rfl⟩ := List.mem_map.mp hmem
  obtain ⟨hpeer, harriving⟩ := List.mem_filter.mp hpeer
  exact ⟨name, hname, peer, hpeer, harriving, rfl, rfl⟩

/-- Departures are of peers that were there and are not there any more. -/
theorem Sound.step_left {engine engine' : Engine S} (h : engine.Sound) {event : Event S}
    (hstep : engine.step event = some engine') :
    (causes .participantLeft (engine.emissions event)).Nodup ∧
      ∀ id ∈ causes .participantLeft (engine.emissions event),
        (engine.peerRooms.lookup id).isSome ∧ engine'.peerRooms.lookup id = none := by
  rcases step_kinds hstep with ⟨ids, -, hemissions, rfl⟩ | ⟨order, rfl⟩ | ⟨-, hquiet⟩
  · rw [hemissions]
    exact h.drops_left ids
  · rw [causes_eq_nil fun emission hmem => ?_]
    · simp
    · obtain ⟨name, -, peer, -, -, -, hreport⟩ := mem_arrivals hmem
      rw [hreport]
      exact fun he => by cases he
  · rw [causes_eq_nil fun emission hmem => ?_]
    · simp
    · rcases hquiet emission hmem with hevent | hevent <;> rw [hevent] <;>
        exact fun he => by cases he

/-- Arrivals are of peers that had not been reported, and are from then on. -/
theorem Sound.step_joined {engine engine' : Engine S} (h : engine.Sound) {event : Event S}
    (hstep : engine.step event = some engine') :
    (causes .participantJoined (engine.emissions event)).Nodup ∧
      ∀ id ∈ causes .participantJoined (engine.emissions event),
        (∃ name, ∃ peer ∈ (engine.call name).peers, peer.id = id ∧ peer.reported = false) ∧
        ∀ name, ∀ peer ∈ (engine'.call name).peers, peer.id = id → peer.reported = true := by
  rcases step_kinds hstep with ⟨ids, -, hemissions, -⟩ | ⟨order, rfl⟩ | ⟨-, hquiet⟩
  · rw [hemissions, causes_eq_nil fun emission hmem => ?_]
    · simp
    · obtain ⟨call, hcall, hmem⟩ := List.mem_flatMap.mp hmem
      rcases (h.mem_drops hcall).mem_tellDrop hmem with hevent | hevent <;> rw [hevent] <;>
        exact fun he => by cases he
  · obtain ⟨horder, heq⟩ := step_eq_some hstep
    cases heq
    have hperm := horder order rfl
    refine ⟨?_, fun id hmem => ?_⟩
    · -- The arriving peers are different peers, in one room or in two.
      have hsub : (causes .participantJoined (engine.emissions (.reportConnections order))).Sublist
          (order.flatMap fun name =>
            ((engine.call name).peers.filter Peer.isArriving).map Peer.id) := by
        rw [causes, emissions]
        refine (List.filter_sublist.map _).trans ?_
        rw [List.map_flatMap]
        simp only [List.map_map]
        exact List.Sublist.refl _
      refine hsub.nodup (List.nodup_flatMap.mpr ⟨fun name _ => ?_, ?_⟩)
      · exact (h.numbered name).ids.sublist (List.filter_sublist.map _)
      · refine (hperm.nodup_iff.mpr engine.rooms.nodupKeys).imp
          fun {name name'} hne id hid hid' => ?_
        have hname := h.mem_call.mp ((List.filter_sublist.map _).subset hid)
        have hname' := h.mem_call.mp ((List.filter_sublist.map _).subset hid')
        exact hne (Option.some.inj (hname.symm.trans hname'))
    · obtain ⟨emission, hemission, -, rfl⟩ := mem_causes.mp hmem
      obtain ⟨name, -, peer, hpeer, harriving, hcause, -⟩ := mem_arrivals hemission
      rw [hcause]
      have hflags := harriving
      simp only [Peer.isArriving, Bool.and_eq_true, Bool.not_eq_true'] at hflags
      refine ⟨⟨name, peer, hpeer, rfl, hflags.2⟩, fun name' peer' hpeer' hid => ?_⟩
      rw [reportConnections_call hperm, Call.reportConnections_peers] at hpeer'
      obtain ⟨other, hother, rfl⟩ := List.mem_map.mp hpeer'
      have hsame : other.id = peer.id := by
        rw [← hid]
        split <;> rfl
      have hname := h.mem_call.mp (List.mem_map_of_mem hpeer)
      have hname' := h.mem_call.mp (List.mem_map_of_mem hother)
      rw [hsame, hname] at hname'
      obtain rfl := Option.some.inj hname'
      obtain rfl := List.eq_of_map_eq (h.numbered name).ids hother hpeer hsame
      rw [if_pos harriving]
  · rw [causes_eq_nil fun emission hmem => ?_]
    · simp
    · rcases hquiet emission hmem with hevent | hevent <;> rw [hevent] <;>
        exact fun he => by cases he

/-- No peer has been reported twice, and whoever was reported shows it: by its
flag while it is there, by its absence once it has left. -/
structure Once (engine : Engine S) (log : List (Emission S)) : Prop where
  joined : (causes .participantJoined log).Nodup
  left : (causes .participantLeft log).Nodup
  flagged : ∀ id ∈ causes .participantJoined log, id.val < engine.nextPeer ∧
    ∀ name, ∀ peer ∈ (engine.call name).peers, peer.id = id → peer.reported = true
  departed : ∀ id ∈ causes .participantLeft log, id.val < engine.nextPeer ∧
    engine.peerRooms.lookup id = none

theorem Sound.indexed_lt {engine : Engine S} (h : engine.Sound) {id : PeerId}
    (hlookup : (engine.peerRooms.lookup id).isSome = true) : id.val < engine.nextPeer := by
  obtain ⟨name, hname⟩ := Option.isSome_iff_exists.mp hlookup
  obtain ⟨room, peer, hroom, hpeer, rfl, -⟩ := h.lookup_find hname
  exact h.fresh hroom peer hpeer

/-- Whoever is indexed after a step was before, or is new. -/
theorem Sound.step_indexed {engine engine' : Engine S} (h : engine.Sound) {event : Event S}
    (hstep : engine.step event = some engine') {id : PeerId} (hold : id.val < engine.nextPeer)
    (hgone : engine.peerRooms.lookup id = none) : engine'.peerRooms.lookup id = none := by
  by_contra hthere
  obtain ⟨name, hname⟩ := Option.ne_none_iff_exists'.mp hthere
  obtain ⟨peer', hpeer', hid⟩ := List.mem_map.mp ((h.step hstep).mem_call.mpr hname)
  rcases h.step_reported hstep name peer' hpeer' with hnew | ⟨peer, hpeer, hsame, -⟩
  · rw [← hid, hnew] at hold
    exact lt_irrefl _ hold
  · have hindexed := h.mem_call.mp (List.mem_map_of_mem hpeer)
    rw [hsame, hid, hgone] at hindexed
    cases hindexed

theorem Once.step {engine engine' : Engine S} {log : List (Emission S)} (hsound : engine.Sound)
    (h : engine.Once log) {event : Event S} (hstep : engine.step event = some engine') :
    engine'.Once (log ++ engine.emissions event) := by
  obtain ⟨hleft, hwent⟩ := hsound.step_left hstep
  obtain ⟨hjoined, hcame⟩ := hsound.step_joined hstep
  have hnext : engine.nextPeer ≤ engine'.nextPeer := by
    rw [hsound.step_nextPeer hstep]
    omega
  constructor
  case joined =>
    rw [causes_append]
    refine List.nodup_append.mpr ⟨h.joined, hjoined, ?_⟩
    rintro id hold _ hnew rfl
    obtain ⟨⟨name, peer, hpeer, hid, hnot⟩, -⟩ := hcame id hnew
    rw [(h.flagged id hold).2 name peer hpeer hid] at hnot
    cases hnot
  -- Ids are never reused: whoever left before this step is no longer in the index.
  case left =>
    rw [causes_append]
    refine List.nodup_append.mpr ⟨h.left, hleft, ?_⟩
    rintro id hold _ hnew rfl
    have hthere := (hwent id hnew).1
    rw [(h.departed id hold).2] at hthere
    cases hthere
  case flagged =>
    intro id hid
    rw [causes_append, List.mem_append] at hid
    rcases hid with hold | hnew
    · obtain ⟨hlt, hflag⟩ := h.flagged id hold
      refine ⟨hlt.trans_le hnext, fun name peer' hpeer' hid => ?_⟩
      rcases hsound.step_reported hstep name peer' hpeer' with hfresh | ⟨peer, hpeer, hsame, hkeep⟩
      · rw [← hid, hfresh] at hlt
        exact absurd hlt (lt_irrefl _)
      · exact hkeep (hflag name peer hpeer (hsame.trans hid))
    · obtain ⟨⟨name, peer, hpeer, rfl, -⟩, hflag⟩ := hcame id hnew
      exact ⟨((hsound.numbered name).fresh peer hpeer).trans_le hnext, hflag⟩
  case departed =>
    intro id hid
    rw [causes_append, List.mem_append] at hid
    rcases hid with hold | hnew
    · obtain ⟨hlt, hgone⟩ := h.departed id hold
      exact ⟨hlt.trans_le hnext, hsound.step_indexed hstep hlt hgone⟩
    · obtain ⟨hthere, hgone⟩ := hwent id hnew
      exact ⟨(hsound.indexed_lt hthere).trans_le hnext, hgone⟩

/-! ### Runs -/

/-- A report of a departure leaves no one of that identity in the room. -/
def LeavesNobody (emission : Emission S) : Prop :=
  ∀ name user, emission.report = left name user →
    ∀ room ∈ emission.engine.rooms.lookup name, ∀ peer ∈ room.peers, peer.userId ≠ user

theorem Sound.tellDrop_leavesNobody {engine : Engine S} (h : engine.Sound) {id : PeerId}
    {emission : Emission S} (hmem : emission ∈ tellDrop (id, engine)) :
    LeavesNobody emission := by
  intro name user hreport room hroom peer hpeer huser
  cases hlookup : engine.peerRooms.lookup id with
  | none =>
      rw [tellDrop_none hlookup] at hmem
      cases hmem
  | some home =>
      obtain ⟨old, gone, room', hold, hremove, hdropped, htell⟩ := h.tellDrop_some hlookup
      rw [htell] at hmem
      obtain ⟨report, hdeparture, rfl⟩ := List.mem_map.mp hmem
      dsimp only at hreport hroom
      rw [hreport] at hdeparture
      rcases mem_departure.mp hdeparture with ⟨-, heq⟩ | ⟨-, heq⟩
      · simp only [left, ReportEvent.new, ReportEvent.identity, ReportEvent.mk.injEq,
          ReportRoom.mk.injEq, Option.some.injEq, ReportParticipant.mk.injEq] at heq
        obtain ⟨-, rfl, rfl, -⟩ := heq
        rw [hdropped.rooms, if_pos rfl] at hroom
        split at hroom
        · cases hroom
        · cases hroom
          obtain ⟨⟨hgone, hid⟩, -⟩ := Room.remove_eq_some (h.ids hold) hremove
          -- Two members of a room never share a user.
          obtain ⟨other, hother, hne, rfl⟩ := (mem_removed (h.ids hold) hremove).mp hpeer
          exact hne (hid ▸ congrArg Peer.id
            (List.eq_of_map_eq (h.users hold) hother hgone huser))
      · simp [left, finished, ReportEvent.new, ReportEvent.identity] at heq

theorem Sound.step_leavesNobody {engine engine' : Engine S} (h : engine.Sound) {event : Event S}
    (hstep : engine.step event = some engine') :
    ∀ emission ∈ engine.emissions event, LeavesNobody emission := by
  intro emission hmem
  rcases step_kinds hstep with ⟨ids, -, hemissions, -⟩ | ⟨order, rfl⟩ | ⟨-, hquiet⟩
  · rw [hemissions] at hmem
    obtain ⟨call, hcall, hmem⟩ := List.mem_flatMap.mp hmem
    exact (h.mem_drops hcall).tellDrop_leavesNobody hmem
  · obtain ⟨name, -, peer, -, -, -, hreport⟩ := mem_arrivals hmem
    intro name' user heq
    rw [hreport] at heq
    simp [joined, left, ReportEvent.new, ReportEvent.identity] at heq
  · intro name user heq
    rcases hquiet emission hmem with hevent | hevent <;> rw [heq] at hevent <;> cases hevent

/-- Departures match arrivals in the log of a run that ends in `engine`. -/
structure DeparturesMatched (engine : Engine S) (log : List (Emission S)) : Prop where
  reports : log.map Emission.report = engine.reports
  preceded : ∀ name user before after, engine.reports = before ++ left name user :: after →
    ∃ earlier since, before = earlier ++ joined name user :: since ∧
      left name user ∉ since ∧ finished name ∉ since
  joinedOnce : (causes .participantJoined log).Nodup
  leftOnce : (causes .participantLeft log).Nodup
  nobody : ∀ emission ∈ log, LeavesNobody emission
  present : ∀ name, ∀ room ∈ engine.rooms.lookup name, ∀ peer ∈ room.peers,
    peer.reported = true → ∃ before after,
      engine.reports = before ++ joined name peer.userId :: after ∧
      joined name peer.userId ∉ after ∧ left name peer.userId ∉ after ∧ finished name ∉ after

theorem Sound.preceded {engine : Engine S} (h : engine.Sound) {name user : String}
    {before after : List ReportEvent}
    (heq : engine.reports = before ++ left name user :: after) :
    ∃ earlier since, before = earlier ++ joined name user :: since ∧
      left name user ∉ since ∧ finished name ∉ since := by
  have hfollows : Lib.Follows (concerns name user) (joined name user) (left name user)
      engine.reports :=
    ((h.departs name).follows user).of_filter
      (fun report hconcerns => by simpa using ReportEvent.concerns_room hconcerns)
      (by simp [left, ReportEvent.new, ReportEvent.identity])
  obtain ⟨earlier, since, hbefore, hquiet⟩ := (hfollows before after heq).split
  refine ⟨earlier, since, hbefore, fun hmem => ?_, fun hmem => ?_⟩
  · exact (ReportEvent.concerns_eq_false.mp (hquiet _ hmem)).2.1 rfl
  · exact (ReportEvent.concerns_eq_false.mp (hquiet _ hmem)).2.2 rfl

theorem Sound.present {engine : Engine S} (h : engine.Sound) {name : String} {room : Room S}
    (hroom : engine.rooms.lookup name = some room) {peer : Peer S} (hpeer : peer ∈ room.peers)
    (hreported : peer.reported = true) :
    ∃ before after, engine.reports = before ++ joined name peer.userId :: after ∧
      joined name peer.userId ∉ after ∧ left name peer.userId ∉ after ∧ finished name ∉ after := by
  have hmem : peer.card ∈ (engine.call name).ledger.members := by
    rw [Call.ledger_members, call_peers hroom]
    exact List.mem_map_of_mem hpeer
  have hlast : Lib.LastIs (concerns name peer.userId) (joined name peer.userId) engine.reports :=
    (Lib.lastIs_filter fun report hconcerns => by
      simpa using ReportEvent.concerns_room hconcerns).mp
        ((h.departs name).present peer.card hmem hreported)
  obtain ⟨before, after, heq, hquiet⟩ := hlast.split
  refine ⟨before, after, heq, fun hmem => ?_, fun hmem => ?_, fun hmem => ?_⟩
  · exact (ReportEvent.concerns_eq_false.mp (hquiet _ hmem)).1 rfl
  · exact (ReportEvent.concerns_eq_false.mp (hquiet _ hmem)).2.1 rfl
  · exact (ReportEvent.concerns_eq_false.mp (hquiet _ hmem)).2.2 rfl

/-- **No departure is false or unmatched, in any run.** -/
theorem run_departures {now : Instant} {events : List (Event S)} {engine : Engine S}
    (hrun : (machine S config).run (start config now) events = some engine) :
    engine.DeparturesMatched (reported config now events) := by
  have hstart : (machine S config).Reachable (Engine.start config now : Engine S) :=
    .init ⟨now, rfl⟩
  have hlog := Lib.Machine.outputs_holds (m := machine S config) (f := emissions)
    (I := fun engine log => engine.Once log ∧ ∀ emission ∈ log, LeavesNobody emission)
    (fun engine log event engine' hreach hlog hstep => by
      have hsound := (reachable_sound hreach).1
      refine ⟨hlog.1.step hsound hstep, fun emission hmem => ?_⟩
      rcases List.mem_append.mp hmem with hmem | hmem
      · exact hlog.2 emission hmem
      · exact hsound.step_leavesNobody hstep emission hmem)
    hstart ⟨⟨by simp [causes], by simp [causes], by simp [causes], by simp [causes]⟩, by simp⟩ hrun
  have hsound := (reachable_sound (hstart.of_run hrun)).1
  exact
    { reports := run_reports hrun
      preceded := fun _ _ _ _ heq => hsound.preceded heq
      joinedOnce := hlog.1.joined
      leftOnce := hlog.1.left
      nobody := hlog.2
      present := fun _ _ hroom _ hpeer hreported => hsound.present hroom hpeer hreported }

/-- Ann comes to the red room, is connected and leaves again; Bob stays. -/
def visit : List (Event scripted) :=
  [Puppet.turn [Puppet.joins "ann" "red" "a", Puppet.joins "bob" "red" "b"] ["red"]
      (some ⟨"a", [.iceConnectionStateChange .connected]⟩),
    Puppet.turn [] ["red"] none, Puppet.turn [(.leave ⟨1⟩, "")] ["red"] none].flatMap Turn.events

theorem run_departures_visit :
    ∃ engine, (machine scripted Puppet.config).run (start Puppet.config 0) visit = some engine ∧
      left "red" "ann" ∈ engine.reports ∧
      engine.DeparturesMatched (reported Puppet.config 0 visit) := by
  obtain ⟨engine, hrun, hleft⟩ := (Option.any_eq_true _ _).mp (by decide +kernel :
    ((machine scripted Puppet.config).run (start Puppet.config 0) visit).any (fun engine =>
      decide (left "red" "ann" ∈ engine.reports)) = true)
  exact ⟨engine, hrun, of_decide_eq_true hleft, run_departures hrun⟩

end Engine

end FerriteSfu
