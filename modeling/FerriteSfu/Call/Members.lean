import FerriteSfu.Call.Ledger
import FerriteSfu.Call.Machine
import FerriteSfu.Sfu.Members
import FerriteSfu.Sfu.Polling

/-!
A call refines its ledger: each of its steps is one step of the ledger or none.
-/

namespace FerriteSfu

variable {S : Str0m} {config : Config} {name : String}

namespace Call

def ledger (call : Call S) : Ledger where
  members := call.peers.map Peer.card
  reports := call.reports
  nextPeer := call.nextPeer

@[simp] theorem ledger_members (call : Call S) :
    call.ledger.members = call.peers.map Peer.card := rfl

@[simp] theorem ledger_reports (call : Call S) : call.ledger.reports = call.reports := rfl

/-- What an event of the call is to its ledger. -/
def ledgerEvent (config : Config) (call : Call S) : CallEvent S → Option LedgerEvent
  | .join request seed =>
      if call.admits config request seed then
        some (.join request.claims.sub request.claims.name request.claims.avatarUrl)
      else if call.consumes config request seed then some .elsewhere
      else none
  | .elsewhere => some .elsewhere
  | .setState id muted screen => some (.setState id muted screen)
  | .leave id => some (.leave fun id' => id' = id)
  | .reap now => some (.leave fun id => id ∈ call.dead now)
  | .reportConnections => some (.arrive fun id => id ∈ (call.peers.filter Peer.isArriving).map (·.id))
  | .answer _ _ | .poll _ | .syncSpeaking _ | .handleInput _ | .advanceTime _ => none

/-- The ids of the call are distinct and were handed out before. -/
structure Numbered (call : Call S) : Prop where
  ids : (call.peers.map Peer.id).Nodup
  fresh : ∀ peer ∈ call.peers, peer.id.val < call.nextPeer

theorem numbered_of_ledger {call : Call S} {capacity : ℕ}
    (h : call.ledger.WellFormed capacity) : call.Numbered where
  ids := by simpa [ledger, Function.comp_def] using h.ids
  fresh peer hmem := h.fresh peer.card (List.mem_map_of_mem hmem)

@[simp] theorem peers_of_room {call : Call S} {room : Room S} (h : call.room = some room) :
    call.peers = room.peers := by
  simp [peers, h]

theorem peers_of_none {call : Call S} (h : call.room = none) : call.peers = [] := by
  simp [peers, h]

/-- The room a join enters: the one there is, or a new one. -/
def lobby (callId : String) (call : Call S) : Room S := call.room.getD (Room.new callId)

theorem lobby_peers (callId : String) (call : Call S) :
    (call.lobby callId).peers = call.peers := by
  cases h : call.room <;> simp [lobby, peers, h, Room.new]

/-- The room a join enters, without the peers it replaces. -/
def retired (claims : JoinClaims) (call : Call S) : Room S :=
  ((call.lobby claims.callId).retire (stale claims.sub (call.lobby claims.callId))).1

/-! ### Joining -/

theorem Numbered.new {call : Call S} (h : call.Numbered) :
    (⟨call.nextPeer⟩ : PeerId) ∉ call.peers.map Peer.id := by
  intro hmem
  obtain ⟨peer, hpeer, he⟩ := List.mem_map.mp hmem
  have hlt := h.fresh peer hpeer
  simp [he] at hlt

theorem enter_cards (call : Call S) (hids : (call.peers.map Peer.id).Nodup) (peer : Peer S)
    (hnew : peer.id ∉ call.peers.map Peer.id) (answer : String) (claims : JoinClaims) :
    (call.enter peer answer claims).peers.map Peer.card =
      ((call.peers.map Peer.card).filter fun card => card.userId ≠ claims.sub) ++ [peer.card] := by
  have hlobby := lobby_peers claims.callId call
  have hcards : (call.lobby claims.callId).cards = call.peers.map Peer.card := by
    rw [Room.cards, hlobby]
  rw [← hlobby] at hids hnew
  have hstale : stale claims.sub (call.lobby claims.callId) =
      ((call.peers.map Peer.card).filter fun card => card.userId = claims.sub).map Card.id := by
    simp only [stale, hlobby, List.filter_map, List.map_map]
    rfl
  have hretired : (call.retired claims).cards =
      (call.peers.map Peer.card).filter fun card => card.userId ≠ claims.sub := by
    have hkeys : ((call.peers.map Peer.card).map Card.id).Nodup := by
      simpa [hlobby, Function.comp_def] using hids
    rw [retired, Room.retire_cards hids, hcards, hstale, List.filter_key_notMem hkeys]
    simp
  have hrest : (call.retired claims).ids.Nodup ∧ peer.id ∉ (call.retired claims).ids :=
    Room.retire_induct (P := fun room => peer.id ∉ room.ids)
      (fun room id other room' hroom hnot hsome hmem =>
        hnot (List.mem_of_mem_filter (Room.remove_ids hroom hsome ▸ hmem)))
      hids hnew _
  have hadmit := Room.admit_cards hrest.1 hrest.2 claims.callId answer
  rw [hretired] at hadmit
  exact hadmit

theorem not_full {call : Call S} (h : call.isFull config = false) :
    ¬(call.ledger.members ≠ [] ∧ call.ledger.members.length ≥ config.maxRoomPeers) := by
  rintro ⟨hne, hge⟩
  cases hroom : call.room with
  | none => simp [ledger, peers_of_none hroom] at hne
  | some room =>
      simp_all [ledger, isFull]
      omega

/-- How a step of the call shows in its ledger. -/
def LedgerStep (config : Config) (name : String) (call : Call S) (event : CallEvent S)
    (call' : Call S) : Prop :=
  match call.ledgerEvent config event with
  | none => call'.ledger = call.ledger
  | some ev => call.ledger.step config.maxRoomPeers name ev = some call'.ledger

theorem join_ledger {call : Call S} (hnum : call.Numbered) (request : JoinRequest)
    (seed : S.Seed) :
    LedgerStep config name call (.join request seed) (call.join config request seed) := by
  unfold LedgerStep ledgerEvent
  rcases call.join_cases config request seed with ⟨hconsumes, hadmits, hjoin⟩ |
    ⟨hconsumes, hadmits, hjoin⟩ | ⟨-, hadmits, offer, answer, hjoin⟩
  · simp [hconsumes, hadmits, hjoin]
  · simp [hconsumes, hadmits, hjoin, Ledger.step, ledger, peers]
  · have hfull : call.isFull config = false := by
      simp only [admits, Bool.and_eq_true, Bool.not_eq_true'] at hadmits
      exact hadmits.1
    have hcards := enter_cards { call with nextPeer := call.nextPeer + 1 } hnum.ids
      (admitted config request seed offer ⟨call.nextPeer⟩) hnum.new answer request.claims
    simp only [hadmits, if_true, hjoin, Ledger.step]
    rw [if_neg (not_full hfull), Option.some.injEq]
    exact Ledger.ext hcards.symm rfl rfl

/-! ### Leaving -/

theorem leave_ledger (name : String) {call : Call S} (hids : (call.peers.map Peer.id).Nodup)
    (id : PeerId) :
    (call.leave name id).ledger = call.ledger.leave name fun id' => id' = id := by
  unfold leave
  cases hremove : call.room.bind (Room.remove id) with
  | none =>
      have hne : ∀ peer ∈ call.peers, peer.id ≠ id := by
        cases hroom : call.room with
        | none => simp [peers_of_none hroom]
        | some room =>
            rw [hroom] at hremove
            rw [peers_of_room hroom]
            exact Room.remove_eq_none.mp hremove
      have hleaving : call.ledger.leaving (fun id' => id' = id) = [] := by
        simpa [Ledger.leaving, ledger] using hne
      have hstaying : call.ledger.staying (fun id' => id' = id) = call.ledger.members := by
        simpa [Ledger.staying, ledger] using hne
      exact Ledger.ext (by simp [Ledger.leave, hstaying]) (by simp [Ledger.leave, hleaving]) rfl
  | some removed =>
      obtain ⟨peer, room'⟩ := removed
      obtain ⟨room, hroom, hsome⟩ := Option.bind_eq_some_iff.mp hremove
      rw [peers_of_room hroom] at hids
      have hcards := Room.remove_cards hids hsome
      obtain ⟨⟨hmem, hid⟩, -⟩ := Room.remove_eq_some hids hsome
      have hledger : call.ledger.members = room.cards := by simp [ledger, hroom, Room.cards]
      have hkeys : (room.cards.map Card.id).Nodup := by rwa [Room.cards_map_id]
      have hstaying : call.ledger.staying (fun id' => id' = id) = room'.cards := by
        rw [Ledger.staying, hledger, hcards]
        simp
      have hleaving : call.ledger.leaving (fun id' => id' = id) = [peer.card] := by
        rw [Ledger.leaving, hledger]
        exact List.filter_key_eq_singleton hkeys (List.mem_map_of_mem hmem) hid
      have hpeers : (peers { call with room := if room'.isEmpty then none else some room' }).map
          Peer.card = room'.cards := by
        cases hempty : room'.isEmpty with
        | true => simp_all [peers, Room.isEmpty, Room.cards]
        | false => simp [peers, Room.cards]
      have hempty : room'.isEmpty = true ↔ room'.cards = [] := by
        simp [Room.isEmpty, Room.cards]
      refine Ledger.ext ?_ ?_ rfl
      · rw [Ledger.leave, hstaying]
        exact hpeers
      · simp only [Ledger.leave, hleaving, hstaying, ledger_reports, departure, hempty]
        cases hflag : peer.reported <;> simp [hflag, Ledger.leftReport, Peer.card]

/-- The others stay, and hear of it. -/
theorem leave_peers {call : Call S} (hids : (call.peers.map Peer.id).Nodup) (name : String)
    (id : PeerId) :
    (call.leave name id = call ∧ ∀ peer ∈ call.peers, peer.id ≠ id) ∨
      (call.leave name id).peers = (call.peers.filter fun peer => peer.id ≠ id).map
        (Peer.send (.peerLeft id.asString)) := by
  unfold leave
  cases hremove : call.room.bind (Room.remove id) with
  | none =>
      refine .inl ⟨rfl, ?_⟩
      cases hroom : call.room with
      | none => simp [peers_of_none hroom]
      | some room =>
          rw [hroom] at hremove
          rw [peers_of_room hroom]
          exact Room.remove_eq_none.mp hremove
  | some removed =>
      obtain ⟨peer, room'⟩ := removed
      obtain ⟨room, hroom, hsome⟩ := Option.bind_eq_some_iff.mp hremove
      rw [peers_of_room hroom] at hids ⊢
      obtain ⟨-, rfl⟩ := Room.remove_eq_some hids hsome
      refine .inr ?_
      dsimp only
      split
      · rename_i hempty
        have hnil : (room.peers.filter fun peer => decide (peer.id ≠ id)) = [] := by
          simpa [Room.isEmpty] using hempty
        rw [hnil]
        rfl
      · rfl

theorem leave_ids_nodup {call : Call S} (hids : (call.peers.map Peer.id).Nodup) (id : PeerId) :
    ((call.leave name id).peers.map Peer.id).Nodup := by
  rcases leave_peers hids name id with ⟨heq, -⟩ | hpeers
  · rw [heq]
    exact hids
  · rw [hpeers, List.map_map]
    exact hids.sublist (List.filter_sublist.map _)

/-- A sweep over the peers that leave, in the order of the room. -/
theorem foldl_leave_ledger {call : Call S} (hids : (call.peers.map Peer.id).Nodup)
    {ids : List PeerId} (hsub : ids.Sublist (call.peers.map Peer.id)) :
    (ids.foldl (fun call id => call.leave name id) call).ledger =
      call.ledger.leave name fun id => id ∈ ids := by
  induction ids generalizing call with
  | nil =>
      refine Ledger.ext ?_ ?_ rfl
      · simp [Ledger.leave, Ledger.staying]
      · simp [Ledger.leave, Ledger.leaving]
  | cons id ids ih =>
      have hkeys : (call.ledger.members.map Card.id).Nodup := by
        simpa [Function.comp_def] using hids
      have hkeysub : (id :: ids).Sublist (call.ledger.members.map Card.id) := by
        simpa [Function.comp_def] using hsub
      have hrest : ids.Sublist ((call.leave name id).peers.map Peer.id) := by
        have hpeers : (call.leave name id).peers.map Peer.id =
            (call.peers.map Peer.id).filter fun id' => id' ≠ id := by
          have hmap : (call.leave name id).peers.map Peer.id =
              ((call.leave name id).ledger.members).map Card.id := by simp
          rw [hmap, leave_ledger name hids]
          simp only [Ledger.leave, Ledger.staying, ledger_members, List.filter_map, List.map_map,
            ne_eq, decide_not]
          rfl
        have hnot : id ∉ ids := (List.nodup_cons.mp (hsub.nodup hids)).1
        have hsame : ids.filter (fun id' => id' ≠ id) = ids :=
          List.filter_eq_self.mpr fun id' hmem => by
            simpa using fun he : id' = id => hnot (he ▸ hmem)
        rw [hpeers, ← hsame]
        exact ((List.sublist_cons_self id ids).trans hsub).filter _
      rw [List.foldl_cons, ih (leave_ids_nodup hids id) hrest, leave_ledger name hids,
        Ledger.leave_cons hkeys hkeysub]

theorem mem_dead_iff {call : Call S} (hids : (call.peers.map Peer.id).Nodup) {now : Instant}
    {peer : Peer S} (hpeer : peer ∈ call.peers) :
    peer.id ∈ call.dead now ↔ Engine.isDead now peer = true := by
  constructor
  · intro hmem
    obtain ⟨other, hother, hid⟩ := List.mem_map.mp hmem
    obtain ⟨hother, hdead⟩ := List.mem_filter.mp hother
    rwa [List.eq_of_map_eq hids hother hpeer hid] at hdead
  · intro hdead
    exact List.mem_map_of_mem (List.mem_filter.mpr ⟨hpeer, hdead⟩)

theorem reap_ledger {call : Call S} (hids : (call.peers.map Peer.id).Nodup) (now : Instant) :
    (call.reap name now).ledger = call.ledger.leave name fun id => id ∈ call.dead now :=
  foldl_leave_ledger hids (List.filter_sublist.map _)

/-! ### The other events -/

theorem setState_ledger {call : Call S} (hids : (call.peers.map Peer.id).Nodup) (id : PeerId)
    (muted screen : Option Bool) :
    (call.setState name id muted screen).ledger = call.ledger.setState name id muted screen := by
  unfold setState Ledger.setState
  cases hroom : call.room with
  | none => simp [peers_of_none hroom]
  | some room =>
      rw [peers_of_room hroom] at hids
      have hfind : call.ledger.members.find? (fun card => card.id = id) =
          (room.peers.find? fun peer => peer.id = id).map Peer.card := by
        rw [ledger_members, peers_of_room hroom, List.find?_map]
        rfl
      rw [hfind]
      dsimp only
      cases room.peers.find? (fun peer => peer.id = id) with
      | none => rfl
      | some peer =>
          have hcards : ((room.updatePeer id fun other =>
                { other with muted := muted.getD peer.muted,
                             screen := screen.getD peer.screen }).broadcast
                (.peerState id.asString (muted.getD peer.muted) (screen.getD peer.screen))).cards =
              room.cards.map fun card => if card.id = id then
                { card with muted := muted.getD peer.muted, screen := screen.getD peer.screen }
                else card := by
            rw [Room.broadcast_cards, Room.cards, Room.updatePeer_peers hids]
            simp only [Room.cards, List.map_map]
            refine List.map_congr_left fun other _ => ?_
            by_cases he : other.id = id <;> simp [he, Peer.card]
          have hmembers : (room.cards.map fun card => if card.id = id then
                { card with muted := muted.getD peer.muted, screen := screen.getD peer.screen }
                else card) = call.ledger.members.map fun card => if card.id = id then
                { card with muted := muted.getD peer.muted, screen := screen.getD peer.screen }
                else card := by
            rw [ledger_members, peers_of_room hroom, Room.cards]
          have hscreen : peer.card.screen = peer.screen := rfl
          simp only [Option.map_some, hscreen]
          by_cases hsame : screen.getD peer.screen = peer.screen
          · rw [if_pos hsame, if_pos hsame]
            exact Ledger.ext (hcards.trans hmembers) (by simp) rfl
          · rw [if_neg hsame, if_neg hsame]
            exact Ledger.ext (hcards.trans hmembers) rfl rfl

theorem reportConnections_ledger {call : Call S} (hids : (call.peers.map Peer.id).Nodup) :
    (call.reportConnections name).ledger = call.ledger.arrive name fun id =>
      id ∈ (call.peers.filter Peer.isArriving).map (·.id) := by
  have harriving : ∀ peer ∈ call.peers,
      peer.id ∈ (call.peers.filter Peer.isArriving).map Peer.id ↔ peer.isArriving = true := by
    intro peer hmem
    constructor
    · intro h
      obtain ⟨other, hother, he⟩ := List.mem_map.mp h
      obtain ⟨hother, harriving⟩ := List.mem_filter.mp hother
      rwa [← List.eq_of_map_eq hids hother hmem he]
    · intro h
      exact List.mem_map_of_mem (List.mem_filter.mpr ⟨hmem, h⟩)
  refine Ledger.ext ?_ ?_ rfl
  · have hpeers : (call.reportConnections name).peers = call.peers.map fun peer =>
        if peer.isArriving then { peer with reported := true } else peer := by
      cases hroom : call.room <;> simp [reportConnections, peers, hroom, Room.markReported]
    simp only [ledger_members, hpeers, Ledger.arrive, List.map_map]
    refine List.map_congr_left fun peer hmem => ?_
    cases h : peer.isArriving <;> simp [harriving peer hmem, h, Peer.card]
  · have hfilter : (call.ledger.arriving fun id =>
          id ∈ (call.peers.filter Peer.isArriving).map (·.id)) =
        (call.peers.filter Peer.isArriving).map Peer.card := by
      rw [Ledger.arriving, ledger_members, List.filter_map]
      congr 1
      refine List.filter_congr fun peer hmem => ?_
      have hreported : peer.card.reported = peer.reported := rfl
      simp only [Function.comp_apply, Peer.card_id, harriving peer hmem, hreported]
      simp [Peer.isArriving]
    rw [ledger_reports, Ledger.arrive, hfilter, List.map_map]
    rfl

theorem ledger_of_cards {call call' : Call S}
    (hpeers : call'.peers.map Peer.card = call.peers.map Peer.card)
    (hreports : call'.reports = call.reports) (hnext : call'.nextPeer = call.nextPeer) :
    call'.ledger = call.ledger :=
  Ledger.ext hpeers hreports hnext

theorem map_room_ledger {call : Call S} {f : Room S → Room S}
    (h : ∀ room, call.room = some room → (f room).cards = room.cards) :
    ledger { call with room := call.room.map f } = call.ledger := by
  refine ledger_of_cards ?_ rfl rfl
  cases hroom : call.room with
  | none => simp [peers, hroom]
  | some room => simpa [peers, hroom, Room.cards] using h room hroom

theorem answer_ledger (call : Call S) (id : PeerId) (sdp : String) :
    (call.answer id sdp).ledger = call.ledger := by
  unfold answer
  split
  · rfl
  · rename_i answer _
    exact map_room_ledger fun room _ =>
      List.map_updateFirst fun peer _ _ => (Peer.acceptAnswer_frame answer peer).1

theorem poll_ledger {call call' : Call S} (hids : (call.peers.map Peer.id).Nodup)
    {clock : ℕ → List Instant} (h : call.poll clock = some call') : call'.ledger = call.ledger := by
  unfold poll at h
  cases hroom : call.room with
  | none => simp_all
  | some room =>
      rw [hroom] at h
      obtain ⟨next, hnext, rfl⟩ := Option.map_eq_some_iff.mp h
      obtain ⟨opened, -, -, -, -, hall⟩ := Room.poll_pass (by simpa [hroom] using hids) hnext
      refine ledger_of_cards ?_ rfl rfl
      simpa [peers, hroom] using hall.map_eq fun _ _ hpassed => hpassed.card

/-- **Every step of a call is a step of its ledger, or none.** -/
theorem step_ledger {call call' : Call S} (hnum : call.Numbered) {event : CallEvent S}
    (h : call.step config name event = some call') :
    LedgerStep config name call event call' := by
  cases event with
  | join request seed =>
      cases h
      exact join_ledger hnum request seed
  | elsewhere =>
      cases h
      rfl
  | answer id sdp =>
      cases h
      exact answer_ledger call id sdp
  | setState id muted screen =>
      cases h
      exact congrArg some (setState_ledger hnum.ids id muted screen).symm
  | leave id =>
      cases h
      exact congrArg some (leave_ledger name hnum.ids id).symm
  | poll clock => exact poll_ledger hnum.ids h
  | reportConnections =>
      cases h
      exact congrArg some (reportConnections_ledger hnum.ids).symm
  | reap now =>
      cases h
      exact congrArg some (reap_ledger hnum.ids now).symm
  | syncSpeaking now =>
      cases h
      exact map_room_ledger fun room _ => Room.cards_eq_of_quiet (Room.syncSpeaking_quiet now room)
  | handleInput input =>
      cases h
      exact map_room_ledger fun room _ => Room.cards_eq_of_quiet (Room.handleInput_quiet input room)
  | advanceTime now =>
      cases h
      exact map_room_ledger fun room _ => Room.cards_eq_of_quiet (Room.advanceTime_quiet now room)

/-- Whether an event of the call can take an id. -/
def CallEvent.isJoin : CallEvent S → Bool
  | .join _ _ | .elsewhere => true
  | _ => false

theorem step_nextPeer {call call' : Call S} (hnum : call.Numbered) {event : CallEvent S}
    (hstep : call.step config name event = some call') :
    call'.nextPeer ≤ call.nextPeer + if CallEvent.isJoin event then 1 else 0 := by
  have h := step_ledger hnum hstep
  unfold LedgerStep at h
  split at h
  · exact (congrArg Ledger.nextPeer h).le.trans (Nat.le_add_right _ _)
  · rename_i ev hev
    have hnext : call'.nextPeer = call.nextPeer + if Ledger.takesId ev then 1 else 0 :=
      Ledger.step_nextPeer h
    rw [hnext]
    cases event with
    | join | elsewhere => simp [CallEvent.isJoin]; split <;> simp
    | answer | poll | syncSpeaking | handleInput | advanceTime => cases hev
    | setState | leave | reap | reportConnections =>
        cases hev
        rfl

/-- No step takes an id back. -/
theorem nextPeer_le {call call' : Call S} (hnum : call.Numbered) {event : CallEvent S}
    (hstep : call.step config name event = some call') : call.nextPeer ≤ call'.nextPeer := by
  have h := step_ledger hnum hstep
  unfold LedgerStep at h
  split at h
  · exact (congrArg Ledger.nextPeer h).ge
  · have hnext : call'.nextPeer = call.nextPeer + _ := Ledger.step_nextPeer h
    omega

/-- Whoever is in the call after a step was in it before, or has just been admitted. -/
theorem step_mem {call call' : Call S} (hnum : call.Numbered) {event : CallEvent S}
    (hstep : call.step config name event = some call') :
    ∀ id ∈ call'.peers.map Peer.id, id ∈ call.peers.map Peer.id ∨
      ∃ request seed, event = .join request seed ∧ call.admits config request seed = true ∧
        id = ⟨call.nextPeer⟩ := by
  have hids : ∀ call : Call S, call.ledger.members.map Card.id = call.peers.map Peer.id :=
    fun call => by simp [ledger, Function.comp_def]
  have h := step_ledger hnum hstep
  unfold LedgerStep at h
  split at h
  · exact fun id hid => .inl (by rwa [← hids, ← h, hids])
  · rename_i ev hev
    intro id hid
    rw [← hids] at hid ⊢
    refine (Ledger.step_mem h id hid).imp_right ?_
    rintro ⟨⟨userId, fullName, avatarUrl, rfl⟩, rfl⟩
    cases event with
    | join request seed =>
        cases hadmits : call.admits config request seed with
        | true => exact ⟨request, seed, rfl, hadmits, rfl⟩
        | false =>
            simp only [ledgerEvent, hadmits, Bool.false_eq_true, if_false] at hev
            split at hev <;> cases hev
    | answer | poll | syncSpeaking | handleInput | advanceTime => cases hev
    | elsewhere | setState | leave | reap | reportConnections => cases hev

/-- A guard on the events of the ledger, as a guard on those of the call. -/
def Guarded (config : Config) (ok : Ledger → LedgerEvent → Prop) (call : Call S)
    (event : CallEvent S) : Prop :=
  ∀ ev, call.ledgerEvent config event = some ev → ok call.ledger ev

theorem refines_ledger (config : Config) (name : String)
    (ok : Ledger → LedgerEvent → Prop) :
    (machine S config name).Refines (Guarded config ok)
      (Ledger.machine config.maxRoomPeers name) ok ledger where
  init := by
    rintro call rfl
    rfl
  step call event call' _ hledger hok hstep := by
    have hnum := numbered_of_ledger (Ledger.reachable_wellFormed hledger)
    have h := step_ledger hnum hstep
    unfold LedgerStep at h
    split at h
    · exact .inl h
    · rename_i ev hev
      exact .inr ⟨ev, hok ev hev, h⟩

/-- What holds of every call: its ledger is well-formed. -/
theorem reachable_wellFormed {ok : Call S → CallEvent S → Prop} {call : Call S}
    (h : (machine S config name).ReachableVia ok call) :
    call.ledger.WellFormed config.maxRoomPeers :=
  Ledger.reachable_wellFormed ((refines_ledger config name fun _ _ => True).reachable
    (h.mono fun _ _ _ _ _ => trivial))

theorem reachable_numbered {ok : Call S → CallEvent S → Prop} {call : Call S}
    (h : (machine S config name).ReachableVia ok call) : call.Numbered :=
  numbered_of_ledger (reachable_wellFormed h)

end Call

end FerriteSfu
