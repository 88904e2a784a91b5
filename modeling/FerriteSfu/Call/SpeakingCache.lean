import FerriteSfu.Call.Speaking
import FerriteSfu.Lib.Broadcasts

/-!
The set of speakers a room keeps, and what its members are told of it.

What happened to a room in a step can be read off the call before and after it:
whether it was opened, who is no longer there, and what a member has heard that
it had not heard before.
-/

namespace FerriteSfu

variable {S : Str0m} {config : Config} {name : String}

open Lib (News LastTold)

/-- The list of a `Speaking` message. -/
def ServerMsg.speakers : ServerMsg → Option (List String)
  | .speaking peerIds => some peerIds
  | .joined _ _ _ _ | .offer _ _ | .peerJoined _ | .peerLeft _ | .peerState _ _ _ | .error _ _
  | .pong => none

/-- The lists of speakers among the messages, in order. -/
def spoken (out : List ServerMsg) : List (List String) := out.filterMap ServerMsg.speakers

theorem spoken_push (out : List ServerMsg) (message : ServerMsg) :
    spoken (out ++ [message]) = spoken out ++ message.speakers.toList := by
  rw [spoken, List.filterMap_append, List.filterMap_cons_toList]
  simp [spoken]

/-- The ids of the members, as they are broadcast. -/
def Room.idNames (room : Room S) : List String := room.ids.map PeerId.asString

theorem Room.mem_idNames {room : Room S} {id : String} :
    id ∈ room.idNames ↔ ∃ peer ∈ room.peers, peer.id.asString = id := by
  simp [idNames, ids]

theorem Room.remove_idNames {room room' : Room S} {id : PeerId} {peer : Peer S}
    (hids : room.ids.Nodup) (h : room.remove id = some (peer, room')) :
    room'.idNames = room.idNames.filter fun entry => entry ≠ id.asString := by
  rw [idNames, idNames, remove_ids hids h, List.filter_map]
  congr 1
  exact List.filter_congr fun other _ => by simp

theorem Room.admit_idNames {room : Room S} {peer : Peer S} (hids : room.ids.Nodup)
    (hnew : peer.id ∉ room.ids) (callId answer : String) :
    (room.admitPeer peer callId answer).idNames = room.idNames ++ [peer.id.asString] := by
  have hcards := congrArg (List.map Card.id) (admit_cards hids hnew callId answer)
  rw [cards_map_id, List.map_append, cards_map_id] at hcards
  rw [idNames, hcards, List.map_append]
  rfl

namespace Call

/-- The set the room keeps. -/
def speaking (call : Call S) : List String := (call.room.map (·.speaking)).getD []

/-- The lists the peer `id` has been told so far. -/
def heard (id : PeerId) (call : Call S) : List (List String) :=
  ((call.peers.find? fun peer => peer.id = id).map fun peer => spoken peer.out).getD []

theorem heard_of_mem {call : Call S} (hids : (call.peers.map Peer.id).Nodup) {peer : Peer S}
    (hpeer : peer ∈ call.peers) : call.heard peer.id = spoken peer.out := by
  rw [heard, (List.find?_key_eq_some hids).mpr ⟨hpeer, rfl⟩]
  rfl

theorem heard_of_not_mem {call : Call S} {id : PeerId} (h : ∀ peer ∈ call.peers, peer.id ≠ id) :
    call.heard id = [] := by
  rw [heard, List.find?_eq_none.mpr (by simpa using h)]
  rfl

/-! ### One step -/

/-- Of the set the call kept, what is left with the members of `room`. -/
def remaining (before : Call S) (room : Room S) : List String :=
  before.speaking.filter fun id => id ∈ room.idNames

/-- Each member has heard the lists `told` since. -/
def Heard (before : Call S) (told : List (List String)) (room : Room S) : Prop :=
  ∀ peer ∈ room.peers, spoken peer.out = before.heard peer.id ++ told

/-- Nothing was broadcast, and the set was cut down to the members. -/
structure Unmoved (before : Call S) (room : Room S) : Prop where
  heard : Heard before [] room
  speaking : room.speaking = before.remaining room

/-- A list that differs from what was left of the old one was broadcast. -/
structure Moved (before : Call S) (ids : List String) (room : Room S) : Prop where
  heard : Heard before [ids] room
  speaking : room.speaking = ids
  differs : ids ≠ before.remaining room
  members : ∀ id ∈ ids, id ∈ room.idNames

/-- An operation that keeps the members and the set, and broadcasts no list. -/
theorem Unmoved.keep {before : Call S} {room room' : Room S} (h : Unmoved before room)
    (hids : room'.ids = room.ids) (hspeaking : room'.speaking = room.speaking)
    (hheard : Heard before [] room') : Unmoved before room' where
  heard := hheard
  speaking := by rw [hspeaking, h.speaking, remaining, remaining, Room.idNames, Room.idNames, hids]

/-- An operation on each of the members. -/
theorem Unmoved.each {before : Call S} {room room' : Room S} (h : Unmoved before room)
    (hspeaking : room'.speaking = room.speaking)
    (hpeers : List.Forall₂ (fun peer peer' : Peer S => peer'.id = peer.id ∧
      spoken peer'.out = spoken peer.out) room.peers room'.peers) : Unmoved before room' := by
  refine h.keep (hpeers.map_eq fun _ _ hpeer => hpeer.1) hspeaking fun peer' hpeer' => ?_
  obtain ⟨peer, hpeer, hid, hspoken⟩ := hpeers.exists_left hpeer'
  rw [hspoken, hid]
  exact h.heard peer hpeer

theorem Unmoved.map {before : Call S} {room room' : Room S} (h : Unmoved before room)
    (hspeaking : room'.speaking = room.speaking) {f : Peer S → Peer S}
    (hpeers : room'.peers = room.peers.map f)
    (hf : ∀ peer, (f peer).id = peer.id ∧ spoken (f peer).out = spoken peer.out) :
    Unmoved before room' := by
  refine h.each hspeaking ?_
  rw [hpeers, List.forall₂_map_right_iff]
  exact List.forall₂_same.mpr fun peer _ => hf peer

theorem spoken_send {message : ServerMsg} (h : message.speakers = none) (peer : Peer S) :
    spoken (peer.send message).out = spoken peer.out := by
  rw [Peer.send_out, spoken_push, h]
  simp

/-- Whoever leaves is struck from the set. -/
theorem Unmoved.remove {before : Call S} {room room' : Room S} (h : Unmoved before room)
    {id : PeerId} {peer : Peer S} (hids : room.ids.Nodup)
    (hremove : room.remove id = some (peer, room')) : Unmoved before room' := by
  have hnames := Room.remove_idNames hids hremove
  obtain ⟨-, rfl⟩ := Room.remove_eq_some hids hremove
  refine ⟨fun peer' hpeer' => ?_, ?_⟩
  · obtain ⟨old, hold, rfl⟩ := List.mem_map.mp hpeer'
    rw [spoken_send rfl]
    exact h.heard old (List.mem_of_mem_filter hold)
  · rw [remaining, hnames]
    simp [h.speaking, remaining, List.filter_filter, Bool.and_comm]

/-- A newcomer, whose id nobody had before, has heard nothing and is not in the set. -/
theorem Unmoved.enter {before : Call S} {room : Room S} (h : Unmoved before room)
    (hmembers : ∀ id ∈ before.speaking, ∃ peer ∈ before.peers, peer.id.asString = id)
    (hids : room.ids.Nodup) {newcomer : Peer S} (hnew : newcomer.id ∉ room.ids)
    (hnobody : ∀ peer ∈ before.peers, peer.id ≠ newcomer.id) (hout : newcomer.out = [])
    (callId answer : String) : Unmoved before (room.admitPeer newcomer callId answer) := by
  have hnames := Room.admit_idNames hids hnew callId answer
  rw [Room.admit_eq hids _ hnew] at hnames ⊢
  refine ⟨fun peer' hpeer' => ?_, ?_⟩
  · rcases List.mem_append.mp hpeer' with hold | hlast
    · obtain ⟨old, hmem, rfl⟩ := List.mem_map.mp hold
      rw [spoken_send rfl]
      exact h.heard old hmem
    · have hsilent : before.heard newcomer.id = [] := heard_of_not_mem hnobody
      have hwelcome : spoken (room.welcome newcomer callId answer).out = [] := by
        simp [Room.welcome, spoken, ServerMsg.speakers, hout]
      rw [List.mem_singleton.mp hlast, hwelcome, List.append_nil]
      exact hsilent.symm
  · rw [remaining, hnames]
    refine h.speaking.trans (List.filter_congr fun id hid => ?_)
    obtain ⟨peer, hpeer, rfl⟩ := hmembers id hid
    simpa using fun he => absurd he (hnobody peer hpeer)

/-- A tick broadcasts the list of those who are talking, unless it is the set. -/
theorem Unmoved.syncSpeaking {before : Call S} {room : Room S} (h : Unmoved before room)
    (now : Instant) : Unmoved before (room.syncSpeaking now) ∨
      ∃ ids, Moved before ids (room.syncSpeaking now) := by
  rcases Room.syncSpeaking_cases now room with ⟨-, heq⟩ | ⟨hdiffers, heq⟩ <;> rw [heq]
  · exact .inl h
  · refine .inr ⟨room.currentSpeakers now, fun peer' hpeer' => ?_, rfl, ?_, fun id hid => ?_⟩
    · obtain ⟨peer, hpeer, rfl⟩ := List.mem_map.mp hpeer'
      rw [Peer.send_out, spoken_push, h.heard peer hpeer]
      simp [ServerMsg.speakers]
    · have hnames : Room.idNames { room with
          peers := room.peers.map (Peer.send (.speaking (room.currentSpeakers now)))
          speaking := room.currentSpeakers now } = room.idNames := by
        simp [Room.idNames, Room.ids, Function.comp_def]
      rw [remaining, hnames]
      exact fun he => hdiffers (he.trans h.speaking.symm)
    · obtain ⟨peer, hpeer, -, -, rfl⟩ := Room.mem_currentSpeakers.mp hid
      exact Room.mem_idNames.mpr ⟨_, List.mem_map_of_mem hpeer, rfl⟩

/-- **What one step makes of the set of speakers.** -/
theorem unmoved_step (ok : Call S → CallEvent S → Prop) {before : Call S}
    (hnum : before.Numbered)
    (hmembers : ∀ id ∈ before.speaking, ∃ peer ∈ before.peers, peer.id.asString = id) :
    RoomStep config ok before.nextPeer (Unmoved before)
      fun _ room => Unmoved before room ∨ ∃ ids, Moved before ids room where
  start callId := by
    refine ⟨fun peer hpeer => (List.not_mem_nil hpeer).elim, ?_⟩
    simp [Room.new, remaining, Room.idNames, Room.ids]
  remove room room' id peer hids h hremove := h.remove hids hremove
  stay room h := .inl h
  later room h := .inl h
  admitPeer room request seed offer callId answer hids hfresh h := by
    have hnobody : ∀ peer ∈ before.peers, peer.id ≠ ⟨before.nextPeer⟩ := by
      intro peer hpeer he
      have hlt := hnum.fresh peer hpeer
      simp [he] at hlt
    exact .inl (h.enter hmembers hids (Room.next_not_mem hfresh) hnobody rfl callId answer)
  answer call room id sdp answer hnext hroom hnumbered hok hparse h := by
    have hids : room.ids.Nodup := by simpa [Room.ids, hroom] using hnumbered.ids
    refine .inl (h.map rfl (Room.updatePeer_peers hids id _) fun peer => ?_)
    split
    · obtain ⟨hcard, -, hout⟩ := Peer.acceptAnswer_frame answer peer
      exact ⟨Peer.id_eq_of_card hcard, congrArg spoken hout⟩
    · exact ⟨rfl, rfl⟩
  setState room id peer muted screen hids hpeer hid h := by
    refine .inl (h.map rfl (Room.updatePeer_broadcast_peers hids id _ _) fun other => ?_)
    rw [spoken_send rfl, Peer.send_id]
    split <;> exact ⟨rfl, rfl⟩
  poll room clock polled hids hfresh h hpolled := by
    obtain ⟨opened, -, -, -, hspeaking, hall⟩ := Room.poll_pass hids hpolled
    refine .inl (h.keep (Peer.passed_ids hall) hspeaking ?_)
    refine Room.poll_forall hpolled h.heard (fun heap now peer _ _ hpeer => ?_)
      (fun _ hpeer => hpeer) fun heap propagated peer _ hpeer => ?_
    · rw [Peer.id_eq_of_card (Peer.pollOutput_polled heap now peer).card]
      rcases Peer.pollOutput_out heap now peer with ⟨hout, -⟩ | ⟨-, sdp, hout, -⟩
      · rw [hout]
        exact hpeer
      · rw [hout, spoken_push]
        simpa [ServerMsg.speakers] using hpeer
    · rw [Peer.receive_out, Peer.receive_id]
      exact hpeer
  markReported room h := by
    refine .inl (h.map rfl rfl fun peer => ?_)
    split <;> exact ⟨rfl, rfl⟩
  syncSpeaking room now hids h := h.syncSpeaking now
  handleInput room input h := by
    refine .inl (h.each rfl ?_)
    exact List.forall₂_updateFirst (fun _ _ => ⟨rfl, rfl⟩) fun peer _ _ =>
      ⟨Peer.handleInput_id input peer, congrArg spoken (Peer.handleInput_out input peer)⟩
  advanceTime room now h := by
    refine .inl (h.map rfl rfl fun peer => ?_)
    exact ⟨Peer.handleInput_id _ peer, congrArg spoken (Peer.handleInput_out _ peer)⟩

/-! ### The chronicle of a room -/

/-- The members of `before` that are not members of `after`. -/
def gone (before after : Call S) : List PeerId :=
  (before.peers.map Peer.id).filter fun id => id ∉ after.peers.map Peer.id

/-- The lists the first member of `after` has been told since `before`. -/
def toldSince (before after : Call S) : List (List String) :=
  match after.peers with
  | [] => []
  | peer :: _ => (spoken peer.out).drop (before.heard peer.id).length

/-- What happened to the room between two states of it. -/
def chronicle (before after : Call S) : List (News String) :=
  (if before.room.isNone && after.room.isSome then [.opened] else []) ++
    ((before.gone after).map PeerId.asString).map .removed ++ (before.toldSince after).map .told

/-- What the room keeps, against its chronicle. -/
structure Chronicled (call : Call S) (log : List (News String)) : Prop where
  kept : call.room.isSome = true → call.speaking = (LastTold.of log).kept
  members : ∀ id ∈ call.speaking, ∃ peer ∈ call.peers, peer.id.asString = id
  /-- Whoever was removed since the last broadcast stays away. -/
  removed : ∀ id ∈ (LastTold.of log).removed, ∃ old : PeerId, id = old.asString ∧
    old.val < call.nextPeer ∧ old ∉ call.peers.map Peer.id
  noRepeats : Lib.NoRepeats none log

theorem speaking_of_room {call : Call S} {room : Room S} (h : call.room = some room) :
    call.speaking = room.speaking := by
  simp [speaking, h]

theorem toldSince_eq {before after : Call S} {room : Room S} {told : List (List String)}
    (hroom : after.room = some room) (hpeers : room.peers ≠ [])
    (h : Heard before told room) : before.toldSince after = told := by
  obtain ⟨peer, rest, heq⟩ := List.exists_cons_of_ne_nil hpeers
  have hfirst := h peer (by simp [heq])
  simp only [toldSince, peers_of_room hroom, heq, hfirst]
  exact List.drop_left

/-- A call that is as it was has nothing to tell. -/
theorem chronicle_self {call : Call S} (hids : (call.peers.map Peer.id).Nodup) :
    call.chronicle call = [] := by
  have hgone : call.gone call = [] := List.filter_eq_nil_iff.mpr (by simp)
  have htold : call.toldSince call = [] := by
    unfold toldSince
    split
    · rfl
    · rename_i peer rest heq
      rw [heard_of_mem hids (by simp [heq]), List.drop_length]
  rw [chronicle, hgone, htold]
  cases call.room <;> rfl

namespace Chronicled

variable {call call' : Call S} {log : List (News String)}

/-- Before the step. -/
theorem unmoved (h : Chronicled call log) (hnum : call.Numbered) :
    call.InRoom fun _ => Unmoved call := by
  intro room hroom
  have hpeers := peers_of_room hroom
  refine ⟨fun peer hpeer => ?_, ?_⟩
  · rw [heard_of_mem hnum.ids (hpeers ▸ hpeer), List.append_nil]
  · rw [remaining, speaking_of_room hroom]
    refine (List.filter_eq_self.mpr fun id hid => decide_eq_true ?_).symm
    obtain ⟨peer, hpeer, rfl⟩ := h.members id (speaking_of_room hroom ▸ hid)
    exact Room.mem_idNames.mpr ⟨peer, hpeers ▸ hpeer, rfl⟩

/-- Up to the broadcasts of the step: what the removals leave of the chronicle. -/
theorem removals (h : Chronicled call log) (hnum : call.Numbered)
    (hnext : call.nextPeer ≤ call'.nextPeer)
    (hback : ∀ old : PeerId, old.val < call.nextPeer → old ∉ call.peers.map Peer.id →
      old ∉ call'.peers.map Peer.id) :
    let log' := log ++ ((if call.room.isNone && call'.room.isSome then [.opened] else []) ++
      ((call.gone call').map PeerId.asString).map .removed)
    (∀ room', call'.room = some room' → (LastTold.of log').kept = call.remaining room') ∧
      (∀ id ∈ (LastTold.of log').removed, ∃ old : PeerId, id = old.asString ∧
        old.val < call'.nextPeer ∧ old ∉ call'.peers.map Peer.id) ∧
      Lib.NoRepeats none log' := by
  have hstill : ∀ id ∈ (LastTold.of log).removed, ∃ old : PeerId, id = old.asString ∧
      old.val < call'.nextPeer ∧ old ∉ call'.peers.map Peer.id := by
    intro id hid
    obtain ⟨old, rfl, hlt, hnot⟩ := h.removed id hid
    exact ⟨old, rfl, hlt.trans_le hnext, hback old hlt hnot⟩
  have hgone : ∀ id ∈ (call.gone call').map PeerId.asString, ∃ old : PeerId, id = old.asString ∧
      old.val < call'.nextPeer ∧ old ∉ call'.peers.map Peer.id := by
    intro id hid
    obtain ⟨old, hold, rfl⟩ := List.mem_map.mp hid
    obtain ⟨hmem, hnot⟩ := List.mem_filter.mp hold
    obtain ⟨peer, hpeer, rfl⟩ := List.mem_map.mp hmem
    exact ⟨peer.id, rfl, (hnum.fresh peer hpeer).trans_le hnext, of_decide_eq_true hnot⟩
  intro log'
  cases hroom : call.room with
  | none =>
      have hnobody : call.peers = [] := peers_of_none hroom
      have hlog' : log' = log ++ if call'.room.isSome then [.opened] else [] := by
        simp [log', hroom, gone, hnobody]
      rw [hlog']
      cases hroom' : call'.room with
      | none =>
          simp only [Option.isSome_none, Bool.false_eq_true, if_false, List.append_nil]
          exact ⟨fun room' he => (by cases he), hstill, h.noRepeats⟩
      | some room' =>
          simp only [Option.isSome_some, if_true, LastTold.of_append]
          refine ⟨fun room'' _ => ?_, fun id hid => ?_, h.noRepeats.append trivial⟩
          · simp [LastTold.next, LastTold.kept, remaining, speaking, hroom]
          · cases hid
  | some room =>
      have hlog' : log' = log ++ ((call.gone call').map PeerId.asString).map .removed := by
        simp [log', hroom]
      rw [hlog', LastTold.of_append, LastTold.foldl_removed]
      refine ⟨fun room' hroom' => ?_, fun id hid => ?_,
        h.noRepeats.append (Lib.noRepeats_removed _ _)⟩
      · rw [LastTold.kept_removed, ← h.kept (by simp [hroom]), remaining]
        refine List.filter_congr fun id hid => ?_
        obtain ⟨peer, hpeer, rfl⟩ := h.members id hid
        have hgone : peer.id.asString ∈ (call.gone call').map PeerId.asString ↔
            peer.id ∉ room'.ids := by
          rw [List.mem_map_of_injective PeerId.asString_injective, gone, List.mem_filter,
            peers_of_room hroom', decide_eq_true_eq]
          exact and_iff_right (List.mem_map_of_mem hpeer)
        have hname : peer.id.asString ∈ room'.idNames ↔ peer.id ∈ room'.ids :=
          List.mem_map_of_injective PeerId.asString_injective
        simp only [hgone, hname, not_not]
      · exact (List.mem_append.mp hid).elim (hstill id) (hgone id)

/-- **A step keeps what the room keeps in line with its chronicle.** -/
theorem step (h : Chronicled call log) (hnum : call.Numbered)
    (hpeople : ∀ room', call'.room = some room' → room'.peers ≠ []) {event : CallEvent S}
    (hstep : call.step config name event = some call') :
    Chronicled call' (log ++ call.chronicle call') ∧
      ∀ peer ∈ call'.peers, spoken peer.out = call.heard peer.id ++ call.toldSince call' := by
  have hrules : RoomStep config (fun _ _ => True) call.nextPeer (Unmoved call)
      fun _ room => Unmoved call room ∨ ∃ ids, Moved call ids room :=
    unmoved_step _ hnum h.members
  have hafter := hrules.step hnum (h.unmoved hnum) trivial hstep
  have hback : ∀ old : PeerId, old.val < call.nextPeer → old ∉ call.peers.map Peer.id →
      old ∉ call'.peers.map Peer.id := by
    intro old hlt hnot hmem
    rcases step_mem hnum hstep old hmem with hmem | ⟨_, _, -, -, rfl⟩
    · exact hnot hmem
    · exact Nat.lt_irrefl _ hlt
  obtain ⟨hkept, hremoved, hquiet⟩ := h.removals hnum (nextPeer_le hnum hstep) hback
  unfold chronicle
  rw [← List.append_assoc]
  generalize log ++ ((if call.room.isNone && call'.room.isSome then [.opened] else []) ++
    ((call.gone call').map PeerId.asString).map .removed) = log' at hkept hremoved hquiet ⊢
  cases hroom' : call'.room with
  | none =>
      have hnobody : call'.peers = [] := peers_of_none hroom'
      have htold : call.toldSince call' = [] := by simp [toldSince, hnobody]
      rw [htold, List.map_nil, List.append_nil]
      refine ⟨⟨fun hsome => ?_, fun id hid => ?_, hremoved, hquiet⟩, fun peer hpeer => ?_⟩
      · rw [hroom'] at hsome
        cases hsome
      · simp [speaking, hroom'] at hid
      · simp [hnobody] at hpeer
  | some room' =>
      have hpeers := peers_of_room hroom'
      have hspeaking := speaking_of_room hroom'
      rcases hafter room' hroom' with hunmoved | ⟨ids, hmoved⟩
      · have htold := toldSince_eq hroom' (hpeople room' hroom') hunmoved.heard
        rw [htold, List.map_nil, List.append_nil, hpeers]
        refine ⟨⟨fun _ => ?_, fun id hid => ?_, hremoved, hquiet⟩, hunmoved.heard⟩
        · rw [hspeaking, hunmoved.speaking, hkept room' hroom']
        · rw [hspeaking, hunmoved.speaking] at hid
          rw [hpeers]
          exact Room.mem_idNames.mp (of_decide_eq_true (List.mem_filter.mp hid).2)
      · have htold := toldSince_eq hroom' (hpeople room' hroom') hmoved.heard
        have hdiffers := hmoved.differs
        rw [← hkept room' hroom'] at hdiffers
        -- Whoever was removed is no member, and only members are on the list.
        have hnew : (LastTold.of log').list ≠ some ids := by
          refine LastTold.list_ne (fun id hid hmem => ?_) hdiffers
          obtain ⟨old, rfl, -, hnot⟩ := hremoved id hid
          obtain ⟨peer, hpeer, he⟩ := Room.mem_idNames.mp (hmoved.members _ hmem)
          rw [← PeerId.asString_injective he, hpeers] at hnot
          exact hnot (List.mem_map_of_mem hpeer)
        rw [htold, hpeers]
        refine ⟨⟨fun _ => ?_, fun id hid => ?_, fun id hid => ?_, ?_⟩, hmoved.heard⟩
        · rw [hspeaking, hmoved.speaking, LastTold.of_append]
          simp [LastTold.next, LastTold.kept]
        · rw [hspeaking, hmoved.speaking] at hid
          rw [hpeers]
          exact Room.mem_idNames.mp (hmoved.members id hid)
        · rw [LastTold.of_append] at hid
          cases hid
        · exact hquiet.append ⟨hnew, trivial⟩

end Chronicled

end Call

end FerriteSfu
