import FerriteSfu.Call.Members

/-!
The rule behind every statement about the room of a call.

`RoomInvariant` lists what the steps of a call do to its room, each operation
of the source once. A predicate on the room and the next id that survives all
of them holds of the room of every call.
-/

namespace FerriteSfu

variable {S : Str0m} {config : Config} {name : String}

/-- The next id is nobody's yet. -/
theorem Room.next_not_mem {room : Room S} {next : ℕ}
    (hfresh : ∀ peer ∈ room.peers, peer.id.val < next) : (⟨next⟩ : PeerId) ∉ room.ids := by
  intro hmem
  obtain ⟨other, hother, he⟩ := List.mem_map.mp hmem
  have hlt := hfresh other hother
  simp [he] at hlt

namespace Call

/-- What a predicate `P` on the next id and the room has to survive, when `Q` is
known of every room. Steps that a guard `ok` forbids need not be survived. -/
structure RoomInvariantGiven (config : Config) (ok : Call S → CallEvent S → Prop)
    (Q P : ℕ → Room S → Prop) : Prop where
  start : ∀ next callId, P next (Room.new callId)
  later : ∀ next room, P next room → P (next + 1) room
  remove : ∀ next (room room' : Room S) id peer, room.ids.Nodup → Q next room → P next room →
    room.remove id = some (peer, room') → P next room'
  admitPeer : ∀ (room : Room S) request seed offer next callId answer, room.ids.Nodup →
    (∀ peer ∈ room.peers, peer.id.val < next) → Q next room → P next room →
    P (next + 1) (room.admitPeer (admitted config request seed offer ⟨next⟩) callId answer)
  answer : ∀ (call : Call S) room id sdp answer, call.room = some room → call.Numbered →
    ok call (.answer id sdp) → S.answerFromSdpString sdp = .ok answer →
    Q call.nextPeer room → P call.nextPeer room →
    P call.nextPeer (room.updatePeer id fun peer => (peer.acceptAnswer answer).2)
  setState : ∀ next (room : Room S) id (peer : Peer S) (muted screen : Bool), room.ids.Nodup →
    peer ∈ room.peers → peer.id = id → Q next room → P next room →
    P next ((room.updatePeer id fun peer => { peer with muted := muted, screen := screen }).broadcast
      (.peerState id.asString muted screen))
  poll : ∀ (room : Room S) clock next polled, room.ids.Nodup →
    (∀ peer ∈ room.peers, peer.id.val < next) → Q next room → P next room →
    room.poll clock room.tracks 0 = some polled → P next polled.room
  markReported : ∀ next (room : Room S), Q next room → P next room → P next room.markReported
  syncSpeaking : ∀ next (room : Room S) now, room.ids.Nodup → Q next room → P next room →
    P next (room.syncSpeaking now)
  handleInput : ∀ next (room : Room S) input, Q next room → P next room →
    P next (room.handleInput input)
  advanceTime : ∀ next (room : Room S) now, Q next room → P next room →
    P next (room.advanceTime now)

abbrev RoomInvariant (config : Config) (ok : Call S → CallEvent S → Prop)
    (P : ℕ → Room S → Prop) : Prop :=
  RoomInvariantGiven config ok (fun _ _ => True) P

theorem RoomInvariantGiven.weaken {ok : Call S → CallEvent S → Prop}
    {Q Q' P : ℕ → Room S → Prop} (h : RoomInvariantGiven config ok Q P)
    (hQ : ∀ next room, Q' next room → Q next room) : RoomInvariantGiven config ok Q' P where
  start := h.start
  later := h.later
  remove next room room' id peer hids hq := h.remove next room room' id peer hids (hQ _ _ hq)
  admitPeer room request seed offer next callId answer hids hfresh hq :=
    h.admitPeer room request seed offer next callId answer hids hfresh (hQ _ _ hq)
  answer call room id sdp answer hroom hnum hok hparse hq :=
    h.answer call room id sdp answer hroom hnum hok hparse (hQ _ _ hq)
  setState next room id peer muted screen hids hpeer hid hq :=
    h.setState next room id peer muted screen hids hpeer hid (hQ _ _ hq)
  poll room clock next polled hids hfresh hq := h.poll room clock next polled hids hfresh (hQ _ _ hq)
  markReported next room hq := h.markReported next room (hQ _ _ hq)
  syncSpeaking next room now hids hq := h.syncSpeaking next room now hids (hQ _ _ hq)
  handleInput next room input hq := h.handleInput next room input (hQ _ _ hq)
  advanceTime next room now hq := h.advanceTime next room now (hQ _ _ hq)

/-- An invariant and another that relies on it. -/
theorem RoomInvariantGiven.and {ok : Call S → CallEvent S → Prop} {Q R P : ℕ → Room S → Prop}
    (hQ : RoomInvariantGiven config ok R Q)
    (hP : RoomInvariantGiven config ok (fun next room => R next room ∧ Q next room) P) :
    RoomInvariantGiven config ok R (fun next room => Q next room ∧ P next room) where
  start next callId := ⟨hQ.start next callId, hP.start next callId⟩
  later next room h := ⟨hQ.later next room h.1, hP.later next room h.2⟩
  remove next room room' id peer hids hr h hremove :=
    ⟨hQ.remove next room room' id peer hids hr h.1 hremove,
      hP.remove next room room' id peer hids ⟨hr, h.1⟩ h.2 hremove⟩
  admitPeer room request seed offer next callId answer hids hfresh hr h :=
    ⟨hQ.admitPeer room request seed offer next callId answer hids hfresh hr h.1,
      hP.admitPeer room request seed offer next callId answer hids hfresh ⟨hr, h.1⟩ h.2⟩
  answer call room id sdp answer hroom hnum hok hparse hr h :=
    ⟨hQ.answer call room id sdp answer hroom hnum hok hparse hr h.1,
      hP.answer call room id sdp answer hroom hnum hok hparse ⟨hr, h.1⟩ h.2⟩
  setState next room id peer muted screen hids hpeer hid hr h :=
    ⟨hQ.setState next room id peer muted screen hids hpeer hid hr h.1,
      hP.setState next room id peer muted screen hids hpeer hid ⟨hr, h.1⟩ h.2⟩
  poll room clock next polled hids hfresh hr h hpolled :=
    ⟨hQ.poll room clock next polled hids hfresh hr h.1 hpolled,
      hP.poll room clock next polled hids hfresh ⟨hr, h.1⟩ h.2 hpolled⟩
  markReported next room hr h :=
    ⟨hQ.markReported next room hr h.1, hP.markReported next room ⟨hr, h.1⟩ h.2⟩
  syncSpeaking next room now hids hr h :=
    ⟨hQ.syncSpeaking next room now hids hr h.1, hP.syncSpeaking next room now hids ⟨hr, h.1⟩ h.2⟩
  handleInput next room input hr h :=
    ⟨hQ.handleInput next room input hr h.1, hP.handleInput next room input ⟨hr, h.1⟩ h.2⟩
  advanceTime next room now hr h :=
    ⟨hQ.advanceTime next room now hr h.1, hP.advanceTime next room now ⟨hr, h.1⟩ h.2⟩

/-- The predicate holds of the room, if there is one. -/
def InRoom (P : ℕ → Room S → Prop) (call : Call S) : Prop :=
  ∀ room, call.room = some room → P call.nextPeer room

/-- What one step that polls nobody makes of the room: `P` holds before it and as
peers are removed, and `R` of what is left when no other operation follows, or of
what that operation makes of it. The next id before the step is `next`. -/
structure RoomStepUnpolled (config : Config) (ok : Call S → CallEvent S → Prop) (next : ℕ)
    (P : Room S → Prop) (R : ℕ → Room S → Prop) : Prop where
  start : ∀ callId, P (Room.new callId)
  remove : ∀ (room room' : Room S) id peer, room.ids.Nodup → P room →
    room.remove id = some (peer, room') → P room'
  stay : ∀ room, P room → R next room
  later : ∀ room, P room → R (next + 1) room
  admitPeer : ∀ (room : Room S) request seed offer callId answer, room.ids.Nodup →
    (∀ peer ∈ room.peers, peer.id.val < next) → P room →
    R (next + 1) (room.admitPeer (admitted config request seed offer ⟨next⟩) callId answer)
  answer : ∀ (call : Call S) room id sdp answer, call.nextPeer = next → call.room = some room →
    call.Numbered → ok call (.answer id sdp) → S.answerFromSdpString sdp = .ok answer → P room →
    R next (room.updatePeer id fun peer => (peer.acceptAnswer answer).2)
  setState : ∀ (room : Room S) id (peer : Peer S) (muted screen : Bool), room.ids.Nodup →
    peer ∈ room.peers → peer.id = id → P room →
    R next ((room.updatePeer id fun peer => { peer with muted := muted, screen := screen }).broadcast
      (.peerState id.asString muted screen))
  markReported : ∀ room : Room S, P room → R next room.markReported
  syncSpeaking : ∀ (room : Room S) now, room.ids.Nodup → P room → R next (room.syncSpeaking now)
  handleInput : ∀ (room : Room S) input, P room → R next (room.handleInput input)
  advanceTime : ∀ (room : Room S) now, P room → R next (room.advanceTime now)

/-- What one step makes of the room, polling included. -/
structure RoomStep (config : Config) (ok : Call S → CallEvent S → Prop) (next : ℕ)
    (P : Room S → Prop) (R : ℕ → Room S → Prop) : Prop
    extends RoomStepUnpolled config ok next P R where
  poll : ∀ (room : Room S) clock polled, room.ids.Nodup →
    (∀ peer ∈ room.peers, peer.id.val < next) → P room →
    room.poll clock room.tracks 0 = some polled → R next polled.room

/-- An invariant is a step from itself to itself. -/
theorem RoomInvariantGiven.toStep {ok : Call S → CallEvent S → Prop} {Q P : ℕ → Room S → Prop}
    (h : RoomInvariantGiven config ok Q P) {next : ℕ} (hknown : ∀ room, Q next room) :
    RoomStep config ok next (P next) P where
  start := h.start next
  remove room room' id peer hids := h.remove next room room' id peer hids (hknown room)
  stay _ hroom := hroom
  later := h.later next
  admitPeer room request seed offer callId answer hids hfresh :=
    h.admitPeer room request seed offer next callId answer hids hfresh (hknown room)
  answer call room id sdp answer hnext hroom hnum hok hparse hP := by
    subst hnext
    exact h.answer call room id sdp answer hroom hnum hok hparse (hknown room) hP
  setState room id peer muted screen hids hpeer hid :=
    h.setState next room id peer muted screen hids hpeer hid (hknown room)
  poll room clock polled hids hfresh := h.poll room clock next polled hids hfresh (hknown room)
  markReported room := h.markReported next room (hknown room)
  syncSpeaking room now hids := h.syncSpeaking next room now hids (hknown room)
  handleInput room input := h.handleInput next room input (hknown room)
  advanceTime room now := h.advanceTime next room now (hknown room)

namespace RoomStepUnpolled

variable {ok : Call S → CallEvent S → Prop} {P : Room S → Prop} {R : ℕ → Room S → Prop}

theorem join {call : Call S} (h : RoomStepUnpolled config ok call.nextPeer P R)
    (hnum : call.Numbered) (hcall : call.InRoom fun _ => P) (request : JoinRequest)
    (seed : S.Seed) : (call.join config request seed).InRoom R := by
  rcases call.join_cases config request seed with ⟨-, -, hjoin⟩ | ⟨-, -, hjoin⟩ |
    ⟨-, -, offer, answer, hjoin⟩
  · rw [hjoin]
    exact fun room hroom => h.stay room (hcall room hroom)
  · rw [hjoin]
    exact fun room hroom => h.later room (hcall room hroom)
  · rw [hjoin]
    intro room hroom
    have hlobby := lobby_peers request.claims.callId call
    have hids : (call.lobby request.claims.callId).ids.Nodup := by
      simpa [Room.ids, hlobby] using hnum.ids
    have hstart : P (call.lobby request.claims.callId) := by
      unfold lobby
      cases hold : call.room with
      | none => exact h.start _
      | some old => exact hcall old hold
    obtain ⟨hids', hretired, hfresh⟩ := Room.retire_induct
      (P := fun room => P room ∧ ∀ peer ∈ room.peers, peer.id.val < call.nextPeer)
      (fun room id peer room' hids hroom hremove =>
        ⟨h.remove _ _ _ _ hids hroom.1 hremove, fun other hmem => by
          obtain ⟨-, rfl⟩ := Room.remove_eq_some hids hremove
          obtain ⟨other', hother, rfl⟩ := List.mem_map.mp hmem
          exact hroom.2 other' (List.mem_of_mem_filter hother)⟩) hids
      ⟨hstart, by rw [hlobby]; exact hnum.fresh⟩
      (stale request.claims.sub (call.lobby request.claims.callId))
    obtain rfl := Option.some.inj hroom
    exact h.admitPeer _ request seed offer request.claims.callId answer hids' hfresh hretired

/-- Removals alone keep `P`. -/
theorem leave {call : Call S} (h : RoomStepUnpolled config ok call.nextPeer P R)
    (hids : (call.peers.map Peer.id).Nodup) (hcall : call.InRoom fun _ => P) (id : PeerId) :
    (call.leave name id).InRoom fun _ => P := by
  unfold Call.leave
  split
  · exact hcall
  · rename_i peer room' hremove
    obtain ⟨room, hroom, hsome⟩ := Option.bind_eq_some_iff.mp hremove
    rw [peers_of_room hroom] at hids
    intro left hleft
    dsimp only at hleft
    split at hleft
    · cases hleft
    · cases hleft
      exact h.remove _ _ _ _ hids (hcall room hroom) hsome

theorem foldl_leave {call : Call S} (h : RoomStepUnpolled config ok call.nextPeer P R)
    (hids : (call.peers.map Peer.id).Nodup) (hcall : call.InRoom fun _ => P) (ids : List PeerId) :
    (ids.foldl (fun call id => call.leave name id) call).InRoom R := by
  induction ids generalizing call with
  | nil => exact fun room hroom => h.stay room (hcall room hroom)
  | cons id ids ih =>
      have hnext : (call.leave name id).nextPeer = call.nextPeer := by
        unfold Call.leave
        split <;> rfl
      exact ih (hnext ▸ h) (leave_ids_nodup hids id) (h.leave hids hcall id)

theorem setStateOne {call : Call S} (h : RoomStepUnpolled config ok call.nextPeer P R)
    (hids : (call.peers.map Peer.id).Nodup) (hcall : call.InRoom fun _ => P) (id : PeerId)
    (muted screen : Option Bool) : (call.setState name id muted screen).InRoom R := by
  have hstay : call.InRoom R := fun room hroom => h.stay room (hcall room hroom)
  unfold Call.setState
  cases hroom : call.room with
  | none => exact hstay
  | some room =>
      rw [peers_of_room hroom] at hids
      dsimp only
      cases hfind : room.peers.find? (fun peer => peer.id = id) with
      | none => exact hstay
      | some peer =>
          obtain ⟨hpeer, hid⟩ := (List.find?_key_eq_some hids).mp hfind
          have hset := h.setState room id peer (muted.getD peer.muted)
            (screen.getD peer.screen) hids hpeer hid (hcall room hroom)
          dsimp only
          split
          all_goals
            intro next hnext
            obtain rfl := Option.some.inj hnext
            exact hset

/-- Steps that only touch the room, when there is one. -/
theorem map_room {call : Call S} {f : Room S → Room S}
    (hf : ∀ room, call.room = some room → R call.nextPeer (f room)) :
    InRoom R { call with room := call.room.map f } := by
  intro room' hroom'
  obtain ⟨room, hroom, rfl⟩ := Option.map_eq_some_iff.mp hroom'
  exact hf room hroom

theorem step {call call' : Call S} (h : RoomStepUnpolled config ok call.nextPeer P R)
    (hnum : call.Numbered) (hcall : call.InRoom fun _ => P) {event : CallEvent S}
    (hpolled : ∀ clock, event ≠ .poll clock) (hok : ok call event)
    (hstep : call.step config name event = some call') : call'.InRoom R := by
  have hids : ∀ room, call.room = some room → room.ids.Nodup :=
    fun room hroom => by simpa [Room.ids, hroom] using hnum.ids
  cases event with
  | join request seed =>
      cases hstep
      exact h.join hnum hcall request seed
  | elsewhere =>
      cases hstep
      exact fun room hroom => h.later room (hcall room hroom)
  | answer id sdp =>
      cases hstep
      unfold Call.answer
      split
      · exact fun room hroom => h.stay room (hcall room hroom)
      · rename_i answer hparse
        exact map_room fun room hroom =>
          h.answer call room id sdp answer rfl hroom hnum hok hparse (hcall room hroom)
  | setState id muted screen =>
      cases hstep
      exact h.setStateOne hnum.ids hcall id muted screen
  | leave id =>
      cases hstep
      exact h.foldl_leave hnum.ids hcall [id]
  | poll clock => exact absurd rfl (hpolled clock)
  | reportConnections =>
      cases hstep
      exact map_room fun room hroom => h.markReported room (hcall room hroom)
  | reap now =>
      cases hstep
      exact h.foldl_leave hnum.ids hcall _
  | syncSpeaking now =>
      cases hstep
      exact map_room fun room hroom => h.syncSpeaking room now (hids room hroom) (hcall room hroom)
  | handleInput input =>
      cases hstep
      exact map_room fun room hroom => h.handleInput room input (hcall room hroom)
  | advanceTime now =>
      cases hstep
      exact map_room fun room hroom => h.advanceTime room now (hcall room hroom)

end RoomStepUnpolled

theorem RoomStep.step {ok : Call S → CallEvent S → Prop} {P : Room S → Prop}
    {R : ℕ → Room S → Prop} {call call' : Call S} (h : RoomStep config ok call.nextPeer P R)
    (hnum : call.Numbered) (hcall : call.InRoom fun _ => P) {event : CallEvent S}
    (hok : ok call event) (hstep : call.step config name event = some call') : call'.InRoom R := by
  cases event with
  | poll clock =>
      simp only [Call.step, Call.poll] at hstep
      cases hroom : call.room with
      | none =>
          rw [hroom] at hstep
          cases hstep
          exact fun room hroom => h.stay room (hcall room hroom)
      | some room =>
          rw [hroom] at hstep
          obtain ⟨polled, hpolled, rfl⟩ := Option.map_eq_some_iff.mp hstep
          have hids : room.ids.Nodup := by simpa [Room.ids, hroom] using hnum.ids
          intro next hnext
          obtain rfl := Option.some.inj hnext
          exact h.poll room clock polled hids (by simpa [hroom] using hnum.fresh)
            (hcall room hroom) hpolled
  | join | elsewhere | answer | setState | leave | reportConnections | reap | syncSpeaking
  | handleInput | advanceTime =>
      exact h.toRoomStepUnpolled.step hnum hcall (fun _ he => by cases he) hok hstep

/-- One step, when `Q` is known of every room there may be. -/
theorem RoomInvariantGiven.step {ok : Call S → CallEvent S → Prop} {Q P : ℕ → Room S → Prop}
    (h : RoomInvariantGiven config ok Q P) {call call' : Call S} (hnum : call.Numbered)
    (hknown : ∀ room, Q call.nextPeer room) (hcall : call.InRoom P) {event : CallEvent S}
    (hok : ok call event) (hstep : call.step config name event = some call') : call'.InRoom P :=
  (h.toStep hknown).step hnum hcall hok hstep

/-- **A predicate that survives every operation holds of the room of every call.** -/
theorem RoomInvariant.holds {ok : Call S → CallEvent S → Prop} {P : ℕ → Room S → Prop}
    (h : RoomInvariant config ok P) {call : Call S}
    (hcall : (machine S config name).ReachableVia ok call) : call.InRoom P := by
  refine Lib.Machine.Invariant.holds (I := InRoom P) ⟨?_, ?_⟩ hcall
  · rintro call rfl room hroom
    cases hroom
  · intro call event call' hreach hP hok hstep
    exact h.step (reachable_numbered hreach) (fun _ => trivial) hP hok hstep

end Call

end FerriteSfu
