import FerriteSfu.Call.Rules
import FerriteSfu.Sfu.Log
import FerriteSfu.Lib.Since

/-!
The ICE states of a peer, and the reading it keeps of them.

The log of a peer knows the states, in order, but not when they came. That is
read off the iteration of the poll that reported them.
-/

namespace FerriteSfu

variable {S : Str0m} {config : Config} {name : String}

open Lib (OpenSince nextOpen)

namespace IceConnectionState

def isDisconnect : IceConnectionState → Bool
  | .disconnected => true
  | .new | .checking | .connected | .completed => false

def isRecovery : IceConnectionState → Bool
  | .connected | .completed => true
  | .new | .checking | .disconnected => false

theorem isRecovery_of_isDisconnect (state : IceConnectionState) (h : state.isDisconnect = true) :
    state.isRecovery = false := by
  cases state <;> first | rfl | cases h

theorem isDisconnect_iff {state : IceConnectionState} :
    state.isDisconnect = true ↔ state = .disconnected := by
  cases state <;> simp [isDisconnect]

theorem isRecovery_eq_false {state : IceConnectionState} :
    state.isRecovery = false ↔ state ≠ .connected ∧ state ≠ .completed := by
  cases state <;> simp [isRecovery]

end IceConnectionState

open IceConnectionState (isDisconnect isRecovery)

/-- The ICE state an entry reports. -/
def Op.iceState : Op S → Option IceConnectionState
  | .polled (.event (.iceConnectionStateChange state)) => some state
  | _ => none

/-- ICE states, with what the clock showed when they were reported. -/
abbrev IceLog := List (Instant × IceConnectionState)

/-- A disconnect that has not been recovered from. -/
theorem IceLog.openSince_iff {log : IceLog} {P : Instant → Prop} :
    (∃ t, OpenSince isDisconnect isRecovery log t ∧ P t) ↔
      ∃ before t after, log = before ++ (t, .disconnected) :: after ∧ P t ∧
        ∀ change ∈ after, change.2 ≠ .connected ∧ change.2 ≠ .completed := by
  constructor
  · rintro ⟨t, ⟨before, state, after, rfl, hstate, hafter⟩, ht⟩
    obtain rfl := IceConnectionState.isDisconnect_iff.mp hstate
    exact ⟨before, t, after, rfl, ht, fun change hchange =>
      IceConnectionState.isRecovery_eq_false.mp (hafter change hchange)⟩
  · rintro ⟨before, t, after, rfl, ht, hafter⟩
    exact ⟨t, ⟨before, .disconnected, after, rfl, rfl, fun change hchange =>
      IceConnectionState.isRecovery_eq_false.mpr (hafter change hchange)⟩, ht⟩

namespace Peer

/-- The ICE states the peer has gone through, in order. -/
def iceStates (peer : Peer S) : List IceConnectionState := peer.ops.filterMap Op.iceState

/-- The ICE states that are in the log of `peer'` but not yet in that of `peer`. -/
def iceNews (peer peer' : Peer S) : List IceConnectionState :=
  peer'.iceStates.drop peer.iceStates.length

/-- The ICE states reported while the peer is polled to the end. -/
def iceChanges : List Instant → Heap → Peer S → IceLog
  | [], _, _ => []
  | now :: clock, heap, peer =>
      if !S.isAlive peer.rtc then []
      else
        match peer.pollOutput heap now with
        | (.timeout _, polled, _) => (peer.iceNews polled).map fun state => (now, state)
        | (_, polled, heap) =>
            ((peer.iceNews polled).map fun state => (now, state)) ++ iceChanges clock heap polled

/-! ### What an operation makes of the reading -/

/-- `peer'` is `peer` once the ICE states `log` were reported. -/
structure IceMoved (log : IceLog) (peer peer' : Peer S) : Prop where
  id : peer'.id = peer.id
  since : peer'.disconnectedSince =
    log.foldl (nextOpen isDisconnect isRecovery) peer.disconnectedSince
  states : peer'.iceStates = peer.iceStates ++ log.map Prod.snd

theorem IceMoved.trans {log log' : IceLog} {peer peer' peer'' : Peer S}
    (h : IceMoved log peer peer') (h' : IceMoved log' peer' peer'') :
    IceMoved (log ++ log') peer peer'' where
  id := h'.id.trans h.id
  since := by rw [h'.since, h.since, List.foldl_append]
  states := by rw [h'.states, h.states, List.map_append, List.append_assoc]

theorem IceMoved.of_ops {peer peer' : Peer S} {ops : List (Op S)} (hid : peer'.id = peer.id)
    (hsince : peer'.disconnectedSince = peer.disconnectedSince)
    (hops : peer'.ops = peer.ops ++ ops) (hquiet : ∀ op ∈ ops, op.iceState = none) :
    IceMoved [] peer peer' where
  id := hid
  since := hsince
  states := by
    rw [iceStates, hops, List.filterMap_append, List.filterMap_eq_nil_iff.mpr hquiet]
    rfl

theorem IceMoved.refl (peer : Peer S) : IceMoved [] peer peer :=
  .of_ops rfl rfl (List.append_nil _).symm (by simp)

theorem IceMoved.iceNews {log : IceLog} {peer peer' : Peer S} (h : IceMoved log peer peer') :
    peer.iceNews peer' = log.map Prod.snd := by
  rw [Peer.iceNews, h.states]
  exact List.drop_left

theorem iceMoved_send (message : ServerMsg) (peer : Peer S) :
    IceMoved [] peer (peer.send message) :=
  .of_ops rfl rfl (List.append_nil _).symm (by simp)

theorem iceMoved_handleInput (input : S.Input) (peer : Peer S) :
    IceMoved [] peer (peer.handleInput input) := by
  rw [handleInput_eq]
  exact .of_ops rfl rfl (List.append_nil _).symm (by simp)

theorem iceMoved_acceptAnswer (answer : S.SdpAnswer) (peer : Peer S) :
    IceMoved [] peer (peer.acceptAnswer answer).2 := by
  rcases acceptAnswer_cases answer peer with ⟨-, heq⟩ | ⟨_, -, -, heq⟩ | ⟨_, -, -, heq⟩ <;> rw [heq]
  all_goals exact .of_ops rfl rfl (List.append_nil _).symm (by simp)

theorem iceMoved_receive (heap : Heap) (propagated : Propagated S) (peer : Peer S) :
    IceMoved [] peer (peer.receive heap propagated) := by
  obtain ⟨ops, hops, hreceives⟩ := receive_ops heap propagated peer
  refine .of_ops (receive_id heap propagated peer) ?_ hops fun op hop => ?_
  · cases propagated with
    | noop | timeout | trackOpen => rfl
    | media origin data =>
        simp only [receive, forward]
        repeat' split
        all_goals rfl
    | keyframeRequest id request publisher midIn =>
        simp only [receive, serveKeyframeRequest]
        repeat' split
        all_goals rfl
  · cases hreceives op hop <;> rfl

theorem iceMoved_receiveAll (heap : Heap) (queue : List (Propagated S)) (peer : Peer S) :
    IceMoved [] peer (peer.receiveAll heap queue) := by
  unfold receiveAll
  generalize peer.fromOthers queue = queue
  induction queue generalizing peer with
  | nil => exact .refl peer
  | cons propagated queue ih => exact (iceMoved_receive heap propagated peer).trans (ih _)

theorem iceMoved_negotiateIfNeeded (heap : Heap) (peer : Peer S) :
    IceMoved [] peer (peer.negotiateIfNeeded heap).2 := by
  obtain ⟨ops, hops, hnegotiation⟩ := negotiateIfNeeded_ops heap peer
  refine .of_ops (id_eq_of_card (negotiateIfNeeded_quiet heap peer).card) ?_ hops fun op hop => ?_
  · rcases negotiateIfNeeded_cases heap peer with ⟨-, heq⟩ | ⟨-, -, heq⟩ | ⟨-, -, -, heq⟩ |
      ⟨-, -, _, _, -, heq⟩ <;> rw [heq] <;> rfl
  · cases hnegotiation op hop <;> rfl

theorem handleMediaDataIn_since (now : Instant) (data : S.Media) (peer : Peer S) :
    (peer.handleMediaDataIn now data).2.disconnectedSince = peer.disconnectedSince := by
  unfold handleMediaDataIn
  dsimp only
  split
  · unfold noteAudioLevel
    dsimp only
    repeat' split
    all_goals rfl
  · split
    · unfold requestKeyframeThrottled
      repeat' split
      all_goals rfl
    · rfl
  · rfl

/-- What is reported is handled at once, with the reading of the iteration. -/
theorem iceMoved_handleOutput (heap : Heap) (now : Instant) (output : S.Output) (peer : Peer S) :
    IceMoved ((Op.polled output).iceState.toList.map fun state => (now, state)) peer
      ((peer.record (.polled output)).handleOutput heap now output).2.1 := by
  have hquiet : ∀ (peer' : Peer S) (ops : List (Op S)), (Op.polled output).iceState = none →
      peer'.id = peer.id → peer'.disconnectedSince = peer.disconnectedSince →
      peer'.ops = peer.ops ++ .polled output :: ops → (∀ op ∈ ops, op.iceState = none) →
      IceMoved [] peer peer' := by
    intro peer' ops hnone hid hsince hops hall
    refine .of_ops hid hsince hops fun op hop => ?_
    rcases List.mem_cons.mp hop with rfl | hop
    · exact hnone
    · exact hall op hop
  cases output with
  | transmit | timeout => exact hquiet _ [] rfl rfl rfl rfl (by simp)
  | event event =>
      cases event with
      | iceConnectionStateChange state =>
          refine ⟨?_, ?_, ?_⟩
          · cases state <;> rfl
          · cases state <;> rfl
          · cases state <;> exact List.filterMap_append
      | mediaAdded | keyframeRequest | other => exact hquiet _ [] rfl rfl rfl rfl (by simp)
      | mediaData data =>
          have hhandled := handleMediaDataIn_handled now data
            (peer.record (.polled (.event (.mediaData data))))
          obtain ⟨requests, hops, hrequests⟩ := hhandled.ops
          refine hquiet _ requests rfl hhandled.id (handleMediaDataIn_since now data _) ?_ ?_
          · refine hops.trans ?_
            simp [record]
          · intro op hop
            obtain ⟨mid, kind, rfl⟩ := hrequests op hop
            rfl

/-- One iteration. -/
theorem iceMoved_pollOutput (heap : Heap) (now : Instant) (peer : Peer S) :
    IceMoved ((peer.iceNews (peer.pollOutput heap now).2.1).map fun state => (now, state)) peer
      (peer.pollOutput heap now).2.1 := by
  have hsome : ∃ states : List IceConnectionState,
      IceMoved (states.map fun state => (now, state)) peer (peer.pollOutput heap now).2.1 := by
    have hneg := iceMoved_negotiateIfNeeded heap peer
    rcases pollOutput_cases heap now peer with ⟨-, heq⟩ | ⟨-, -, heq⟩ |
      ⟨-, -, output, rtc, -, heq⟩ | ⟨-, -, error, rtc, -, heq⟩
    · exact ⟨[], heq ▸ .refl peer⟩
    · exact ⟨[], heq ▸ hneg⟩
    · refine ⟨(Op.polled output).iceState.toList, ?_⟩
      rw [heq]
      have hrtc : IceMoved [] (peer.negotiateIfNeeded heap).2
          { (peer.negotiateIfNeeded heap).2 with rtc := rtc } :=
        .of_ops rfl rfl (List.append_nil _).symm (by simp)
      exact (hneg.trans hrtc).trans (iceMoved_handleOutput heap now output _)
    · exact ⟨[], heq ▸ hneg.trans (.of_ops rfl rfl (List.append_nil _).symm (by simp))⟩
  obtain ⟨states, hmoved⟩ := hsome
  have hnews : peer.iceNews (peer.pollOutput heap now).2.1 = states := by
    rw [hmoved.iceNews, List.map_map]
    exact List.map_id _
  rw [hnews]
  exact hmoved

/-- **Polled to the end, a peer has handled each state it reported, in order.** -/
theorem iceMoved_drain {clock : List Instant} {heap : Heap} {peer : Peer S} {drained : Drained S}
    (h : peer.drain clock heap = some drained) :
    IceMoved (peer.iceChanges clock heap) peer drained.peer := by
  refine drain_rule (P := fun clock heap peer drained =>
    IceMoved (peer.iceChanges clock heap) peer drained.peer) ?dead ?asleep ?goesOn h
  case dead =>
    intro clock heap peer hdead
    have hnone : peer.iceChanges clock heap = [] := by
      cases clock <;> simp [iceChanges, hdead]
    exact hnone ▸ .refl peer
  case asleep =>
    intro now clock heap heap' wake peer peer' halive hp
    have hpolled := iceMoved_pollOutput heap now peer
    rw [iceChanges]
    simp only [halive, hp] at hpolled ⊢
    exact hpolled
  case goesOn =>
    intro now clock heap heap' propagated peer peer' rest halive hwake hp _ ih
    have hpolled := iceMoved_pollOutput heap now peer
    rw [iceChanges]
    simp only [halive, hp] at hpolled ⊢
    cases propagated with
    | timeout wake => exact absurd rfl (hwake wake)
    | noop | trackOpen | media | keyframeRequest => exact hpolled.trans ih

end Peer

/-! ### A pass over a room -/

/-- The ICE states the peer `id` reports in a pass over the peers of its room. -/
def iceChangesOf (id : PeerId) : (ℕ → List Instant) → Heap → List (Peer S) → IceLog
  | _, _, [] => []
  | clock, heap, peer :: peers =>
      if peer.id = id then peer.iceChanges (clock 0) heap
      else
        ((peer.drain (clock 0) heap).map fun drained =>
          iceChangesOf id (fun i => clock (i + 1)) drained.heap peers).getD []

theorem drainPeers_iceMoved {clock : ℕ → List Instant} {heap : Heap} {timeout : Instant}
    {peers : List (Peer S)} {drained : DrainedPeers S} (hids : (peers.map Peer.id).Nodup)
    (h : drainPeers clock heap timeout peers = some drained) :
    List.Forall₂ (fun peer peer' =>
      Peer.IceMoved (iceChangesOf peer.id clock heap peers) peer peer') peers drained.peers := by
  induction peers generalizing clock heap timeout drained with
  | nil =>
      cases h
      exact .nil
  | cons peer peers ih =>
      obtain ⟨hnot, hnodup⟩ := List.nodup_cons.mp hids
      obtain ⟨first, rest, hfirst, hrest, rfl⟩ := drainPeers_cons h
      have hothers : ∀ other ∈ peers, peer.id ≠ other.id :=
        fun other hother he => hnot (he ▸ List.mem_map_of_mem hother)
      refine .cons ?_ (((List.forall₂_and_left _ _).mpr ⟨hothers, ih hnodup hrest⟩).imp ?_)
      · rw [iceChangesOf, if_pos rfl]
        exact Peer.iceMoved_drain hfirst
      · rintro other other' ⟨hne, hmoved⟩
        rw [iceChangesOf, if_neg hne, hfirst]
        exact hmoved

theorem Room.poll_iceMoved {clock : ℕ → List Instant} {heap : Heap} {timeout : Instant}
    {room : Room S} {polled : PolledRoom S} (hids : room.ids.Nodup)
    (h : room.poll clock heap timeout = some polled) :
    List.Forall₂ (fun peer peer' =>
      Peer.IceMoved (iceChangesOf peer.id clock heap room.peers) peer peer')
      room.peers polled.room.peers := by
  obtain ⟨drained, hdrained, rfl⟩ := Option.map_eq_some_iff.mp h
  simp only [Room.propagateAll_eq, List.forall₂_map_right_iff]
  refine (drainPeers_iceMoved hids hdrained).imp fun peer peer' hmoved => ?_
  have hreceived := hmoved.trans (Peer.iceMoved_receiveAll drained.heap drained.queue peer')
  rwa [List.append_nil] at hreceived

/-! ### The steps of a call -/

namespace Call

/-- The ICE states the peer `id` reports in a step. -/
def iceChanges (id : PeerId) (call : Call S) : CallEvent S → IceLog
  | .poll clock =>
      (call.room.map fun room => iceChangesOf id clock room.tracks room.peers).getD []
  | _ => []

/-- The peer was there before, and has reported nothing since. -/
def Rested (call : Call S) (peer' : Peer S) : Prop :=
  ∃ peer ∈ call.peers, Peer.IceMoved [] peer peer'

/-- The peer has not been there before, and has reported nothing. -/
structure Newcomer (call : Call S) (peer : Peer S) : Prop where
  id : call.nextPeer ≤ peer.id.val
  since : peer.disconnectedSince = none
  states : peer.iceStates = []

theorem Rested.moved {call : Call S} {peer peer' : Peer S} (h : call.Rested peer)
    (hmoved : Peer.IceMoved [] peer peer') : call.Rested peer' := by
  obtain ⟨old, hold, hfirst⟩ := h
  exact ⟨old, hold, hfirst.trans hmoved⟩

/-- An operation on each of the peers. -/
theorem rested_map {call : Call S} {peers : List (Peer S)} (h : ∀ peer ∈ peers, call.Rested peer)
    {f : Peer S → Peer S} (hf : ∀ peer, Peer.IceMoved [] peer (f peer)) :
    ∀ peer' ∈ peers.map f, call.Rested peer' := by
  intro peer' hpeer'
  obtain ⟨peer, hpeer, rfl⟩ := List.mem_map.mp hpeer'
  exact (h peer hpeer).moved (hf peer)

/-- Only polling makes a peer report anything. -/
theorem rested_step (ok : Call S → CallEvent S → Prop) (before : Call S) :
    RoomStepUnpolled config ok before.nextPeer (fun room => ∀ peer ∈ room.peers, before.Rested peer)
      fun _ room => ∀ peer ∈ room.peers, before.Rested peer ∨ before.Newcomer peer where
  start callId := fun _ hpeer => absurd hpeer List.not_mem_nil
  remove room room' id peer hids h hremove := by
    obtain ⟨-, rfl⟩ := Room.remove_eq_some hids hremove
    exact rested_map (fun other hother => h other (List.mem_of_mem_filter hother))
      (Peer.iceMoved_send _)
  stay room h := fun peer hpeer => .inl (h peer hpeer)
  later room h := fun peer hpeer => .inl (h peer hpeer)
  admitPeer room request seed offer callId answer hids hfresh h := by
    rw [Room.admit_eq hids _ (Room.next_not_mem hfresh)]
    intro peer hpeer
    rcases List.mem_append.mp hpeer with hold | hnew
    · exact .inl (rested_map h (Peer.iceMoved_send _) peer hold)
    · rw [List.mem_singleton.mp hnew]
      exact .inr ⟨le_refl _, rfl, rfl⟩
  answer call room id sdp answer hnext hroom hnum hok hparse h := by
    have hids : room.ids.Nodup := by simpa [Room.ids, hroom] using hnum.ids
    rw [Room.updatePeer_peers hids]
    refine fun peer hpeer => .inl (rested_map h (fun other => ?_) peer hpeer)
    split
    · exact Peer.iceMoved_acceptAnswer answer other
    · exact .refl other
  setState room id peer muted screen hids hpeer hid h := by
    rw [Room.updatePeer_broadcast_peers hids]
    refine fun peer hpeer => .inl (rested_map h (fun other => ?_) peer hpeer)
    split <;> exact .of_ops rfl rfl (List.append_nil _).symm (by simp)
  markReported room h := by
    refine fun peer hpeer => .inl (rested_map h (fun other => ?_) peer hpeer)
    split <;> exact .of_ops rfl rfl (List.append_nil _).symm (by simp)
  syncSpeaking room now hids h := by
    rcases Room.syncSpeaking_cases now room with ⟨-, heq⟩ | ⟨-, heq⟩ <;> rw [heq]
    · exact fun peer hpeer => .inl (h peer hpeer)
    · exact fun peer hpeer => .inl (rested_map h (Peer.iceMoved_send _) peer hpeer)
  handleInput room input h := by
    intro peer hpeer
    have hall : List.Forall₂ (Peer.IceMoved (S := S) []) room.peers
        (room.peers.updateFirst (Peer.accepts input) (Peer.handleInput input)) :=
      List.forall₂_updateFirst (fun other _ => .refl other) fun other _ _ =>
        Peer.iceMoved_handleInput input other
    obtain ⟨other, hother, hmoved⟩ := hall.exists_left hpeer
    exact .inl ((h other hother).moved hmoved)
  advanceTime room now h := fun peer hpeer =>
    .inl (rested_map h (Peer.iceMoved_handleInput (.timeout now)) peer hpeer)

/-- **A peer moves by what it reports in the step, and a newcomer has reported
nothing.** -/
theorem step_iceMoved {call call' : Call S} (hnum : call.Numbered) {event : CallEvent S}
    (hstep : call.step config name event = some call') :
    ∀ peer' ∈ call'.peers,
      (∃ peer ∈ call.peers, Peer.IceMoved (call.iceChanges peer.id event) peer peer') ∨
        call.Newcomer peer' := by
  by_cases hpolled : ∃ clock, event = .poll clock
  · obtain ⟨clock, rfl⟩ := hpolled
    simp only [Call.step, Call.poll] at hstep
    cases hroom : call.room with
    | none =>
        rw [hroom] at hstep
        cases hstep
        simp [peers_of_none hroom]
    | some room =>
        rw [hroom] at hstep
        obtain ⟨polled, hpass, rfl⟩ := Option.map_eq_some_iff.mp hstep
        have hpeers := peers_of_room hroom
        have hids : room.ids.Nodup := by simpa [Room.ids, hroom] using hnum.ids
        intro peer' hpeer'
        obtain ⟨peer, hpeer, hmoved⟩ := (Room.poll_iceMoved hids hpass).exists_left hpeer'
        refine .inl ⟨peer, hpeers ▸ hpeer, ?_⟩
        simpa [iceChanges, hroom] using hmoved
  · have hquiet : ∀ id, call.iceChanges id event = [] := by
      intro id
      cases event with
      | poll clock => exact absurd ⟨clock, rfl⟩ hpolled
      | join | elsewhere | answer | setState | leave | reportConnections | reap | syncSpeaking
      | handleInput | advanceTime => rfl
    have hrules : call'.InRoom fun _ room =>
        ∀ peer ∈ room.peers, call.Rested peer ∨ call.Newcomer peer :=
      (rested_step (fun _ _ => True) call).step hnum
        (fun room hroom peer hpeer => ⟨peer, peers_of_room hroom ▸ hpeer, .refl peer⟩)
        (fun clock he => hpolled ⟨clock, he⟩) trivial hstep
    intro peer' hpeer'
    cases hroom' : call'.room with
    | none => simp [peers_of_none hroom'] at hpeer'
    | some room' =>
        rw [peers_of_room hroom'] at hpeer'
        refine (hrules room' hroom' peer' hpeer').imp_left fun hrested => ?_
        obtain ⟨peer, hpeer, hmoved⟩ := hrested
        exact ⟨peer, hpeer, hquiet peer.id ▸ hmoved⟩

end Call

end FerriteSfu
