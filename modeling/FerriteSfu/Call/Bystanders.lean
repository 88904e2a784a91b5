import FerriteSfu.Call.Simulation

/-!
What a command does to the peers it is not about: they hear of it, no more.
-/

namespace FerriteSfu

variable {S : Str0m}

/-- The peer a command is about. -/
def Command.target : Command → Option PeerId
  | .answer peer _ | .mute peer _ | .screen peer _ | .leave peer => some peer
  | .join _ | .shutdown => none

/-- `peer'` is `peer` with more messages. -/
def Peer.Overhears (peer peer' : Peer S) : Prop :=
  ∃ news, peer' = { peer with out := peer.out ++ news }

theorem Peer.Overhears.refl (peer : Peer S) : peer.Overhears peer := ⟨[], by simp⟩

theorem Peer.overhears_send (message : ServerMsg) (peer : Peer S) :
    peer.Overhears (peer.send message) := ⟨[message], rfl⟩

/-- The peers other than `id` overhear. -/
def Bystanders (id : PeerId) (peers peers' : List (Peer S)) : Prop :=
  List.Forall₂ Peer.Overhears (peers.filter fun peer => peer.id ≠ id)
    (peers'.filter fun peer => peer.id ≠ id)

theorem Bystanders.refl (id : PeerId) (peers : List (Peer S)) : Bystanders id peers peers :=
  List.forall₂_same.mpr fun peer _ => .refl peer

theorem Bystanders.map (id : PeerId) (peers : List (Peer S)) {f : Peer S → Peer S}
    (hid : ∀ peer : Peer S, (f peer).id = peer.id)
    (hf : ∀ peer : Peer S, peer.id ≠ id → peer.Overhears (f peer)) :
    Bystanders id peers (peers.map f) := by
  have hsame : (fun peer : Peer S => decide (peer.id ≠ id)) ∘ f =
      fun peer : Peer S => decide (peer.id ≠ id) := by
    funext peer
    simp [hid]
  rw [Bystanders, List.filter_map, hsame, List.forall₂_map_right_iff, List.forall₂_same]
  exact fun peer hmem => hf peer (by simpa using List.of_mem_filter hmem)

namespace Call

theorem answer_bystanders {call : Call S} (hids : (call.peers.map Peer.id).Nodup) (id : PeerId)
    (sdp : String) : Bystanders id call.peers (call.answer id sdp).peers := by
  unfold answer
  split
  · exact .refl id _
  · cases hroom : call.room with
    | none =>
        rw [peers_of_none hroom]
        exact .refl id _
    | some room =>
        rw [peers_of_room hroom] at hids ⊢
        rename_i answer _
        have hpeers : (peers { call with
            room := some (room.updatePeer id fun peer => (peer.acceptAnswer answer).2) }) = _ :=
          Room.updatePeer_peers hids id fun peer => (peer.acceptAnswer answer).2
        dsimp only [Option.map_some]
        rw [hpeers]
        refine .map id _ (fun peer => ?_) fun peer hne => ?_
        · split
          · exact (Peer.acceptAnswer_keeps answer peer).1
          · rfl
        · rw [if_neg hne]
          exact .refl peer

theorem setState_bystanders (name : String) {call : Call S}
    (hids : (call.peers.map Peer.id).Nodup) (id : PeerId) (muted screen : Option Bool) :
    Bystanders id call.peers (call.setState name id muted screen).peers := by
  unfold setState
  cases hroom : call.room with
  | none => exact .refl id _
  | some room =>
      rw [peers_of_room hroom] at hids ⊢
      dsimp only
      split
      · rw [peers_of_room hroom]
        exact .refl id _
      · rename_i peer _
        have hpeers := Room.updatePeer_broadcast_peers hids id (fun peer' =>
          { peer' with muted := muted.getD peer.muted, screen := screen.getD peer.screen })
          (.peerState id.asString (muted.getD peer.muted) (screen.getD peer.screen))
        have hall := Bystanders.map id room.peers
          (f := fun peer' => (if peer'.id = id then
              { peer' with muted := muted.getD peer.muted, screen := screen.getD peer.screen }
              else peer').send
                (.peerState id.asString (muted.getD peer.muted) (screen.getD peer.screen)))
          (fun peer' => by simp only [Peer.send]; split <;> rfl)
          (fun peer' hne => by rw [if_neg hne]; exact peer'.overhears_send _)
        rw [← hpeers] at hall
        split <;> exact hall

theorem leave_bystanders (name : String) {call : Call S}
    (hids : (call.peers.map Peer.id).Nodup) (id : PeerId) :
    Bystanders id call.peers (call.leave name id).peers := by
  rcases leave_peers hids name id with ⟨heq, -⟩ | hpeers
  · rw [heq]
    exact .refl id _
  · rw [hpeers]
    have hall := Bystanders.map id (call.peers.filter fun peer => peer.id ≠ id)
      (f := Peer.send (.peerLeft id.asString)) (fun _ => rfl)
      fun peer _ => peer.overhears_send _
    simpa only [Bystanders, List.filter_filter, Bool.and_self] using hall

end Call

namespace Engine

/-- **A command about one peer leaves the others as they are.** -/
theorem Sound.apply_bystanders {engine : Engine S} (h : engine.Sound) {command : Command}
    {id : PeerId} (htarget : command.target = some id) (seed : S.Seed) (name : String) :
    Bystanders id (engine.call name).peers ((engine.apply command seed).1.call name).peers := by
  have hids := (h.numbered name).ids
  have hcall := (h.step_calls (step_command command seed engine)).2.2 name
  cases command with
  | join request => cases htarget
  | shutdown => cases htarget
  | answer peer sdp =>
      cases htarget
      rw [← Option.some.inj hcall]
      exact Call.answer_bystanders hids id sdp
  | mute peer muted =>
      cases htarget
      rw [← Option.some.inj hcall]
      exact Call.setState_bystanders name hids id (some muted) none
  | screen peer active =>
      cases htarget
      rw [← Option.some.inj hcall]
      exact Call.setState_bystanders name hids id none (some active)
  | leave peer =>
      cases htarget
      rw [← Option.some.inj hcall]
      exact Call.leave_bystanders name hids id

/-- A command about one peer is lost on the rooms it is not in. -/
theorem Sound.apply_outsider {engine : Engine S} (h : engine.Sound) {command : Command}
    {id : PeerId} (htarget : command.target = some id) (seed : S.Seed) {name : String}
    (hnot : ∀ peer ∈ (engine.call name).peers, peer.id ≠ id) :
    (engine.apply command seed).1.call name = engine.call name := by
  have hcall := (h.step_calls (step_command command seed engine)).2.2 name
  cases command with
  | join request => cases htarget
  | shutdown => cases htarget
  | answer peer sdp =>
      cases htarget
      exact (Option.some.inj hcall).symm.trans (Call.answer_of_not_mem hnot sdp)
  | mute peer muted =>
      cases htarget
      exact (Option.some.inj hcall).symm.trans
        (Call.setState_of_not_mem hnot name (some muted) none)
  | screen peer active =>
      cases htarget
      exact (Option.some.inj hcall).symm.trans
        (Call.setState_of_not_mem hnot name none (some active))
  | leave peer =>
      cases htarget
      exact (Option.some.inj hcall).symm.trans (Call.leave_of_not_mem hnot name)

end Engine

end FerriteSfu
