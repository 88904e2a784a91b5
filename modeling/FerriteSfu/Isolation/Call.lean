import FerriteSfu.Isolation.Room
import FerriteSfu.Call.RoomRule

/-!
What a call does, it does under any names.

`step_rename` is the lemma the isolation of rooms rests on: a step of a call and
the same step under other names lead to the same call under other names, as long
as a join is numbered as the renaming says.
-/

namespace FerriteSfu

variable {S : Str0m} {ρ : PeerId ↪ PeerId} (L : S.Relabel ρ) {config : Config} {name : String}

/-! ### Calls in order -/

namespace Room

theorem InOrder.remove {room room' : Room S} {id : PeerId} {peer : Peer S} (h : room.InOrder)
    (hsome : room.remove id = some (peer, room')) : room'.InOrder := by
  obtain ⟨_, -, heq⟩ := Option.map_eq_some_iff.mp hsome
  cases heq
  exact h.filter _

theorem InOrder.poll {clock : ℕ → List Instant} {heap : Heap} {timeout : Instant} {room : Room S}
    {next : PolledRoom S} (h : room.InOrder) (hpoll : room.poll clock heap timeout = some next) :
    next.room.InOrder := by
  obtain ⟨drained, -, rfl⟩ := Option.map_eq_some_iff.mp hpoll
  rw [propagateAll_eq]
  exact h

theorem InOrder.syncSpeaking {room : Room S} (h : room.InOrder) (now : Instant) :
    (room.syncSpeaking now).InOrder := by
  rcases Room.syncSpeaking_cases now room with ⟨-, heq⟩ | ⟨-, heq⟩ <;> rw [heq]
  · exact h
  · exact List.pairwise_insertionSort _ _

end Room

namespace Call

def InOrder (call : Call S) : Prop := ∀ room, call.room = some room → room.InOrder

theorem inOrder_invariant (config : Config) (ok : Call S → CallEvent S → Prop) :
    RoomInvariant config ok fun _ (room : Room S) => room.InOrder where
  start _ _ := .nil
  later _ _ h := h
  remove _ _ _ _ _ _ _ h hremove := h.remove hremove
  admitPeer _ _ _ _ _ _ _ _ _ _ h := h
  answer _ _ _ _ _ _ _ _ _ _ h := h
  setState _ _ _ _ _ _ _ _ _ _ h := h
  poll _ _ _ _ _ _ _ h hpolled := h.poll hpolled
  markReported _ _ _ h := h
  syncSpeaking _ _ now _ _ h := h.syncSpeaking now
  handleInput _ _ _ _ h := h
  advanceTime _ _ _ _ h := h

theorem reachable_inOrder {ok : Call S → CallEvent S → Prop} {call : Call S}
    (h : (machine S config name).ReachableVia ok call) : call.InOrder :=
  (inOrder_invariant config ok).holds h

end Call

/-! ### Calls under other names -/

def CallEvent.rename (ρ : PeerId ↪ PeerId) : CallEvent S → CallEvent S
  | .answer id sdp => .answer (ρ id) sdp
  | .setState id muted screen => .setState (ρ id) muted screen
  | .leave id => .leave (ρ id)
  | event => event

theorem Room.rename_new (callId : String) :
    (Room.new callId : Room S).rename L = Room.new callId := rfl

namespace Call

/-- The call under other names. What the next id will be is not for the names to say. -/
def rename (next : ℕ) (call : Call S) : Call S where
  room := call.room.map (Room.rename L)
  reports := call.reports
  nextPeer := next

@[simp] theorem rename_room (next : ℕ) (call : Call S) :
    (call.rename L next).room = call.room.map (Room.rename L) := rfl

@[simp] theorem rename_reports (next : ℕ) (call : Call S) :
    (call.rename L next).reports = call.reports := rfl

@[simp] theorem rename_nextPeer (next : ℕ) (call : Call S) :
    (call.rename L next).nextPeer = next := rfl

theorem rename_peers (next : ℕ) (call : Call S) :
    (call.rename L next).peers = call.peers.map (Peer.rename L) := by
  cases hroom : call.room <;> simp [peers, hroom, Room.rename]

theorem rename_isFull (next : ℕ) (call : Call S) :
    (call.rename L next).isFull config = call.isFull config := by
  cases hroom : call.room <;> simp [isFull, hroom, Room.rename]

/-! #### Joining -/

theorem rename_newPeer (request : JoinRequest) {seed : S.Seed} {id : PeerId} {rtc rtc' : S.Rtc}
    (h : L.onRtc rtc = rtc') :
    ({ newPeer config request seed id with rtc := rtc } : Peer S).rename L =
      { newPeer config request seed (ρ id) with rtc := rtc' } := by
  subst h
  rfl

theorem rename_stale (sub : String) (room : Room S) :
    stale sub (room.rename L) = (stale sub room).map ρ := by
  simp only [stale, Room.rename, List.filter_map, List.map_map]
  rfl

theorem rename_enter (next : ℕ) (peer : Peer S) (answer : String) (claims : JoinClaims)
    (call : Call S) :
    (call.rename L next).enter (peer.rename L) answer claims =
      (call.enter peer answer claims).rename L next := by
  have hlobby : (call.rename L next).room.getD (Room.new claims.callId) =
      (call.room.getD (Room.new claims.callId)).rename L := by
    cases hroom : call.room <;> simp [hroom, Room.rename_new]
  unfold enter
  dsimp only
  rw [hlobby, rename_stale, Room.rename_retire]
  simp only [Prod.map, Room.rename_admitPeer, rename, Option.map_some]

theorem rename_join {next : ℕ} {request : JoinRequest} {seed : S.Seed} {call : Call S}
    (hnext : call.consumes config request seed = true → ρ ⟨call.nextPeer⟩ = ⟨next⟩) :
    (call.rename L next).join config request seed =
      (call.join config request seed).rename L
        (next + if call.consumes config request seed then 1 else 0) := by
  unfold join consumes verdict at *
  rw [rename_isFull]
  cases hfull : call.isFull config with
  | true => rfl
  | false =>
      cases hparse : S.offerFromSdpString request.sdp with
      | error reason => rfl
      | ok offer =>
          have hid : (⟨next⟩ : PeerId) = ρ ⟨call.nextPeer⟩ := by
            refine (hnext ?_).symm
            simp [hfull, hparse]
          have haccept := L.acceptOffer seed config.iceLite offer
          have hrtc : ∀ id : PeerId, (newPeer config request seed id).rtc =
              S.build seed config.iceLite := fun _ => rfl
          simp only [Bool.false_eq_true, if_false, rename_nextPeer, Peer.acceptOffer, hrtc,
            Bool.not_false, Bool.true_and, Option.isSome_some, if_true]
          rcases hresult : S.acceptOffer (S.build seed config.iceLite) offer with ⟨result, rtc⟩
          rw [hresult] at haccept
          cases result with
          | error reason => rfl
          | ok answer =>
              dsimp only
              rw [hid, ← rename_newPeer L request haccept]
              exact rename_enter L (next + 1) _ _ _ { call with nextPeer := call.nextPeer + 1 }

/-! #### Commands and departures -/

theorem rename_answer (next : ℕ) (id : PeerId) (sdp : String) (call : Call S) :
    (call.rename L next).answer (ρ id) sdp = (call.answer id sdp).rename L next := by
  unfold answer
  cases S.answerFromSdpString sdp with
  | error reason => rfl
  | ok answer =>
      refine Call.ext ?_ rfl rfl
      simp only [rename_room, Option.map_map]
      refine congrArg (fun f => call.room.map f) (funext fun room => ?_)
      exact Room.rename_updatePeer L id
        (fun peer => congrArg Prod.snd (Peer.rename_acceptAnswer L answer peer)) room

theorem rename_setState (next : ℕ) (id : PeerId) (muted screen : Option Bool) (call : Call S) :
    (call.rename L next).setState name (ρ id) muted screen =
      (call.setState name id muted screen).rename L next := by
  unfold setState
  cases hroom : call.room with
  | none => simp [hroom]
  | some room =>
      simp only [rename_room, hroom, Option.map_some, Room.rename_find]
      cases room.peers.find? fun peer => peer.id = id with
      | none => rfl
      | some peer =>
          simp only [Option.map_some, Peer.rename_muted, Peer.rename_screen, Peer.rename_userId]
          have hupdate := Room.rename_updatePeer L id
            (f := fun peer' : Peer S =>
              { peer' with muted := muted.getD peer.muted, screen := screen.getD peer.screen })
            (g := fun peer' : Peer S =>
              { peer' with muted := muted.getD peer.muted, screen := screen.getD peer.screen })
            (by intro _; rfl) room
          have hnews : ServerMsg.rename L (.peerState id.asString (muted.getD peer.muted)
              (screen.getD peer.screen)) = .peerState (ρ id).asString (muted.getD peer.muted)
                (screen.getD peer.screen) := by
            rw [ServerMsg.rename, renameText_asString]
          rw [hupdate, ← hnews, Room.rename_broadcast]
          split
          · rename_i hsame
            exact if_pos hsame
          · rename_i hmoved
            exact if_neg hmoved

theorem rename_leave (next : ℕ) (id : PeerId) (call : Call S) :
    (call.rename L next).leave name (ρ id) = (call.leave name id).rename L next := by
  unfold leave
  cases hroom : call.room with
  | none => simp [hroom]
  | some room =>
      simp only [rename_room, hroom, Option.map_some, Option.bind_some, Room.rename_remove]
      cases room.remove id with
      | none => rfl
      | some removed =>
          obtain ⟨peer, room'⟩ := removed
          simp only [Option.map_some, Prod.map, Room.rename_isEmpty]
          refine Call.ext ?_ rfl rfl
          cases hempty : room'.isEmpty <;> rfl

theorem rename_dead (next : ℕ) (now : Instant) (call : Call S) :
    (call.rename L next).dead now = (call.dead now).map ρ := by
  have hdead : Engine.isDead now ∘ Peer.rename L = Engine.isDead now := by
    funext peer
    simp [Engine.isDead]
  simp only [dead, rename_peers, List.filter_map, List.map_map, hdead]
  rfl

theorem rename_reap (next : ℕ) (now : Instant) (call : Call S) :
    (call.rename L next).reap name now = (call.reap name now).rename L next := by
  unfold reap
  rw [rename_dead]
  generalize call.dead now = dead
  induction dead generalizing call with
  | nil => rfl
  | cons id dead ih => rw [List.map_cons, List.foldl_cons, List.foldl_cons, rename_leave, ih]

/-! #### Sweeps -/

theorem rename_poll (next : ℕ) (clock : ℕ → List Instant) (call : Call S) :
    (call.rename L next).poll clock = (call.poll clock).map (rename L next) := by
  unfold poll
  cases hroom : call.room with
  | none => simp [hroom]
  | some room =>
      simp only [rename_room, hroom, Option.map_some, Room.rename_tracks, Room.rename_poll,
        Option.map_map]
      rfl

theorem rename_reportConnections (next : ℕ) (call : Call S) :
    (call.rename L next).reportConnections name =
      (call.reportConnections name).rename L next := by
  refine Call.ext ?_ ?_ rfl
  · simp only [reportConnections, rename_room, Option.map_map]
    exact congrArg (fun f => call.room.map f) (funext (Room.rename_markReported L))
  · have harriving : ∀ peer : Peer S, (peer.rename L).isArriving = peer.isArriving :=
      fun _ => rfl
    simp only [reportConnections, rename_reports, rename_peers, List.filter_map, List.map_map,
      Function.comp_def, harriving, Peer.rename_userId]

theorem rename_map {f : Room S → Room S} (next : ℕ) (call : Call S)
    (hf : ∀ room, call.room = some room → f (room.rename L) = (f room).rename L) :
    { call.rename L next with room := (call.rename L next).room.map f } =
      ({ call with room := call.room.map f } : Call S).rename L next := by
  refine Call.ext ?_ rfl rfl
  cases hroom : call.room with
  | none => simp [hroom]
  | some room => simp [hroom, hf room hroom]

/-- **A step of a call does not depend on the names of its peers.** -/
theorem step_rename {next : ℕ} {event : CallEvent S} {call call' : Call S} (h : call.InOrder)
    (hnum : call.Numbered) (helsewhere : event ≠ .elsewhere)
    (hnext : ∀ request seed, event = .join request seed →
      call.consumes config request seed = true → ρ ⟨call.nextPeer⟩ = ⟨next⟩)
    (hstep : call.step config name event = some call') :
    (call.rename L next).step config name (event.rename ρ) =
      some (call'.rename L (next + (call'.nextPeer - call.nextPeer))) := by
  have hkept : CallEvent.isJoin event = false →
      next + (call'.nextPeer - call.nextPeer) = next := by
    intro hjoin
    have hle := step_nextPeer hnum hstep
    rw [hjoin, if_neg Bool.false_ne_true, Nat.add_zero] at hle
    rw [Nat.sub_eq_zero_of_le hle, Nat.add_zero]
  cases event with
  | elsewhere => exact absurd rfl helsewhere
  | join request seed =>
      cases hstep
      have htaken : (call.join config request seed).nextPeer - call.nextPeer =
          if call.consumes config request seed then 1 else 0 := by
        rcases call.join_cases config request seed with ⟨hconsumes, -, hjoin⟩ |
          ⟨hconsumes, -, hjoin⟩ | ⟨hconsumes, -, offer, answer, hjoin⟩
        · simp [hjoin, hconsumes]
        · simp [hjoin, hconsumes]
        · simp [hjoin, hconsumes, enter]
      rw [htaken]
      exact congrArg some (rename_join L (hnext request seed rfl))
  | answer id sdp =>
      cases hstep
      rw [hkept rfl]
      exact congrArg some (rename_answer L next id sdp call)
  | setState id muted screen =>
      cases hstep
      rw [hkept rfl]
      exact congrArg some (rename_setState L next id muted screen call)
  | leave id =>
      cases hstep
      rw [hkept rfl]
      exact congrArg some (rename_leave L next id call)
  | poll clock =>
      have hpoll : call.poll clock = some call' := hstep
      rw [hkept rfl]
      exact (rename_poll L next clock call).trans (by rw [hpoll]; rfl)
  | reportConnections =>
      cases hstep
      rw [hkept rfl]
      exact congrArg some (rename_reportConnections L next call)
  | reap now =>
      cases hstep
      rw [hkept rfl]
      exact congrArg some (rename_reap L next now call)
  | syncSpeaking now =>
      cases hstep
      rw [hkept rfl]
      exact congrArg some (rename_map L next call fun room hroom =>
        Room.rename_syncSpeaking L now (h room hroom))
  | handleInput input =>
      cases hstep
      rw [hkept rfl]
      exact congrArg some (rename_map L next call fun room _ =>
        Room.rename_handleInput L input room)
  | advanceTime now =>
      cases hstep
      rw [hkept rfl]
      exact congrArg some (rename_map L next call fun room _ =>
        Room.rename_advanceTime L now room)

end Call

end FerriteSfu
