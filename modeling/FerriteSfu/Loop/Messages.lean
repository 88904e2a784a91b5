import FerriteSfu.Loop.Leavers
import FerriteSfu.Call.Offers
import FerriteSfu.Call.Referential

/-!
The messages the media loop pushes to its peers, over whole runs.
-/

namespace FerriteSfu

variable {S : Str0m} {config : Config}

namespace Engine

/-- **In every run, no message names anyone its receiver does not know of, or
was told has left.** -/
theorem run_referential {began : Instant} {events : List (Event S)} {engine : Engine S}
    (hrun : (machine S config).run (start config began) events = some engine) :
    (∀ peer, engine.Holds peer → Coherent peer.id.asString peer.out) ∧
      ∀ peer ∈ departed config began events, Coherent peer.id.asString peer.out := by
  refine run_everyone (I := fun peer => Coherent peer.id.asString peer.out)
    (fun config => Call.referential_invariant config _)
    (fun next room hroom => hroom.2.coherent) (fun peer hpeer => ?_) hrun
  exact hpeer.push ⟨trivial, by simp [ServerMsg.named]⟩

theorem run_referential_visit :
    ∃ engine, (machine scripted Puppet.config).run (start Puppet.config 0) visit = some engine ∧
      (∃ peer, engine.Holds peer ∧ .peerLeft "1" ∈ peer.out ∧
        Coherent peer.id.asString peer.out) ∧
      ∀ peer ∈ departed Puppet.config 0 visit, Coherent peer.id.asString peer.out := by
  obtain ⟨engine, hrun, hcheck⟩ := (Option.any_eq_true _ _).mp (by decide +kernel :
    ((machine scripted Puppet.config).run (start Puppet.config 0) visit).any (fun engine =>
      (engine.rooms.lookup "red").any fun room =>
        room.peers.any fun peer => decide (.peerLeft "1" ∈ peer.out)) = true)
  obtain ⟨room, hroom, hany⟩ := (Option.any_eq_true _ _).mp hcheck
  obtain ⟨peer, hpeer, hleft⟩ := List.any_eq_true.mp hany
  have hholds : engine.Holds peer := ⟨"red", room, hroom, hpeer⟩
  obtain ⟨hthere, hgone⟩ := run_referential hrun
  exact ⟨engine, hrun, ⟨peer, hholds, of_decide_eq_true hleft, hthere peer hholds⟩, hgone⟩

/-! ### Offers -/

/-- The peer whose outstanding offer an event answers, whatever str0m makes of
the answer. -/
def answered (engine : Engine S) : Event S → List PeerId
  | .command (.answer id sdp) _ =>
      if (S.answerFromSdpString sdp).isOk && (engine.peerOf id).any fun peer => peer.pending.isSome
      then [id] else []
  | _ => []

/-- The answers consumed in the course of a run, by the peers they are of. -/
def answers (config : Config) (now : Instant) (events : List (Event S)) : List PeerId :=
  (machine S config).outputs answered (start config now) events

theorem answered_eq_nil {engine : Engine S} {event : Event S}
    (h : ∀ id sdp seed, event ≠ .command (.answer id sdp) seed) : engine.answered event = [] := by
  unfold answered
  split
  · exact absurd rfl (h _ _ _)
  · rfl

theorem Sound.answered_indexed {engine : Engine S} (h : engine.Sound) {event : Event S} :
    ∀ id ∈ engine.answered event, (engine.peerRooms.lookup id).isSome = true := by
  intro id hmem
  unfold answered at hmem
  split at hmem
  · split at hmem
    · rename_i hcheck
      obtain ⟨peer, hpeer, -⟩ := (Option.any_eq_true _ _).mp (Bool.and_eq_true_iff.mp hcheck).2
      obtain ⟨hholds, rfl⟩ := peerOf_eq_some hpeer
      rw [List.mem_singleton.mp hmem]
      exact h.holds_indexed hholds
    · cases hmem
  · cases hmem

/-- Each offer pushed to a peer was answered, but for the one outstanding. -/
def Accounted (log : List PeerId) (peer : Peer S) : Prop :=
  offersIn peer.out = log.count peer.id + peer.unanswered

theorem Accounted.congr {log : List PeerId} {peer peer' : Peer S} (h : Accounted log peer)
    (hbalanced : peer.Balanced peer') : Accounted log peer' := by
  obtain ⟨hid, hcount⟩ := hbalanced
  unfold Accounted at h ⊢
  rw [hid]
  omega

/-- An answer takes the offer it answers off the account. -/
theorem Sound.answer_accounted {engine engine' : Engine S} (h : engine.Sound) {id : PeerId}
    {sdp : String} {seed : S.Seed} (hstep : engine.step (.command (.answer id sdp) seed) = some engine')
    {log : List PeerId} (hall : ∀ peer, engine.Holds peer → Accounted log peer) :
    ∀ peer, engine'.Holds peer →
      Accounted (log ++ engine.answered (.command (.answer id sdp) seed)) peer := by
  rintro peer ⟨name, room, hroom, hpeer⟩
  have hcall : (engine.call name).answer id sdp = engine'.call name :=
    Option.some_inj.mp ((h.step_calls hstep).2.2 name)
  have hmem : peer ∈ ((engine.call name).answer id sdp).peers := by
    rw [hcall, call_peers hroom]
    exact hpeer
  cases hparse : S.answerFromSdpString sdp with
  | error reason =>
      have hnone : engine.answered (.command (.answer id sdp) seed) = [] := by
        simp [answered, hparse, Except.isOk, Except.toBool]
      simp only [Call.answer, hparse] at hmem
      obtain ⟨before, hbefore, hin⟩ := mem_call_peers.mp hmem
      rw [hnone, List.append_nil]
      exact hall peer ⟨name, before, hbefore, hin⟩
  | ok answer =>
      have hone : engine.answered (.command (.answer id sdp) seed) =
          if (engine.peerOf id).any fun peer => peer.pending.isSome then [id] else [] := by
        simp [answered, hparse, Except.isOk, Except.toBool]
      simp only [Call.answer, hparse] at hmem
      cases hbefore : engine.rooms.lookup name with
      | none => simp [Call.peers, hbefore] at hmem
      | some before =>
          simp only [Call.peers, call_room, hbefore, Option.map_some, Option.getD_some,
            Room.updatePeer_peers (h.ids hbefore)] at hmem
          obtain ⟨old, hold, rfl⟩ := List.mem_map.mp hmem
          have hholds : engine.Holds old := ⟨name, before, hbefore, hold⟩
          have hold := hall old hholds
          unfold Accounted at hold ⊢
          rw [hone, List.count_append]
          split
          · rename_i hid
            have hframe := Peer.acceptAnswer_frame answer old
            have hsame : (old.acceptAnswer answer).2.id = old.id := Peer.id_eq_of_card hframe.1
            have hfound : engine.peerOf id = some old := hid ▸ h.peerOf_holds hholds
            -- The answer is to the outstanding offer, if there is one, and takes it off.
            rw [hframe.2.2, hsame, hold, hfound, Peer.unanswered, Peer.unanswered,
              Peer.acceptAnswer_pending, hid]
            cases hpending : old.pending <;> simp [hpending]
          · rename_i hid
            -- An answer of somebody else is no answer of this peer.
            have hother : (if (engine.peerOf id).any fun peer => peer.pending.isSome then [id]
                else []).count old.id = 0 := by
              split <;> simp [Ne.symm hid]
            rw [hother, hold, Nat.add_zero]

theorem Sound.step_accounted {engine engine' : Engine S} (h : engine.Sound) {event : Event S}
    (hstep : engine.step event = some engine') {log : List PeerId}
    (hlog : ∀ id ∈ log, id.val < engine.nextPeer)
    (hall : ∀ peer, engine.Holds peer → Accounted log peer) :
    ∀ peer, engine'.Holds peer → Accounted (log ++ engine.answered event) peer := by
  by_cases hanswer : ∃ id sdp seed, event = .command (.answer id sdp) seed
  · obtain ⟨id, sdp, seed, rfl⟩ := hanswer
    exact h.answer_accounted hstep hall
  · have hnone : engine.answered event = [] :=
      answered_eq_nil fun id sdp seed he => hanswer ⟨id, sdp, seed, he⟩
    rw [hnone, List.append_nil]
    rintro peer ⟨name, room, hroom, hpeer⟩
    rw [← call_peers hroom] at hpeer
    have hcall := (h.step_calls hstep).2.2 name
    unfold CallStep at hcall
    split at hcall
    · rw [hcall] at hpeer
      exact hall peer ⟨name, mem_call_peers.mp hpeer⟩
    · rename_i ev hev
      have hok : ∀ id sdp, ev ≠ .answer id sdp := by
        rintro id sdp rfl
        obtain ⟨seed, he⟩ := callEvent_answer hev
        exact hanswer ⟨id, sdp, seed, he⟩
      obtain ⟨old, hold, hbalanced⟩ := Call.step_related Peer.Balanced.refl Call.balanced_kept
        (h.numbered name) hok hcall peer hpeer
      rcases hold with hold | ⟨request, seed, offer, id, hnew, rfl⟩
      · exact (hall old ⟨name, mem_call_peers.mp hold⟩).congr hbalanced
      · -- Nobody has answered for a peer that was not there.
        refine Accounted.congr ?_ hbalanced
        have hfresh : log.count id = 0 :=
          List.count_eq_zero.mpr fun hmem => absurd (hlog id hmem) (by simpa using hnew)
        exact hfresh.symm

theorem Sound.poll_offered {engine engine' : Engine S} (h : engine.Sound) (hfresh : S.FreshMids)
    {now : Instant} {order : List String} {clock : String → ℕ → List Instant}
    (hstep : engine.step (.pollRooms now order clock) = some engine') {name : String}
    {room' : Room S} (hroom' : engine'.rooms.lookup name = some room') :
    ∃ room, engine.rooms.lookup name = some room ∧ ∀ peer' ∈ room'.peers,
      ∃ peer ∈ room.peers, peer.id = peer'.id ∧ Call.Offered room peer peer' := by
  have hcall : (engine.call name).poll (clock name) = some (engine'.call name) :=
    (h.step_calls hstep).2.2 name
  unfold Call.poll at hcall
  cases hroom : engine.rooms.lookup name with
  | none =>
      simp only [call_room, hroom, Option.some_inj] at hcall
      have hsame := congrArg Call.room hcall
      rw [call_room, call_room, hroom, hroom'] at hsame
      cases hsame
  | some room =>
      simp only [call_room, hroom] at hcall
      obtain ⟨polled, hpolled, heq⟩ := Option.map_eq_some_iff.mp hcall
      have hsame : some polled.room = some room' := (congrArg Call.room heq).trans hroom'
      obtain rfl := Option.some_inj.mp hsame
      refine ⟨room, rfl, (h.subscribed hroom).poll_offered hfresh (h.ids hroom)
        (fun peer hpeer => ?_) hpolled⟩
      rw [← call_peers hroom] at hpeer
      exact ⟨Call.reachable_logged (h.calls name) peer hpeer,
        Call.reachable_drawn (h.calls name) peer hpeer⟩

theorem run_accounted {began : Instant} {events : List (Event S)} {engine : Engine S}
    (hrun : (machine S config).run (start config began) events = some engine) :
    (∀ id ∈ answers config began events, id.val < engine.nextPeer) ∧
      ∀ peer, engine.Holds peer → Accounted (answers config began events) peer := by
  refine Lib.Machine.outputs_holds (m := machine S config) (f := answered)
    (I := fun engine log => (∀ id ∈ log, id.val < engine.nextPeer) ∧
      ∀ peer, engine.Holds peer → Accounted log peer) ?_ (.init ⟨began, rfl⟩) ?_ hrun
  · rintro engine log event engine' hreach ⟨hlog, hall⟩ hstep
    obtain ⟨hsound, -⟩ := reachable_sound hreach
    have hle : engine.nextPeer ≤ engine'.nextPeer := by rw [hsound.step_nextPeer hstep]; omega
    refine ⟨fun id hmem => ?_, hsound.step_accounted hstep hlog hall⟩
    rcases List.mem_append.mp hmem with hmem | hmem
    · exact (hlog id hmem).trans_le hle
    · exact (hsound.indexed_lt (hsound.answered_indexed id hmem)).trans_le hle
  · refine ⟨by simp, ?_⟩
    rintro peer ⟨name, room, hroom, -⟩
    simp [start] at hroom

/-- A peer that has left was accounted for when it did, and nobody answers for it
any more. -/
theorem run_departed_accounted {began : Instant} {events : List (Event S)} {engine : Engine S}
    (hrun : (machine S config).run (start config began) events = some engine) :
    ∀ peer ∈ departed config began events, Accounted (answers config began events) peer := by
  intro gone hgone
  obtain ⟨before, event, after, next, next', rfl, hbefore, hstep, hafter, hleaves⟩ :=
    Lib.Machine.mem_outputs hrun hgone
  have hreach : (machine S config).Reachable next := .of_run (.init ⟨began, rfl⟩) hbefore
  obtain ⟨hsound, -⟩ := reachable_sound hreach
  obtain ⟨-, hall⟩ := run_accounted hbefore
  have hthen : Accounted (answers config began before) gone :=
    hsound.leavers_of_holds (fun peer id h => h.congr (.congr (.refl peer) rfl
      (offersIn_send (by simp) _) rfl)) (fun peer h => h.congr (.congr (.refl peer) rfl
      (offersIn_send (by simp) _) rfl)) hstep hall gone hleaves
  have hnone : next.answered event = [] := by
    refine answered_eq_nil ?_
    rintro id sdp seed rfl
    simp [leavers, dropCalls] at hleaves
  obtain ⟨hthere, hindex⟩ := ((hsound.leavers_ids hstep).2 gone.id).mp (List.mem_map_of_mem hleaves)
  have hlater : ∀ id ∈ (machine S config).outputs answered next' after, id ≠ gone.id :=
    (run_absent (g := id) (fun _ _ _ hsound _ => hsound.answered_indexed)
      (.step hreach trivial hstep) ((hsound.indexed_lt hthere).trans_le
        (by rw [hsound.step_nextPeer hstep]; omega)) hindex hafter).2.2
  have hlog : (answers config began (before ++ event :: after)).count gone.id =
      (answers config began before).count gone.id := by
    have hcount : ((machine S config).outputs answered next' after).count gone.id = 0 :=
      List.count_eq_zero.mpr fun hmem => hlater gone.id hmem rfl
    unfold answers
    rw [Lib.Machine.outputs_append _ _ hbefore, Lib.Machine.outputs]
    simp [hnone, hcount, show (machine S config).step next event = some next' from hstep]
  unfold Accounted at hthen ⊢
  rw [hlog, hthen]

/-- **One offer at a time, and each lists the room.** In every run a peer was
pushed as many offers as it consumed answers, and one more while an offer is
outstanding; what a pass offers are the tracks of the others at its start. -/
theorem run_offers (hfresh : S.FreshMids) {began : Instant} {events : List (Event S)}
    {engine : Engine S} (hrun : (machine S config).run (start config began) events = some engine) :
    (∀ peer, engine.Holds peer ∨ peer ∈ departed config began events →
      offersIn peer.out = (answers config began events).count peer.id + peer.unanswered) ∧
    ∀ now order clock engine', engine.step (.pollRooms now order clock) = some engine' →
      ∀ name room', engine'.rooms.lookup name = some room' →
        ∃ room, engine.rooms.lookup name = some room ∧ ∀ peer' ∈ room'.peers,
          ∃ peer ∈ room.peers, peer.id = peer'.id ∧ Call.Offered room peer peer' := by
  refine ⟨fun peer hpeer => hpeer.elim ((run_accounted hrun).2 peer)
    (run_departed_accounted hrun peer), fun now order clock engine' hstep name room' hroom' => ?_⟩
  obtain ⟨hsound, -⟩ := reachable_sound
    (Lib.Machine.Reachable.of_run (m := machine S config) (.init ⟨began, rfl⟩) hrun)
  exact hsound.poll_offered hfresh hstep hroom'

/-- Bob has answered for what Ann says, and now she turns her camera on. -/
def camera : List (Event scripted) :=
  (Puppet.talk ++ [Puppet.turn [] ["red"] (some ⟨"a", [Puppet.announces "1" .video]⟩),
    Puppet.turn [] ["red"] none]).flatMap Turn.events

/-- The next pass over the red room. -/
def pass : Event scripted := .pollRooms 0 ["red"] fun _ _ => List.replicate 8 0

theorem run_offers_camera :
    ∃ engine engine' room peer room' peer',
      (machine scripted Puppet.config).run (start Puppet.config 0) camera = some engine ∧
      engine.step pass = some engine' ∧
      engine.rooms.lookup "red" = some room ∧ peer ∈ room.peers ∧
      offersIn peer.out = (answers Puppet.config 0 camera).count peer.id + peer.unanswered ∧
      engine'.rooms.lookup "red" = some room' ∧ peer' ∈ room'.peers ∧
      offersIn peer'.out = 2 ∧ peer.id = peer'.id ∧ Call.Offered room peer peer' := by
  obtain ⟨engine, hrun, hany⟩ := (Option.any_eq_true _ _).mp (by decide +kernel :
    ((machine scripted Puppet.config).run (start Puppet.config 0) camera).any (fun engine =>
      (engine.step pass).any fun engine' => (engine'.rooms.lookup "red").any fun room =>
        room.peers.any fun peer => decide (offersIn peer.out = 2)) = true)
  obtain ⟨engine', hstep, hcheck⟩ := (Option.any_eq_true _ _).mp hany
  obtain ⟨room', hroom', hpeers⟩ := (Option.any_eq_true _ _).mp hcheck
  obtain ⟨peer', hpeer', htwo⟩ := List.any_eq_true.mp hpeers
  obtain ⟨haccounted, hpasses⟩ := run_offers scripted_freshMids hrun
  obtain ⟨room, hroom, hall⟩ := hpasses 0 ["red"] _ engine' hstep "red" room' hroom'
  obtain ⟨peer, hpeer, hid, hoffered⟩ := hall peer' hpeer'
  exact ⟨engine, engine', room, peer, room', peer', hrun, hstep, hroom, hpeer,
    haccounted peer (.inl ⟨"red", room, hroom, hpeer⟩), hroom', hpeer', of_decide_eq_true htwo,
    hid, hoffered⟩

end Engine

end FerriteSfu
