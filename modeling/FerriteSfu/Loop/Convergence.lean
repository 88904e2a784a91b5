import FerriteSfu.Call.Awaited
import FerriteSfu.Call.Covered
import FerriteSfu.Loop.Leavers
import FerriteSfu.Loop.Lives
import FerriteSfu.Loop.Offers

/-!
What negotiation comes to in a room of the media loop.

A round of it settles every subscription of a peer whose answers are accepted, but
for the ones whose publisher left before an m-line was made for them: nothing ever
removes those. Where `str0m` has nothing to change for an m-line that is let go of,
no offer is made, and the subscription stays as well.
-/

namespace FerriteSfu

variable {S : Str0m} {config : Config}

namespace Engine

/-! ### One round -/

/-- Every answer of the peer `id` that is applied to an outstanding offer is
accepted. -/
def AnswersAcceptedOf (id : PeerId) (engine : Engine S) (event : Event S) : Prop :=
  ∀ sdp seed, event = .command (.answer id sdp) seed → engine.AnswersAccepted event

theorem answersAcceptedOf_call {id : PeerId} {engine : Engine S} {event : Event S}
    {ev : CallEvent S} {name : String} (h : engine.AnswersAcceptedOf id event)
    (hev : engine.callEvent name event = some ev) : (engine.call name).AnswersAcceptedOf id ev := by
  rintro sdp rfl
  obtain ⟨seed, rfl⟩ := callEvent_answer hev
  exact answersAccepted_call (h sdp seed rfl) hev

/-- **Negotiation converges in one further round.** -/
theorem reachable_converges (hfresh : S.FreshMids) (hlaw : S.OffersChanges)
    (hdrops : S.DropsChanges) (hkeeps : S.AnswersKeepAlive) {engine : Engine S} {sub : Peer S}
    (h : (machine S config).ReachableVia (AnswersAcceptedOf sub.id) engine) {name : String}
    {room : Room S} (hroom : engine.rooms.lookup name = some room) (hsub : sub ∈ room.peers)
    (halive : sub.isAlive = true) {settled answered : Peer S} (hfirst : sub.Answered settled)
    (hsecond : (settled.negotiateIfNeeded engine.heap).2.Answered answered) :
    answered.negotiateIfNeeded engine.heap = (false, answered) ∧ room.Serves answered := by
  obtain ⟨hsound, -⟩ := reachable_sound h
  have hcall : (Call.machine S config name).ReachableVia (Call.AnswersAcceptedOf sub.id)
      (engine.call name) :=
    reachable_call (fun _ _ _ _ _ hok hev => answersAcceptedOf_call hok hev) h
  have hpeer : sub ∈ (engine.call name).peers := by rwa [call_peers hroom]
  exact (hsound.subscribed hroom).converges hfresh hlaw hdrops hkeeps (hsound.ids hroom) hsub
    (Call.reachable_logged hcall sub hpeer) (Call.reachable_drawn hcall sub hpeer)
    (Call.reachable_settledOf hlaw hcall sub hpeer rfl) halive (hsound.agrees hroom hsub)
    hfirst hsecond

/-- Puppets take any answer but a rejected one. -/
theorem scripted_answered (peer : Peer scripted) : ∃ peer', peer.Answered peer' := by
  cases hpending : peer.pending with
  | none => exact ⟨peer, .inl ⟨hpending, rfl⟩⟩
  | some pending => exact ⟨_, .inr ⟨pending, "answer", hpending, rfl, rfl⟩⟩

/-- Ann's camera is offered to Bob, and she shares her screen before he answers. -/
def sharing : List (Event scripted) :=
  (Puppet.talk ++ [Puppet.turn [] ["red"] (some ⟨"a", [Puppet.announces "1" .video]⟩),
    Puppet.turn [] ["red"] none,
    Puppet.turn [] ["red"] (some ⟨"a", [Puppet.announces "2" .video]⟩),
    Puppet.turn [] ["red"] none]).flatMap Turn.events

theorem reachable_converges_sharing :
    ∃ engine room sub settled answered,
      (machine scripted Puppet.config).ReachableVia (AnswersAcceptedOf sub.id) engine ∧
      engine.rooms.lookup "red" = some room ∧ sub ∈ room.peers ∧
      sub.pending.isSome = true ∧ (∃ track, sub.Awaits track) ∧
      sub.Answered settled ∧ (settled.negotiateIfNeeded engine.heap).2.Answered answered ∧
      answered.negotiateIfNeeded engine.heap = (false, answered) ∧ room.Serves answered := by
  obtain ⟨engine, hrun, hcheck⟩ := (Option.any_eq_true _ _).mp (by decide +kernel :
    ((machine scripted Puppet.config).runIf (fun _ event => Puppet.behaves event)
      (start Puppet.config 0) sharing).any (fun engine =>
        (engine.rooms.lookup "red").any fun room => room.peers.any fun peer =>
          peer.isAlive && peer.pending.isSome &&
            peer.tracksOut.any fun track => decide (track.state = .toOpen)) = true)
  obtain ⟨room, hroom, hany⟩ := (Option.any_eq_true _ _).mp hcheck
  obtain ⟨sub, hsub, hstate⟩ := List.any_eq_true.mp hany
  simp only [Bool.and_eq_true, List.any_eq_true, decide_eq_true_eq] at hstate
  obtain ⟨⟨halive, hpending⟩, ⟨track, state⟩, hwaits, rfl⟩ := hstate
  have hreach : (machine scripted Puppet.config).ReachableVia (AnswersAcceptedOf sub.id) engine :=
    .of_runIf (fun _ _ h _ _ _ => behaves_answersAccepted h) (.init ⟨0, rfl⟩) hrun
  obtain ⟨settled, hfirst⟩ := scripted_answered sub
  obtain ⟨answered, hsecond⟩ := scripted_answered (settled.negotiateIfNeeded engine.heap).2
  obtain ⟨hquiet, hserves⟩ := reachable_converges scripted_freshMids scripted_offersChanges
    scripted_dropsChanges scripted_answersKeepAlive hreach hroom hsub halive hfirst hsecond
  exact ⟨engine, room, sub, settled, answered, hreach, hroom, hsub, hpending, ⟨track, hwaits⟩,
    hfirst, hsecond, hquiet, hserves⟩

/-! ### What is never opened -/

/-- Of every live peer that has nothing outstanding and nothing left to negotiate,
all subscriptions are to tracks whose publishers are there. -/
def NoStrays (engine : Engine S) : Prop :=
  ∀ name room, engine.rooms.lookup name = some room → ∀ sub ∈ room.peers, sub.isAlive = true →
    sub.pending = none → (sub.negotiateIfNeeded engine.heap).1 = false →
      ∀ track ∈ sub.tracksOut, (engine.heap.upgrade track.trackIn).isSome = true

/-- Nobody leaves who has published what someone who stays has yet to open. -/
def SparesAwaited (engine : Engine S) (event : Event S) : Prop :=
  ∀ gone ∈ engine.leavers event, ∀ sub, engine.Holds sub →
    sub.id ∉ (engine.leavers event).map Peer.id → ∀ track, sub.Awaits track →
      track.origin ≠ gone.id

/-- `stop_media` registers a change for each m-line that a negotiation in the step stops. -/
def StopsRegister (engine : Engine S) (event : Event S) : Prop :=
  ∀ id, ∀ poll ∈ engine.polls id event, poll.before.StopsRegister poll.heap

theorem Sound.stopsRegister_call {engine : Engine S} (h : engine.Sound) {event : Event S}
    (hstops : engine.StopsRegister event) {name : String} {ev : CallEvent S}
    (hev : engine.callEvent name event = some ev) (id : PeerId) :
    (engine.call name).StopsRegisterOf id ev := by
  unfold Call.StopsRegisterOf
  by_cases hthere : ∃ peer ∈ (engine.call name).peers, peer.id = id
  · obtain ⟨peer, hpeer, rfl⟩ := hthere
    have hpolls := h.polls_eq hpeer event
    rw [hev, Option.map_some, Option.getD_some] at hpolls
    exact hpolls ▸ hstops peer.id
  · rw [Call.polls_eq_nil fun peer hpeer hid => hthere ⟨peer, hpeer, hid⟩]
    exact fun _ hpoll => absurd hpoll List.not_mem_nil

theorem Sound.step_awaited {engine engine' : Engine S} (h : engine.Sound) {event : Event S}
    (hstep : engine.step event = some engine') (hspares : engine.SparesAwaited event)
    (hall : ∀ sub, engine.Holds sub → ∀ track, sub.Awaits track →
      (engine.peerRooms.lookup track.origin).isSome = true) :
    ∀ sub', engine'.Holds sub' → ∀ track, sub'.Awaits track →
      (engine'.peerRooms.lookup track.origin).isSome = true := by
  intro sub' hsub' track hawaits
  have hbefore : (∃ sub, engine.Holds sub ∧ sub.id = sub'.id ∧ sub.Awaits track) ∨
      (engine'.peerRooms.lookup track.origin).isSome = true := by
    obtain ⟨name, room', hroom', hmem⟩ := hsub'
    rw [← call_peers hroom'] at hmem
    have hcall := (h.step_calls hstep).2.2 name
    unfold CallStep at hcall
    split at hcall
    · rw [hcall] at hmem
      exact .inl ⟨sub', ⟨name, mem_call_peers.mp hmem⟩, rfl, hawaits⟩
    · rcases Call.step_awaits (h.numbered name) (fun room hroom => h.originsOwn hroom) hcall sub'
        hmem track hawaits with ⟨sub, hsub, hid, hawaited⟩ | hthere
      · exact .inl ⟨sub, ⟨name, mem_call_peers.mp hsub⟩, hid, hawaited⟩
      · exact .inr (by rw [(h.step hstep).mem_call.mp hthere]; rfl)
  rcases hbefore with ⟨sub, hsub, hid, hawaited⟩ | hthere
  · -- Had the publisher left, the subscriber would have been there and waited for it.
    by_contra hgone
    obtain ⟨-, hleavers⟩ := h.leavers_ids hstep
    obtain ⟨gone, hleaves, horigin⟩ := List.mem_map.mp ((hleavers track.origin).mpr
      ⟨hall sub hsub track hawaited, by simpa using hgone⟩)
    refine hspares gone hleaves sub hsub (fun hleft => ?_) track hawaited horigin.symm
    have hindexed := (h.step hstep).holds_indexed hsub'
    rw [← hid, ((hleavers sub.id).mp hleft).2] at hindexed
    cases hindexed
  · exact hthere

/-- In a run in which nobody leaves who is waited for, what is waited for is there. -/
theorem reachable_awaited {ok : Engine S → Event S → Prop}
    (hok : ∀ engine event, ok engine event → engine.SparesAwaited event) {engine : Engine S}
    (h : (machine S config).ReachableVia ok engine) :
    ∀ sub, engine.Holds sub → ∀ track, sub.Awaits track →
      (engine.peerRooms.lookup track.origin).isSome = true := by
  refine Lib.Machine.Invariant.holds (I := fun engine => ∀ sub, engine.Holds sub → ∀ track,
    sub.Awaits track → (engine.peerRooms.lookup track.origin).isSome = true) ⟨?_, ?_⟩ h
  · rintro engine ⟨now, rfl⟩ sub ⟨name, room, hroom, -⟩
    simp [start] at hroom
  · intro engine event engine' hreach hall hguard hstep
    exact (reachable_sound hreach).1.step_awaited hstep (hok engine event hguard) hall

/-- A negotiation that registers a change makes an offer. -/
theorem negotiates_of_hasChanges (hlaw : S.OffersMedia) {heap : Heap} {peer : Peer S}
    (hpending : peer.pending = none) (halive : peer.isAlive = true)
    (hchanges : S.hasChanges (peer.changes heap).2.1 = true) :
    (peer.negotiateIfNeeded heap).1 = true := by
  rcases peer.negotiateIfNeeded_cases heap with ⟨hidle, -⟩ | ⟨-, hnone, -⟩ | ⟨-, -, happly, -⟩ |
    ⟨-, -, offer, pending, -, heq⟩
  · rw [Peer.isAlive] at halive
    simp [hpending, halive] at hidle
  · rw [hchanges] at hnone
    cases hnone
  · have hoffer := hlaw.apply _ hchanges
    rw [happly] at hoffer
    cases hoffer
  · rw [heq]

/-- **While nobody leaves who is waited for, subscriptions do not outlive their
publisher.** -/
theorem reachable_noStrays (hlaw : S.OffersMedia) {engine : Engine S}
    (h : (machine S config).ReachableVia (fun engine event => engine.AnswersAccepted event ∧
      engine.SparesAwaited event ∧ engine.StopsRegister event) engine)
    (hstops : ∀ sub, engine.Holds sub → sub.StopsRegister engine.heap) : engine.NoStrays := by
  intro name room hroom sub hsub halive hpending hquiet track hmem
  obtain ⟨hsound, -⟩ := reachable_sound h
  have hmember : sub ∈ (engine.call name).peers := by rwa [call_peers hroom]
  have hopening : track.isNegotiating = false :=
    Call.reachable_negotiating hlaw (reachable_call (fun _ _ _ _ _ hok hev _ _ =>
      answersAccepted_call hok.1 hev) h) sub hmember rfl hpending track hmem
  have hstopping : track.isNegotiatingStop = false :=
    Call.reachable_stopping hlaw (reachable_call (fun _ _ _ hsound _ hok hev =>
      ⟨fun _ _ => answersAccepted_call hok.1 hev, hsound.stopsRegister_call hok.2.2 hev _⟩) h)
      sub hmember rfl hpending track hmem
  have hregister : ∀ mid, (track.stopDead engine.heap).state ≠ .toStop mid := by
    intro mid hstop
    have hchanges := (hstops sub ⟨name, room, hroom, hsub⟩).changes hlaw hpending halive hmem hstop
    rw [negotiates_of_hasChanges hlaw hpending halive hchanges] at hquiet
    cases hquiet
  suffices hlive : track.trackIn ∈ engine.heap by simp [Heap.upgrade, hlive]
  rcases track with ⟨trackIn, state⟩
  cases state with
  | toOpen =>
      have hawaits : sub.Awaits trackIn := hmem
      obtain ⟨name', hindex⟩ := Option.isSome_iff_exists.mp
        (reachable_awaited (fun _ _ hok => hok.2.1) h sub ⟨name, room, hroom, hsub⟩ _ hawaits)
      obtain rfl :=
        hsound.indexed.apart name room _ name' hroom ⟨sub, hsub, hawaits.mem_refs⟩ hindex
      obtain ⟨room', pub, hroom', hpub, hid, -⟩ := hsound.lookup_find hindex
      obtain rfl := Option.some_inj.mp (hroom.symm.trans hroom')
      exact (hsound.agrees hroom hsub _ hawaits.mem_refs).mpr
        ((hsound.subscribed hroom).mem_heap hsub (.refl _ _) hpub hawaits.mem_refs hid.symm)
  | opened mid =>
      by_contra hdead
      exact hregister mid (by simp [TrackOut.stopDead, Heap.upgrade, hdead])
  | toStop mid => exact absurd rfl (hregister mid)
  | negotiating mid => cases hopening
  | negotiatingStop mid => cases hstopping

/-- Whether nobody leaves, or nobody waits for anything. -/
def spares (engine : Engine scripted) (event : Event scripted) : Bool :=
  (engine.leavers event).isEmpty || engine.rooms.entries.all fun entry =>
    entry.2.peers.all fun peer => peer.tracksOut.all fun track => decide (track.state ≠ .toOpen)

theorem spares_awaited {engine : Engine scripted} {event : Event scripted}
    (h : spares engine event = true) : engine.SparesAwaited event := by
  intro gone hgone sub hsub _ track hawaits
  rcases Bool.or_eq_true_iff.mp h with hnobody | hopened
  · rw [List.isEmpty_iff.mp hnobody] at hgone
    cases hgone
  · obtain ⟨name, room, hroom, hmem⟩ := hsub
    have hpeers := List.all_eq_true.mp hopened _ (AList.mem_lookup_iff.mp hroom)
    have htracks := List.all_eq_true.mp (List.all_eq_true.mp hpeers sub hmem) _ hawaits
    simp at htracks

/-- Ann leaves after Bob has opened what she says, and Bob lets go of it. -/
def farewell : List (Event scripted) :=
  (Puppet.talk ++ [Puppet.turn [(.leave ⟨1⟩, "")] ["red"] none,
    Puppet.turn [(.answer ⟨2⟩ "answer", "")] ["red"] none]).flatMap Turn.events

theorem reachable_noStrays_farewell :
    ∃ engine room sub, (machine scripted Puppet.config).ReachableVia
        (fun engine event => engine.AnswersAccepted event ∧ engine.SparesAwaited event ∧
          engine.StopsRegister event) engine ∧
      engine.rooms.lookup "red" = some room ∧ sub ∈ room.peers ∧ sub.ops ≠ [] ∧
      sub.tracksOut = [] ∧ engine.NoStrays := by
  obtain ⟨engine, hrun, hcheck⟩ := (Option.any_eq_true _ _).mp (by decide +kernel :
    ((machine scripted Puppet.config).runIf
      (fun engine event => Puppet.behaves event && spares engine event)
      (start Puppet.config 0) farewell).any (fun engine =>
        (engine.rooms.lookup "red").any fun room => room.peers.any fun peer =>
          !peer.ops.isEmpty && decide (peer.tracksOut = [])) = true)
  obtain ⟨room, hroom, hany⟩ := (Option.any_eq_true _ _).mp hcheck
  obtain ⟨sub, hsub, hstate⟩ := List.any_eq_true.mp hany
  simp only [Bool.and_eq_true, Bool.not_eq_true', decide_eq_true_eq] at hstate
  have hreach : (machine scripted Puppet.config).ReachableVia
      (fun engine event => engine.AnswersAccepted event ∧ engine.SparesAwaited event ∧
        engine.StopsRegister event) engine := by
    refine .of_runIf (fun engine event hguard => ?_) (.init ⟨0, rfl⟩) hrun
    obtain ⟨hbehaves, hspares⟩ := Bool.and_eq_true_iff.mp hguard
    exact ⟨behaves_answersAccepted hbehaves, spares_awaited hspares,
      fun _ poll _ => poll.before.stopsRegister scripted_offersChanges poll.heap⟩
  exact ⟨engine, room, sub, hreach, hroom, hsub, by simpa using hstate.1, hstate.2,
    reachable_noStrays scripted_offersChanges.offersMedia hreach
      fun sub _ => sub.stopsRegister scripted_offersChanges engine.heap⟩

/-- Ann leaves before Bob has been offered what she says. -/
def hangup : List (Event scripted) :=
  (Puppet.meeting.take 2).flatMap Turn.events ++ [.command (.leave ⟨1⟩) ""]

/-- A subscription whose publisher left before it was opened stays, with nothing
left to negotiate. -/
theorem noStrays_fails :
    ∃ engine, (machine scripted Puppet.config).runIf (fun _ event => Puppet.behaves event)
        (start Puppet.config 0) hangup = some engine ∧
      (machine scripted Puppet.config).ReachableVia AnswersAccepted engine ∧ ¬engine.NoStrays := by
  obtain ⟨engine, hrun, hcheck⟩ := (Option.any_eq_true _ _).mp (by decide +kernel :
    ((machine scripted Puppet.config).runIf (fun _ event => Puppet.behaves event)
      (start Puppet.config 0) hangup).any (fun engine =>
        (engine.rooms.lookup "red").any fun room => room.peers.any fun peer =>
          peer.isAlive && peer.pending.isNone && !(peer.negotiateIfNeeded engine.heap).1 &&
            peer.tracksOut.any fun track => (engine.heap.upgrade track.trackIn).isNone) = true)
  obtain ⟨room, hroom, hany⟩ := (Option.any_eq_true _ _).mp hcheck
  obtain ⟨sub, hsub, hstate⟩ := List.any_eq_true.mp hany
  simp only [Bool.and_eq_true, Bool.not_eq_true', List.any_eq_true] at hstate
  obtain ⟨⟨⟨halive, hpending⟩, hquiet⟩, track, hmem, hdead⟩ := hstate
  refine ⟨engine, hrun, .of_runIf (fun _ _ h => behaves_answersAccepted h) (.init ⟨0, rfl⟩) hrun,
    fun hall => ?_⟩
  have hlive := hall "red" room hroom sub hsub halive (Option.isNone_iff_eq_none.mp hpending)
    hquiet track hmem
  rw [Option.isNone_iff_eq_none.mp hdead] at hlive
  cases hlive

end Engine

end FerriteSfu
