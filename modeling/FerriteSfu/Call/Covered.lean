import FerriteSfu.Call.Attribution
import FerriteSfu.Call.Lives
import FerriteSfu.Call.Negotiation

/-!
Subscriptions that an offer covers.

What a negotiation begins is covered while the offer it makes is outstanding.
`add_media` always registers a change, so an m-line that is being opened is covered
as long as answers are accepted. `stop_media` need not: it stops no m-line that the
browser has stopped already, and where nothing else changed no offer is made. Then
the subscription waits for an answer to nothing.
-/

namespace FerriteSfu

variable {S : Str0m} {config : Config} {name : String}

namespace TrackOut

def isNegotiating (track : TrackOut) : Bool :=
  match track.state with
  | .negotiating _ => true
  | .toOpen | .opened _ | .toStop _ | .negotiatingStop _ => false

/-- Marking an m-line for its stop begins nothing. -/
theorem stopDead_busy (busy : TrackOut → Bool)
    (hopened : ∀ trackIn mid, busy ⟨trackIn, .opened mid⟩ = false)
    (hstop : ∀ trackIn mid, busy ⟨trackIn, .toStop mid⟩ = false) (heap : Heap)
    (track : TrackOut) : busy (track.stopDead heap) = busy track := by
  rcases track with ⟨trackIn, state⟩
  cases state with
  | opened mid =>
      simp only [stopDead]
      split
      · rw [hstop, hopened]
      · rfl
  | toOpen | negotiating | toStop | negotiatingStop => rfl

/-- What is to be stopped was to be stopped before, or has lost its publisher. -/
theorem stopDead_toStop {heap : Heap} {track : TrackOut} {mid : Mid}
    (h : (track.stopDead heap).state = .toStop mid) :
    track.state = .toStop mid ∨ track.state = .opened mid ∧ track.trackIn ∉ heap := by
  rcases track with ⟨trackIn, state⟩
  cases state with
  | opened mid' =>
      simp only [stopDead] at h
      split at h
      · rename_i hdead
        cases h
        exact .inr ⟨rfl, by simpa [Heap.upgrade] using hdead⟩
      · cases h
  | toStop mid' => exact .inl h
  | toOpen | negotiating | negotiatingStop => cases h

/-- A track changes nothing, and then is not to be stopped, or registers a change. -/
theorem negotiate_change (hlaw : S.OffersMedia) (heap : Heap) {change : S.SdpApi}
    {track : TrackOut} (hstops : ∀ mid, track.state = .toStop mid →
      S.hasChanges (S.stopMedia change mid) = true) :
    (track.negotiate heap change).2.1 = change ∧ (∀ mid, track.state ≠ .toStop mid) ∨
      S.hasChanges (track.negotiate heap change).2.1 = true := by
  rcases track with ⟨trackIn, state⟩
  cases state with
  | toOpen =>
      simp only [negotiate]
      split
      · exact .inr (hlaw.addMedia _ _ _ _)
      · exact .inl ⟨rfl, fun _ h => by cases h⟩
  | toStop mid => exact .inr (hstops mid rfl)
  | negotiating | opened | negotiatingStop => exact .inl ⟨rfl, fun _ h => by cases h⟩

theorem inFlight_eq (track : TrackOut) :
    track.inFlight = (track.isNegotiating || track.isNegotiatingStop) := by
  rcases track with ⟨trackIn, state⟩
  cases state <;> rfl

/-- An m-line is being opened that was before, or was created just now. -/
theorem negotiate_isNegotiating {heap : Heap} {change : S.SdpApi} {track : TrackOut}
    (h : (track.negotiate heap change).1.isNegotiating = true) :
    track.isNegotiating = true ∨ (track.negotiate heap change).2.2 ≠ [] := by
  rcases track with ⟨trackIn, state⟩
  cases state with
  | toOpen =>
      simp only [negotiate] at h ⊢
      split at h
      · exact .inr (by simp)
      · cases h
  | negotiating mid => exact .inl rfl
  | opened | toStop | negotiatingStop => cases h

/-- An m-line is being stopped that was before, or was to be. -/
theorem negotiate_isNegotiatingStop {heap : Heap} {change : S.SdpApi} {track : TrackOut}
    (h : (track.negotiate heap change).1.isNegotiatingStop = true) :
    track.isNegotiatingStop = true ∨ ∃ mid, track.state = .toStop mid := by
  rcases track with ⟨trackIn, state⟩
  cases state with
  | toStop mid => exact .inr ⟨mid, rfl⟩
  | negotiatingStop mid => exact .inl rfl
  | toOpen =>
      simp only [negotiate] at h
      split at h <;> cases h
  | negotiating | opened => cases h

end TrackOut

theorem negotiateTracks_isNegotiating {heap : Heap} {change : S.SdpApi} {tracks : List TrackOut}
    {track : TrackOut} (hmem : track ∈ (negotiateTracks heap change tracks).1)
    (h : track.isNegotiating = true) :
    (∃ old ∈ tracks, old.isNegotiating = true) ∨
      (negotiateTracks heap change tracks).2.2 ≠ [] := by
  induction tracks generalizing change with
  | nil => cases hmem
  | cons first tracks ih =>
      simp only [negotiateTracks, List.mem_cons] at hmem ⊢
      rcases hmem with rfl | hmem
      · rcases TrackOut.negotiate_isNegotiating h with hold | hnew
        · exact .inl ⟨first, .inl rfl, hold⟩
        · exact .inr fun hnil => hnew (List.append_eq_nil_iff.mp hnil).1
      · rcases ih hmem with ⟨old, hold, hnegotiating⟩ | hnew
        · exact .inl ⟨old, .inr hold, hnegotiating⟩
        · exact .inr fun hnil => hnew (List.append_eq_nil_iff.mp hnil).2

/-- Where each stop registers a change with the changes that there are to begin with,
so does the negotiation that makes one of them. -/
theorem negotiateTracks_toStop (hlaw : S.OffersMedia) {heap : Heap} {change : S.SdpApi}
    {tracks : List TrackOut} (hstops : ∀ track ∈ tracks, ∀ mid, track.state = .toStop mid →
      S.hasChanges (S.stopMedia change mid) = true)
    {track : TrackOut} (hmem : track ∈ tracks) {mid : Mid} (hstop : track.state = .toStop mid) :
    S.hasChanges (negotiateTracks heap change tracks).2.1 = true := by
  induction tracks with
  | nil => cases hmem
  | cons first tracks ih =>
      show S.hasChanges (negotiateTracks heap (first.negotiate heap change).2.1 tracks).2.1 = true
      -- The first track that changes anything registers it.
      rcases TrackOut.negotiate_change hlaw heap (hstops first List.mem_cons_self) with
        ⟨hsame, hidle⟩ | hchanges
      · rw [hsame]
        refine ih (fun track hmem => hstops track (List.mem_cons_of_mem _ hmem)) ?_
        exact (List.mem_cons.mp hmem).resolve_left fun heq => hidle mid (heq ▸ hstop)
      · exact negotiateTracks_hasChanges hlaw (.inl hchanges)

namespace Peer

/-- What is `busy` is covered by the outstanding offer: without one, nothing is. -/
def Covers (busy : TrackOut → Bool) (peer : Peer S) : Prop :=
  peer.pending = none → ∀ track ∈ peer.tracksOut, busy track = false

/-- `stop_media` registers a change for each m-line that a negotiation would stop now:
one that is to be stopped already, or carries a track whose publisher is gone. -/
def StopsRegister (heap : Heap) (peer : Peer S) : Prop :=
  peer.pending = none → peer.isAlive = true → ∀ track ∈ peer.tracksOut, ∀ mid,
    track.state = .toStop mid ∨ track.state = .opened mid ∧ track.trackIn ∉ heap →
      S.hasChanges (S.stopMedia (S.sdpApi peer.rtc) mid) = true

theorem stopsRegister (hlaw : S.OffersChanges) (heap : Heap) (peer : Peer S) :
    peer.StopsRegister heap := fun _ _ _ _ mid _ => hlaw.stopMedia _ mid

theorem StopsRegister.changes {peer : Peer S} {heap : Heap} (h : peer.StopsRegister heap)
    (hlaw : S.OffersMedia) (hfree : peer.pending = none) (halive : peer.isAlive = true)
    {track : TrackOut} (hmem : track ∈ peer.tracksOut) {mid : Mid}
    (hstop : (track.stopDead heap).state = .toStop mid) :
    S.hasChanges (peer.changes heap).2.1 = true := by
  refine negotiateTracks_toStop hlaw ?_ (List.mem_map_of_mem hmem) hstop
  rw [List.forall_mem_map]
  exact fun old hold mid' hstop' =>
    h hfree halive old hold mid' (TrackOut.stopDead_toStop hstop')

variable {busy : TrackOut → Bool} {peer peer' : Peer S}

theorem Covers.congr (h : peer.Covers busy) (htracks : peer'.tracksOut = peer.tracksOut)
    (hpending : peer'.pending = peer.pending) : peer'.Covers busy := by
  unfold Covers
  rw [htracks, hpending]
  exact h

theorem Covers.append (hopen : ∀ track : TrackIn, busy ⟨track, .toOpen⟩ = false)
    (h : peer.Covers busy) (tracks : List TrackIn)
    (htracks : peer'.tracksOut = peer.tracksOut ++ tracks.map fun trackIn => ⟨trackIn, .toOpen⟩)
    (hpending : peer'.pending = peer.pending) : peer'.Covers busy := by
  intro hfree track hmem
  rw [htracks] at hmem
  rcases List.mem_append.mp hmem with hmem | hmem
  · exact h (hpending.symm.trans hfree) track hmem
  · obtain ⟨trackIn, -, rfl⟩ := List.mem_map.mp hmem
    exact hopen trackIn

theorem Covers.receive (hopen : ∀ track : TrackIn, busy ⟨track, .toOpen⟩ = false)
    (h : peer.Covers busy) (heap : Heap) (propagated : Propagated S) :
    (peer.receive heap propagated).Covers busy :=
  h.append hopen (opens [propagated]) (receive_tracksOut heap propagated peer)
    (receive_pending heap propagated peer)

/-- An answer that is accepted leaves nothing in flight. -/
theorem Covers.acceptAnswer (hflight : ∀ track, busy track = true → track.inFlight = true)
    (h : peer.Covers busy) {answer : S.SdpAnswer}
    (haccept : ∀ pending, peer.pending = some pending →
      (S.acceptAnswer peer.rtc pending answer).1.isOk = true) :
    (peer.acceptAnswer answer).2.Covers busy := by
  rcases acceptAnswer_cases answer peer with ⟨-, heq⟩ | ⟨pending, hpending, hreject, -⟩ |
    ⟨pending, -, -, heq⟩
  · rwa [heq]
  · rw [haccept pending hpending] at hreject
    cases hreject
  · intro _ track hmem
    rw [heq] at hmem
    obtain ⟨hmem, hkept⟩ := List.mem_filter.mp hmem
    obtain ⟨track', -, rfl⟩ := List.mem_map.mp hmem
    refine Bool.eq_false_iff.mpr fun hbusy => ?_
    have hstops := hflight _ hbusy
    rw [TrackOut.settle_inFlight] at hstops
    simp [hstops] at hkept

/-- A negotiation covers what it begins, if it begins nothing without a change. -/
theorem Covers.negotiateIfNeeded (hlaw : S.OffersMedia) (h : peer.Covers busy) {heap : Heap}
    (hquiet : peer.pending = none → peer.isAlive = true →
      S.hasChanges (peer.changes heap).2.1 = false →
      ∀ track ∈ (peer.changes heap).1, busy track = false) :
    (peer.negotiateIfNeeded heap).2.Covers busy := by
  cases halive : peer.isAlive with
  | false =>
      have hdead : S.isAlive peer.rtc = false := halive
      simpa [Peer.negotiateIfNeeded, hdead] using h
  | true =>
      rcases negotiateIfNeeded_cases heap peer with ⟨-, heq⟩ | ⟨hfree, hnone, heq⟩ |
        ⟨-, hsome, happly, -⟩ | ⟨-, -, offer, pending, -, heq⟩
      · exact heq ▸ h
      · rw [heq]
        exact fun _ => hquiet hfree halive hnone
      · have hoffer := hlaw.apply _ hsome
        rw [happly] at hoffer
        cases hoffer
      · rw [heq]
        intro hnone
        cases hnone

/-- The `Rtc`'s output changes neither subscriptions nor what is outstanding. -/
theorem pollOutput_negotiated (heap : Heap) (now : Instant) {peer : Peer S}
    (halive : peer.isAlive = true) :
    (peer.pollOutput heap now).2.1.tracksOut = (peer.negotiateIfNeeded heap).2.tracksOut ∧
      (peer.pollOutput heap now).2.1.pending = (peer.negotiateIfNeeded heap).2.pending := by
  rcases pollOutput_cases heap now peer with ⟨hdead, -⟩ | ⟨-, -, heq⟩ |
    ⟨-, -, output, rtc, -, heq⟩ | ⟨-, -, error, rtc, -, heq⟩
  · rw [isAlive, hdead] at halive
    cases halive
  · rw [heq]
    exact ⟨rfl, rfl⟩
  · rw [heq]
    have hhandled := handleOutput_handled heap now output
      (Peer.record (.polled output) { (peer.negotiateIfNeeded heap).2 with rtc := rtc })
    exact ⟨hhandled.tracksOut, hhandled.pending⟩
  · rw [heq]
    exact ⟨rfl, rfl⟩

theorem Covers.pollOutput (h : peer.Covers busy) {heap : Heap} (now : Instant)
    (hneg : (peer.negotiateIfNeeded heap).2.Covers busy) :
    (peer.pollOutput heap now).2.1.Covers busy := by
  cases halive : peer.isAlive with
  | false =>
      have hdead : S.isAlive peer.rtc = false := halive
      simpa [Peer.pollOutput, hdead] using h
  | true =>
      obtain ⟨htracks, hpending⟩ := pollOutput_negotiated heap now halive
      exact hneg.congr htracks hpending

/-- M-lines are opened under an offer. -/
theorem Covers.negotiating (hlaw : S.OffersMedia) (h : peer.Covers TrackOut.isNegotiating)
    (heap : Heap) : (peer.negotiateIfNeeded heap).2.Covers TrackOut.isNegotiating := by
  refine h.negotiateIfNeeded hlaw fun hfree _ hnone track hmem => ?_
  refine Bool.eq_false_iff.mpr fun hbusy => ?_
  rcases negotiateTracks_isNegotiating hmem hbusy with ⟨stopped, hstopped, hold⟩ | hnew
  · obtain ⟨old, hmem', rfl⟩ := List.mem_map.mp hstopped
    rw [TrackOut.stopDead_busy TrackOut.isNegotiating (fun _ _ => rfl) (fun _ _ => rfl),
      h hfree old hmem'] at hold
    cases hold
  · rw [changes, negotiateTracks_hasChanges hlaw (.inr hnew)] at hnone
    cases hnone

/-- And stopped under one, if that registers. -/
theorem Covers.stopping (hlaw : S.OffersMedia) (h : peer.Covers TrackOut.isNegotiatingStop)
    {heap : Heap} (hstops : peer.StopsRegister heap) :
    (peer.negotiateIfNeeded heap).2.Covers TrackOut.isNegotiatingStop := by
  refine h.negotiateIfNeeded hlaw fun hfree halive hnone track hmem => ?_
  refine Bool.eq_false_iff.mpr fun hbusy => ?_
  obtain ⟨old, hold, change, rfl⟩ := mem_changes hmem
  rcases TrackOut.negotiate_isNegotiatingStop hbusy with hbefore | ⟨mid, hstop⟩
  · rw [TrackOut.stopDead_busy TrackOut.isNegotiatingStop (fun _ _ => rfl) (fun _ _ => rfl),
      h hfree old hold] at hbefore
    cases hbefore
  · rw [hstops.changes hlaw hfree halive hold hstop] at hnone
    cases hnone

/-! ### A pass -/

theorem Covers.drain {clock : List Instant} {heap : Heap} {drained : Drained S}
    (h : peer.Covers busy) (hdrain : peer.drain clock heap = some drained)
    (hpolls : ∀ poll ∈ peer.polls clock heap, poll.before.Covers busy → poll.after.Covers busy) :
    drained.peer.Covers busy := by
  refine polls_rule (P := fun polls _ peer drained => peer.Covers busy →
    (∀ poll ∈ polls, poll.before.Covers busy → poll.after.Covers busy) →
      drained.peer.Covers busy) (fun _ _ _ h _ => h) ?asleep ?goesOn hdrain h hpolls
  case asleep =>
    intro poll _ _ _ _ h hpolls
    exact hpolls poll (by simp) h
  case goesOn =>
    intro poll polls _ _ _ _ _ _ ih h hpolls
    exact ih (hpolls poll (by simp) h) fun poll' hpoll' => hpolls poll' (by simp [hpoll'])

theorem Covers.receiveAll (hopen : ∀ track : TrackIn, busy ⟨track, .toOpen⟩ = false)
    (h : peer.Covers busy) (heap : Heap) (queue : List (Propagated S)) :
    (peer.receiveAll heap queue).Covers busy := by
  unfold Peer.receiveAll
  generalize peer.fromOthers queue = queue
  induction queue generalizing peer with
  | nil => exact h
  | cons propagated queue ih => exact ih (h.receive hopen heap propagated)

end Peer

namespace Call

/-- In the step, the negotiations of the peer `id` register what they stop. -/
def StopsRegisterOf (id : PeerId) (call : Call S) (event : CallEvent S) : Prop :=
  ∀ poll ∈ call.polls id event, poll.before.StopsRegister poll.heap

variable {busy : TrackOut → Bool} {id : PeerId}

/-- What happens to the peer `id` between polls uncovers nothing. -/
theorem covers_unpolled (hflight : ∀ track, busy track = true → track.inFlight = true) :
    Unpolled (AnswersAcceptedOf (S := S) id) fun peer peer' => peer'.id = peer.id ∧
      (peer.id = id → peer.Covers busy → peer'.Covers busy) where
  refl _ := ⟨rfl, fun _ h => h⟩
  trans _ _ _ h h' :=
    ⟨h'.1.trans h.1, fun hid hcovers => h'.2 (h.1.trans hid) (h.2 hid hcovers)⟩
  send _ _ := ⟨rfl, fun _ h => h.congr rfl rfl⟩
  flags _ _ _ _ := ⟨rfl, fun _ h => h.congr rfl rfl⟩
  answer _ own sdp answer hok hparse peer hmem hown := by
    refine ⟨Peer.id_eq_of_card (Peer.acceptAnswer_frame answer peer).1, fun hid h => ?_⟩
    obtain rfl : id = own := hid.symm.trans hown
    exact h.acceptAnswer hflight fun pending hpending =>
      hok sdp rfl peer hmem hid answer pending hparse hpending
  handleInput input peer :=
    ⟨Peer.handleInput_id input peer, fun _ h =>
      h.congr (Peer.handleInput_tracksOut input peer) (Peer.handleInput_pending input peer)⟩

/-- **One step.** What polling covers stays covered. -/
theorem step_covers (hopen : ∀ track : TrackIn, busy ⟨track, .toOpen⟩ = false)
    (hflight : ∀ track, busy track = true → track.inFlight = true) {call call' : Call S}
    (hnum : call.Numbered) {event : CallEvent S} (hok : call.AnswersAcceptedOf id event)
    (hpolls : ∀ poll ∈ call.polls id event, poll.before.Covers busy → poll.after.Covers busy)
    (hstep : call.step config name event = some call')
    (h : ∀ peer ∈ call.peers, peer.id = id → peer.Covers busy) :
    ∀ peer ∈ call'.peers, peer.id = id → peer.Covers busy := by
  by_cases hpolled : ∃ clock, event = .poll clock
  · obtain ⟨clock, rfl⟩ := hpolled
    simp only [Call.step, Call.poll] at hstep
    cases hroom : call.room with
    | none =>
        rw [hroom] at hstep
        cases hstep
        simp [peers_of_none hroom]
    | some room =>
        rw [hroom] at hstep
        obtain ⟨polled, hpass, rfl⟩ := Option.map_eq_some_iff.mp hstep
        obtain ⟨drained, hdrained, rfl⟩ := Option.map_eq_some_iff.mp hpass
        have hids : room.ids.Nodup := by simpa [Room.ids, hroom] using hnum.ids
        rw [Room.propagateAll_eq, peers_of_room rfl, List.forall_mem_map]
        intro peer hpeer hid
        obtain ⟨old, hold, clock', heap', first, hdrain, rfl, hsame, -⟩ :=
          (drainPeers_polls hids hdrained).exists_left hpeer
        have hown : old.id = id :=
          (Peer.id_eq_of_card (Peer.drain_polled hdrain).card).symm.trans
            ((Peer.calm_receiveAll _ _ _).id.symm.trans hid)
        refine Peer.Covers.receiveAll hopen (Peer.Covers.drain
          (h old (peers_of_room hroom ▸ hold) hown) hdrain ?_) _ _
        simpa [polls, hroom, ← hown, hsame] using hpolls
  · intro peer' hpeer' hid
    rcases (covers_unpolled hflight).step hnum (fun clock he => hpolled ⟨clock, he⟩) hok
      hstep peer' hpeer' with ⟨peer, hpeer, hsame, hcovers⟩ |
      ⟨room, request, seed, offer, callId, answer, rfl⟩
    · have hown : peer.id = id := hsame.symm.trans hid
      exact hcovers hown (h peer hpeer hown)
    · intro _ track hmem
      obtain ⟨trackIn, -, rfl⟩ := List.mem_map.mp hmem
      exact hopen trackIn

/-- **What polling covers is covered in every run.** -/
theorem reachable_covers (hopen : ∀ track : TrackIn, busy ⟨track, .toOpen⟩ = false)
    (hflight : ∀ track, busy track = true → track.inFlight = true)
    {ok : Call S → CallEvent S → Prop}
    (haccept : ∀ call event, ok call event → call.AnswersAcceptedOf id event)
    (hpolls : ∀ call event, ok call event → ∀ poll ∈ call.polls id event,
      poll.before.Covers busy → poll.after.Covers busy) {call : Call S}
    (h : (machine S config name).ReachableVia ok call) :
    ∀ peer ∈ call.peers, peer.id = id → peer.Covers busy := by
  refine Lib.Machine.Invariant.holds (I := fun call : Call S => ∀ peer ∈ call.peers,
    peer.id = id → peer.Covers busy) ⟨?_, ?_⟩ h
  · rintro call rfl peer hpeer
    simp [peers_of_none (rfl : (idle : Call S).room = none)] at hpeer
  · intro call event call' hreach hall hok hstep
    exact step_covers hopen hflight (reachable_numbered hreach) (haccept call event hok)
      (hpolls call event hok) hstep hall

/-- While answers are accepted, m-lines are opened under an offer. -/
theorem reachable_negotiating (hlaw : S.OffersMedia) {call : Call S}
    (h : (machine S config name).ReachableVia (AnswersAcceptedOf id) call) :
    ∀ peer ∈ call.peers, peer.id = id → peer.Covers TrackOut.isNegotiating := by
  refine reachable_covers (fun _ => rfl)
    (fun track hbusy => by simp [TrackOut.inFlight_eq, hbusy]) (fun _ _ hok => hok) ?_ h
  intro call event _ poll _ hcovers
  exact hcovers.pollOutput poll.now (hcovers.negotiating hlaw poll.heap)

/-- While stopping registers as well, m-lines are stopped under an offer. -/
theorem reachable_stopping (hlaw : S.OffersMedia) {call : Call S}
    (h : (machine S config name).ReachableVia
      (fun call event => call.AnswersAcceptedOf id event ∧ call.StopsRegisterOf id event) call) :
    ∀ peer ∈ call.peers, peer.id = id → peer.Covers TrackOut.isNegotiatingStop := by
  refine reachable_covers (fun _ => rfl)
    (fun track hbusy => by simp [TrackOut.inFlight_eq, hbusy]) (fun _ _ hok => hok.1) ?_ h
  intro call event hok poll hpoll hcovers
  exact hcovers.pollOutput poll.now (hcovers.stopping hlaw (hok.2 poll hpoll))

end Call

end FerriteSfu
