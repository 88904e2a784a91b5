import FerriteSfu.Call.Covered
import FerriteSfu.Call.Rounds

/-!
A room in which nothing new is published.

A pass in which no track is opened makes a peer that has nothing outstanding
ready: whatever its subscriptions still need is in the offer it makes. A peer that
is ready makes no further offer, so once that one has been answered nothing is left to
do, and nothing is done any more.
-/

namespace FerriteSfu

variable {S : Str0m} {config : Config} {name : String}

namespace TrackOut

/-- Once the outstanding offer has been answered, nothing is left to do about the
subscription. -/
def Ready (heap : Heap) (track : TrackOut) : Prop :=
  track.isNegotiatingStop = true ∨ track.settle.Rests heap

theorem Rests.ready {heap : Heap} {track : TrackOut} (h : track.Rests heap) :
    track.Ready heap := by
  rcases track with ⟨trackIn, state⟩
  rcases h with ⟨mid, rfl, hlive⟩ | ⟨rfl, hdead⟩
  · exact .inr (.inl ⟨mid, rfl, hlive⟩)
  · exact .inr (.inr ⟨rfl, hdead⟩)

theorem Ready.rests {heap : Heap} {track : TrackOut} (h : track.Ready heap)
    (hopen : track.isNegotiating = false) (hstop : track.isNegotiatingStop = false) :
    track.Rests heap := by
  have hflight : track.inFlight = false := by rw [inFlight_eq, hopen, hstop]; rfl
  exact settle_of_not_inFlight hflight ▸ h.resolve_left (by simp [hstop])

/-- A negotiation makes a subscription ready whose m-line is not being opened. -/
theorem round_ready (heap : Heap) {track : TrackOut} (hopen : track.isNegotiating = false)
    (change : S.SdpApi) : ((track.stopDead heap).negotiate heap change).1.Ready heap := by
  rcases track with ⟨trackIn, state⟩
  cases state with
  | negotiatingStop mid => exact .inl rfl
  | negotiating mid => cases hopen
  | toOpen | opened | toStop => exact round_rests heap rfl change

theorem openLine_of_isNegotiatingStop {track : TrackOut} (h : track.isNegotiatingStop = true) :
    track.openLine = none := by
  rcases track with ⟨trackIn, state⟩
  cases state with
  | negotiatingStop mid => rfl
  | toOpen | negotiating | opened | toStop => cases h

theorem negotiate_of_isNegotiatingStop {track : TrackOut} (h : track.isNegotiatingStop = true)
    (heap : Heap) (change : S.SdpApi) :
    track.stopDead heap = track ∧ track.negotiate heap change = (track, change, []) := by
  rcases track with ⟨trackIn, state⟩
  cases state with
  | negotiatingStop mid => exact ⟨rfl, rfl⟩
  | toOpen | negotiating | opened | toStop => cases h

end TrackOut

namespace Peer

/-- The offer that is outstanding, if any, is all there is to negotiate. -/
def Ready (heap : Heap) (peer : Peer S) : Prop := ∀ track ∈ peer.tracksOut, track.Ready heap

theorem Ready.congr {heap : Heap} {peer peer' : Peer S} (h : peer.Ready heap)
    (htracks : peer'.tracksOut = peer.tracksOut) : peer'.Ready heap := by
  unfold Ready
  rwa [htracks]

/-- A peer that is ready makes no offer. -/
theorem Ready.negotiateIfNeeded (hlaw : S.OffersMedia) (hdrops : S.DropsChanges) {heap : Heap}
    {peer : Peer S} (h : peer.Ready heap) (hcovers : peer.Covers TrackOut.isNegotiating) :
    peer.negotiateIfNeeded heap = (false, peer) := by
  cases hpending : peer.pending with
  | some pending => simp [Peer.negotiateIfNeeded, hpending]
  | none =>
      have hidle : ∀ track ∈ peer.tracksOut, ∀ change : S.SdpApi,
          track.stopDead heap = track ∧ track.negotiate heap change = (track, change, []) := by
        intro track hmem change
        cases hstop : track.isNegotiatingStop with
        | true => exact TrackOut.negotiate_of_isNegotiatingStop hstop heap change
        | false =>
            have hrests := (h track hmem).rests (hcovers hpending track hmem) hstop
            exact ⟨hrests.stopDead, hrests.negotiate change⟩
      exact negotiateIfNeeded_idle hlaw.sdpApi hdrops
        (fun track hmem => (hidle track hmem (S.sdpApi peer.rtc)).1)
        fun track hmem change => (hidle track hmem change).2

/-- A negotiation makes a peer ready. -/
theorem Covers.ready_negotiateIfNeeded {heap : Heap} {peer : Peer S}
    (h : peer.Covers TrackOut.isNegotiating) (hpending : peer.pending = none)
    (halive : peer.isAlive = true) : (peer.negotiateIfNeeded heap).2.Ready heap := by
  have htracks : (peer.negotiateIfNeeded heap).2.tracksOut = (peer.changes heap).1 := by
    rcases negotiateIfNeeded_cases heap peer with ⟨hidle, -⟩ | ⟨-, -, heq⟩ | ⟨-, -, -, heq⟩ |
      ⟨-, -, offer, pending, -, heq⟩
    · rw [isAlive] at halive
      simp [hpending, halive] at hidle
    all_goals rw [heq]; rfl
  intro track hmem
  rw [htracks] at hmem
  obtain ⟨old, hold, change, rfl⟩ := mem_changes hmem
  exact TrackOut.round_ready heap (h hpending old hold) change

theorem Ready.acceptAnswer {heap : Heap} {peer : Peer S} (h : peer.Ready heap)
    (answer : S.SdpAnswer) : (peer.acceptAnswer answer).2.Ready heap := by
  rcases acceptAnswer_tracksOut answer peer with heq | heq
  · exact h.congr heq
  · intro track hmem
    rw [heq] at hmem
    obtain ⟨hmem, hkept⟩ := List.mem_filter.mp hmem
    obtain ⟨old, hold, rfl⟩ := List.mem_map.mp hmem
    rcases h old hold with hstop | hrests
    · rw [TrackOut.settle_isNegotiatingStop, hstop] at hkept
      cases hkept
    · exact hrests.ready

/-! ### Polling without an opening -/

/-- What is about to be negotiated is all there is to do. -/
def Near (heap : Heap) (peer : Peer S) : Prop :=
  peer.Ready heap ∨ peer.isAlive = true ∧ peer.pending = none

/-- What polling makes of a peer while no track is opened: whoever is near gets
ready, and whoever is ready makes no offer. -/
structure Readied (heap : Heap) (peer peer' : Peer S) : Prop where
  ready : peer.Near heap → peer'.Ready heap
  pending : peer.Ready heap → peer'.pending = peer.pending

theorem Readied.congr {heap : Heap} {peer peer' peer'' : Peer S} (h : Readied heap peer peer')
    (htracks : peer''.tracksOut = peer'.tracksOut) (hpending : peer''.pending = peer'.pending) :
    Readied heap peer peer'' :=
  ⟨fun hnear => (h.ready hnear).congr htracks, fun hready => hpending.trans (h.pending hready)⟩

theorem Covers.pollOutput_readied (hlaw : S.OffersMedia) (hdrops : S.DropsChanges) (heap : Heap)
    {peer : Peer S} (h : peer.Covers TrackOut.isNegotiating) (halive : peer.isAlive = true)
    (now : Instant) : Readied heap peer (peer.pollOutput heap now).2.1 := by
  obtain ⟨htracks, hpending⟩ := pollOutput_negotiated heap now halive
  refine Readied.congr ⟨fun hnear => ?_, fun hready => ?_⟩ htracks hpending
  · rcases hnear with hready | ⟨-, hfree⟩
    · rwa [hready.negotiateIfNeeded hlaw hdrops h]
    · exact h.ready_negotiateIfNeeded hfree halive
  · rw [hready.negotiateIfNeeded hlaw hdrops h]

theorem Covers.drain_readied (hlaw : S.OffersMedia) (hdrops : S.DropsChanges)
    {clock : List Instant} {heap : Heap} {peer : Peer S} {drained : Drained S}
    (h : peer.Covers TrackOut.isNegotiating) (hdrain : peer.drain clock heap = some drained)
    (hopens : opens drained.queue = []) : Readied heap peer drained.peer := by
  refine drain_rule (P := fun _ heap peer drained => opens drained.queue = [] →
    peer.Covers TrackOut.isNegotiating → Readied heap peer drained.peer)
    ?dead ?asleep ?goesOn hdrain hopens h
  case dead =>
    intro _ heap peer hdead _ _
    refine ⟨fun hnear => hnear.resolve_right fun ⟨halive, _⟩ => ?_, fun _ => rfl⟩
    rw [isAlive, hdead] at halive
    cases halive
  case asleep =>
    intro now _ heap heap' wake peer peer' halive hp _ hcovers
    have hpolled := hcovers.pollOutput_readied hlaw hdrops heap halive now
    rwa [hp] at hpolled
  case goesOn =>
    intro now _ heap heap' propagated peer peer' rest halive _ hp _ ih hopens hcovers
    rw [opens_cons, List.append_eq_nil_iff] at hopens
    have hpolled := hcovers.pollOutput_readied hlaw hdrops heap halive now
    have hheap := (pollOutput_polled heap now peer).heap
    have hcovers' := hcovers.pollOutput now (hcovers.negotiating hlaw heap)
    simp only [hp] at hpolled hheap hcovers'
    obtain rfl : heap' = heap := by rw [hheap, hopens.1, List.append_nil]
    have hrest := ih hopens.2 hcovers'
    refine ⟨fun hnear => hrest.ready (.inl (hpolled.ready hnear)), fun hready => ?_⟩
    exact (hrest.pending (hpolled.ready (.inl hready))).trans (hpolled.pending hready)

/-- What opens nothing leaves subscriptions and offers alone. -/
theorem receiveAll_of_opens (heap : Heap) {queue : List (Propagated S)} (h : opens queue = [])
    (peer : Peer S) : (peer.receiveAll heap queue).tracksOut = peer.tracksOut ∧
      (peer.receiveAll heap queue).pending = peer.pending := by
  have hothers : opens (peer.fromOthers queue) = [] :=
    List.sublist_nil.mp (h ▸ List.filter_sublist.filterMap _)
  unfold receiveAll
  generalize peer.fromOthers queue = queue at hothers
  induction queue generalizing peer with
  | nil => exact ⟨rfl, rfl⟩
  | cons propagated queue ih =>
      rw [opens_cons, List.append_eq_nil_iff] at hothers
      obtain ⟨htracks, hpending⟩ := ih (peer.receive heap propagated) hothers.2
      refine ⟨htracks.trans ?_, hpending.trans (receive_pending heap propagated peer)⟩
      rw [receive_tracksOut, hothers.1]
      exact List.append_nil _

end Peer

theorem drainPeers_opens {clock : ℕ → List Instant} {heap : Heap} {timeout : Instant}
    {peers : List (Peer S)} {drained : DrainedPeers S}
    (h : drainPeers clock heap timeout peers = some drained) (hopens : opens drained.queue = []) :
    List.Forall₂ (fun peer peer' => ∃ clock first, peer.drain clock heap = some first ∧
      opens first.queue = [] ∧ first.peer = peer') peers drained.peers := by
  induction peers generalizing clock heap timeout drained with
  | nil =>
      cases h
      exact .nil
  | cons peer peers ih =>
      obtain ⟨first, rest, hfirst, hrest, rfl⟩ := drainPeers_cons h
      rw [opens_append, List.append_eq_nil_iff] at hopens
      have hheap : first.heap = heap := by
        rw [(Peer.drain_polled hfirst).heap, hopens.1, List.append_nil]
      exact .cons ⟨_, first, hfirst, hopens.1, rfl⟩ (ih (hheap ▸ hrest) hopens.2)

namespace Room

variable {clock : ℕ → List Instant} {timeout : Instant} {room : Room S} {polled : PolledRoom S}

/-- A pass that leaves the room with the tracks it had has opened none. -/
theorem opens_of_tracks {drained : DrainedPeers S} (hids : room.ids.Nodup)
    (hdrain : drainPeers clock room.tracks timeout room.peers = some drained)
    (hpass : room.poll clock room.tracks timeout = some polled)
    (hsame : polled.room.tracks = room.tracks) : opens drained.queue = [] := by
  obtain ⟨opened, hheap, horigin, -, -, hall⟩ := poll_pass hids hpass
  have hopened : opened = opens drained.queue := by
    rw [poll, hdrain] at hpass
    cases hpass
    exact (List.append_cancel_left ((drainPeers_polled hids hdrain).1.symm.trans hheap)).symm
  rw [← hopened]
  -- each track that is opened is added to those of its publisher
  have hadded := List.Forall₂.length_flatMap
    (hall.imp fun _ _ hpassed => congrArg List.length hpassed.tracks |>.trans List.length_append)
  have hsame' : polled.room.peers.flatMap Peer.tracks = room.peers.flatMap Peer.tracks := hsame
  rw [hsame'] at hadded
  have hnone : room.peers.flatMap (fun peer => opened.filter fun track => track.origin = peer.id) =
      [] := List.eq_nil_of_length_eq_zero (by omega)
  refine List.eq_nil_iff_forall_not_mem.mpr fun track hmem => ?_
  obtain ⟨peer, hpeer, hid⟩ := horigin track hmem
  exact List.filter_eq_nil_iff.mp (List.flatMap_eq_nil_iff.mp hnone peer hpeer) track hmem
    (by simpa using hid.symm)

/-- **A pass that opens no track makes whoever is near ready.** -/
theorem poll_readied (hlaw : S.OffersMedia) (hdrops : S.DropsChanges) (hids : room.ids.Nodup)
    (hpass : room.poll clock room.tracks timeout = some polled)
    (hsame : polled.room.tracks = room.tracks) :
    List.Forall₂ (fun peer peer' : Peer S => peer'.id = peer.id ∧
      (peer.Covers TrackOut.isNegotiating → Peer.Readied room.tracks peer peer'))
      room.peers polled.room.peers := by
  obtain ⟨drained, hdrain, heq⟩ := Option.map_eq_some_iff.mp hpass
  have hopens := opens_of_tracks hids hdrain hpass hsame
  rw [← heq, propagateAll_eq, List.forall₂_map_right_iff]
  refine (drainPeers_opens hdrain hopens).imp fun peer peer' => ?_
  rintro ⟨clock, first, hfirst, hnone, rfl⟩
  obtain ⟨htracks, hpending⟩ := Peer.receiveAll_of_opens drained.heap hopens first.peer
  refine ⟨?_, fun hcovers => ?_⟩
  · rw [(Peer.calm_receiveAll _ _ _).id]
    exact Peer.id_eq_of_card (Peer.drain_polled hfirst).card
  · exact (hcovers.drain_readied hlaw hdrops hfirst hnone).congr htracks hpending

end Room

/-! ### The steps of a call -/

/-- What steps that poll nobody make of a peer: it stays ready, and no offer is made. -/
structure Peer.Abides (peer peer' : Peer S) : Prop where
  id : peer'.id = peer.id
  ready : ∀ heap, peer.Ready heap → peer'.Ready heap
  free : peer.pending = none → peer'.pending = none

theorem Peer.Abides.of_eq {peer peer' : Peer S} (hid : peer'.id = peer.id)
    (htracks : peer'.tracksOut = peer.tracksOut) (hpending : peer'.pending = peer.pending) :
    peer.Abides peer' :=
  ⟨hid, fun _ hready => hready.congr htracks, fun hfree => hpending.trans hfree⟩

theorem Call.abides_unpolled : Call.Unpolled (fun _ _ => True) (Peer.Abides (S := S)) where
  refl _ := .of_eq rfl rfl rfl
  trans _ _ _ h h' :=
    ⟨h'.id.trans h.id, fun heap hready => h'.ready heap (h.ready heap hready),
      fun hfree => h'.free (h.free hfree)⟩
  send _ _ := .of_eq rfl rfl rfl
  flags _ _ _ _ := .of_eq rfl rfl rfl
  answer _ _ _ answer _ _ peer _ _ :=
    ⟨Peer.id_eq_of_card (Peer.acceptAnswer_frame answer peer).1,
      fun _ hready => hready.acceptAnswer answer, fun _ => Peer.acceptAnswer_pending answer peer⟩
  handleInput input peer :=
    .of_eq (Peer.handleInput_id input peer) (Peer.handleInput_tracksOut input peer)
      (Peer.handleInput_pending input peer)

/-- A member that is ready and has nothing outstanding is served. What it is still
letting go of, if anything, is a track of nobody in the room. -/
theorem Call.Subscribed.serves (hfresh : S.FreshMids) {next : ℕ} {room : Room S} {sub : Peer S}
    (h : Subscribed next room.peers) (hids : room.ids.Nodup) (hsub : sub ∈ room.peers)
    (hlogged : sub.Logged) (hdrawn : sub.Drawn) (hready : sub.Ready room.tracks)
    (hopened : ∀ track ∈ sub.tracksOut, track.isNegotiating = false) : room.Serves sub := by
  have hopen : sub.tracksOut.filterMap TrackOut.openLine =
      (sub.tracksOut.filter fun track => track.openLine.isSome).filterMap TrackOut.line := by
    rw [List.filterMap_filter]
    refine List.filterMap_congr fun track _ => ?_
    rcases track with ⟨trackIn, state⟩
    cases state <;> rfl
  have hlive : (sub.tracksOut.filterMap TrackOut.openLine).map Prod.snd =
      sub.refs.filter fun track => track ∈ room.tracks := by
    rw [Peer.refs, List.map_filterMap, List.filter_map, ← List.filterMap_eq_map',
      List.filterMap_filter]
    refine List.filterMap_congr fun track hmem => ?_
    cases hstop : track.isNegotiatingStop with
    | true =>
        have hdead : track.trackIn ∉ room.tracks := fun hlive => by
          obtain ⟨pub, hpub, hin⟩ := Room.mem_tracks.mp hlive
          exact h.stopping sub hsub track hmem (TrackOut.isStopping_of_isNegotiatingStop hstop) pub
            hpub (h.origin pub hpub _ hin).symm
        simp [TrackOut.openLine_of_isNegotiatingStop hstop, hdead]
    | false =>
        rcases (hready track hmem).rests (hopened track hmem) hstop with ⟨mid, hstate, hlive⟩ |
          ⟨hstate, hdead⟩
        · simp [TrackOut.openLine, hstate, hlive]
        · simp [TrackOut.openLine, hstate, hdead]
  constructor
  · rw [hopen]
    exact (hdrawn.mids_nodup hfresh hlogged).sublist ((List.filter_sublist.filterMap _).map _)
  · rw [hlive]
    exact h.live_perm hids hsub (.refl _ _)

end FerriteSfu
