import FerriteSfu.Call.Offers

/-!
Rounds of negotiation.

A round is a call of `negotiate_if_needed` and the answer to the offer it makes,
if it makes one. For a peer whose answers were all accepted, one round opens an
m-line for each live track that waits for one and stops the m-lines of dead ones.
What then rests is all there is, and there is nothing more to negotiate.
-/

namespace FerriteSfu

variable {S : Str0m}

namespace TrackOut

/-- An open m-line, with the track it carries. -/
def openLine (track : TrackOut) : Option (Mid × TrackIn) :=
  match track.state with
  | .opened mid => some (mid, track.trackIn)
  | _ => none

/-- There is nothing to do about the subscription: its m-line is open and its
track live, or it has no m-line and its track is gone. -/
def Rests (heap : Heap) (track : TrackOut) : Prop :=
  (∃ mid, track.state = .opened mid ∧ track.trackIn ∈ heap) ∨
    track.state = .toOpen ∧ track.trackIn ∉ heap

theorem Rests.stopDead {heap : Heap} {track : TrackOut} (h : track.Rests heap) :
    track.stopDead heap = track := by
  rcases track with ⟨trackIn, state⟩
  rcases h with ⟨mid, rfl, hlive⟩ | ⟨rfl, -⟩
  · simp only at hlive
    simp [TrackOut.stopDead, Heap.upgrade, hlive]
  · rfl

theorem Rests.negotiate {heap : Heap} {track : TrackOut} (h : track.Rests heap)
    (change : S.SdpApi) : track.negotiate heap change = (track, change, []) := by
  rcases track with ⟨trackIn, state⟩
  rcases h with ⟨mid, rfl, -⟩ | ⟨rfl, hdead⟩
  · rfl
  · simp only at hdead
    simp [TrackOut.negotiate, Heap.upgrade, hdead]

/-- What a round makes of a subscription that was not in flight is being stopped,
or rests once the answer has settled it. -/
theorem round_rests (heap : Heap) {track : TrackOut} (hflight : track.inFlight = false)
    (change : S.SdpApi) :
    ((track.stopDead heap).negotiate heap change).1.isNegotiatingStop = true ∨
      ((track.stopDead heap).negotiate heap change).1.settle.Rests heap := by
  rcases track with ⟨trackIn, state⟩
  by_cases hlive : trackIn ∈ heap
  · cases state with
    | toOpen =>
        refine .inr (.inl ⟨(S.addMedia change trackIn.kind trackIn.origin.asString
          (trackIn.origin.asString ++ "-" ++ kindLabel trackIn.kind)).1, ?_, ?_⟩)
        all_goals simp [stopDead, TrackOut.negotiate, Heap.upgrade, hlive, settle]
    | opened mid =>
        refine .inr (.inl ⟨mid, ?_, ?_⟩)
        all_goals simp [stopDead, TrackOut.negotiate, Heap.upgrade, hlive, settle]
    | toStop mid => exact .inl rfl
    | negotiating mid => cases hflight
    | negotiatingStop mid => cases hflight
  · cases state with
    | toOpen =>
        refine .inr (.inr ⟨?_, ?_⟩)
        all_goals simp [stopDead, TrackOut.negotiate, Heap.upgrade, hlive, settle]
    | opened mid =>
        refine .inl ?_
        simp [stopDead, TrackOut.negotiate, Heap.upgrade, hlive, isNegotiatingStop]
    | toStop mid => exact .inl rfl
    | negotiating mid => cases hflight
    | negotiatingStop mid => cases hflight

theorem settle_of_not_inFlight {track : TrackOut} (h : track.inFlight = false) :
    track.settle = track := by
  rcases track with ⟨trackIn, state⟩
  cases state with
  | negotiating mid => cases h
  | toOpen | opened | toStop | negotiatingStop => rfl

theorem settle_isNegotiatingStop (track : TrackOut) :
    track.settle.isNegotiatingStop = track.isNegotiatingStop := by
  rcases track with ⟨trackIn, state⟩
  cases state <;> rfl

theorem not_stopping_of_not_inFlight {track : TrackOut} (h : track.inFlight = false) :
    track.isNegotiatingStop = false := by
  rcases track with ⟨trackIn, state⟩
  cases state with
  | negotiatingStop mid => cases h
  | toOpen | opened | toStop | negotiating => rfl

end TrackOut

theorem negotiateTracks_idle {heap : Heap} {tracks : List TrackOut}
    (h : ∀ track ∈ tracks, ∀ change : S.SdpApi, track.negotiate heap change = (track, change, []))
    (change : S.SdpApi) : negotiateTracks heap change tracks = (tracks, change, []) := by
  induction tracks with
  | nil => rfl
  | cons track tracks ih =>
      simp only [negotiateTracks, h track (by simp) change, List.nil_append]
      rw [ih fun other hother => h other (by simp [hother])]

namespace Peer

/-- There is nothing left to negotiate for any subscription. -/
def AtRest (heap : Heap) (peer : Peer S) : Prop := ∀ track ∈ peer.tracksOut, track.Rests heap

/-- The answer to the outstanding offer has come in and was accepted, if there
was one. -/
def Answered (peer peer' : Peer S) : Prop :=
  (peer.pending = none ∧ peer' = peer) ∨ ∃ pending answer, peer.pending = some pending ∧
    (S.acceptAnswer peer.rtc pending answer).1.isOk = true ∧ peer' = (peer.acceptAnswer answer).2

/-- A negotiation that does nothing about any subscription changes nothing at all. -/
theorem negotiateIfNeeded_idle (hsdp : ∀ rtc : S.Rtc, S.hasChanges (S.sdpApi rtc) = false)
    (hdrops : S.DropsChanges) {heap : Heap} {peer : Peer S}
    (hstop : ∀ track ∈ peer.tracksOut, track.stopDead heap = track)
    (hidle : ∀ track ∈ peer.tracksOut, ∀ change : S.SdpApi,
      track.negotiate heap change = (track, change, [])) :
    peer.negotiateIfNeeded heap = (false, peer) := by
  have hsame : peer.tracksOut.map (·.stopDead heap) = peer.tracksOut := by
    conv_rhs => rw [← List.map_id peer.tracksOut]
    exact List.map_congr_left hstop
  unfold Peer.negotiateIfNeeded
  split
  · rfl
  · simp [hsame, negotiateTracks_idle hidle, hsdp, hdrops peer.rtc]

theorem AtRest.negotiateIfNeeded (hlaw : S.OffersChanges) (hdrops : S.DropsChanges) {heap : Heap}
    {peer : Peer S} (h : peer.AtRest heap) : peer.negotiateIfNeeded heap = (false, peer) :=
  negotiateIfNeeded_idle hlaw.sdpApi hdrops (fun track hmem => (h track hmem).stopDead)
    fun track hmem => (h track hmem).negotiate

theorem Settled.idle {peer : Peer S} (h : peer.Settled) (hpending : peer.pending = none)
    {track : TrackOut} (hmem : track ∈ peer.tracksOut) : track.inFlight = false := by
  have hnone : peer.tracksOut.any TrackOut.inFlight = false := by
    rw [show peer.tracksOut.any TrackOut.inFlight = peer.pending.isSome from h, hpending]
    rfl
  simpa using List.any_eq_false.mp hnone track hmem

theorem acceptAnswer_accepted {peer : Peer S} {answer : S.SdpAnswer} {pending : S.SdpPendingOffer}
    (hpending : peer.pending = some pending)
    (hok : (S.acceptAnswer peer.rtc pending answer).1.isOk = true) :
    (peer.acceptAnswer answer).2.rtc = (S.acceptAnswer peer.rtc pending answer).2 ∧
      (peer.acceptAnswer answer).2.tracksOut =
        (peer.tracksOut.map TrackOut.settle).filter fun track => !track.isNegotiatingStop := by
  rcases acceptAnswer_cases answer peer with ⟨hnone, -⟩ | ⟨pending', hpending', hreject, -⟩ |
    ⟨pending', hpending', -, heq⟩
  · rw [hpending] at hnone
    cases hnone
  · obtain rfl := Option.some_inj.mp (hpending.symm.trans hpending')
    rw [hok] at hreject
    cases hreject
  · obtain rfl := Option.some_inj.mp (hpending.symm.trans hpending')
    rw [heq]
    exact ⟨rfl, rfl⟩

namespace Answered

variable {peer peer' : Peer S}

theorem settled (h : peer.Answered peer') (hpeer : peer.Settled) :
    peer'.Settled ∧ peer'.pending = none := by
  rcases h with ⟨hpending, rfl⟩ | ⟨pending, answer, hpending, hok, rfl⟩
  · exact ⟨hpeer, hpending⟩
  · refine ⟨hpeer.acceptAnswer fun pending' hpending' => ?_, ?_⟩
    · obtain rfl := Option.some_inj.mp (hpending.symm.trans hpending')
      exact hok
    · exact acceptAnswer_pending answer peer

theorem alive (halive : S.AnswersKeepAlive) (h : peer.Answered peer')
    (hpeer : S.isAlive peer.rtc = true) : S.isAlive peer'.rtc = true := by
  rcases h with ⟨-, rfl⟩ | ⟨pending, answer, hpending, hok, rfl⟩
  · exact hpeer
  · rw [(acceptAnswer_accepted hpending hok).1]
    exact halive _ _ _ hpeer hok

theorem id (h : peer.Answered peer') : peer'.id = peer.id := by
  rcases h with ⟨-, rfl⟩ | ⟨pending, answer, -, -, rfl⟩
  · rfl
  · exact id_eq_of_card (acceptAnswer_frame answer peer).1

theorem logged (h : peer.Answered peer') (hpeer : peer.Logged) : peer'.Logged := by
  rcases h with ⟨-, rfl⟩ | ⟨pending, answer, -, -, rfl⟩
  · exact hpeer
  · exact hpeer.acceptAnswer answer

theorem drawn (h : peer.Answered peer') (hpeer : peer.Drawn) : peer'.Drawn := by
  rcases h with ⟨-, rfl⟩ | ⟨pending, answer, -, -, rfl⟩
  · exact hpeer
  · exact hpeer.acceptAnswer answer

/-- An answer drops dead subscriptions only. -/
theorem live (h : peer.Answered peer') {heap : Heap}
    (hstops : peer.StopsOnly fun track => track ∉ heap) :
    (peer'.refs.filter fun track => track ∈ heap) = peer.refs.filter fun track => track ∈ heap := by
  rcases h with ⟨-, rfl⟩ | ⟨pending, answer, hpending, hok, rfl⟩
  · rfl
  · rw [refs, (acceptAnswer_accepted hpending hok).2]
    exact Call.Subscribed.settle_filter fun track hmem hstop => by
      simpa using hstops track hmem hstop

theorem stopsOnly (h : peer.Answered peer') {dead : TrackIn → Prop} (hstops : peer.StopsOnly dead) :
    peer'.StopsOnly dead := by
  rcases h with ⟨-, rfl⟩ | ⟨pending, answer, -, -, rfl⟩
  · exact hstops
  · exact hstops.acceptAnswer answer

/-- **One round brings a settled peer to rest.** -/
theorem atRest (hlaw : S.OffersChanges) {heap : Heap} (hsettled : peer.Settled)
    (hpending : peer.pending = none) (halive : S.isAlive peer.rtc = true)
    (h : (peer.negotiateIfNeeded heap).2.Answered peer') : peer'.AtRest heap := by
  have htracks : (peer.negotiateIfNeeded heap).2.tracksOut = (peer.changes heap).1 := by
    rcases negotiateIfNeeded_cases heap peer with ⟨hidle, -⟩ | ⟨-, -, heq⟩ | ⟨-, -, -, heq⟩ |
      ⟨-, -, offer, pending, -, heq⟩
    · simp [hpending, halive] at hidle
    all_goals rw [heq]; rfl
  have hnext := hsettled.negotiateIfNeeded hlaw heap
  rcases h with ⟨hidle, rfl⟩ | ⟨pending, answer, hpending', hok, rfl⟩
  · intro track hmem
    have hflight := hnext.idle hidle hmem
    rw [htracks] at hmem
    obtain ⟨old, hold, change, rfl⟩ := mem_changes hmem
    rcases TrackOut.round_rests heap (hsettled.idle hpending hold) change with
      hstop | hrests
    · rw [TrackOut.not_stopping_of_not_inFlight hflight] at hstop
      cases hstop
    · rwa [TrackOut.settle_of_not_inFlight hflight] at hrests
  · intro track hmem
    rw [(acceptAnswer_accepted hpending' hok).2, htracks] at hmem
    obtain ⟨hmem, hkept⟩ := List.mem_filter.mp hmem
    obtain ⟨after, hafter, rfl⟩ := List.mem_map.mp hmem
    obtain ⟨old, hold, change, rfl⟩ := mem_changes hafter
    rcases TrackOut.round_rests heap (hsettled.idle hpending hold) change with
      hstop | hrests
    · rw [TrackOut.settle_isNegotiatingStop, hstop] at hkept
      cases hkept
    · exact hrests

end Answered

end Peer

/-! ### What is open when everything rests -/

theorem Peer.AtRest.openLines {heap : Heap} {peer : Peer S} (h : peer.AtRest heap) :
    peer.tracksOut.filterMap TrackOut.openLine = peer.lines ∧
      peer.lines.map Prod.snd = peer.refs.filter fun track => track ∈ heap := by
  constructor
  · refine List.filterMap_congr fun track hmem => ?_
    rcases h track hmem with ⟨mid, hstate, -⟩ | ⟨hstate, -⟩ <;>
      simp [TrackOut.openLine, TrackOut.line, TrackOut.mid, hstate]
  · rw [lines, refs, List.map_filterMap, List.filter_map, ← List.filterMap_eq_map',
      List.filterMap_filter]
    refine List.filterMap_congr fun track hmem => ?_
    rcases h track hmem with ⟨mid, hstate, hlive⟩ | ⟨hstate, hdead⟩
    · simp [TrackOut.line, TrackOut.mid, hstate, hlive]
    · simp [TrackOut.line, TrackOut.mid, hstate, hdead]

/-- Each track that others publish in the room has an open m-line of its own, and
nothing else has. -/
structure Room.Serves (room : Room S) (sub : Peer S) : Prop where
  distinct : ((sub.tracksOut.filterMap TrackOut.openLine).map Prod.fst).Nodup
  complete : ((sub.tracksOut.filterMap TrackOut.openLine).map Prod.snd).Perm
    ((room.peers.filter fun peer => peer.id ≠ sub.id).flatMap Peer.tracks)

namespace Call

namespace Subscribed

variable {next : ℕ} {room : Room S} {sub settled answered : Peer S}

/-- **A member converges in one round.** Whatever the states of its subscriptions,
once its outstanding offer is answered, a negotiation and the answer to it leave
nothing to negotiate, and the open m-lines are those of the tracks of the others. -/
theorem converges (hfresh : S.FreshMids) (hlaw : S.OffersChanges) (hdrops : S.DropsChanges)
    (hkeeps : S.AnswersKeepAlive) (h : Subscribed next room.peers) (hids : room.ids.Nodup)
    (hsub : sub ∈ room.peers) (hlogged : sub.Logged) (hdrawn : sub.Drawn)
    (hsettled : sub.Settled) (halive : S.isAlive sub.rtc = true) {heap : Heap}
    (hheap : sub.Agrees heap room.tracks) (hfirst : sub.Answered settled)
    (hsecond : (settled.negotiateIfNeeded heap).2.Answered answered) :
    answered.negotiateIfNeeded heap = (false, answered) ∧ room.Serves answered := by
  obtain ⟨hsettled, hpending⟩ := hfirst.settled hsettled
  have hrest : answered.AtRest heap :=
    hsecond.atRest hlaw hsettled hpending (hfirst.alive hkeeps halive)
  have hstops : sub.StopsOnly fun track => track ∉ heap := by
    intro track hmem hstop hlive
    have htrack := (hheap track.trackIn (List.mem_map_of_mem hmem)).mp hlive
    obtain ⟨pub, hpub, hin⟩ := Room.mem_tracks.mp htrack
    exact h.stopping sub hsub track hmem hstop pub hpub (h.origin pub hpub _ hin).symm
  have hquiet := Peer.negotiateIfNeeded_quiet heap settled
  have hnextstops : (settled.negotiateIfNeeded heap).2.StopsOnly fun track => track ∉ heap :=
    (hfirst.stopsOnly hstops).negotiateIfNeeded fun track _ hdead => hdead
  have hlive : (answered.refs.filter fun track => track ∈ heap) =
      sub.refs.filter fun track => track ∈ room.tracks := by
    rw [hsecond.live hnextstops, hquiet.refs, hfirst.live hstops]
    exact List.filter_congr fun track href => by simp [hheap track href]
  have hid : answered.id = sub.id :=
    hsecond.id.trans ((Peer.id_eq_of_card hquiet.card).trans hfirst.id)
  obtain ⟨hopen, htracks⟩ := hrest.openLines
  refine ⟨hrest.negotiateIfNeeded hlaw hdrops, ?_, ?_⟩
  · rw [hopen]
    exact (hsecond.drawn ((hfirst.drawn hdrawn).negotiateIfNeeded heap)).mids_nodup hfresh
      (hsecond.logged ((hfirst.logged hlogged).negotiateIfNeeded heap))
  · rw [hopen, htracks, hlive, hid]
    exact h.live_perm hids hsub (.refl _ _)

end Subscribed

end Call

end FerriteSfu
