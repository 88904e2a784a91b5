import FerriteSfu.Call.Rules

/-!
Subscriptions in flight.

A subscription is in flight from the offer that negotiates it to the answer. As
long as every answer a peer consumes is accepted, something is in flight exactly
when an offer is outstanding. An answer `str0m` rejects consumes the offer and
leaves the subscriptions as they are. They are in flight with nothing outstanding then,
until the answer to a later offer is accepted: `rejected_answer_unsettles`.
-/

namespace FerriteSfu

variable {S : Str0m} {config : Config} {name : String}

def TrackOut.inFlight (track : TrackOut) : Bool :=
  match track.state with
  | .negotiating _ | .negotiatingStop _ => true
  | .toOpen | .opened _ | .toStop _ => false

theorem TrackOut.stopDead_inFlight (heap : Heap) (track : TrackOut) :
    (track.stopDead heap).inFlight = track.inFlight := by
  rcases track with ⟨trackIn, state⟩
  cases state with
  | opened mid =>
      simp only [stopDead]
      split <;> rfl
  | toOpen | negotiating | toStop | negotiatingStop => rfl

/-- A track that was not in flight is so afterwards only with a call recorded. -/
theorem TrackOut.negotiate_inFlight (hlaw : S.OffersChanges) {heap : Heap} {change : S.SdpApi}
    {track : TrackOut} (h : track.inFlight = false) :
    S.hasChanges (track.negotiate heap change).2.1 =
      (S.hasChanges change || (track.negotiate heap change).1.inFlight) := by
  rcases track with ⟨trackIn, state⟩
  cases state with
  | toOpen =>
      simp only [negotiate]
      split
      · simp [inFlight, hlaw.addMedia]
      · simp [inFlight]
  | toStop mid => simp [negotiate, inFlight, hlaw.stopMedia]
  | opened mid => simp [negotiate, inFlight]
  | negotiating mid => cases h
  | negotiatingStop mid => cases h

theorem negotiateTracks_inFlight (hlaw : S.OffersChanges) {heap : Heap} {change : S.SdpApi}
    {tracks : List TrackOut} (h : tracks.any TrackOut.inFlight = false) :
    S.hasChanges (negotiateTracks heap change tracks).2.1 =
      (S.hasChanges change || (negotiateTracks heap change tracks).1.any TrackOut.inFlight) := by
  induction tracks generalizing change with
  | nil => simp [negotiateTracks]
  | cons track tracks ih =>
      simp only [List.any_cons, Bool.or_eq_false_iff] at h
      simp only [negotiateTracks, ih h.2, TrackOut.negotiate_inFlight hlaw h.1, List.any_cons,
        Bool.or_assoc]

theorem TrackOut.settle_inFlight (track : TrackOut) :
    track.settle.inFlight = track.settle.isNegotiatingStop := by
  rcases track with ⟨trackIn, state⟩
  cases state <;> rfl

namespace Peer

/-- Something is in flight exactly when an offer is outstanding. -/
def Settled (peer : Peer S) : Prop :=
  peer.tracksOut.any TrackOut.inFlight = peer.pending.isSome

theorem Settled.congr {peer peer' : Peer S} (h : peer.Settled)
    (htracks : peer'.tracksOut = peer.tracksOut) (hpending : peer'.pending = peer.pending) :
    peer'.Settled := by
  unfold Settled
  rw [htracks, hpending]
  exact h

theorem Settled.append {peer peer' : Peer S} (h : peer.Settled) (tracks : List TrackIn)
    (htracks : peer'.tracksOut = peer.tracksOut ++ tracks.map fun trackIn => ⟨trackIn, .toOpen⟩)
    (hpending : peer'.pending = peer.pending) : peer'.Settled := by
  have hnew : (tracks.map fun trackIn => (⟨trackIn, .toOpen⟩ : TrackOut)).any TrackOut.inFlight =
      false := by
    simp [TrackOut.inFlight]
  unfold Settled
  rw [htracks, hpending, List.any_append, hnew, Bool.or_false]
  exact h

theorem changes_inFlight (hlaw : S.OffersChanges) {peer : Peer S} (h : peer.Settled)
    (hpending : peer.pending = none) (heap : Heap) :
    (peer.changes heap).1.any TrackOut.inFlight = S.hasChanges (peer.changes heap).2.1 := by
  have hnone : (peer.tracksOut.map (·.stopDead heap)).any TrackOut.inFlight = false := by
    rw [List.any_map]
    simpa [Settled, hpending, Function.comp_def, TrackOut.stopDead_inFlight] using h
  rw [changes, negotiateTracks_inFlight hlaw hnone, hlaw.sdpApi, Bool.false_or]

theorem Settled.negotiateIfNeeded (hlaw : S.OffersChanges) {peer : Peer S} (h : peer.Settled)
    (heap : Heap) : (peer.negotiateIfNeeded heap).2.Settled := by
  rcases negotiateIfNeeded_cases heap peer with ⟨-, heq⟩ | ⟨hpending, hchanges, heq⟩ |
    ⟨-, hchanges, happly, -⟩ | ⟨hpending, hchanges, offer, pending, -, heq⟩
  · exact heq ▸ h
  · have hflight := changes_inFlight hlaw h hpending heap
    rw [hchanges] at hflight
    rw [heq]
    simpa [Settled, changed, hpending] using hflight
  · have hsome := hlaw.apply _ hchanges
    rw [happly] at hsome
    cases hsome
  · have hflight := changes_inFlight hlaw h hpending heap
    rw [heq]
    exact hflight.trans hchanges

theorem Settled.pollOutput (hlaw : S.OffersChanges) {peer : Peer S} (h : peer.Settled)
    (heap : Heap) (now : Instant) : (peer.pollOutput heap now).2.1.Settled := by
  have hneg := h.negotiateIfNeeded hlaw heap
  rcases pollOutput_cases heap now peer with ⟨-, heq⟩ | ⟨-, -, heq⟩ | ⟨-, -, output, rtc, -, heq⟩ |
    ⟨-, -, error, rtc, -, heq⟩
  · exact heq ▸ h
  · exact heq ▸ hneg
  · rw [heq]
    have hhandled := handleOutput_handled heap now output
      (Peer.record (.polled output) { (peer.negotiateIfNeeded heap).2 with rtc := rtc })
    exact hneg.congr hhandled.tracksOut hhandled.pending
  · exact heq ▸ hneg

theorem receive_pending (heap : Heap) (propagated : Propagated S) (peer : Peer S) :
    (peer.receive heap propagated).pending = peer.pending := by
  cases propagated with
  | noop | timeout | trackOpen => rfl
  | media id data =>
      simp only [receive]
      rw [forward_eq]
  | keyframeRequest id request publisher midIn =>
      simp only [receive]
      rw [serveKeyframeRequest_eq]
      split <;> rfl

/-- Whatever comes of an answer, nothing is outstanding after it. -/
theorem acceptAnswer_pending (answer : S.SdpAnswer) (peer : Peer S) :
    (peer.acceptAnswer answer).2.pending = none := by
  rcases acceptAnswer_cases answer peer with ⟨hpending, heq⟩ | ⟨pending, -, -, heq⟩ |
    ⟨pending, -, -, heq⟩
  · rw [heq, hpending]
  · rw [heq]
  · rw [heq]

/-- An answer that is accepted settles everything. -/
theorem Settled.acceptAnswer {peer : Peer S} (h : peer.Settled) {answer : S.SdpAnswer}
    (haccept : ∀ pending, peer.pending = some pending →
      (S.acceptAnswer peer.rtc pending answer).1.isOk = true) :
    (peer.acceptAnswer answer).2.Settled := by
  rcases acceptAnswer_cases answer peer with ⟨-, heq⟩ | ⟨pending, hpending, hreject, -⟩ |
    ⟨pending, -, -, heq⟩
  · rwa [heq]
  · rw [haccept pending hpending] at hreject
    cases hreject
  · rw [heq]
    simp only [Settled, Option.isSome_none, List.any_eq_false]
    intro track hmem hflight
    obtain ⟨hmem, hkept⟩ := List.mem_filter.mp hmem
    obtain ⟨track', -, rfl⟩ := List.mem_map.mp hmem
    rw [TrackOut.settle_inFlight] at hflight
    simp [hflight] at hkept

/-- An answer that is rejected leaves in flight what was, with nothing outstanding. -/
theorem rejected_answer_unsettles {peer : Peer S} (h : peer.Settled) {answer : S.SdpAnswer}
    {pending : S.SdpPendingOffer} (hpending : peer.pending = some pending)
    (hreject : (S.acceptAnswer peer.rtc pending answer).1.isOk = false) :
    ¬(peer.acceptAnswer answer).2.Settled := by
  rcases acceptAnswer_cases answer peer with ⟨hnone, -⟩ | ⟨pending', -, -, heq⟩ |
    ⟨pending', hpending', haccept, -⟩
  · rw [hpending] at hnone
    cases hnone
  · simpa [heq, Settled, hpending] using h
  · obtain rfl := Option.some_inj.mp (hpending.symm.trans hpending')
    rw [hreject] at haccept
    cases haccept

end Peer

namespace Call

/-- No answer is consumed that `str0m` rejects. -/
def AnswersAccepted (call : Call S) : CallEvent S → Prop
  | .answer id sdp => ∀ peer ∈ call.peers, peer.id = id → ∀ answer pending,
      S.answerFromSdpString sdp = .ok answer → peer.pending = some pending →
        (S.acceptAnswer peer.rtc pending answer).1.isOk = true
  | _ => True

/-- No answer of the peer `id` is consumed that `str0m` rejects. -/
def AnswersAcceptedOf (id : PeerId) (call : Call S) (event : CallEvent S) : Prop :=
  ∀ sdp, event = .answer id sdp → call.AnswersAccepted event

theorem settled_invariant (hlaw : S.OffersChanges) (config : Config) (id : PeerId) :
    PeerInvariant config (AnswersAcceptedOf (S := S) id) fun peer => peer.id = id → peer.Settled where
  start _ _ _ _ _ := rfl
  send _ _ _ h hid := (h hid).congr rfl rfl
  subscribe tracks _ h hid := (h hid).append tracks rfl rfl
  flags _ _ _ _ h hid := (h hid).congr rfl rfl
  answer call own sdp answer hok hparse peer hmem hown h hid := by
    have hsame : (peer.acceptAnswer answer).2.id = peer.id :=
      Peer.id_eq_of_card (Peer.acceptAnswer_frame answer peer).1
    rw [hsame] at hid
    obtain rfl : id = own := hid.symm.trans hown
    exact (h hid).acceptAnswer fun pending hpending =>
      hok sdp rfl peer hmem hid answer pending hparse hpending
  pollOutput heap now peer h hid :=
    (h ((Peer.id_eq_of_card (Peer.pollOutput_polled heap now peer).card).symm.trans hid)).pollOutput
      hlaw heap now
  receive heap propagated peer h hid :=
    (h ((Peer.receive_id heap propagated peer).symm.trans hid)).append (opens [propagated])
      (Peer.receive_tracksOut heap propagated peer) (Peer.receive_pending heap propagated peer)
  handleInput input peer h hid :=
    (h ((Peer.handleInput_id input peer).symm.trans hid)).congr
      (Peer.handleInput_tracksOut input peer) (Peer.handleInput_pending input peer)

theorem reachable_settledOf (hlaw : S.OffersChanges) {id : PeerId} {call : Call S}
    (h : (machine S config name).ReachableVia (AnswersAcceptedOf id) call) :
    ∀ peer ∈ call.peers, peer.id = id → peer.Settled :=
  (settled_invariant hlaw config id).holds h

theorem reachable_settled (hlaw : S.OffersChanges) {call : Call S}
    (h : (machine S config name).ReachableVia AnswersAccepted call) :
    ∀ peer ∈ call.peers, peer.Settled := fun peer hpeer =>
  reachable_settledOf hlaw (h.mono fun _ _ hok _ _ => hok) peer hpeer rfl

end Call

end FerriteSfu
