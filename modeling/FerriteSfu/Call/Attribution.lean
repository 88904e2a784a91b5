import FerriteSfu.Call.Rules
import FerriteSfu.Sfu.Log
import FerriteSfu.Sfu.Outbox

/-!
Whose media an m-line carries.

The log of a peer says which track each m-line was created for. Subscriptions,
packets and offers all go back to that entry: a subscription keeps its m-line
through every state, a packet is written to the m-line of the track it came
from, and the first offer after an m-line was created lists it under its
publisher.
-/

namespace FerriteSfu

variable {S : Str0m} {config : Config} {name : String}

theorem TrackOut.settle_mid (track : TrackOut) : track.settle.mid = track.mid := by
  rcases track with ⟨trackIn, state⟩
  cases state <;> rfl

theorem TrackOut.stopDead_mid (heap : Heap) (track : TrackOut) :
    (track.stopDead heap).mid = track.mid := by
  rcases track with ⟨trackIn, state⟩
  cases state with
  | opened mid =>
      simp only [stopDead]
      split <;> rfl
  | toOpen | negotiating | toStop | negotiatingStop => rfl

/-! ### The loop over the subscriptions -/

/-- A subscription keeps its m-line, or gets the one that was just created. -/
theorem negotiateTracks_mid {heap : Heap} {change : S.SdpApi} {tracks : List TrackOut}
    {track : TrackOut} (hmem : track ∈ (negotiateTracks heap change tracks).1) {mid : Mid}
    (hmid : track.mid = some mid) :
    (∃ old ∈ tracks, old.mid = some mid ∧ old.trackIn = track.trackIn) ∨
      Op.addedMedia mid track.trackIn ∈ (negotiateTracks heap change tracks).2.2 := by
  induction tracks generalizing change with
  | nil => simp [negotiateTracks] at hmem
  | cons first tracks ih =>
      simp only [negotiateTracks, List.mem_cons] at hmem
      rcases hmem with rfl | hmem
      · have htrack := first.negotiate_trackIn heap change
        rcases first.negotiate_cases heap change with ⟨mid', -, heq, hops⟩ | ⟨hkept, -⟩
        · right
          rw [heq] at hmid
          cases hmid
          simp [negotiateTracks, hops, heq]
        · exact .inl ⟨first, by simp, hkept ▸ hmid, htrack.symm⟩
      · rcases ih hmem with ⟨old, hold, hkept⟩ | hadded
        · exact .inl ⟨old, by simp [hold], hkept⟩
        · exact .inr (List.mem_append_right _ hadded)

/-- An m-line that was created makes the changes worth an offer. -/
theorem negotiateTracks_hasChanges (hlaw : S.OffersMedia) {heap : Heap} {change : S.SdpApi}
    {tracks : List TrackOut}
    (h : S.hasChanges change = true ∨ (negotiateTracks heap change tracks).2.2 ≠ []) :
    S.hasChanges (negotiateTracks heap change tracks).2.1 = true := by
  induction tracks generalizing change with
  | nil => simpa [negotiateTracks] using h
  | cons first tracks ih =>
      refine ih ?_
      have hfirst : S.hasChanges change = true ∨ (first.negotiate heap change).2.2 ≠ [] →
          S.hasChanges (first.negotiate heap change).2.1 = true := by
        unfold TrackOut.negotiate
        split
        · split
          · exact fun _ => hlaw.addMedia _ _ _ _
          · simp
        · exact fun h => hlaw.stopMedia _ _ (h.resolve_right fun hne => hne rfl)
        · simp
      rcases h with h | h
      · exact .inl (hfirst (.inl h))
      · by_cases hnil : (first.negotiate heap change).2.2 = []
        · exact .inr (by simpa [negotiateTracks, hnil] using h)
        · exact .inl (hfirst (.inr hnil))

/-! ### The invariant -/

/-- After each m-line that was created comes an offer, and the first one lists it. -/
def Introduced : List (Op S) → Prop
  | [] => True
  | op :: ops =>
      (∀ mid track, op = .addedMedia mid track →
        ∃ tracks, ops.findSome? Op.offeredTracks = some tracks ∧ listing mid track ∈ tracks) ∧
      Introduced ops

theorem Introduced.append {ops ops' : List (Op S)} (h : Introduced ops) (h' : Introduced ops') :
    Introduced (ops ++ ops') := by
  induction ops with
  | nil => exact h'
  | cons op ops ih =>
      refine ⟨fun mid track heq => ?_, ih h.2⟩
      obtain ⟨tracks, hfind, hmem⟩ := h.1 mid track heq
      have hfind' : (ops ++ ops').findSome? Op.offeredTracks = some tracks := by
        rw [List.findSome?_append, hfind]
        rfl
      exact ⟨tracks, hfind', hmem⟩

theorem introduced_of_none {ops : List (Op S)} (h : ∀ mid track, .addedMedia mid track ∉ ops) :
    Introduced ops := by
  induction ops with
  | nil => trivial
  | cons op ops ih =>
      exact ⟨fun mid track heq => absurd (by simp [heq]) (h mid track),
        ih fun mid track hmem => h mid track (List.mem_cons_of_mem _ hmem)⟩

/-- An offer that lists all the m-lines created for it. -/
theorem introduced_of_offer {ops : List (Op S)} {tracks : List TrackMap}
    (h : ∀ op ∈ ops, ∃ mid track, op = .addedMedia mid track ∧ listing mid track ∈ tracks)
    (sdp : String) : Introduced (ops ++ [Op.offered sdp tracks]) := by
  induction ops with
  | nil => exact ⟨fun mid track heq => (by cases heq), trivial⟩
  | cons op ops ih =>
      have hskip : (ops ++ [Op.offered sdp tracks]).findSome? Op.offeredTracks = some tracks := by
        rw [List.findSome?_append, List.findSome?_eq_none_iff.mpr]
        · rfl
        · intro op' hmem
          obtain ⟨mid, track, rfl, -⟩ := h op' (List.mem_cons_of_mem _ hmem)
          rfl
      refine ⟨fun mid track heq => ?_, ih fun op' hmem => h op' (List.mem_cons_of_mem _ hmem)⟩
      obtain ⟨mid', track', heq', hlisted⟩ := h op (by simp)
      obtain ⟨rfl, rfl⟩ := Op.addedMedia.inj (heq.symm.trans heq')
      exact ⟨tracks, hskip, hlisted⟩

theorem Introduced.after {ops pre post : List (Op S)} (h : Introduced ops) {mid : Mid}
    {track : TrackIn} (heq : ops = pre ++ .addedMedia mid track :: post) :
    ∃ tracks, post.findSome? Op.offeredTracks = some tracks ∧ listing mid track ∈ tracks := by
  induction pre generalizing ops with
  | nil =>
      subst heq
      exact h.1 mid track rfl
  | cons op pre ih =>
      subst heq
      exact ih h.2 rfl

/-- The map of an offer. -/
def ServerMsg.offerTracks : ServerMsg → Option (List TrackMap)
  | .offer _ tracks => some tracks
  | _ => none

/-- With the law on mids, an m-line was created for one track. -/
theorem createdFor_unique {ops : List (Op S)}
    (hfresh : ((ops.filterMap Op.createdFor).map Prod.fst).Nodup) {mid : Mid}
    {track track' : TrackIn} (h : .addedMedia mid track ∈ ops) (h' : .addedMedia mid track' ∈ ops) :
    track' = track := by
  have hmem : ∀ {track}, .addedMedia mid track ∈ ops → (mid, track) ∈ ops.filterMap Op.createdFor :=
    fun hop => List.mem_filterMap.mpr ⟨_, hop, rfl⟩
  exact congrArg Prod.snd (List.eq_of_map_eq hfresh (hmem h') (hmem h) rfl)

namespace Peer

structure Attributed (peer : Peer S) : Prop where
  entries : ∀ track ∈ peer.tracksOut, ∀ mid, track.mid = some mid →
    .addedMedia mid track.trackIn ∈ peer.ops
  wrote : ∀ mid origin data delivered, .wrote mid origin data delivered ∈ peer.ops →
    ∃ track, .addedMedia mid track ∈ peer.ops ∧ track.origin = origin ∧ track.mid = data.mid
  listed : ∀ sdp tracks, .offered sdp tracks ∈ peer.ops → ∀ entry ∈ tracks,
    ∃ mid track, .addedMedia mid track ∈ peer.ops ∧ entry = listing mid track
  introduced : Introduced peer.ops
  sent : peer.out.filterMap ServerMsg.offerTracks = peer.ops.filterMap Op.offeredTracks

/-- Log entries that neither create an m-line nor write to one nor offer. -/
def Plain (ops : List (Op S)) : Prop :=
  ∀ op ∈ ops, (∃ output, op = .polled output) ∨ (∃ mid kind, op = .requestedKeyframe mid kind) ∨
    ∃ track offering, op = .queuedOpen track offering

theorem Plain.offers {ops : List (Op S)} (h : Plain ops) :
    ops.filterMap Op.offeredTracks = [] := by
  refine List.filterMap_eq_nil_iff.mpr fun op hmem => ?_
  rcases h op hmem with ⟨_, rfl⟩ | ⟨_, _, rfl⟩ | ⟨_, _, rfl⟩ <;> rfl

theorem Plain.introduced {ops : List (Op S)} (h : Plain ops) : Introduced ops := by
  refine introduced_of_none fun mid track hmem => ?_
  rcases h _ hmem with ⟨_, heq⟩ | ⟨_, _, heq⟩ | ⟨_, _, heq⟩ <;> cases heq

/-- Calls that are plain, with subscriptions whose m-lines are not new. -/
theorem Attributed.plain {peer peer' : Peer S} (h : peer.Attributed) (ops : List (Op S))
    (hops : peer'.ops = peer.ops ++ ops) (hplain : Plain ops)
    (hentries : ∀ track ∈ peer'.tracksOut, ∀ mid, track.mid = some mid →
      ∃ old ∈ peer.tracksOut, old.mid = some mid ∧ old.trackIn = track.trackIn)
    (hout : peer'.out.filterMap ServerMsg.offerTracks =
      peer.out.filterMap ServerMsg.offerTracks) : peer'.Attributed where
  entries track hmem mid hmid := by
    obtain ⟨old, hold, holdmid, htrack⟩ := hentries track hmem mid hmid
    rw [hops, ← htrack]
    exact List.mem_append_left _ (h.entries old hold mid holdmid)
  wrote mid origin data delivered hmem := by
    rw [hops] at hmem ⊢
    rcases List.mem_append.mp hmem with hmem | hmem
    · obtain ⟨track, hadded, hmatch⟩ := h.wrote mid origin data delivered hmem
      exact ⟨track, List.mem_append_left _ hadded, hmatch⟩
    · rcases hplain _ hmem with ⟨_, heq⟩ | ⟨_, _, heq⟩ | ⟨_, _, heq⟩ <;> cases heq
  listed sdp tracks hmem entry hentry := by
    rw [hops] at hmem ⊢
    rcases List.mem_append.mp hmem with hmem | hmem
    · obtain ⟨mid, track, hadded, heq⟩ := h.listed sdp tracks hmem entry hentry
      exact ⟨mid, track, List.mem_append_left _ hadded, heq⟩
    · rcases hplain _ hmem with ⟨_, heq⟩ | ⟨_, _, heq⟩ | ⟨_, _, heq⟩ <;> cases heq
  introduced := by
    rw [hops]
    exact h.introduced.append hplain.introduced
  sent := by
    rw [hout, hops, List.filterMap_append, hplain.offers, List.append_nil]
    exact h.sent

theorem Attributed.congr {peer peer' : Peer S} (h : peer.Attributed) (hops : peer'.ops = peer.ops)
    (htracks : peer'.tracksOut = peer.tracksOut)
    (hout : peer'.out.filterMap ServerMsg.offerTracks =
      peer.out.filterMap ServerMsg.offerTracks) : peer'.Attributed :=
  h.plain [] (by simp [hops]) (by simp [Plain])
    (fun track hmem mid hmid => ⟨track, htracks ▸ hmem, hmid, rfl⟩) hout

/-! ### One lemma for each operation -/

theorem changes_entries {peer : Peer S} (h : peer.Attributed) {heap : Heap} {track : TrackOut}
    (hmem : track ∈ (peer.changes heap).1) {mid : Mid} (hmid : track.mid = some mid) :
    .addedMedia mid track.trackIn ∈ peer.ops ++ (peer.changes heap).2.2 := by
  rcases negotiateTracks_mid hmem hmid with ⟨old, hold, holdmid, htrack⟩ | hadded
  · obtain ⟨old', hold', rfl⟩ := List.mem_map.mp hold
    rw [TrackOut.stopDead_mid] at holdmid
    rw [TrackOut.stopDead_trackIn] at htrack
    rw [← htrack]
    exact List.mem_append_left _ (h.entries old' hold' mid holdmid)
  · exact List.mem_append_right _ hadded

/-- Negotiation that made no call worth an offer. -/
theorem Attributed.changed (hlaw : S.OffersMedia) {peer : Peer S} (h : peer.Attributed)
    {heap : Heap} (hchanges : S.hasChanges (peer.changes heap).2.1 = false) (rtc : S.Rtc) :
    (peer.changed heap rtc).Attributed := by
  have hnone : (peer.changes heap).2.2 = [] := by
    -- Every entry on an m-line comes with a change that would have made an offer.
    by_contra hne
    have htrue := negotiateTracks_hasChanges hlaw (.inr hne)
    exact absurd htrue (by rw [changes] at hchanges; simp [hchanges])
  have hops : (peer.changed heap rtc).ops = peer.ops := by simp [Peer.changed, hnone]
  refine ⟨fun track hmem mid hmid => ?entries, ?wrote, ?listed, ?introduced, ?sent⟩
  case entries =>
    have hentry := changes_entries h hmem hmid
    rw [hnone, List.append_nil] at hentry
    rwa [hops]
  case wrote =>
    rw [hops]
    exact h.wrote
  case listed =>
    rw [hops]
    exact h.listed
  case introduced =>
    rw [hops]
    exact h.introduced
  case sent =>
    rw [hops]
    exact h.sent

/-- Negotiation that made an offer. -/
theorem Attributed.offered {peer : Peer S} (h : peer.Attributed) (heap : Heap)
    (offer : S.SdpOffer) (pending : S.SdpPendingOffer) (rtc : S.Rtc) :
    (peer.offered heap offer pending rtc).Attributed := by
  have hadded : ∀ op ∈ (peer.changes heap).2.2, ∃ mid track, op = .addedMedia mid track ∧
      track ∈ heap ∧ (⟨track, .negotiating mid⟩ : TrackOut) ∈ (peer.changes heap).1 :=
    fun op hop => negotiateTracks_added hop
  have hops : (peer.offered heap offer pending rtc).ops =
      peer.ops ++ (peer.changes heap).2.2 ++
        [.offered (S.offerToSdpString offer) (trackMap heap (peer.changes heap).1)] := rfl
  have hgrow : ∀ {op : Op S}, op ∈ peer.ops → op ∈ (peer.offered heap offer pending rtc).ops :=
    fun hop => List.mem_append_left _ (List.mem_append_left _ hop)
  refine ⟨fun track hmem mid hmid => ?entries, fun mid origin data delivered hmem => ?wrote,
    fun sdp tracks hmem entry hentry => ?listed, ?introduced, ?sent⟩
  case entries =>
    exact List.mem_append_left _ (changes_entries h hmem hmid)
  case wrote =>
    rw [hops, List.mem_append, List.mem_append] at hmem
    rcases hmem with (hmem | hmem) | hmem
    · obtain ⟨track, htrack, hmatch⟩ := h.wrote mid origin data delivered hmem
      exact ⟨track, hgrow htrack, hmatch⟩
    · obtain ⟨_, _, heq, -⟩ := hadded _ hmem
      cases heq
    · cases List.mem_singleton.mp hmem
  case listed =>
    rw [hops, List.mem_append, List.mem_append] at hmem
    rcases hmem with (hmem | hmem) | hmem
    · obtain ⟨mid, track, htrack, heq⟩ := h.listed sdp tracks hmem entry hentry
      exact ⟨mid, track, hgrow htrack, heq⟩
    · obtain ⟨_, _, heq, -⟩ := hadded _ hmem
      cases heq
    · cases List.mem_singleton.mp hmem
      obtain ⟨track, htrack, hmap⟩ := List.mem_filterMap.mp hentry
      obtain ⟨mid, hmid, -, -, heq⟩ := TrackOut.toMap_eq_some.mp hmap
      exact ⟨mid, track.trackIn, List.mem_append_left _ (changes_entries h htrack hmid), heq⟩
  case introduced =>
    rw [hops, List.append_assoc]
    refine h.introduced.append (introduced_of_offer (fun op hop => ?_) _)
    obtain ⟨mid, track, heq, hlive, hmem⟩ := hadded op hop
    exact ⟨mid, track, heq, List.mem_filterMap.mpr
      ⟨_, hmem, TrackOut.toMap_eq_some.mpr ⟨mid, rfl, hlive, rfl, rfl⟩⟩⟩
  case sent =>
    -- Adding media offers nothing by itself.
    have hquiet : (peer.changes heap).2.2.filterMap Op.offeredTracks = [] := by
      refine List.filterMap_eq_nil_iff.mpr fun op hop => ?_
      obtain ⟨_, _, rfl, -⟩ := hadded op hop
      rfl
    rw [hops, List.filterMap_append, List.filterMap_append, hquiet, List.append_nil, ← h.sent]
    exact List.filterMap_append

theorem Attributed.negotiateIfNeeded (hlaw : S.OffersMedia) {peer : Peer S}
    (h : peer.Attributed) (heap : Heap) : (peer.negotiateIfNeeded heap).2.Attributed := by
  rcases negotiateIfNeeded_cases heap peer with ⟨-, heq⟩ | ⟨-, hchanges, heq⟩ |
    ⟨-, hchanges, happly, -⟩ | ⟨-, -, offer, pending, -, heq⟩
  · exact heq ▸ h
  · exact heq ▸ h.changed hlaw hchanges _
  · have hsome := hlaw.apply _ hchanges
    rw [happly] at hsome
    cases hsome
  · exact heq ▸ h.offered heap offer pending _

theorem Handled.attributed {peer peer' : Peer S} (hhandled : peer.Handled peer')
    (h : peer.Attributed) : peer'.Attributed := by
  obtain ⟨requests, hops, hrequests⟩ := hhandled.ops
  refine h.plain requests hops (fun op hop => ?_) (fun track hmem mid hmid => ?_)
    (by rw [hhandled.out])
  · obtain ⟨mid, kind, rfl⟩ := hrequests op hop
    exact .inr (.inl ⟨mid, kind, rfl⟩)
  · exact ⟨track, hhandled.tracksOut ▸ hmem, hmid, rfl⟩

theorem Attributed.pollOutput (hlaw : S.OffersMedia) {peer : Peer S} (h : peer.Attributed)
    (heap : Heap) (now : Instant) : (peer.pollOutput heap now).2.1.Attributed := by
  have hneg := h.negotiateIfNeeded hlaw heap
  rcases pollOutput_cases heap now peer with ⟨-, heq⟩ | ⟨-, -, heq⟩ | ⟨-, -, output, rtc, -, heq⟩ |
    ⟨-, -, error, rtc, -, heq⟩
  · exact heq ▸ h
  · exact heq ▸ hneg
  · rw [heq]
    refine (handleOutput_handled heap now output _).attributed ?_
    exact hneg.plain [.polled output] rfl (by simp [Plain])
      (fun track hmem mid hmid => ⟨track, hmem, hmid, rfl⟩) rfl
  · exact heq ▸ hneg.congr rfl rfl rfl

/-- The peer has the m-line `mid` for the live track that `origin` publishes as
`midIn`. -/
def Carries (heap : Heap) (peer : Peer S) (origin : PeerId) (midIn mid : Mid) : Prop :=
  ∃ out ∈ peer.tracksOut, out.trackIn ∈ heap ∧ out.trackIn.origin = origin ∧
    out.trackIn.mid = midIn ∧ out.mid = some mid

/-- What `forward` looks for. -/
theorem forwardMid_eq (heap : Heap) (origin : PeerId) (midIn : Mid) (peer : Peer S) :
    peer.forwardMid heap origin midIn = (peer.tracksOut.find? fun out =>
      decide (out.trackIn ∈ heap ∧ out.trackIn.origin = origin ∧ out.trackIn.mid = midIn)).bind
        TrackOut.mid := by
  unfold forwardMid
  congr 2
  ext out
  unfold Heap.upgrade
  by_cases hlive : out.trackIn ∈ heap
  · by_cases horigin : out.trackIn.origin = origin <;> by_cases hmid : out.trackIn.mid = midIn <;>
      simp [hlive, horigin, hmid, Option.filter]
  · simp [hlive]

theorem carries_of_forwardMid {heap : Heap} {peer : Peer S} {origin : PeerId} {midIn mid : Mid}
    (h : peer.forwardMid heap origin midIn = some mid) : peer.Carries heap origin midIn mid := by
  rw [forwardMid_eq] at h
  obtain ⟨out, hfind, hout⟩ := Option.bind_eq_some_iff.mp h
  obtain ⟨hlive, horigin, hmid⟩ : out.trackIn ∈ heap ∧ out.trackIn.origin = origin ∧
      out.trackIn.mid = midIn := by simpa using List.find?_some hfind
  exact ⟨out, List.mem_of_find?_eq_some hfind, hlive, horigin, hmid, hout⟩

/-- The m-line a packet is written to was created for the track it came from. -/
theorem Attributed.forwardMid {peer : Peer S} (h : peer.Attributed) {heap : Heap}
    {origin : PeerId} {midIn mid : Mid} (hmid : peer.forwardMid heap origin midIn = some mid) :
    ∃ track, .addedMedia mid track ∈ peer.ops ∧ track.origin = origin ∧ track.mid = midIn := by
  obtain ⟨out, hmem, -, horigin, hin, hout⟩ := carries_of_forwardMid hmid
  exact ⟨out.trackIn, h.entries out hmem mid hout, horigin, hin⟩

/-- A packet written to the m-line of its own track. -/
theorem Attributed.wrote_one {peer peer' : Peer S} (h : peer.Attributed) {mid : Mid}
    {origin : PeerId} {data : S.Media} {delivered : Bool}
    (hops : peer'.ops = peer.ops ++ [.wrote mid origin data delivered])
    (htracks : peer'.tracksOut = peer.tracksOut) (hout : peer'.out = peer.out)
    (hmid : ∃ track, .addedMedia mid track ∈ peer.ops ∧ track.origin = origin ∧
      track.mid = data.mid) : peer'.Attributed where
  entries track hmem mid hmid := by
    rw [htracks] at hmem
    rw [hops]
    exact List.mem_append_left _ (h.entries track hmem mid hmid)
  wrote mid' origin' data' delivered' hmem := by
    rw [hops] at hmem ⊢
    rcases List.mem_append.mp hmem with hmem | hmem
    · obtain ⟨track, hadded, hmatch⟩ := h.wrote mid' origin' data' delivered' hmem
      exact ⟨track, List.mem_append_left _ hadded, hmatch⟩
    · cases List.mem_singleton.mp hmem
      obtain ⟨track, hadded, hmatch⟩ := hmid
      exact ⟨track, List.mem_append_left _ hadded, hmatch⟩
  listed sdp tracks hmem entry hentry := by
    rw [hops] at hmem ⊢
    rcases List.mem_append.mp hmem with hmem | hmem
    · obtain ⟨mid, track, hadded, heq⟩ := h.listed sdp tracks hmem entry hentry
      exact ⟨mid, track, List.mem_append_left _ hadded, heq⟩
    · cases List.mem_singleton.mp hmem
  introduced := by
    rw [hops]
    exact h.introduced.append (introduced_of_none (by simp))
  sent := by
    rw [hops, hout, List.filterMap_append, h.sent]
    exact (List.append_nil _).symm

theorem Attributed.receive {peer : Peer S} (h : peer.Attributed) (heap : Heap)
    (propagated : Propagated S) : (peer.receive heap propagated).Attributed := by
  cases propagated with
  | noop | timeout => exact h
  | trackOpen id trackIn =>
      refine h.plain [.queuedOpen trackIn peer.pending.isSome] rfl
        (fun op hop => .inr (.inr ⟨_, _, List.mem_singleton.mp hop⟩))
        (fun track hmem mid hmid => ?_) rfl
      rcases List.mem_append.mp hmem with hmem | hmem
      · exact ⟨track, hmem, hmid, rfl⟩
      · rw [List.mem_singleton.mp hmem] at hmid
        cases hmid
  | media id data =>
      simp only [Peer.receive, forward]
      split
      · exact h
      · rename_i mid hmid
        have htrack := h.forwardMid hmid
        split
        · exact h
        · split
          · exact h
          · split
            · exact h.wrote_one rfl rfl rfl htrack
            · exact h.wrote_one rfl rfl rfl htrack
  | keyframeRequest id request publisher midIn =>
      simp only [Peer.receive, serveKeyframeRequest]
      split
      · split
        · exact h
        · split
          · exact h
          · exact h.plain [.requestedKeyframe midIn request.kind] rfl (by simp [Plain])
              (fun track hmem mid hmid => ⟨track, hmem, hmid, rfl⟩) rfl
      · exact h

theorem Attributed.acceptAnswer {peer : Peer S} (h : peer.Attributed) (answer : S.SdpAnswer) :
    (peer.acceptAnswer answer).2.Attributed := by
  have hout := (acceptAnswer_frame answer peer).2.2
  refine h.plain [] (by simp) (by simp [Plain]) (fun track hmem mid hmid => ?_) (by rw [hout])
  rcases acceptAnswer_tracksOut answer peer with heq | heq
  · exact ⟨track, heq ▸ hmem, hmid, rfl⟩
  · rw [heq] at hmem
    obtain ⟨track', hmem', rfl⟩ := List.mem_map.mp (List.mem_of_mem_filter hmem)
    rw [TrackOut.settle_mid] at hmid
    exact ⟨track', hmem', hmid, (TrackOut.settle_trackIn track').symm⟩

theorem Attributed.handleInput {peer : Peer S} (h : peer.Attributed) (input : S.Input) :
    (peer.handleInput input).Attributed := by
  rw [handleInput_eq]
  exact h.congr rfl rfl rfl

end Peer

namespace Call

theorem attributed_invariant (hlaw : S.OffersMedia) (config : Config)
    (ok : Call S → CallEvent S → Prop) : PeerInvariant config ok (Peer.Attributed (S := S)) where
  start _ _ _ _ :=
    ⟨fun _ hmem => absurd hmem (List.not_mem_nil),
      fun _ _ _ _ hmem => absurd hmem (List.not_mem_nil),
      fun _ _ hmem => absurd hmem (List.not_mem_nil), trivial, rfl⟩
  send message peer hoffer h := by
    refine h.congr rfl rfl ?_
    have hnone : message.offerTracks = none := by
      cases message with
      | offer sdp tracks => exact absurd rfl (hoffer sdp tracks)
      | _ => rfl
    simp [hnone]
  subscribe tracks peer h := by
    refine h.plain [] (by simp [Peer.subscribe]) (by simp [Peer.Plain])
      (fun track hmem mid hmid => ?_) rfl
    rcases List.mem_append.mp hmem with hmem | hmem
    · exact ⟨track, hmem, hmid, rfl⟩
    · obtain ⟨trackIn, -, rfl⟩ := List.mem_map.mp hmem
      cases hmid
  flags _ _ _ _ h := h.congr rfl rfl rfl
  answer _ _ _ answer _ _ _ _ _ h := h.acceptAnswer answer
  pollOutput heap now _ h := h.pollOutput hlaw heap now
  receive heap propagated _ h := h.receive heap propagated
  handleInput input _ h := h.handleInput input

theorem reachable_attributed (hlaw : S.OffersMedia) {ok : Call S → CallEvent S → Prop}
    {call : Call S} (h : (machine S config name).ReachableVia ok call) :
    ∀ peer ∈ call.peers, peer.Attributed :=
  (attributed_invariant hlaw config ok).holds h

end Call

end FerriteSfu
