import FerriteSfu.Sfu.Frame

/-!
What each operation on a peer pushes to it.

Polling a peer may push an offer to it, and is the only operation on a single
peer that pushes anything. The map of the offer lists what the peer is
subscribed to.
-/

namespace FerriteSfu

variable {S : Str0m}

/-! ### The map of an offer -/

/-- What an offer says about the m-line `mid` created for `track`. -/
def listing (mid : Mid) (track : TrackIn) : TrackMap where
  mid := mid.name
  peerId := toString track.origin.val
  kind := if track.kind = .audio then "audio" else "video"

theorem kindLabel_eq (kind : MediaKind) :
    kindLabel kind = if kind = .audio then "audio" else "video" := by
  cases kind <;> rfl

/-- The map lists the m-lines that carry a live track and are not being stopped. -/
theorem TrackOut.toMap_eq_some {heap : Heap} {track : TrackOut} {entry : TrackMap} :
    track.toMap heap = some entry ↔ ∃ mid, track.mid = some mid ∧ track.trackIn ∈ heap ∧
      track.isStopping = false ∧ entry = listing mid track.trackIn := by
  have hlisting : ∀ mid, (⟨mid.toString, track.trackIn.origin.asString,
      kindLabel track.trackIn.kind⟩ : TrackMap) = listing mid track.trackIn := fun mid => by
    rw [kindLabel_eq]
    rfl
  unfold toMap Heap.upgrade
  cases track.mid with
  | none => simp
  | some mid =>
      by_cases hlive : track.trackIn ∈ heap
      · cases track.isStopping <;> simp [hlive, hlisting, eq_comm]
      · simp [hlive]

/-- An offer lists subscriptions of the peer to live tracks. -/
theorem Peer.mem_trackMap {heap : Heap} {peer : Peer S} {entry : TrackMap}
    (h : entry ∈ trackMap heap (peer.changes heap).1) :
    ∃ mid, ∃ track ∈ peer.refs, track ∈ heap ∧ entry = listing mid track := by
  obtain ⟨track, hmem, hmap⟩ := List.mem_filterMap.mp h
  obtain ⟨mid, -, hlive, -, heq⟩ := TrackOut.toMap_eq_some.mp hmap
  have href : track.trackIn ∈ (peer.changes heap).1.map (·.trackIn) := List.mem_map_of_mem hmem
  rw [changes_refs] at href
  exact ⟨mid, track.trackIn, href, hlive, heq⟩

/-! ### Operations on a peer -/

namespace Peer

@[simp] theorem receive_out (heap : Heap) (propagated : Propagated S) (peer : Peer S) :
    (peer.receive heap propagated).out = peer.out := by
  cases propagated with
  | noop | timeout | trackOpen => rfl
  | media id data =>
      simp only [receive]
      rw [forward_eq]
  | keyframeRequest id request publisher midIn =>
      simp only [receive]
      rw [serveKeyframeRequest_eq]
      split <;> rfl

/-- An offer goes out when none is outstanding, with the map of the
subscriptions it is made for. -/
theorem negotiateIfNeeded_out (heap : Heap) (peer : Peer S) :
    ((peer.negotiateIfNeeded heap).1 = false ∧
      (peer.negotiateIfNeeded heap).2.out = peer.out ∧
      (peer.negotiateIfNeeded heap).2.pending = peer.pending) ∨
    ((peer.negotiateIfNeeded heap).1 = true ∧ peer.pending = none ∧ ∃ sdp,
      (peer.negotiateIfNeeded heap).2.out =
        peer.out ++ [.offer sdp (trackMap heap (peer.changes heap).1)] ∧
      (peer.negotiateIfNeeded heap).2.pending.isSome = true) := by
  rcases negotiateIfNeeded_cases heap peer with ⟨-, heq⟩ | ⟨hpending, -, heq⟩ |
    ⟨hpending, -, -, heq⟩ | ⟨hpending, -, offer, pending, -, heq⟩
  · exact .inl ⟨by rw [heq], by rw [heq], by rw [heq]⟩
  · exact .inl ⟨by rw [heq], by rw [heq]; rfl, by rw [heq]; rfl⟩
  · exact .inl ⟨by rw [heq], by rw [heq]; rfl, by rw [heq]; rfl⟩
  · exact .inr ⟨by rw [heq], hpending, _, by rw [heq]; rfl, by rw [heq]; rfl⟩

theorem pollOutput_out (heap : Heap) (now : Instant) (peer : Peer S) :
    ((peer.pollOutput heap now).2.1.out = peer.out ∧
      (peer.pollOutput heap now).2.1.pending = peer.pending) ∨
    (peer.pending = none ∧ ∃ sdp, (peer.pollOutput heap now).2.1.out =
        peer.out ++ [.offer sdp (trackMap heap (peer.changes heap).1)] ∧
      (peer.pollOutput heap now).2.1.pending.isSome = true) := by
  have hnegotiate := negotiateIfNeeded_out heap peer
  rcases pollOutput_cases heap now peer with ⟨-, heq⟩ | ⟨-, hoffers, heq⟩ |
    ⟨-, hquiet, output, rtc, -, heq⟩ | ⟨-, hquiet, error, rtc, -, heq⟩
  · exact .inl ⟨by rw [heq], by rw [heq]⟩
  · rw [heq]
    rcases hnegotiate with ⟨hnot, -⟩ | ⟨-, hpending, hout⟩
    · rw [hoffers] at hnot
      cases hnot
    · exact .inr ⟨hpending, hout⟩
  · rw [heq]
    have hhandled := handleOutput_handled heap now output
      (Peer.record (.polled output) { (peer.negotiateIfNeeded heap).2 with rtc := rtc })
    rcases hnegotiate with ⟨-, hout, hpending⟩ | ⟨hoffers, -⟩
    · exact .inl ⟨hhandled.out.trans hout, hhandled.pending.trans hpending⟩
    · rw [hquiet] at hoffers
      cases hoffers
  · rw [heq]
    rcases hnegotiate with ⟨-, hout, hpending⟩ | ⟨hoffers, -⟩
    · exact .inl ⟨hout, hpending⟩
    · rw [hquiet] at hoffers
      cases hoffers

end Peer

end FerriteSfu
