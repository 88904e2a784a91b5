import FerriteSfu.Call.Offers

/-!
Keyframe requests, against the direction of the media.

`forward` looks a subscription up by the publisher and its mid, and a keyframe
request by the mid of the subscriber. Both searches take the first that fits. That
they are inverse to each other rests on two facts about the list: no two of its
m-lines have the same mid, and no two subscriptions to tracks of one publisher
have the same mid there. `Peer.Carries` is where the two searches meet.
-/

namespace FerriteSfu

variable {S : Str0m}

namespace Peer

/-- `forward` finds the m-line, when no other subscription to the publisher has the
mid. -/
theorem Carries.forwardMid {heap : Heap} {peer : Peer S} {origin : PeerId} {midIn mid : Mid}
    (h : peer.Carries heap origin midIn mid)
    (hone : ((peer.refs.filter fun track => track.origin = origin).map TrackIn.mid).Nodup) :
    peer.forwardMid heap origin midIn = some mid := by
  obtain ⟨out, hmem, hlive, horigin, hmid, hout⟩ := h
  have hkeys : ((peer.tracksOut.filter fun out => out.trackIn.origin = origin).map
      fun out => out.trackIn.mid).Nodup := by
    simpa [refs, List.filter_map, Function.comp_def] using hone
  have hfound : ∃ found, (peer.tracksOut.find? fun out =>
      decide (out.trackIn ∈ heap ∧ out.trackIn.origin = origin ∧ out.trackIn.mid = midIn)) =
        some found :=
    Option.isSome_iff_exists.mp (List.find?_isSome.mpr
      ⟨out, hmem, decide_eq_true ⟨hlive, horigin, hmid⟩⟩)
  obtain ⟨found, hfind⟩ := hfound
  obtain ⟨-, horigin', hmid'⟩ : found.trackIn ∈ heap ∧ found.trackIn.origin = origin ∧
      found.trackIn.mid = midIn := by simpa using List.find?_some hfind
  have hsame : found = out := List.eq_of_map_eq hkeys
    (List.mem_filter.mpr ⟨List.mem_of_find?_eq_some hfind, by simpa using horigin'⟩)
    (List.mem_filter.mpr ⟨hmem, by simpa using horigin⟩) (hmid'.trans hmid.symm)
  rw [forwardMid_eq, hfind, hsame]
  exact hout

theorem carries_of_keyframe {heap : Heap} {peer : Peer S} {request request' : KeyframeRequest}
    {id origin : PeerId} {midIn : Mid}
    (h : peer.handleIncomingKeyframeRequest heap request =
      .keyframeRequest id request' origin midIn) : peer.Carries heap origin midIn request.mid := by
  rcases handleIncomingKeyframeRequest_cases heap request peer with hnoop |
    ⟨out, hmem, hmid, hlive, heq⟩
  · rw [hnoop] at h
    cases h
  · rw [heq] at h
    cases h
    exact ⟨out, hmem, hlive, rfl, rfl, hmid⟩

/-- The request goes to the publisher, when no other m-line has the mid. -/
theorem Carries.keyframe {heap : Heap} {peer : Peer S} {request : KeyframeRequest}
    {origin : PeerId} {midIn : Mid} (h : peer.Carries heap origin midIn request.mid)
    (hlines : (peer.lines.map Prod.fst).Nodup) :
    peer.handleIncomingKeyframeRequest heap request =
      .keyframeRequest peer.id { request with rid := none } origin midIn := by
  obtain ⟨out, hmem, hlive, rfl, rfl, hmid⟩ := h
  obtain ⟨found, hfind⟩ := Option.isSome_iff_exists.mp
    (List.find?_isSome.mpr ⟨out, hmem, by simpa using hmid⟩ :
      (peer.tracksOut.find? fun out => out.mid = some request.mid).isSome = true)
  have hmid' : found.mid = some request.mid := by simpa using List.find?_some hfind
  have hline : (request.mid, out.trackIn) ∈ peer.lines :=
    List.mem_filterMap.mpr ⟨out, hmem, by simp [TrackOut.line, hmid]⟩
  have hline' : (request.mid, found.trackIn) ∈ peer.lines :=
    List.mem_filterMap.mpr ⟨found, List.mem_of_find?_eq_some hfind, by simp [TrackOut.line, hmid']⟩
  -- Two subscriptions on one m-line are to the same track.
  have hsame : found.trackIn = out.trackIn :=
    congrArg Prod.snd (List.eq_of_map_eq hlines hline' hline rfl)
  unfold handleIncomingKeyframeRequest
  rw [hfind]
  simp [hsame, Heap.upgrade, hlive]

end Peer

/-- A keyframe request reaches its publisher and nobody else. -/
theorem Room.propagate_keyframe {room : Room S} (hids : room.ids.Nodup) (heap : Heap)
    {id pub : PeerId} (hne : pub ≠ id) (request : KeyframeRequest) (mid : Mid) :
    room.propagate heap (.keyframeRequest id request pub mid) =
      room.updatePeer pub (Peer.serveKeyframeRequest mid request.kind) := by
  have hpeers : (room.propagate heap (.keyframeRequest id request pub mid)).peers =
      (room.updatePeer pub (Peer.serveKeyframeRequest mid request.kind)).peers := by
    rw [updatePeer_peers hids]
    refine List.map_congr_left fun peer _ => ?_
    by_cases hpub : peer.id = pub
    · simp [Peer.receive, hpub, hne]
    · simp [Peer.receive, hpub, Ne.symm hpub]
  exact congrArg (fun peers => { room with peers := peers }) hpeers

/-! ### In a room -/

namespace Call.Subscribed

variable {next : ℕ} {peers : List (Peer S)} {sub : Peer S}

/-- No two subscriptions to tracks of one member have the same mid there. -/
theorem mids_nodup (hlaw : S.AnnouncesOnce) (h : Subscribed next peers) (hsub : sub ∈ peers)
    {pub : Peer S} (hpub : pub ∈ peers) (hlogged : pub.Logged) :
    ((sub.refs.filter fun track => track.origin = pub.id).map TrackIn.mid).Nodup := by
  rw [h.complete sub hsub pub hpub]
  split
  · exact List.nodup_nil
  · exact hlogged.announced ▸ hlaw _ _ hlogged.history

end Call.Subscribed

/-- What becomes of a keyframe request of `sub`: it goes the way of the media, back. -/
structure Room.RoutesBack (heap : Heap) (room : Room S) (sub : Peer S)
    (request : KeyframeRequest) : Prop where
  /-- It is translated to the track whose packets are forwarded on its m-line. -/
  inverse : ∀ origin mid, sub.forwardMid heap origin mid = some request.mid ↔
    sub.handleIncomingKeyframeRequest heap request =
      .keyframeRequest sub.id { request with rid := none } origin mid
  /-- The publisher of that track serves it, and nobody else. -/
  served : ∀ origin mid, sub.forwardMid heap origin mid = some request.mid →
    (∃ pub ∈ room.peers, pub.id = origin ∧ pub.id ≠ sub.id ∧ ∃ track ∈ pub.tracks,
      track.mid = mid) ∧
    room.propagate heap (sub.handleIncomingKeyframeRequest heap request) =
      room.updatePeer origin (Peer.serveKeyframeRequest mid request.kind)
  /-- If nothing is forwarded on the m-line, nobody does. -/
  unforwarded : (∀ origin mid, sub.forwardMid heap origin mid ≠ some request.mid) →
    sub.handleIncomingKeyframeRequest heap request = .noop ∧
    room.propagate heap (sub.handleIncomingKeyframeRequest heap request) = room
  /-- Nor does anybody if the publisher is gone. -/
  orphaned : (∀ out ∈ sub.tracksOut, out.mid = some request.mid →
      out.trackIn.origin ∉ room.ids) →
    sub.handleIncomingKeyframeRequest heap request = .noop ∧
    room.propagate heap (sub.handleIncomingKeyframeRequest heap request) = room

/-- **Keyframe requests take the way of the media back.** -/
theorem Call.Subscribed.routesBack {next : ℕ} {room : Room S} {sub : Peer S}
    (hfresh : S.FreshMids) (hlaw : S.AnnouncesOnce) (h : Subscribed next room.peers)
    (hids : room.ids.Nodup) (hlogged : ∀ peer ∈ room.peers, peer.Logged)
    (hsub : sub ∈ room.peers) (hdrawn : sub.Drawn) {heap : Heap}
    (hheap : sub.Agrees heap room.tracks) (request : KeyframeRequest) :
    room.RoutesBack heap sub request := by
  have hpublished : ∀ {origin midIn mid}, sub.Carries heap origin midIn mid →
      ∃ pub ∈ room.peers, pub.id = origin ∧ pub.id ≠ sub.id ∧ ∃ track ∈ pub.tracks,
        track.mid = midIn := by
    rintro origin midIn mid ⟨out, hmem, hlive, rfl, rfl, -⟩
    have href : out.trackIn ∈ sub.refs := List.mem_map_of_mem hmem
    obtain ⟨pub, hpub, htrack⟩ := Room.mem_tracks.mp ((hheap _ href).mp hlive)
    have hid := h.origin pub hpub _ htrack
    exact ⟨pub, hpub, hid.symm, hid ▸ h.origin_ne hsub href, _, htrack, rfl⟩
  have hback : ∀ {origin midIn}, sub.Carries heap origin midIn request.mid →
      sub.handleIncomingKeyframeRequest heap request =
        .keyframeRequest sub.id { request with rid := none } origin midIn :=
    fun hcarries => hcarries.keyframe (hdrawn.mids_nodup hfresh (hlogged sub hsub))
  have hnobody : sub.handleIncomingKeyframeRequest heap request = .noop →
      sub.handleIncomingKeyframeRequest heap request = .noop ∧
      room.propagate heap (sub.handleIncomingKeyframeRequest heap request) = room :=
    fun hnoop => ⟨hnoop, by rw [hnoop]; rfl⟩
  refine ⟨fun origin mid => ⟨fun hforward => hback (Peer.carries_of_forwardMid hforward),
    fun hkeyframe => ?inverse⟩, fun origin mid hforward => ?served, fun hnone => ?unforwarded,
    fun hgone => ?orphaned⟩
  case inverse =>
    have hcarries := Peer.carries_of_keyframe hkeyframe
    obtain ⟨pub, hpub, rfl, -, -⟩ := hpublished hcarries
    exact hcarries.forwardMid (h.mids_nodup hlaw hsub hpub (hlogged pub hpub))
  case served =>
    have hcarries := Peer.carries_of_forwardMid hforward
    obtain ⟨pub, hpub, rfl, hne, htrack⟩ := hpublished hcarries
    refine ⟨⟨pub, hpub, rfl, hne, htrack⟩, ?_⟩
    rw [hback hcarries, Room.propagate_keyframe hids heap hne]
  case unforwarded =>
    rcases Peer.handleIncomingKeyframeRequest_cases heap request sub with hnoop |
      ⟨out, hmem, hmid, hlive, -⟩
    · exact hnobody hnoop
    · have hcarries : sub.Carries heap out.trackIn.origin out.trackIn.mid request.mid :=
        ⟨out, hmem, hlive, rfl, rfl, hmid⟩
      obtain ⟨pub, hpub, hid, -, -⟩ := hpublished hcarries
      refine absurd (hcarries.forwardMid ?_) (hnone _ _)
      exact hid ▸ h.mids_nodup hlaw hsub hpub (hlogged pub hpub)
  case orphaned =>
    rcases Peer.handleIncomingKeyframeRequest_cases heap request sub with hnoop |
      ⟨out, hmem, hmid, hlive, -⟩
    · exact hnobody hnoop
    · obtain ⟨pub, hpub, hid, -, -⟩ := hpublished ⟨out, hmem, hlive, rfl, rfl, hmid⟩
      exact absurd (Room.mem_ids.mpr ⟨pub, hpub, hid⟩) (hgone out hmem hmid)

end FerriteSfu
