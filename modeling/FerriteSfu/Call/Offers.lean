import FerriteSfu.Call.Lines
import FerriteSfu.Call.Negotiation
import FerriteSfu.Call.Subscriptions
import FerriteSfu.Sfu.Index

/-!
The offers a subscriber is sent.

An offer goes out when none is outstanding, and an answer is consumed when one
is, so offers and answers alternate. What an offer lists are the subscriptions
to live tracks, and those are the tracks of the other members at the start of
the pass: propagation waits for the end of it, and what is being stopped is
dead.
-/

namespace FerriteSfu

variable {S : Str0m} {config : Config} {name : String}

/-! ### The map -/

/-- The map has an entry for each track that others publish in the room, with
the id of its publisher and its kind, and no other; no two share an m-line. -/
structure Room.Lists (room : Room S) (own : PeerId) (tracks : List TrackMap) : Prop where
  distinct : (tracks.map TrackMap.mid).Nodup
  complete : (tracks.map fun entry => (entry.peerId, entry.kind)).Perm
    ((room.peers.filter fun peer => peer.id ≠ own).flatMap fun pub =>
      pub.tracks.map fun track =>
        (toString pub.id.val, if track.kind = .audio then "audio" else "video"))

/-- After the loop, a subscription to a live track has an m-line that stays. -/
theorem Peer.changes_live {peer : Peer S} {heap : Heap}
    (hstops : peer.StopsOnly fun track => track ∉ heap) {track : TrackOut}
    (hmem : track ∈ (peer.changes heap).1) (hlive : track.trackIn ∈ heap) :
    track.mid.isSome = true ∧ track.isStopping = false := by
  obtain ⟨stopped, hstopped, change, rfl⟩ := mem_negotiateTracks hmem
  obtain ⟨old, hold, rfl⟩ := List.mem_map.mp hstopped
  rw [TrackOut.negotiate_trackIn, TrackOut.stopDead_trackIn] at hlive
  have hkept := hstops old hold
  rcases old with ⟨trackIn, state⟩
  cases state with
  | toOpen => simp [TrackOut.stopDead, TrackOut.negotiate, Heap.upgrade, hlive, TrackOut.mid,
      TrackOut.isStopping]
  | negotiating mid => exact ⟨rfl, rfl⟩
  | opened mid =>
      simp only [TrackOut.stopDead, Heap.upgrade, if_pos hlive]
      exact ⟨rfl, rfl⟩
  | toStop mid => exact absurd hlive (hkept rfl)
  | negotiatingStop mid => exact absurd hlive (hkept rfl)

/-- The map of an offer, m-line by m-line. -/
theorem Peer.trackMap_eq {peer : Peer S} {heap : Heap}
    (hstops : peer.StopsOnly fun track => track ∉ heap) :
    ∃ lines : List (Mid × TrackIn),
      (trackMap heap (peer.changes heap).1 = lines.map fun line => listing line.1 line.2) ∧
      lines.map Prod.snd = (peer.refs.filter fun track => track ∈ heap) ∧
      lines.Sublist ((peer.changes heap).1.filterMap TrackOut.line) := by
  refine ⟨((peer.changes heap).1.filter fun track => track.trackIn ∈ heap).filterMap
    TrackOut.line, ?_, ?_, List.filter_sublist.filterMap _⟩
  · rw [trackMap, List.map_filterMap, List.filterMap_filter]
    refine List.filterMap_congr fun track hmem => ?_
    by_cases hlive : track.trackIn ∈ heap
    · obtain ⟨hmid, hkept⟩ := changes_live hstops hmem hlive
      obtain ⟨mid, hmid⟩ := Option.isSome_iff_exists.mp hmid
      have hmap := TrackOut.toMap_eq_some.mpr ⟨mid, hmid, hlive, hkept, rfl⟩
      simp [hmap, TrackOut.line, hlive, hmid]
    · simp [TrackOut.toMap, Heap.upgrade, hlive]
  · rw [← changes_refs heap peer, List.filter_map, List.map_filterMap]
    have hall : ∀ track ∈ (peer.changes heap).1.filter fun track => track.trackIn ∈ heap,
        track.line.map Prod.snd = some track.trackIn := by
      intro track hmem
      obtain ⟨hmem, hlive⟩ := List.mem_filter.mp hmem
      obtain ⟨mid, hmid⟩ := Option.isSome_iff_exists.mp
        (changes_live hstops hmem (of_decide_eq_true hlive)).1
      simp [TrackOut.line, hmid]
    rw [List.filterMap_congr hall]
    rw [List.filterMap_eq_map']
    rfl

namespace Call

namespace Subscribed

variable {next : ℕ} {room : Room S} {sub : Peer S}

/-- In a pass, the live tracks a member is subscribed to are those of the others. -/
theorem mem_heap (h : Subscribed next room.peers) (hsub : sub ∈ room.peers) {heap : Heap}
    (hgrown : Heap.Grown room.ids room.tracks heap) {pub : Peer S} (hpub : pub ∈ room.peers)
    {track : TrackIn} (href : track ∈ sub.refs) (horigin : track.origin = pub.id) :
    track ∈ heap :=
  hgrown.kept (Room.mem_tracks.mpr ⟨pub, hpub, h.mem_of_origin hsub hpub href horigin⟩)

theorem origin_of_mem_heap (h : Subscribed next room.peers) {heap : Heap}
    (hgrown : Heap.Grown room.ids room.tracks heap) {track : TrackIn} (hlive : track ∈ heap) :
    ∃ pub ∈ room.peers, pub.id = track.origin := by
  rcases hgrown.origin track hlive with hmem | hmem
  · obtain ⟨pub, hpub, htrack⟩ := Room.mem_tracks.mp hmem
    exact ⟨pub, hpub, (h.origin pub hpub track htrack).symm⟩
  · exact Room.mem_ids.mp hmem

/-- They are exactly the tracks of the others, each once. -/
theorem live_perm (h : Subscribed next room.peers) (hids : room.ids.Nodup)
    (hsub : sub ∈ room.peers) {heap : Heap} (hgrown : Heap.Grown room.ids room.tracks heap) :
    (sub.refs.filter fun track => track ∈ heap).Perm
      ((room.peers.filter fun peer => peer.id ≠ sub.id).flatMap Peer.tracks) := by
  have hothers : ((room.peers.filter fun peer => peer.id ≠ sub.id).map Peer.id).Nodup :=
    hids.sublist (List.filter_sublist.map _)
  have horigin : ∀ pub ∈ room.peers.filter (fun peer => peer.id ≠ sub.id),
      ∀ track ∈ pub.tracks, track.origin = pub.id :=
    fun pub hpub => h.origin pub (List.mem_of_mem_filter hpub)
  refine List.perm_of_filter_key (g := TrackIn.origin) fun id => ?_
  by_cases hid : ∃ pub ∈ room.peers, pub.id = id ∧ pub.id ≠ sub.id
  · obtain ⟨pub, hpub, rfl, hne⟩ := hid
    have hpub' : pub ∈ room.peers.filter fun peer => peer.id ≠ sub.id :=
      List.mem_filter.mpr ⟨hpub, by simpa using hne⟩
    have hall : ((sub.refs.filter fun track => track ∈ heap).filter fun track =>
        track.origin = pub.id) = sub.refs.filter fun track => track.origin = pub.id := by
      rw [List.filter_filter]
      refine List.filter_congr fun track href => ?_
      by_cases ho : track.origin = pub.id
      · simp [ho, h.mem_heap hsub hgrown hpub href ho]
      · simp [ho]
    rw [hall, h.complete sub hsub pub hpub, if_neg hne,
      List.filter_flatMap_key hothers horigin hpub']
  · -- Nobody else has this id: neither list has a track of it.
    rw [List.filter_eq_nil_iff.mpr fun track hmem ho => ?_,
      List.filter_eq_nil_iff.mpr fun track hmem ho => ?_]
    · obtain ⟨pub, hpub, htrack⟩ := List.mem_flatMap.mp hmem
      obtain ⟨hpub, hne⟩ := List.mem_filter.mp hpub
      exact hid ⟨pub, hpub, (h.origin pub hpub track htrack).symm.trans (of_decide_eq_true ho),
        of_decide_eq_true hne⟩
    · obtain ⟨href, hlive⟩ := List.mem_filter.mp hmem
      obtain ⟨pub, hpub, heq⟩ := h.origin_of_mem_heap hgrown (of_decide_eq_true hlive)
      refine hid ⟨pub, hpub, heq.trans (of_decide_eq_true ho), fun he => ?_⟩
      exact h.origin_ne hsub href (heq.symm.trans he)

end Subscribed

/-! ### What a pass pushes -/

/-- What a pass over the room pushes to a member: nothing, or a whole offer when
none is outstanding. -/
def Offered (room : Room S) (peer peer' : Peer S) : Prop :=
  (peer'.out = peer.out ∧ peer'.pending = peer.pending) ∨
    (peer.pending = none ∧ peer'.pending.isSome = true ∧ ∃ sdp tracks,
      peer'.out = peer.out ++ [.offer sdp tracks] ∧ room.Lists peer.id tracks)

/-- A member in the middle of a pass over the room. -/
structure Offering (room : Room S) (old peer : Peer S) : Prop where
  id : peer.id = old.id
  refs : peer.refs = old.refs
  logged : peer.Logged
  drawn : peer.Drawn
  stopping : peer.StopsOnly fun track => ∀ pub ∈ room.peers, pub.id ≠ track.origin
  offered : Offered room old peer

namespace Subscribed

variable {next : ℕ} {room : Room S} {old peer : Peer S}

/-- An offer made in a pass lists the room. -/
theorem lists (h : Subscribed next room.peers) (hfresh : S.FreshMids) (hids : room.ids.Nodup)
    (hold : old ∈ room.peers) (hpeer : Offering room old peer) {heap : Heap}
    (hgrown : Heap.Grown room.ids room.tracks heap) :
    room.Lists old.id (trackMap heap (peer.changes heap).1) := by
  have hstops : peer.StopsOnly fun track => track ∉ heap := by
    intro track hmem hstop hlive
    obtain ⟨pub, hpub, heq⟩ := h.origin_of_mem_heap hgrown hlive
    exact hpeer.stopping track hmem hstop pub hpub heq
  obtain ⟨lines, htracks, hsnd, hsub⟩ := Peer.trackMap_eq hstops
  have hdistinct := nodup_of_subperm hfresh (Peer.changes_history hpeer.logged heap)
    (hsub.subperm.trans (hpeer.drawn.changes heap))
  have hperm := h.live_perm hids hold hgrown
  rw [← hpeer.refs, ← hsnd] at hperm
  rw [htracks]
  refine ⟨?_, ?_⟩
  · simpa [Function.comp_def, listing, Mid.toString] using
      hdistinct.map Mid.toString_injective
  · have hmap := hperm.map fun track =>
      (toString track.origin.val, if track.kind = .audio then "audio" else "video")
    rw [List.map_map, List.map_flatMap] at hmap
    rw [List.map_map]
    refine hmap.trans (.of_eq (List.flatMap_congr fun pub hpub => ?_))
    refine List.map_congr_left fun track htrack => ?_
    rw [h.origin pub (List.mem_of_mem_filter hpub) track htrack]

theorem pollOutput (h : Subscribed next room.peers) (hfresh : S.FreshMids) (hids : room.ids.Nodup)
    (hold : old ∈ room.peers) (hpeer : Offering room old peer) {heap : Heap}
    (hgrown : Heap.Grown room.ids room.tracks heap) (now : Instant) :
    Offering room old (peer.pollOutput heap now).2.1 := by
  have hpolled := Peer.pollOutput_polled heap now peer
  refine ⟨(Peer.id_eq_of_card hpolled.card).trans hpeer.id, hpolled.refs.trans hpeer.refs,
    hpeer.logged.pollOutput heap now, hpeer.drawn.pollOutput heap now,
    hpeer.stopping.pollOutput (fun track href hdead pub hpub heq => ?_) now, ?_⟩
  · exact hdead (h.mem_heap hold hgrown hpub (hpeer.refs ▸ href) heq.symm)
  · rcases Peer.pollOutput_out heap now peer with ⟨hout, hpending⟩ | ⟨hnone, sdp, hout, hpending⟩
    · unfold Offered
      rw [hout, hpending]
      exact hpeer.offered
    · rcases hpeer.offered with ⟨hsame, hidle⟩ | ⟨-, hbusy, -⟩
      · exact .inr ⟨hidle ▸ hnone, hpending, sdp, _, by rw [hout, hsame],
          h.lists hfresh hids hold hpeer hgrown⟩
      · rw [hnone] at hbusy
        cases hbusy

/-- **In a pass, every offer lists the tracks of the others, as they were when
it began.** -/
theorem poll_offered (h : Subscribed next room.peers) (hfresh : S.FreshMids)
    (hids : room.ids.Nodup) (hpeers : ∀ peer ∈ room.peers, peer.Logged ∧ peer.Drawn)
    {clock : ℕ → List Instant} {polled : PolledRoom S}
    (hpolled : room.poll clock room.tracks 0 = some polled) :
    ∀ peer' ∈ polled.room.peers, ∃ peer ∈ room.peers, peer.id = peer'.id ∧
      Offered room peer peer' := by
  refine Room.poll_forall (I := fun peer => ∃ old ∈ room.peers, Offering room old peer)
    (J := fun peer' => ∃ peer ∈ room.peers, peer.id = peer'.id ∧ Offered room peer peer')
    hpolled (fun peer hpeer => ?_) (fun heap now peer hgrown _ hpeer => ?_) (fun peer hpeer => ?_)
    fun heap propagated peer _ hpeer => ?_
  · obtain ⟨hlogged, hdrawn⟩ := hpeers peer hpeer
    exact ⟨peer, hpeer, rfl, rfl, hlogged, hdrawn, h.stopping peer hpeer, .inl ⟨rfl, rfl⟩⟩
  · obtain ⟨old, hold, hoffering⟩ := hpeer
    exact ⟨old, hold, h.pollOutput hfresh hids hold hoffering hgrown now⟩
  · obtain ⟨old, hold, hoffering⟩ := hpeer
    exact ⟨old, hold, hoffering.id.symm, hoffering.offered⟩
  · obtain ⟨old, hold, hid, hoffered⟩ := hpeer
    refine ⟨old, hold, by rw [Peer.receive_id, hid], ?_⟩
    unfold Offered
    rw [Peer.receive_out, Peer.receive_pending]
    exact hoffered

end Subscribed

end Call

/-! ### Offers and answers -/

/-- How many offers were pushed to a peer. -/
def offersIn (out : List ServerMsg) : ℕ := (out.filterMap ServerMsg.offerTracks).length

/-- How many offers wait for their answer: one, or none. -/
def Peer.unanswered (peer : Peer S) : ℕ := peer.pending.isSome.toNat

/-- Between `old` and `peer` no answer was consumed, so what was offered is what
is outstanding. -/
def Peer.Balanced (old peer : Peer S) : Prop :=
  peer.id = old.id ∧ offersIn peer.out + old.unanswered = offersIn old.out + peer.unanswered

theorem ServerMsg.offerTracks_of_ne {message : ServerMsg}
    (h : ∀ sdp tracks, message ≠ .offer sdp tracks) : message.offerTracks = none := by
  cases message with
  | offer sdp tracks => exact absurd rfl (h sdp tracks)
  | _ => rfl

theorem offersIn_append (out out' : List ServerMsg) :
    offersIn (out ++ out') = offersIn out + offersIn out' := by
  simp [offersIn]

theorem offersIn_send {message : ServerMsg} (h : ∀ sdp tracks, message ≠ .offer sdp tracks)
    (out : List ServerMsg) : offersIn (out ++ [message]) = offersIn out := by
  rw [offersIn_append]
  simp [offersIn, ServerMsg.offerTracks_of_ne h]

namespace Peer

theorem Balanced.refl (peer : Peer S) : peer.Balanced peer := ⟨rfl, rfl⟩

/-- Whatever leaves the id, the offers and the outstanding one alone. -/
theorem Balanced.congr {old peer peer' : Peer S} (h : old.Balanced peer) (hid : peer'.id = peer.id)
    (hout : offersIn peer'.out = offersIn peer.out) (hpending : peer'.pending = peer.pending) :
    old.Balanced peer' := by
  have hsame : peer'.unanswered = peer.unanswered := by rw [unanswered, hpending, unanswered]
  exact ⟨hid.trans h.1, by rw [hout, hsame, h.2]⟩

theorem Balanced.trans {old peer peer' : Peer S} (h : old.Balanced peer)
    (h' : peer.Balanced peer') : old.Balanced peer' :=
  ⟨h'.1.trans h.1, by have := h.2; have := h'.2; omega⟩

/-- A poll offers when nothing is outstanding, and then something is. -/
theorem Balanced.pollOutput {old peer : Peer S} (h : old.Balanced peer) (heap : Heap)
    (now : Instant) : old.Balanced (peer.pollOutput heap now).2.1 := by
  refine h.trans ⟨id_eq_of_card (pollOutput_polled heap now peer).card, ?_⟩
  rcases pollOutput_out heap now peer with ⟨hout, hpending⟩ | ⟨hnone, sdp, hout, hpending⟩
  · rw [hout, unanswered, unanswered, hpending]
  · have hone : offersIn [.offer sdp (trackMap heap (peer.changes heap).1)] = 1 := rfl
    rw [hout, offersIn_append, hone, unanswered, unanswered, hnone, hpending]
    rfl

end Peer

namespace Call

theorem balanced_kept (old : Peer S) :
    PeerKept (S := S) (fun _ event => ∀ id sdp, event ≠ .answer id sdp) (Peer.Balanced old) where
  send _ _ hoffer h := h.congr rfl (offersIn_send hoffer _) rfl
  subscribe _ _ h := h.congr rfl rfl rfl
  flags _ _ _ _ h := h.congr rfl rfl rfl
  answer _ id sdp _ hok _ _ _ _ _ := absurd rfl (hok id sdp)
  pollOutput heap now _ h := h.pollOutput heap now
  receive heap propagated peer h :=
    h.congr (Peer.receive_id heap propagated peer)
      (by rw [Peer.receive_out]) (Peer.receive_pending heap propagated peer)
  handleInput input peer h :=
    h.congr (Peer.handleInput_id input peer) (by rw [Peer.handleInput_out])
      (Peer.handleInput_pending input peer)

end Call

end FerriteSfu
