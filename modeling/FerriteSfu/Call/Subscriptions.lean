import FerriteSfu.Call.Rules

/-!
Who is subscribed to what.

Every peer holds, for each peer of its room, exactly the tracks that one
publishes, in the order they were announced, and nothing of its own. The m-lines
being stopped are all of publishers that are gone, which is why an answer never
drops a live subscription.
-/

namespace FerriteSfu

variable {S : Str0m} {config : Config} {name : String}

/-! ### What negotiation stops -/

theorem TrackOut.stopDead_isStopping {heap : Heap} {track : TrackOut}
    (h : (track.stopDead heap).isStopping = true) :
    track.isStopping = true ∨ track.trackIn ∉ heap := by
  rcases track with ⟨trackIn, state⟩
  cases state with
  | opened mid =>
      right
      by_contra hmem
      simp [stopDead, Heap.upgrade, hmem, isStopping] at h
  | toStop mid => exact .inl rfl
  | negotiatingStop mid => exact .inl rfl
  | toOpen => simp [stopDead, isStopping] at h
  | negotiating mid => simp [stopDead, isStopping] at h

theorem TrackOut.negotiate_isStopping (heap : Heap) (change : S.SdpApi) (track : TrackOut) :
    (track.negotiate heap change).1.isStopping = track.isStopping := by
  rcases track with ⟨trackIn, state⟩
  cases state with
  | toOpen =>
      simp only [negotiate]
      split <;> rfl
  | negotiating | opened | toStop | negotiatingStop => rfl

theorem TrackOut.settle_isStopping (track : TrackOut) :
    track.settle.isStopping = track.isStopping := by
  rcases track with ⟨trackIn, state⟩
  cases state <;> rfl

theorem TrackOut.isStopping_of_isNegotiatingStop {track : TrackOut}
    (h : track.isNegotiatingStop = true) : track.isStopping = true := by
  rcases track with ⟨trackIn, state⟩
  cases state <;> simp_all [isNegotiatingStop, isStopping]

namespace Peer

/-- The tracks whose m-lines are being stopped all satisfy `dead`. -/
def StopsOnly (dead : TrackIn → Prop) (peer : Peer S) : Prop :=
  ∀ track ∈ peer.tracksOut, track.isStopping = true → dead track.trackIn

theorem StopsOnly.of_tracksOut {dead : TrackIn → Prop} {peer peer' : Peer S}
    (h : peer.StopsOnly dead) (heq : peer'.tracksOut = peer.tracksOut) : peer'.StopsOnly dead := by
  intro track hmem
  exact h track (heq ▸ hmem)

/-- Negotiation stops what is not in the heap. -/
theorem StopsOnly.negotiateIfNeeded {dead : TrackIn → Prop} {peer : Peer S} {heap : Heap}
    (h : peer.StopsOnly dead) (hdead : ∀ track ∈ peer.refs, track ∉ heap → dead track) :
    (peer.negotiateIfNeeded heap).2.StopsOnly dead := by
  rcases negotiateIfNeeded_tracksOut heap peer with heq | heq
  · exact h.of_tracksOut heq
  · intro track hmem hstop
    rw [heq] at hmem
    obtain ⟨old, hold, change, rfl⟩ := mem_changes hmem
    rw [TrackOut.negotiate_isStopping] at hstop
    rw [TrackOut.negotiate_trackIn, TrackOut.stopDead_trackIn]
    rcases TrackOut.stopDead_isStopping hstop with hbefore | hgone
    · exact h old hold hbefore
    · exact hdead _ (List.mem_map_of_mem hold) hgone

theorem StopsOnly.pollOutput {dead : TrackIn → Prop} {peer : Peer S} {heap : Heap}
    (h : peer.StopsOnly dead) (hdead : ∀ track ∈ peer.refs, track ∉ heap → dead track)
    (now : Instant) : (peer.pollOutput heap now).2.1.StopsOnly dead := by
  have hneg := h.negotiateIfNeeded hdead
  rcases pollOutput_cases heap now peer with ⟨-, heq⟩ | ⟨-, -, heq⟩ | ⟨-, -, output, rtc, -, heq⟩ |
    ⟨-, -, error, rtc, -, heq⟩
  · exact heq ▸ h
  · exact heq ▸ hneg
  · rw [heq]
    exact hneg.of_tracksOut (handleOutput_handled heap now output _).tracksOut
  · exact heq ▸ hneg

theorem StopsOnly.acceptAnswer {dead : TrackIn → Prop} {peer : Peer S} (h : peer.StopsOnly dead)
    (answer : S.SdpAnswer) : (peer.acceptAnswer answer).2.StopsOnly dead := by
  rcases acceptAnswer_tracksOut answer peer with heq | heq
  · exact h.of_tracksOut heq
  · intro track hmem hstop
    rw [heq] at hmem
    obtain ⟨old, hold, rfl⟩ := List.mem_map.mp (List.mem_of_mem_filter hmem)
    rw [TrackOut.settle_isStopping] at hstop
    rw [TrackOut.settle_trackIn]
    exact h old hold hstop

theorem StopsOnly.receive {dead : TrackIn → Prop} {peer : Peer S} (h : peer.StopsOnly dead)
    (heap : Heap) (propagated : Propagated S) : (peer.receive heap propagated).StopsOnly dead := by
  intro track hmem hstop
  rw [receive_tracksOut] at hmem
  rcases List.mem_append.mp hmem with hmem | hmem
  · exact h track hmem hstop
  · obtain ⟨trackIn, -, rfl⟩ := List.mem_map.mp hmem
    cases hstop

end Peer

/-! ### The invariant -/

namespace Call

structure Subscribed (next : ℕ) (peers : List (Peer S)) : Prop where
  complete : ∀ sub ∈ peers, ∀ pub ∈ peers,
    (sub.refs.filter fun track => track.origin = pub.id) =
      if pub.id = sub.id then [] else pub.tracks
  origin : ∀ pub ∈ peers, ∀ track ∈ pub.tracks, track.origin = pub.id
  fresh : ∀ sub ∈ peers, ∀ track ∈ sub.refs, track.origin.val < next
  stopping : ∀ sub ∈ peers, sub.StopsOnly fun track => ∀ pub ∈ peers, pub.id ≠ track.origin

/-- Same id, same tracks, same subscriptions. -/
def SameTracks (peer peer' : Peer S) : Prop :=
  peer'.id = peer.id ∧ peer'.tracks = peer.tracks ∧ peer'.tracksOut = peer.tracksOut

theorem SameTracks.refs {peer peer' : Peer S} (h : SameTracks peer peer') :
    peer'.refs = peer.refs :=
  congrArg (List.map _) h.2.2

theorem SameTracks.send (message : ServerMsg) (peer : Peer S) :
    SameTracks peer (peer.send message) :=
  ⟨rfl, rfl, rfl⟩

theorem SameTracks.handleInput (input : S.Input) (peer : Peer S) :
    SameTracks peer (peer.handleInput input) := by
  rw [Peer.handleInput_eq]
  exact ⟨rfl, rfl, rfl⟩

namespace Subscribed

variable {next : ℕ} {peers peers' : List (Peer S)}

theorem empty (next : ℕ) : Subscribed next ([] : List (Peer S)) :=
  ⟨by simp, by simp, by simp, by simp⟩

theorem later (h : Subscribed next peers) : Subscribed (next + 1) peers :=
  { h with
    fresh := fun sub hsub track hmem =>
      (h.fresh sub hsub track hmem).trans (Nat.lt_succ_self _) }

/-- Some of the peers, each with the tracks and subscriptions it had. -/
theorem of_sameTracks (h : Subscribed next peers)
    (hpeers : ∀ peer' ∈ peers', ∃ peer ∈ peers, SameTracks peer peer') :
    Subscribed next peers' where
  complete sub' hsub' pub' hpub' := by
    obtain ⟨sub, hsub, hs⟩ := hpeers sub' hsub'
    obtain ⟨pub, hpub, hp⟩ := hpeers pub' hpub'
    rw [hs.refs, hp.1, hs.1, hp.2.1]
    exact h.complete sub hsub pub hpub
  origin pub' hpub' track hmem := by
    obtain ⟨pub, hpub, hp⟩ := hpeers pub' hpub'
    rw [hp.1]
    exact h.origin pub hpub track (hp.2.1 ▸ hmem)
  fresh sub' hsub' track hmem := by
    obtain ⟨sub, hsub, hs⟩ := hpeers sub' hsub'
    exact h.fresh sub hsub track (hs.refs ▸ hmem)
  stopping sub' hsub' track hmem hstop pub' hpub' := by
    obtain ⟨sub, hsub, hs⟩ := hpeers sub' hsub'
    obtain ⟨pub, hpub, hp⟩ := hpeers pub' hpub'
    rw [hp.1]
    exact h.stopping sub hsub track (hs.2.2 ▸ hmem) hstop pub hpub

/-- No subscription is to a track of the subscriber. -/
theorem origin_ne (h : Subscribed next peers) {sub : Peer S} (hsub : sub ∈ peers)
    {track : TrackIn} (href : track ∈ sub.refs) : track.origin ≠ sub.id := by
  intro horigin
  have hnone := h.complete sub hsub sub hsub
  rw [if_pos rfl] at hnone
  exact List.filter_eq_nil_iff.mp hnone track href (by simpa using horigin)

/-- A subscription under the id of a member is to one of its tracks. -/
theorem mem_of_origin (h : Subscribed next peers) {sub pub : Peer S} (hsub : sub ∈ peers)
    (hpub : pub ∈ peers) {track : TrackIn} (href : track ∈ sub.refs)
    (horigin : track.origin = pub.id) : track ∈ pub.tracks := by
  have hmem : track ∈ sub.refs.filter fun track => track.origin = pub.id :=
    List.mem_filter.mpr ⟨href, by simpa using horigin⟩
  rw [h.complete sub hsub pub hpub] at hmem
  split at hmem
  · cases hmem
  · exact hmem

theorem map (h : Subscribed next peers) {f : Peer S → Peer S}
    (hf : ∀ peer, SameTracks peer (f peer)) : Subscribed next (peers.map f) := by
  refine h.of_sameTracks fun peer' hmem => ?_
  obtain ⟨peer, hpeer, rfl⟩ := List.mem_map.mp hmem
  exact ⟨peer, hpeer, hf peer⟩

/-- The tracks of a room, looked through for those of one peer. -/
theorem tracks_filter {room : Room S} (hids : room.ids.Nodup)
    (horigin : ∀ pub ∈ room.peers, ∀ track ∈ pub.tracks, track.origin = pub.id) {pub : Peer S}
    (hpub : pub ∈ room.peers) :
    (room.tracks.filter fun track => track.origin = pub.id) = pub.tracks :=
  List.filter_flatMap_key hids horigin hpub

theorem enter {room : Room S} (h : Subscribed next room.peers) (hids : room.ids.Nodup)
    (hnew : ∀ peer ∈ room.peers, peer.id.val < next) {peer : Peer S} (hid : peer.id = ⟨next⟩)
    (htracks : peer.tracks = []) (hout : peer.tracksOut = []) (callId answer : String) :
    Subscribed (next + 1) (room.peers.map (Peer.send (.peerJoined peer.info)) ++
      [room.welcome peer callId answer]) := by
  have hold : Subscribed next (room.peers.map (Peer.send (.peerJoined peer.info))) :=
    h.map (SameTracks.send _)
  have hne : ∀ pub ∈ room.peers.map (Peer.send (.peerJoined peer.info)), pub.id ≠ peer.id := by
    intro pub hpub he
    obtain ⟨pub', hpub', rfl⟩ := List.mem_map.mp hpub
    have hlt := hnew pub' hpub'
    rw [Peer.send_id, hid] at he
    simp [he] at hlt
  have hid' : (room.welcome peer callId answer).id = peer.id := rfl
  have htracks' : (room.welcome peer callId answer).tracks = [] := htracks
  have hrefs : (room.welcome peer callId answer).refs = room.tracks := by
    simp [Room.welcome, Peer.refs, hout, Peer.subscribe, Function.comp_def]
  -- The newcomer's id is the next one, so no one can be subscribed to it yet.
  have hfresh : ∀ sub ∈ room.peers.map (Peer.send (.peerJoined peer.info)),
      ∀ track ∈ sub.refs, track.origin ≠ peer.id := by
    intro sub hsub track hmem he
    have hlt := hold.fresh sub hsub track hmem
    rw [he, hid] at hlt
    exact lt_irrefl _ hlt
  have hroom : ∀ track ∈ room.tracks, track.origin.val < next := by
    intro track hmem
    obtain ⟨pub, hpub, hpubtrack⟩ := Room.mem_tracks.mp hmem
    rw [h.origin pub hpub track hpubtrack]
    exact hnew pub hpub
  constructor
  case complete =>
    intro sub hsub pub hpub
    rcases List.mem_append.mp hsub with hsub | hsub <;>
      rcases List.mem_append.mp hpub with hpub | hpub
    · exact hold.complete sub hsub pub hpub
    · rw [List.mem_singleton.mp hpub, htracks', hid', ite_self]
      exact List.filter_eq_nil_iff.mpr fun track hmem => by simpa using hfresh sub hsub track hmem
    · rw [List.mem_singleton.mp hsub, hrefs, hid', if_neg (hne pub hpub)]
      obtain ⟨pub', hpub', rfl⟩ := List.mem_map.mp hpub
      have hmine := tracks_filter hids h.origin hpub'
      exact hmine
    · rw [List.mem_singleton.mp hsub, List.mem_singleton.mp hpub, hrefs, if_pos rfl, hid', hid]
      refine List.filter_eq_nil_iff.mpr fun track hmem => ?_
      have hlt := hroom track hmem
      simpa [PeerId.ext_iff] using hlt.ne
  case origin =>
    intro pub hpub track hmem
    rcases List.mem_append.mp hpub with hpub | hpub
    · exact hold.origin pub hpub track hmem
    · rw [List.mem_singleton.mp hpub, htracks'] at hmem
      simp at hmem
  case fresh =>
    intro sub hsub track hmem
    rcases List.mem_append.mp hsub with hsub | hsub
    · exact (hold.fresh sub hsub track hmem).trans (Nat.lt_succ_self _)
    · rw [List.mem_singleton.mp hsub, hrefs] at hmem
      exact (hroom track hmem).trans (Nat.lt_succ_self _)
  case stopping =>
    intro sub hsub track hmem hstop pub hpub
    rcases List.mem_append.mp hsub with hsub | hsub
    · rcases List.mem_append.mp hpub with hpub | hpub
      · exact hold.stopping sub hsub track hmem hstop pub hpub
      · rw [List.mem_singleton.mp hpub, hid']
        exact (hfresh sub hsub _ (List.mem_map_of_mem hmem)).symm
    · rw [List.mem_singleton.mp hsub] at hmem
      simp only [Room.welcome, Peer.subscribe, Peer.send_tracksOut, hout, List.nil_append] at hmem
      obtain ⟨trackIn, -, rfl⟩ := List.mem_map.mp hmem
      cases hstop

/-- An answer drops none of the subscriptions that pass a test no stopped one does. -/
theorem settle_filter {tracks : List TrackOut} {q : TrackIn → Bool}
    (hq : ∀ track ∈ tracks, track.isStopping = true → q track.trackIn = false) :
    (((tracks.map TrackOut.settle).filter fun track => !track.isNegotiatingStop).map
      (·.trackIn)).filter q = (tracks.map (·.trackIn)).filter q := by
  induction tracks with
  | nil => rfl
  | cons track tracks ih =>
      have hrest := ih fun track' hmem => hq track' (by simp [hmem])
      simp only [List.map_cons, List.filter_cons]
      cases hstop : track.settle.isNegotiatingStop with
      | true =>
          have hstopping := TrackOut.isStopping_of_isNegotiatingStop hstop
          rw [TrackOut.settle_isStopping] at hstopping
          simp [hq track (by simp) hstopping, hrest]
      | false =>
          simp [List.filter_cons, hrest]

theorem acceptAnswer (h : Subscribed next peers) (id : PeerId) (answer : S.SdpAnswer) :
    Subscribed next (peers.map fun peer =>
      if peer.id = id then (peer.acceptAnswer answer).2 else peer) := by
  have hpeers : ∀ peer' ∈ peers.map (fun peer =>
      if peer.id = id then (peer.acceptAnswer answer).2 else peer), ∃ peer ∈ peers,
      peer'.id = peer.id ∧ peer'.tracks = peer.tracks ∧
      (peer'.tracksOut = peer.tracksOut ∨ peer'.tracksOut =
        (peer.tracksOut.map TrackOut.settle).filter fun track => !track.isNegotiatingStop) ∧
      ∀ dead, peer.StopsOnly dead → peer'.StopsOnly dead := by
    intro peer' hmem
    obtain ⟨peer, hpeer, rfl⟩ := List.mem_map.mp hmem
    refine ⟨peer, hpeer, ?_⟩
    split
    · obtain ⟨hcard, htracks, -⟩ := Peer.acceptAnswer_frame answer peer
      exact ⟨Peer.id_eq_of_card hcard, congrArg (List.map _) htracks,
        Peer.acceptAnswer_tracksOut answer peer, fun _ hstops => hstops.acceptAnswer answer⟩
    · exact ⟨rfl, rfl, .inl rfl, fun _ hstops => hstops⟩
  constructor
  case complete =>
    intro sub' hsub' pub' hpub'
    obtain ⟨sub, hsub, hid, -, hout, -⟩ := hpeers sub' hsub'
    obtain ⟨pub, hpub, hpubid, hpubtracks, -, -⟩ := hpeers pub' hpub'
    rw [hid, hpubid, hpubtracks, ← h.complete sub hsub pub hpub]
    rcases hout with hout | hout
    · rw [Peer.refs, hout, Peer.refs]
    · rw [Peer.refs, hout, Peer.refs]
      refine settle_filter fun track hmem hstop => ?_
      simpa using (h.stopping sub hsub track hmem hstop pub hpub).symm
  case origin =>
    intro pub' hpub' track hmem
    obtain ⟨pub, hpub, hid, htracks, -, -⟩ := hpeers pub' hpub'
    rw [hid]
    exact h.origin pub hpub track (htracks ▸ hmem)
  case fresh =>
    intro sub' hsub' track hmem
    obtain ⟨sub, hsub, -, -, hout, -⟩ := hpeers sub' hsub'
    refine h.fresh sub hsub track ?_
    rcases hout with hout | hout
    · rwa [Peer.refs, hout] at hmem
    · rw [Peer.refs, hout] at hmem
      obtain ⟨track', hmem', rfl⟩ := List.mem_map.mp hmem
      obtain ⟨track, htrack, rfl⟩ := List.mem_map.mp (List.mem_of_mem_filter hmem')
      rw [TrackOut.settle_trackIn]
      exact List.mem_map_of_mem htrack
  case stopping =>
    intro sub' hsub' track hmem hstop pub' hpub'
    obtain ⟨sub, hsub, -, -, -, hstops⟩ := hpeers sub' hsub'
    obtain ⟨pub, hpub, hid, -, -, -⟩ := hpeers pub' hpub'
    rw [hid]
    exact hstops _ (h.stopping sub hsub) track hmem hstop pub hpub

theorem poll {room : Room S} (h : Subscribed next room.peers) (hids : room.ids.Nodup)
    (hnew : ∀ peer ∈ room.peers, peer.id.val < next) {clock : ℕ → List Instant}
    {polled : PolledRoom S} (hpoll : room.poll clock room.tracks 0 = some polled) :
    Subscribed next polled.room.peers := by
  obtain ⟨opened, -, hopened, -, -, hall⟩ := Room.poll_pass hids hpoll
  constructor
  case complete =>
    intro sub' hsub' pub' hpub'
    obtain ⟨sub, hsub, hs⟩ := hall.exists_left hsub'
    obtain ⟨pub, hpub, hp⟩ := hall.exists_left hpub'
    have hsubid := Peer.id_eq_of_card hs.card
    have hpubid := Peer.id_eq_of_card hp.card
    rw [hsubid, hpubid, hs.refs, hp.tracks, List.filter_append, h.complete sub hsub pub hpub,
      List.filter_filter]
    by_cases hid : pub.id = sub.id
    · rw [if_pos hid, if_pos hid, List.nil_append]
      exact List.filter_eq_nil_iff.mpr fun track _ => by simp [hid]
    · rw [if_neg hid, if_neg hid]
      congr 1
      refine List.filter_congr fun track _ => ?_
      by_cases ho : track.origin = pub.id <;> simp [ho, hid]
  case origin =>
    intro pub' hpub' track hmem
    obtain ⟨pub, hpub, hp⟩ := hall.exists_left hpub'
    rw [Peer.id_eq_of_card hp.card]
    rw [hp.tracks] at hmem
    rcases List.mem_append.mp hmem with hmem | hmem
    · exact h.origin pub hpub track hmem
    · simpa using List.of_mem_filter hmem
  case fresh =>
    intro sub' hsub' track hmem
    obtain ⟨sub, hsub, hs⟩ := hall.exists_left hsub'
    rw [hs.refs] at hmem
    rcases List.mem_append.mp hmem with hmem | hmem
    · exact h.fresh sub hsub track hmem
    · obtain ⟨pub, hpub, hid⟩ := hopened track (List.mem_of_mem_filter hmem)
      exact hid ▸ hnew pub hpub
  case stopping =>
    have hgone : ∀ sub ∈ room.peers, ∀ track ∈ sub.refs, track ∉ room.tracks →
        ∀ pub ∈ room.peers, pub.id ≠ track.origin := by
      intro sub hsub track hmem hnot pub hpub hid
      exact hnot (Room.mem_tracks.mpr ⟨pub, hpub, h.mem_of_origin hsub hpub hmem hid.symm⟩)
    -- The heap only grows during a poll, so what is found dead had left before it.
    have hstops := Room.poll_forall
      (I := fun sub => (∀ track ∈ sub.refs, track ∉ room.tracks →
        ∀ pub ∈ room.peers, pub.id ≠ track.origin) ∧
        sub.StopsOnly fun track => ∀ pub ∈ room.peers, pub.id ≠ track.origin)
      (J := fun sub => sub.StopsOnly fun track => ∀ pub ∈ room.peers, pub.id ≠ track.origin)
      hpoll (fun sub hsub => ⟨hgone sub hsub, h.stopping sub hsub⟩) ?_ (fun _ hsub => hsub.2)
      (fun heap propagated sub _ hsub => hsub.receive heap propagated)
    · intro sub' hsub' track hmem hstop pub' hpub'
      obtain ⟨pub, hpub, hp⟩ := hall.exists_left hpub'
      rw [Peer.id_eq_of_card hp.card]
      exact hstops sub' hsub' track hmem hstop pub hpub
    · intro heap now sub hgrown _ ⟨hdead, hstop⟩
      refine ⟨fun track hmem hnot => ?_, ?_⟩
      · rw [(Peer.pollOutput_polled heap now sub).refs] at hmem
        exact hdead track hmem hnot
      · exact hstop.pollOutput (fun track hmem hnot =>
          hdead track hmem fun hroom => hnot (hgrown.kept hroom)) now

end Subscribed

theorem subscribed_invariant (config : Config) (ok : Call S → CallEvent S → Prop) :
    PeersInvariant config ok (Subscribed (S := S)) where
  empty := Subscribed.empty
  later _ _ h := h.later
  leave next peers id _ h := h.of_sameTracks fun peer' hmem => by
    obtain ⟨peer, hpeer, rfl⟩ := List.mem_map.mp hmem
    exact ⟨peer, List.mem_of_mem_filter hpeer, SameTracks.send _ peer⟩
  enter room request seed offer next callId answer _ hids hnew h :=
    h.enter hids hnew rfl rfl rfl callId answer
  answer call id sdp answer _ _ _ h := h.acceptAnswer id answer
  setState next peers id muted screen _ _ h := h.map fun peer => by
    split <;> exact ⟨rfl, rfl, rfl⟩
  poll room clock next polled hids hnew h hpolled := h.poll hids hnew hpolled
  markReported next peers h := h.map fun peer => by
    split <;> exact ⟨rfl, rfl, rfl⟩
  syncSpeaking next peers speakers h := h.map fun peer => SameTracks.send _ peer
  handleInput next peers input h := h.of_sameTracks fun peer' hmem => by
    have hall : List.Forall₂ SameTracks peers
        (peers.updateFirst (Peer.accepts input) (Peer.handleInput input)) :=
      List.forall₂_updateFirst (fun _ _ => ⟨rfl, rfl, rfl⟩)
        fun peer _ _ => SameTracks.handleInput input peer
    exact hall.exists_left hmem
  advanceTime next peers now h := h.map fun peer => SameTracks.handleInput _ peer

/-- **Every peer of a call is subscribed to the tracks of the others.** -/
theorem reachable_subscribed {ok : Call S → CallEvent S → Prop} {call : Call S}
    (h : (machine S config name).ReachableVia ok call) : Subscribed call.nextPeer call.peers :=
  (subscribed_invariant config ok).holds h

end Call

end FerriteSfu
