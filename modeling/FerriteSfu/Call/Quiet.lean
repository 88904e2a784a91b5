import FerriteSfu.Call.Lives
import FerriteSfu.Call.Subscriptions
import FerriteSfu.Sfu.Idle

/-!
A pass that gives nobody work.

What reaches a peer once it has gone to sleep is what the others of its room put
out in the same pass. A track is work for whoever can be offered it at once, a
packet for whoever has a line to send it on, and a keyframe request for the
publisher it asks.
-/

namespace FerriteSfu

variable {S : Str0m}

/-- The line on which a peer passes on the m-line `mid` of `origin`. -/
def Peer.lineOf (origin : PeerId) (mid : Mid) (peer : Peer S) : Option Mid :=
  (peer.tracksOut.find? fun out =>
    decide (out.trackIn.origin = origin) && decide (out.trackIn.mid = mid)).bind TrackOut.mid

namespace Poll

/-- The wake-up that was asked for. -/
def wake (poll : Poll S) : Option Instant :=
  match poll.output with
  | some (.timeout wake) => some wake
  | _ => none

/-- What was put out gives the peer `sub`, as it is, something to send. -/
def engages (poll : Poll S) (sub : Peer S) : Bool :=
  match poll.output with
  | some (.event (.mediaAdded _)) => sub.pending.isNone
  | some (.event (.mediaData data)) =>
      (sub.lineOf poll.before.id data.mid).any fun mid =>
        (S.writer sub.rtc mid).any fun writer => (S.matchParams writer data.params).isSome
  | some (.event (.keyframeRequest request)) =>
      (poll.asked.bind fun asked =>
        asked.tracksOut.find? fun out => out.mid = some request.mid).any fun out =>
          decide (out.trackIn.origin = sub.id) && (S.writer sub.rtc out.trackIn.mid).isSome
  | _ => false

/-- What the iteration leaves for the rest of the room. -/
def propagated (poll : Poll S) : Propagated S :=
  (poll.before.pollOutput poll.heap poll.now).1

end Poll

/-- In a pass over the room the peer `id` goes to sleep until `soon` or longer, and
nobody else puts out work for it. -/
def Room.Spares (soon : Instant) (clock : ℕ → List Instant) (id : PeerId) (room : Room S) : Prop :=
  ∀ last ∈ pollsOf id clock room.tracks room.peers, ∀ wake ∈ last.wake,
    soon ≤ wake ∧ ∀ other ∈ room.ids, other ≠ id →
      ∀ poll ∈ pollsOf other clock room.tracks room.peers, poll.engages last.after = false

instance (soon : Instant) (clock : ℕ → List Instant) (id : PeerId) (room : Room S) :
    Decidable (room.Spares soon clock id) :=
  inferInstanceAs
    (Decidable (∀ last ∈ _, ∀ wake ∈ _, _ ∧ ∀ other ∈ _, other ≠ id → ∀ poll ∈ _, _))

/-! ### What an iteration leaves for the others -/

namespace Poll

theorem propagated_noop {poll : Poll S} (h : poll.output = none) : poll.propagated = .noop := by
  rcases poll.pollOutput_cases with ⟨-, _, -, heq⟩ | ⟨_, _, -, hsome, -⟩
  · rw [propagated, heq]
  · cases h.symm.trans hsome

/-- What an output leaves for the others depends on the id and the lines alone. -/
theorem handleOutput_fst {heap : Heap} {now : Instant} {peer peer' : Peer S}
    (hid : peer'.id = peer.id) (hlines : peer'.tracksOut = peer.tracksOut) (output : S.Output) :
    (peer'.handleOutput heap now output).1 = (peer.handleOutput heap now output).1 := by
  cases output with
  | transmit | timeout => rfl
  | event event =>
      cases event with
      | iceConnectionStateChange | other => rfl
      | mediaAdded added =>
          simp only [Peer.handleOutput, Peer.handleEvent, Peer.handleMediaAdded, hid]
      | mediaData data =>
          have hkeeps : ∀ peer : Peer S, (peer.handleMediaDataIn now data).2.id = peer.id :=
            fun peer => Peer.id_eq_of_card (Peer.handleMediaDataIn_quiet now data peer).card
          exact congrArg (Propagated.media · data)
            ((hkeeps peer').trans (hid.trans (hkeeps peer).symm))
      | keyframeRequest request =>
          simp only [Peer.handleOutput, Peer.handleEvent, Peer.handleIncomingKeyframeRequest, hid,
            hlines]

/-- An iteration leaves for the others what its output says. -/
theorem propagated_eq {poll : Poll S} {output : S.Output} (h : poll.output = some output) :
    ∃ asked, poll.asked = some asked ∧ asked.id = poll.before.id ∧
      asked.refs = poll.before.refs ∧
      poll.propagated = (asked.handleOutput poll.heap poll.now output).1 := by
  rcases poll.pollOutput_cases with ⟨hnone, -⟩ |
    ⟨output', asked, hasked, hsome, hprepared, hrefs, heq⟩
  · cases hnone.symm.trans h
  · cases hsome.symm.trans h
    refine ⟨asked, hasked, hprepared.id, hrefs, ?_⟩
    have hsame : ({ asked with rtc := poll.rtc }.record (.polled output)).id = asked.id ∧
        ({ asked with rtc := poll.rtc }.record (.polled output)).tracksOut = asked.tracksOut :=
      ⟨rfl, rfl⟩
    rw [propagated, heq]
    exact handleOutput_fst hsame.1 hsame.2 output

theorem wake_eq_some {poll : Poll S} {wake : Instant} :
    poll.wake = some wake ↔ poll.propagated = .timeout wake := by
  unfold Poll.wake
  cases hout : poll.output with
  | none => simp [propagated_noop hout]
  | some output =>
      obtain ⟨asked, -, -, -, heq⟩ := propagated_eq hout
      rw [heq]
      refine ⟨fun h => ?_, fun h => by rw [Peer.handleOutput_timeout h]⟩
      cases output with
      | timeout wake' =>
          cases h
          rfl
      | transmit | event => cases h

end Poll

/-! ### Work -/

/-- A subscription under the id of a member leads to a track of the room. -/
theorem Peer.forwardMid_eq_lineOf {heap : Heap} {origin : PeerId} {sub : Peer S}
    (hlive : ∀ track ∈ sub.refs, track.origin = origin → track ∈ heap) (mid : Mid) :
    sub.forwardMid heap origin mid = sub.lineOf origin mid := by
  unfold forwardMid lineOf
  congr 1
  refine List.find?_congr_of_mem fun out hout => ?_
  by_cases horigin : out.trackIn.origin = origin
  · have hmem := hlive out.trackIn (List.mem_map_of_mem hout) horigin
    simp [Heap.upgrade_eq_some.mpr ⟨hmem, rfl⟩]
  · cases hup : heap.upgrade out.trackIn with
    | none => simp [horigin]
    | some track =>
        obtain ⟨-, rfl⟩ := Heap.upgrade_eq_some.mp hup
        simp [horigin]

theorem Peer.idles_media {heap : Heap} {origin : PeerId} {sub : Peer S}
    (hlive : ∀ track ∈ sub.refs, track.origin = origin → track ∈ heap) (data : S.Media) :
    sub.idles heap (.media origin data) =
      !(sub.lineOf origin data.mid).any fun mid =>
        (S.writer sub.rtc mid).any fun writer => (S.matchParams writer data.params).isSome := by
  rw [idles, forwardMid_eq_lineOf hlive]
  cases sub.lineOf origin data.mid with
  | none => rfl
  | some mid =>
      cases hwriter : S.writer sub.rtc mid with
      | none => simp [hwriter]
      | some writer => cases hmatch : S.matchParams writer data.params <;> simp [hwriter, hmatch]

theorem Peer.idles_keyframeRequest {heap heap' : Heap} {asked sub : Peer S}
    (hlive : ∀ track ∈ asked.refs, track.origin = sub.id → track ∈ heap' ∧ track ∈ sub.tracks)
    (request : KeyframeRequest) :
    sub.idles heap (asked.handleIncomingKeyframeRequest heap' request) =
      !(asked.tracksOut.find? fun out => out.mid = some request.mid).any fun out =>
        decide (out.trackIn.origin = sub.id) && (S.writer sub.rtc out.trackIn.mid).isSome := by
  unfold handleIncomingKeyframeRequest
  cases hfind : asked.tracksOut.find? fun out => out.mid = some request.mid with
  | none => rfl
  | some out =>
      have href : out.trackIn ∈ asked.refs := List.mem_map_of_mem (List.mem_of_find?_eq_some hfind)
      by_cases horigin : out.trackIn.origin = sub.id
      · obtain ⟨hheap, htrack⟩ := hlive out.trackIn href horigin
        obtain ⟨entry, hentry, hid⟩ := List.mem_map.mp htrack
        have hpublishes : (sub.tracksIn.any fun track =>
            decide (track.id.mid = out.trackIn.mid)) = true :=
          List.any_eq_true.mpr ⟨entry, hentry, by simp [hid]⟩
        simp [Heap.upgrade_eq_some.mpr ⟨hheap, rfl⟩, idles, horigin, hpublishes]
      · cases hup : heap'.upgrade out.trackIn with
        | none => simp [hup, idles, horigin]
        | some track =>
            obtain ⟨-, rfl⟩ := Heap.upgrade_eq_some.mp hup
            simp [hup, idles, horigin]

/-- What an iteration leaves for a peer idles just if its output is no work for it. -/
theorem Poll.idles_propagated {heap : Heap} {poll : Poll S} {sub : Peer S}
    (hmedia : ∀ track ∈ sub.refs, track.origin = poll.before.id → track ∈ heap)
    (hasks : ∀ track ∈ poll.before.refs, track.origin = sub.id →
      track ∈ poll.heap ∧ track ∈ sub.tracks) :
    sub.idles heap poll.propagated = !poll.engages sub := by
  unfold engages
  cases hout : poll.output with
  | none =>
      rw [propagated_noop hout]
      rfl
  | some output =>
      obtain ⟨asked, hasked, hid, hrefs, heq⟩ := propagated_eq hout
      rw [heq, hasked]
      cases output with
      | transmit | timeout => rfl
      | event event =>
          cases event with
          | iceConnectionStateChange | other => rfl
          | mediaAdded added => cases hpending : sub.pending <;> simp [Peer.handleOutput,
              Peer.handleEvent, Peer.handleMediaAdded, Peer.idles, hpending]
          | mediaData data =>
              have hkeeps : (asked.handleMediaDataIn poll.now data).2.id = asked.id :=
                Peer.id_eq_of_card (Peer.handleMediaDataIn_quiet poll.now data asked).card
              have hleft : (asked.handleOutput poll.heap poll.now (.event (.mediaData data))).1 =
                  .media poll.before.id data :=
                congrArg (Propagated.media · data) (hkeeps.trans hid)
              rw [hleft]
              exact Peer.idles_media hmedia data
          | keyframeRequest request =>
              exact Peer.idles_keyframeRequest (hrefs ▸ hasks) request

/-! ### A drain and its iterations -/

/-- What a drain queues is what its iterations leave for the others. -/
theorem Peer.forall_queue {P : Propagated S → Prop} (hwake : ∀ wake, P (.timeout wake))
    {clock : List Instant} {heap : Heap} {peer : Peer S} {drained : Drained S}
    (h : peer.drain clock heap = some drained) :
    (∀ propagated ∈ drained.queue, P propagated) ↔
      ∀ poll ∈ peer.polls clock heap, P poll.propagated := by
  refine polls_rule (P := fun polls _ _ drained => (∀ propagated ∈ drained.queue, P propagated) ↔
    ∀ poll ∈ polls, P poll.propagated) (fun _ _ _ => by simp) ?asleep ?goesOn h
  case asleep =>
    intro poll wake heap _ hp
    simp [Poll.propagated, hp, hwake]
  case goesOn =>
    intro poll polls heap propagated rest _ _ hp ih
    have hhead : poll.propagated = propagated := by rw [Poll.propagated, hp]
    simp only [List.forall_mem_cons, hhead, ih]

/-- An iteration that asks for a wake-up is the last one. -/
theorem Peer.drain_wake {clock : List Instant} {heap : Heap} {peer : Peer S}
    {drained : Drained S} (h : peer.drain clock heap = some drained) (wake : Instant) (peer' : Peer S) :
    (∃ poll ∈ peer.polls clock heap, poll.wake = some wake ∧ poll.after = peer') ↔
      drained.wake = some wake ∧ drained.peer = peer' := by
  refine polls_rule (P := fun polls _ _ drained =>
    (∃ poll ∈ polls, poll.wake = some wake ∧ poll.after = peer') ↔
      drained.wake = some wake ∧ drained.peer = peer') (fun _ _ _ => by simp) ?asleep ?goesOn h
  case asleep =>
    intro poll wake' heap _ hp
    have hwake : poll.wake = some wake' :=
      Poll.wake_eq_some.mpr (congrArg Prod.fst hp)
    simp [hwake]
  case goesOn =>
    intro poll polls heap propagated rest _ hawake hp ih
    have hwake : poll.wake ≠ some wake := fun he =>
      hawake wake ((congrArg Prod.fst hp).symm.trans (Poll.wake_eq_some.mp he))
    simp [hwake, ih]

/-- Each iteration finds the peer under its id, with the subscriptions it had. -/
theorem Peer.polls_before {clock : List Instant} {heap : Heap} {peer : Peer S}
    {drained : Drained S} (h : peer.drain clock heap = some drained) :
    ∀ poll ∈ peer.polls clock heap, poll.before.id = peer.id ∧ poll.before.refs = peer.refs ∧
      ∀ track ∈ heap, track ∈ poll.heap := by
  refine polls_rule (P := fun polls heap peer _ => ∀ poll ∈ polls, poll.before.id = peer.id ∧
    poll.before.refs = peer.refs ∧ ∀ track ∈ heap, track ∈ poll.heap) (by simp) ?asleep ?goesOn h
  case asleep =>
    intro poll _ _ _ _ poll' hpoll'
    obtain rfl := List.mem_singleton.mp hpoll'
    exact ⟨rfl, rfl, fun _ hmem => hmem⟩
  case goesOn =>
    intro poll polls heap propagated rest _ _ hp ih poll' hpoll'
    rcases List.mem_cons.mp hpoll' with rfl | hpoll'
    · exact ⟨rfl, rfl, fun _ hmem => hmem⟩
    · have hpolled := poll.before.pollOutput_polled poll.heap poll.now
      rw [hp] at hpolled
      obtain ⟨hid, hrefs, hheap⟩ := ih poll' hpoll'
      refine ⟨hid.trans (id_eq_of_card hpolled.card), hrefs.trans hpolled.refs,
        fun track hmem => ?_⟩
      have hgrown : heap = poll.heap ++ opens [propagated] := hpolled.heap
      exact hheap track (hgrown ▸ List.mem_append_left _ hmem)

/-! ### A pass over a room -/

theorem drainPeers_forall_queue {P : Propagated S → Prop} (hwake : ∀ wake, P (.timeout wake))
    {clock : ℕ → List Instant} {heap : Heap} {timeout : Instant} {peers : List (Peer S)}
    {drained : DrainedPeers S} (hids : (peers.map Peer.id).Nodup)
    (h : drainPeers clock heap timeout peers = some drained) :
    (∀ propagated ∈ drained.queue, P propagated) ↔
      ∀ peer ∈ peers, ∀ poll ∈ pollsOf peer.id clock heap peers, P poll.propagated := by
  induction peers generalizing clock heap timeout drained with
  | nil =>
      cases h
      simp
  | cons peer peers ih =>
      obtain ⟨hnot, hnodup⟩ := List.nodup_cons.mp hids
      obtain ⟨first, rest, hfirst, hrest, rfl⟩ := drainPeers_cons h
      rw [List.forall_mem_append, List.forall_mem_cons, Peer.forall_queue hwake hfirst,
        ih hnodup hrest, pollsOf, if_pos rfl]
      refine and_congr_right fun _ => forall₂_congr fun other hother => ?_
      have hne : peer.id ≠ other.id := fun he => hnot (he ▸ List.mem_map_of_mem hother)
      rw [pollsOf, if_neg hne, hfirst]
      rfl

theorem Poll.propagated_source (poll : Poll S) :
    poll.propagated.source = none ∨ poll.propagated.source = some poll.before.id :=
  (poll.before.pollOutput_polled poll.heap poll.now).source _ (List.mem_singleton.mpr rfl)

theorem Peer.idles_of_source_none (heap : Heap) {propagated : Propagated S} (peer : Peer S)
    (h : propagated.source = none) : peer.idles heap propagated = true := by
  cases propagated with
  | noop | timeout => rfl
  | trackOpen | media | keyframeRequest => cases h

/-- What is queued for a peer of a room idles just if nobody else put out work for it. -/
theorem drainPeers_idles {next : ℕ} {room : Room S} (hids : room.ids.Nodup)
    (hlinked : Call.Subscribed next room.peers) {clock : ℕ → List Instant} {timeout : Instant}
    {drained : DrainedPeers S}
    (h : drainPeers clock room.tracks timeout room.peers = some drained) {sub : Peer S}
    (hsub : sub ∈ drained.peers) :
    (sub.fromOthers drained.queue).all (sub.idles drained.heap) = true ↔
      ∀ other ∈ room.ids, other ≠ sub.id → ∀ poll ∈ pollsOf other clock room.tracks room.peers,
        poll.engages sub = false := by
  have hpolls := drainPeers_polls hids h
  have hheap := (drainPeers_polled hids h).1
  obtain ⟨old, hold, _, _, first, hdrain, rfl, -, -⟩ := hpolls.exists_left hsub
  have hpolled := Peer.drain_polled hdrain
  have hid : first.peer.id = old.id := Peer.id_eq_of_card hpolled.card
  have hqueue : (first.peer.fromOthers drained.queue).all (first.peer.idles drained.heap) = true ↔
      ∀ propagated ∈ drained.queue, propagated.source ≠ some first.peer.id →
        first.peer.idles drained.heap propagated = true := by
    simp [Peer.fromOthers, or_iff_not_imp_left]
  rw [hqueue, drainPeers_forall_queue (by simp [Peer.idles]) hids h, Room.ids,
    List.forall_mem_map]
  refine forall₂_congr fun other hother => ?_
  obtain ⟨_, -, _, _, first', hdrain', -, hsame, hgrows⟩ := hpolls.exists_right hother
  have hbefore := Peer.polls_before hdrain'
  rw [← hsame] at hbefore
  by_cases hother' : other.id = first.peer.id
  · refine iff_of_true (fun poll hpoll hsource => ?_) fun hne => absurd hother' hne
    have hnone := poll.propagated_source.resolve_right
      (by rwa [(hbefore poll hpoll).1, hother'])
    exact Peer.idles_of_source_none _ _ hnone
  · refine (forall₂_congr fun poll hpoll => ?_).trans
      ⟨fun hall _ => hall, fun hall => hall hother'⟩
    obtain ⟨hpid, hrefs, hkeeps⟩ := hbefore poll hpoll
    have hmedia : ∀ track ∈ first.peer.refs, track.origin = poll.before.id →
        track ∈ drained.heap := by
      intro track htrack horigin
      have hmem := hlinked.mem_of_origin hold hother (hpolled.refs ▸ htrack) (horigin.trans hpid)
      exact hheap ▸ List.mem_append_left _ (List.mem_flatMap.mpr ⟨other, hother, hmem⟩)
    have hasks : ∀ track ∈ poll.before.refs, track.origin = first.peer.id →
        track ∈ poll.heap ∧ track ∈ first.peer.tracks := by
      intro track htrack horigin
      have hmem := hlinked.mem_of_origin hother hold (hrefs ▸ htrack) (horigin.trans hid)
      exact ⟨hkeeps _ (hgrows _ (List.mem_flatMap.mpr ⟨old, hold, hmem⟩)),
        hpolled.tracks ▸ List.mem_append_left _ hmem⟩
    have hsource : poll.propagated.source ≠ some first.peer.id := by
      rcases poll.propagated_source with hnone | hsome
      · simp [hnone]
      · simpa [hsome, hpid] using hother'
    rw [Poll.idles_propagated hmedia hasks, Bool.not_eq_true']
    exact ⟨fun h => h hsource, fun h _ => h⟩

/-- What a pass leaves a live peer with. It has nothing left to send just if the pass
spares it, and then asks again for the wake-up it had asked for. -/
theorem Room.poll_spares (hstable : S.StableTimeout) (hmute : S.DeadIsMute) {next : ℕ}
    {room : Room S} (hids : room.ids.Nodup) (hlinked : Call.Subscribed next room.peers)
    {clock : ℕ → List Instant} {timeout : Instant} {polled : PolledRoom S}
    (hpoll : room.poll clock room.tracks timeout = some polled) (soon : Instant) :
    ∀ peer ∈ polled.room.peers, peer.isAlive = true → ∃ wake, polled.timeout ≤ wake ∧
      (peer.PolledOut → (S.pollOutput peer.rtc).1 = .ok (.timeout wake)) ∧
      (room.Spares soon clock peer.id ↔ soon ≤ wake ∧ peer.PolledOut) := by
  obtain ⟨drained, hdrained, hpeers, hrest⟩ := poll_rest hmute hpoll
  rw [hpeers, List.forall_mem_map]
  intro sub hsub halive
  obtain ⟨hawake, wake, hasleep, hle⟩ := hrest sub hsub halive
  have hreceived :=
    Peer.foldl_receive_received drained.heap (sub.fromOthers drained.queue) sub
  have hout := hreceived.polledOut_iff hasleep
  refine ⟨wake, hle, fun hpolled => ?_, ?_⟩
  · rw [hout.mp hpolled] at hreceived
    exact hreceived.asks_again hstable hasleep
  · have hidles := drainPeers_idles hids hlinked hdrained hsub
    obtain ⟨old, hold, clock', heap', first, hdrain, rfl, hpolls, -⟩ :=
      (drainPeers_polls hids hdrained).exists_left hsub
    have hid : first.peer.id = old.id := Peer.id_eq_of_card (Peer.drain_polled hdrain).card
    have hreceiver : (first.peer.receiveAll drained.heap drained.queue).id = old.id :=
      (Peer.calm_receiveAll _ _ _).id.trans hid
    obtain ⟨wake', hwake, hasleep'⟩ := Peer.drain_asleep hdrain hawake
    obtain rfl := hasleep.unique hasleep'
    rw [Peer.receiveAll] at hreceiver ⊢
    rw [hout, hidles, hreceiver, hid, Spares, hpolls]
    -- The iteration that asked for the wake-up is the one that left the peer asleep.
    constructor
    · intro hspares
      obtain ⟨last, hlast, hasks, hafter⟩ := (Peer.drain_wake hdrain wake _).mpr ⟨hwake, rfl⟩
      exact hafter ▸ hspares last hlast wake hasks
    · intro hspares last hlast asked hasks
      obtain ⟨hasked, hafter⟩ := (Peer.drain_wake hdrain asked _).mp ⟨last, hlast, hasks, rfl⟩
      obtain rfl := Option.some.inj (hwake.symm.trans hasked)
      exact hafter ▸ hspares

end FerriteSfu
