import FerriteSfu.Sfu.Log
import FerriteSfu.Sfu.Polling

/-!
What a pass leaves undone.

Polling a live peer ends with the wake-up its `Rtc` asks for. What the peer then
receives from the others may give it something to send, which nobody polls for
before the next pass. `idles` is the condition under which it does not.
-/

namespace FerriteSfu

variable {S : Str0m}

/-- Entries that leave something to send: a packet that was written, a keyframe
that was asked for, a subscription that can be offered. -/
def Op.isWork : Op S → Bool
  | .wrote _ _ _ _ | .requestedKeyframe _ _ => true
  | .queuedOpen _ offering => !offering
  | .polled _ | .addedMedia _ _ | .offered _ _ => false

namespace Peer

/-- The log of a peer that was polled to the end after all its work. -/
def PolledOut (peer : Peer S) : Prop :=
  ∃ before wake after, peer.ops = before ++ .polled (.timeout wake) :: after ∧
    ∀ op ∈ after, op.isWork = false

theorem PolledOut.getLast? {peer : Peer S} (h : peer.PolledOut) {op : Op S}
    (hlast : peer.ops.getLast? = some op) : op.isWork = false := by
  obtain ⟨before, wake, after, hops, hafter⟩ := h
  rcases List.eq_nil_or_concat' after with rfl | ⟨rest, last, rfl⟩
  · obtain rfl : .polled (.timeout wake) = op := by simpa [hops] using hlast
    rfl
  · obtain rfl : last = op := by simpa [hops, List.getLast?_cons] using hlast
    exact hafter _ (by simp)

/-- The peer as a poll that ends in a wake-up leaves it. -/
def Asleep (wake : Instant) (peer : Peer S) : Prop :=
  (∃ before, peer.ops = before ++ [.polled (.timeout wake)]) ∧
    ∃ rtc, S.pollOutput rtc = (.ok (.timeout wake), peer.rtc)

theorem Asleep.unique {wake wake' : Instant} {peer : Peer S} (h : peer.Asleep wake)
    (h' : peer.Asleep wake') : wake = wake' := by
  obtain ⟨⟨before, hops⟩, -⟩ := h
  obtain ⟨⟨before', hops'⟩, -⟩ := h'
  simpa [hops] using congrArg List.getLast? hops'

theorem handleOutput_timeout {heap : Heap} {now wake : Instant} {output : S.Output}
    {peer : Peer S} (h : (peer.handleOutput heap now output).1 = .timeout wake) :
    output = .timeout wake := by
  cases output with
  | transmit => cases h
  | timeout wake' =>
      cases h
      rfl
  | event event =>
      cases event with
      | keyframeRequest request =>
          simp only [handleOutput, handleEvent, handleIncomingKeyframeRequest] at h
          repeat' split at h
          all_goals cases h
      | iceConnectionStateChange | mediaAdded | mediaData | other => cases h

theorem pollOutput_asleep {heap : Heap} {now wake : Instant} {peer : Peer S}
    (h : (peer.pollOutput heap now).1 = .timeout wake) :
    (peer.pollOutput heap now).2.1.Asleep wake := by
  rcases pollOutput_cases heap now peer with ⟨-, heq⟩ | ⟨-, -, heq⟩ |
    ⟨-, -, output, rtc, hpoll, heq⟩ | ⟨-, -, error, rtc, -, heq⟩
  · rw [heq] at h
    cases h
  · rw [heq] at h
    cases h
  · rw [heq] at h ⊢
    obtain rfl := handleOutput_timeout h
    exact ⟨⟨_, rfl⟩, _, hpoll⟩
  · rw [heq] at h
    cases h

theorem drain_asleep {clock : List Instant} {heap : Heap} {peer : Peer S} {drained : Drained S}
    (h : peer.drain clock heap = some drained) (halive : drained.peer.isAlive = true) :
    ∃ wake, drained.wake = some wake ∧ drained.peer.Asleep wake := by
  refine drain_rule (P := fun _ _ _ drained => drained.peer.isAlive = true →
    ∃ wake, drained.wake = some wake ∧ drained.peer.Asleep wake)
    ?dead ?asleep (fun _ _ _ _ _ _ _ _ _ _ _ _ ih => ih) h halive
  case dead =>
    intro _ heap peer hdead halive
    exact absurd (hdead.symm.trans halive) Bool.false_ne_true
  case asleep =>
    intro now _ heap heap' wake peer peer' _ hp _
    have hasleep := @pollOutput_asleep S heap now wake peer
    rw [hp] at hasleep
    exact ⟨wake, rfl, hasleep rfl⟩

end Peer

theorem drainPeers_asleep {clock : ℕ → List Instant} {heap : Heap} {timeout : Instant}
    {peers : List (Peer S)} {drained : DrainedPeers S}
    (h : drainPeers clock heap timeout peers = some drained) :
    drained.timeout ≤ timeout ∧ ∀ peer ∈ drained.peers, peer.isAlive = true →
      ∃ wake, peer.Asleep wake ∧ drained.timeout ≤ wake := by
  induction peers generalizing clock heap timeout drained with
  | nil =>
      cases h
      simp
  | cons peer peers ih =>
      obtain ⟨first, rest, hfirst, hrest, rfl⟩ := drainPeers_cons h
      obtain ⟨hle, hall⟩ := ih hrest
      refine ⟨hle.trans ?_, fun peer' hmem halive => ?_⟩
      · cases first.wake <;> simp
      · rcases List.mem_cons.mp hmem with rfl | hmem
        · obtain ⟨wake, hwake, hasleep⟩ := Peer.drain_asleep hfirst halive
          rw [hwake] at hle
          exact ⟨wake, hasleep, hle.trans (min_le_right _ _)⟩
        · exact hall peer' hmem halive

/-! ### Receiving without work -/

namespace Peer

/-- What another peer produced gives this one nothing to send. -/
def idles (heap : Heap) (peer : Peer S) (propagated : Propagated S) : Bool :=
  match propagated with
  | .trackOpen _ _ => peer.pending.isSome
  | .media origin data =>
      ((peer.forwardMid heap origin data.mid).bind fun mid =>
        (S.writer peer.rtc mid).bind fun writer => S.matchParams writer data.params).isNone
  | .keyframeRequest _ _ publisher midIn =>
      decide (publisher ≠ peer.id) || !(peer.tracksIn.any fun track => track.id.mid = midIn) ||
        (S.writer peer.rtc midIn).isNone
  | .noop | .timeout _ => true

/-- `peer'` is `peer` after receiving, with or without work. -/
structure Received (idle : Bool) (peer peer' : Peer S) : Prop where
  ops : ∃ received, peer'.ops = peer.ops ++ received ∧ (∀ output, .polled output ∉ received) ∧
    (idle = true ↔ ∀ op ∈ received, op.isWork = false)
  rtc : idle = true → peer'.rtc = peer.rtc

theorem Received.same (peer : Peer S) : Received true peer peer :=
  ⟨⟨[], by simp, by simp, by simp⟩, fun _ => rfl⟩

theorem receive_received (heap : Heap) (propagated : Propagated S) (peer : Peer S) :
    Received (peer.idles heap propagated) peer (peer.receive heap propagated) := by
  cases propagated with
  | noop | timeout => exact .same peer
  | trackOpen id trackIn =>
      refine ⟨⟨[_], rfl, by simp, ?_⟩, fun _ => rfl⟩
      cases hpending : peer.pending.isSome <;> simp [idles, hpending, Op.isWork]
  | media origin data =>
      simp only [receive, forward, idles]
      cases peer.forwardMid heap origin data.mid with
      | none => exact .same peer
      | some mid =>
          cases hwriter : S.writer peer.rtc mid with
          | none => simpa [hwriter] using Received.same peer
          | some writer =>
              cases hmatch : S.matchParams writer data.params with
              | none => simpa [hwriter, hmatch] using Received.same peer
              | some pt =>
                  simp only [Option.bind_some, hwriter, hmatch, Option.isNone_some]
                  split
                  all_goals exact ⟨⟨[_], rfl, by simp, by simp [Op.isWork]⟩, fun h => by cases h⟩
  | keyframeRequest id request publisher midIn =>
      simp only [receive, serveKeyframeRequest, idles]
      by_cases hpublisher : publisher = peer.id
      · cases htracks : peer.tracksIn.any fun track => decide (track.id.mid = midIn) with
        | false => simpa [hpublisher, htracks] using Received.same peer
        | true =>
            cases hwriter : S.writer peer.rtc midIn with
            | none => simpa [hpublisher, htracks, hwriter] using Received.same peer
            | some writer =>
                simp only [hpublisher, if_true, ne_eq, not_true_eq_false, decide_false,
                  Bool.not_true, Bool.false_or, Option.isNone_some]
                exact ⟨⟨[_], rfl, by simp, by simp [Op.isWork]⟩, fun h => by cases h⟩
      · simpa [hpublisher] using Received.same peer

/-- A subscription without an m-line leads no packet anywhere. -/
theorem forwardMid_toOpen {heap : Heap} {trackIn : Weak} {peer peer' : Peer S}
    (h : peer'.tracksOut = peer.tracksOut ++ [{ trackIn := trackIn, state := .toOpen }])
    (origin : PeerId) (mid : Mid) :
    peer'.forwardMid heap origin mid = peer.forwardMid heap origin mid := by
  simp only [forwardMid, h, List.find?_append]
  cases peer.tracksOut.find? _ with
  | some out => rfl
  | none =>
      rw [Option.none_or, List.find?_singleton]
      split <;> rfl

/-- What gives a peer nothing to send does not change what else would. -/
theorem idles_receive {heap : Heap} {propagated : Propagated S} {peer : Peer S}
    (h : peer.idles heap propagated = true) (later : Propagated S) :
    (peer.receive heap propagated).idles heap later = peer.idles heap later := by
  cases propagated with
  | noop | timeout => rfl
  | trackOpen id trackIn =>
      cases later with
      | noop | timeout | trackOpen | keyframeRequest => rfl
      | media origin data =>
          have hmid : (peer.receive heap (.trackOpen id trackIn)).forwardMid heap origin data.mid =
              peer.forwardMid heap origin data.mid := forwardMid_toOpen rfl origin data.mid
          rw [idles, idles, hmid]
          rfl
  | media origin data =>
      suffices hsame : peer.forward heap origin data = peer by rw [receive, hsame]
      simp only [idles, Option.isNone_iff_eq_none, Option.bind_eq_none_iff] at h
      unfold forward
      cases hmid : peer.forwardMid heap origin data.mid with
      | none => rfl
      | some mid =>
          cases hwriter : S.writer peer.rtc mid with
          | none => simp [hwriter]
          | some writer => simp [hwriter, h mid hmid writer hwriter]
  | keyframeRequest id request publisher midIn =>
      suffices hsame : peer.receive heap (.keyframeRequest id request publisher midIn) = peer by
        rw [hsame]
      simp only [idles, Bool.or_eq_true, decide_eq_true_eq, Bool.not_eq_true',
        Option.isNone_iff_eq_none] at h
      simp only [receive, serveKeyframeRequest]
      rcases h with (hne | hnone) | hnone
      · rw [if_neg hne]
      · simp [hnone]
      · simp [hnone]

theorem foldl_receive_received (heap : Heap) (queue : List (Propagated S)) (peer : Peer S) :
    Received (queue.all (peer.idles heap)) peer
      (queue.foldl (fun peer propagated => peer.receive heap propagated) peer) := by
  induction queue generalizing peer with
  | nil => exact .same peer
  | cons propagated queue ih =>
      obtain ⟨⟨first, hfirst, hpolled, hwork⟩, hrtc⟩ := receive_received heap propagated peer
      obtain ⟨⟨rest, hrest, hpolled', hwork'⟩, hrtc'⟩ := ih (peer.receive heap propagated)
      have hlater : peer.idles heap propagated = true →
          queue.all ((peer.receive heap propagated).idles heap) = queue.all (peer.idles heap) :=
        fun hidle => congrArg queue.all (funext (idles_receive hidle))
      rw [List.all_cons, List.foldl_cons]
      refine ⟨⟨first ++ rest, by simp [hrest, hfirst], fun output hmem => ?_, ?_⟩,
        fun hidle => ?_⟩
      · exact (List.mem_append.mp hmem).elim (hpolled output) (hpolled' output)
      · rw [Bool.and_eq_true, List.forall_mem_append, ← hwork, ← hwork']
        exact and_congr_right fun hidle => by rw [hlater hidle]
      · obtain ⟨hidle, hidle'⟩ := Bool.and_eq_true_iff.mp hidle
        exact (hrtc' ((hlater hidle).trans hidle')).trans (hrtc hidle)

/-- A peer that was asleep is polled out afterwards just when it got no work. -/
theorem Received.polledOut_iff {idle : Bool} {wake : Instant} {peer peer' : Peer S}
    (h : Received idle peer peer') (hasleep : peer.Asleep wake) :
    peer'.PolledOut ↔ idle = true := by
  obtain ⟨⟨before, hbefore⟩, -⟩ := hasleep
  obtain ⟨received, hops, hpolled, hwork⟩ := h.ops
  rw [hwork]
  constructor
  · rintro ⟨before', wake', after, hops', hafter⟩ op hop
    rw [hops', hbefore] at hops
    rcases List.append_eq_append_iff.mp hops with ⟨pre, -, hcut⟩ | ⟨pre, -, hcut⟩
    · cases pre with
      | nil =>
          rw [List.nil_append] at hcut
          rw [← hcut] at hpolled
          exact absurd List.mem_cons_self (hpolled (.timeout wake'))
      | cons first pre =>
          obtain ⟨-, rfl⟩ := List.cons.inj hcut
          exact hafter op (List.mem_append_right _ hop)
    · exact absurd (hcut ▸ List.mem_append_right _ List.mem_cons_self) (hpolled (.timeout wake'))
  · intro hidle
    refine ⟨before, wake, received, ?_, hidle⟩
    rw [hops, hbefore]
    simp

/-- An idle peer that is asleep asks again for the wake-up it asked for. -/
theorem Received.asks_again {wake : Instant} {peer peer' : Peer S} (hstable : S.StableTimeout)
    (h : Received true peer peer') (hasleep : peer.Asleep wake) :
    (S.pollOutput peer'.rtc).1 = .ok (.timeout wake) := by
  obtain ⟨-, rtc, hpoll⟩ := hasleep
  rw [h.rtc rfl]
  exact hstable _ _ _ hpoll

/-- What a dead peer receives changes nothing about its `Rtc`. -/
theorem receive_dead (hmute : S.DeadIsMute) (heap : Heap) (propagated : Propagated S)
    {peer : Peer S} (hdead : peer.isAlive = false) :
    (peer.receive heap propagated).isAlive = false := by
  have hwriter : ∀ mid, S.writer peer.rtc mid = none := fun mid => hmute _ _ hdead
  cases propagated with
  | noop | timeout | trackOpen => exact hdead
  | media origin data =>
      simp only [receive, forward, hwriter]
      split <;> exact hdead
  | keyframeRequest id request publisher midIn =>
      simp only [receive, serveKeyframeRequest, hwriter]
      split
      · split <;> exact hdead
      · exact hdead

theorem foldl_receive_dead (hmute : S.DeadIsMute) (heap : Heap) (queue : List (Propagated S))
    {peer : Peer S} (hdead : peer.isAlive = false) :
    (queue.foldl (fun peer propagated => peer.receive heap propagated) peer).isAlive = false := by
  induction queue generalizing peer with
  | nil => exact hdead
  | cons propagated queue ih => exact ih (receive_dead hmute heap propagated hdead)

end Peer

/-! ### A pass over a room -/

theorem Room.poll_timeout_le {clock : ℕ → List Instant} {heap : Heap} {timeout : Instant}
    {room : Room S} {next : PolledRoom S} (hpoll : room.poll clock heap timeout = some next) :
    next.timeout ≤ timeout := by
  obtain ⟨drained, hdrained, rfl⟩ := Option.map_eq_some_iff.mp hpoll
  exact (drainPeers_asleep hdrained).1

/-- What a pass leaves each live peer with. -/
theorem Room.poll_rest (hmute : S.DeadIsMute) {clock : ℕ → List Instant} {heap : Heap}
    {timeout : Instant} {room : Room S} {next : PolledRoom S}
    (hpoll : room.poll clock heap timeout = some next) :
    ∃ drained, drainPeers clock heap timeout room.peers = some drained ∧
      next.room.peers = drained.peers.map (Peer.receiveAll drained.heap drained.queue) ∧
      ∀ peer ∈ drained.peers, (peer.receiveAll drained.heap drained.queue).isAlive = true →
        peer.isAlive = true ∧ ∃ wake, peer.Asleep wake ∧ next.timeout ≤ wake := by
  obtain ⟨drained, hdrained, rfl⟩ := Option.map_eq_some_iff.mp hpoll
  obtain ⟨-, hall⟩ := drainPeers_asleep hdrained
  refine ⟨drained, hdrained, by rw [propagateAll_eq], fun peer hpeer halive => ?_⟩
  suffices hawake : peer.isAlive = true from ⟨hawake, hall peer hpeer hawake⟩
  by_contra hdead
  have hstill := Peer.foldl_receive_dead hmute drained.heap (peer.fromOthers drained.queue)
    (Bool.not_eq_true _ ▸ hdead : peer.isAlive = false)
  rw [Peer.receiveAll] at halive
  exact absurd (halive.symm.trans hstill) (by simp)

end FerriteSfu
