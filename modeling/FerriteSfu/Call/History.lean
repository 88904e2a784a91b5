import FerriteSfu.Call.Rules

/-!
The log of a peer is a history of calls.

The SFU hands an `Rtc` from call to call and never keeps an old one, so what the
laws of `str0m` say about histories holds of every peer; and the tracks a peer
publishes are the ones its `Rtc` announced.
-/

namespace FerriteSfu

variable {S : Str0m} {config : Config} {name : String}

/-- The loop over the subscriptions is a sequence of calls on the changes. -/
theorem negotiateTracks_history {heap : Heap} {change : S.SdpApi} {ops : List (Op S)}
    (h : S.History (.inr change) ops) (tracks : List TrackOut) :
    S.History (.inr (negotiateTracks heap change tracks).2.1)
      (ops ++ (negotiateTracks heap change tracks).2.2) := by
  induction tracks generalizing change ops with
  | nil => simpa [negotiateTracks] using h
  | cons track tracks ih =>
      have hfirst : S.History (.inr (track.negotiate heap change).2.1)
          (ops ++ (track.negotiate heap change).2.2) := by
        unfold TrackOut.negotiate
        split
        · split
          · exact h.addMedia _ _ _
          · simpa using h
        · simpa using h.stopMedia _
        · simpa using h
      simpa [negotiateTracks] using ih hfirst

/-- The loop announces nothing. -/
theorem negotiateTracks_announces (heap : Heap) (change : S.SdpApi) (tracks : List TrackOut) :
    (negotiateTracks heap change tracks).2.2.filterMap Op.announcedMid = [] := by
  induction tracks generalizing change with
  | nil => rfl
  | cons track tracks ih =>
      have hfirst : (track.negotiate heap change).2.2.filterMap Op.announcedMid = [] := by
        unfold TrackOut.negotiate
        repeat' split
        all_goals rfl
      simp [negotiateTracks, hfirst, ih]

namespace Peer

structure Logged (peer : Peer S) : Prop where
  history : S.History (.inl peer.rtc) peer.ops
  announced : peer.tracks.map TrackIn.mid = peer.ops.filterMap Op.announcedMid

theorem Logged.congr {peer peer' : Peer S} (h : peer.Logged) (hrtc : peer'.rtc = peer.rtc)
    (hops : peer'.ops = peer.ops) (htracks : peer'.tracks = peer.tracks) : peer'.Logged where
  history := by rw [hrtc, hops]; exact h.history
  announced := by rw [htracks, hops]; exact h.announced

/-- A call that announces nothing. -/
theorem Logged.call {peer peer' : Peer S} (h : peer.Logged) {ops : List (Op S)}
    (hhistory : S.History (.inl peer'.rtc) (peer.ops ++ ops)) (hops : peer'.ops = peer.ops ++ ops)
    (hquiet : ops.filterMap Op.announcedMid = []) (htracks : peer'.tracks = peer.tracks) :
    peer'.Logged where
  history := by rw [hops]; exact hhistory
  announced := by
    rw [htracks, hops, List.filterMap_append, hquiet, List.append_nil]
    exact h.announced

theorem Logged.handleInput {peer : Peer S} (h : peer.Logged) (input : S.Input) :
    (peer.handleInput input).Logged := by
  unfold Peer.handleInput
  split
  · exact h
  · have hcall := h.history.handleInput input
    split
    · rename_i hinput
      rw [hinput] at hcall
      exact ⟨hcall, h.announced⟩
    · rename_i hinput
      rw [hinput] at hcall
      exact ⟨hcall.disconnect, h.announced⟩

theorem Logged.acceptAnswer {peer : Peer S} (h : peer.Logged) (answer : S.SdpAnswer) :
    (peer.acceptAnswer answer).2.Logged := by
  rcases acceptAnswer_cases answer peer with ⟨-, heq⟩ | ⟨pending, -, -, heq⟩ |
    ⟨pending, -, -, heq⟩
  · rwa [heq]
  · rw [heq]
    exact ⟨h.history.acceptAnswer pending answer, h.announced⟩
  · rw [heq]
    exact ⟨h.history.acceptAnswer pending answer, h.announced⟩

theorem changes_history {peer : Peer S} (h : peer.Logged) (heap : Heap) :
    S.History (.inr (peer.changes heap).2.1) (peer.ops ++ (peer.changes heap).2.2) :=
  negotiateTracks_history h.history.sdpApi _

theorem Logged.changed {peer : Peer S} (h : peer.Logged) {heap : Heap} {rtc : S.Rtc}
    (hrtc : S.History (.inl rtc) (peer.ops ++ (peer.changes heap).2.2)) :
    (peer.changed heap rtc).Logged :=
  h.call hrtc rfl (negotiateTracks_announces heap _ _) rfl

theorem Logged.negotiateIfNeeded {peer : Peer S} (h : peer.Logged) (heap : Heap) :
    (peer.negotiateIfNeeded heap).2.Logged := by
  have hchanges := changes_history h heap
  rcases negotiateIfNeeded_cases heap peer with ⟨-, heq⟩ | ⟨-, -, heq⟩ | ⟨-, -, -, heq⟩ |
    ⟨-, -, offer, pending, -, heq⟩
  · exact heq ▸ h
  · exact heq ▸ h.changed hchanges.release
  · exact heq ▸ h.changed hchanges.apply
  · rw [heq]
    exact (h.changed hchanges.apply).call (hchanges.apply.offered _ _) rfl rfl rfl

theorem Logged.requestKeyframeThrottled {peer : Peer S} (h : peer.Logged) (now : Instant)
    (mid : Mid) (kind : KeyframeRequestKind) :
    (peer.requestKeyframeThrottled now mid kind).Logged := by
  have htracks := (requestKeyframeThrottled_quiet now mid kind peer).tracks
  unfold Peer.requestKeyframeThrottled at htracks ⊢
  split
  · exact h
  · split
    · exact h
    · split
      · exact h
      · rename_i writer hwriter
        have hcall := h.history.requestKeyframe hwriter none kind
        split
        · rename_i hrequest
          rw [hrequest] at hcall
          exact h.call hcall rfl rfl rfl
        · rename_i hrequest
          rw [hrequest] at hcall
          refine h.call hcall rfl rfl ?_
          exact List.map_updateFirst fun _ _ _ => rfl

theorem Logged.handleMediaDataIn {peer : Peer S} (h : peer.Logged) (now : Instant)
    (data : S.Media) : (peer.handleMediaDataIn now data).2.Logged := by
  unfold Peer.handleMediaDataIn
  dsimp only
  split
  · unfold noteAudioLevel
    dsimp only
    repeat' split
    all_goals exact h.congr rfl rfl rfl
  · split
    · exact h.requestKeyframeThrottled now data.mid .pli
    · exact h
  · exact h

/-- Handling an output that was just logged. -/
theorem Logged.handleOutput {peer : Peer S} (h : peer.Logged) {output : S.Output} {rtc : S.Rtc}
    (hpoll : S.pollOutput peer.rtc = (.ok output, rtc)) (heap : Heap) (now : Instant) :
    ((Peer.record (.polled output) { peer with rtc := rtc }).handleOutput heap now
      output).2.1.Logged := by
  have hcall := h.history.polled hpoll
  have hlogged (hquiet : Op.announcedMid (.polled output : Op S) = none) :
      (Peer.record (.polled output) { peer with rtc := rtc }).Logged :=
    h.call hcall rfl (by simp [hquiet]) rfl
  cases output with
  | transmit => exact hlogged rfl
  | timeout wake => exact hlogged rfl
  | event event =>
      cases event with
      | iceConnectionStateChange state => cases state <;> exact (hlogged rfl).congr rfl rfl rfl
      | mediaAdded added =>
          refine ⟨hcall, ?_⟩
          have htracks := (handleOutput_polled heap now (.event (.mediaAdded added))
            (Peer.record (.polled (.event (.mediaAdded added))) { peer with rtc := rtc })).tracks
          have hops : (peer.ops ++ [Op.polled (.event (.mediaAdded added))]).filterMap
              Op.announcedMid = peer.ops.filterMap Op.announcedMid ++ [added.mid] := by
            simp [Op.announcedMid]
          rw [htracks, List.map_append]
          exact (congrArg (· ++ [added.mid]) h.announced).trans hops.symm
      | mediaData data => exact (hlogged rfl).handleMediaDataIn now data
      | keyframeRequest request => exact hlogged rfl
      | other => exact hlogged rfl

theorem Logged.pollOutput {peer : Peer S} (h : peer.Logged) (heap : Heap) (now : Instant) :
    (peer.pollOutput heap now).2.1.Logged := by
  have hneg := h.negotiateIfNeeded heap
  rcases pollOutput_cases heap now peer with ⟨-, heq⟩ | ⟨-, -, heq⟩ |
    ⟨-, -, output, rtc, hpoll, heq⟩ | ⟨-, -, error, rtc, hpoll, heq⟩
  · exact heq ▸ h
  · exact heq ▸ hneg
  · exact heq ▸ hneg.handleOutput hpoll heap now
  · rw [heq]
    exact ⟨(hneg.history.pollFailed hpoll).disconnect, hneg.announced⟩

theorem withAudioLevel_history (data : S.Media) (writer : S.Writer) :
    withAudioLevel data writer = writer ∨
      ∃ level voiced, withAudioLevel data writer = S.audioLevel writer level voiced := by
  unfold withAudioLevel
  split
  · exact .inr ⟨_, _, rfl⟩
  · exact .inl rfl

theorem Logged.forward {peer : Peer S} (h : peer.Logged) (heap : Heap) (origin : PeerId)
    (data : S.Media) : (peer.forward heap origin data).Logged := by
  unfold Peer.forward
  split
  · exact h
  · split
    · exact h
    · rename_i mid _ _ writer hwriter
      split
      · exact h
      · rename_i pt _
        have hcall (delivered : Bool) : S.History
            (.inl (S.write (withAudioLevel data writer) pt data.networkTime data.time data.data).2)
            (peer.ops ++ [.wrote mid origin data delivered]) :=
          h.history.write hwriter (withAudioLevel_history data writer) origin data delivered
        dsimp only
        split
        · rename_i hwrite
          rw [hwrite] at hcall
          exact h.call (hcall true) rfl rfl rfl
        · rename_i hwrite
          rw [hwrite] at hcall
          exact h.call (hcall false).disconnect rfl rfl rfl

theorem Logged.serveKeyframeRequest {peer : Peer S} (h : peer.Logged) (mid : Mid)
    (kind : KeyframeRequestKind) : (peer.serveKeyframeRequest mid kind).Logged := by
  unfold Peer.serveKeyframeRequest
  split
  · exact h
  · split
    · exact h
    · rename_i writer hwriter
      exact h.call (h.history.requestKeyframe hwriter none kind) rfl rfl rfl

theorem Logged.receive {peer : Peer S} (h : peer.Logged) (heap : Heap)
    (propagated : Propagated S) : (peer.receive heap propagated).Logged := by
  cases propagated with
  | noop | timeout => exact h
  | trackOpen id trackIn =>
      exact h.call (h.history.queuedOpen trackIn peer.pending.isSome) rfl rfl rfl
  | media id data => exact h.forward heap id data
  | keyframeRequest =>
      simp only [Peer.receive]
      split
      · exact h.serveKeyframeRequest _ _
      · exact h

/-- With the law on announcements, no track is published twice. -/
theorem Logged.tracks_nodup {peer : Peer S} (hlaw : S.AnnouncesOnce) (h : peer.Logged) :
    peer.tracks.Nodup :=
  List.Nodup.of_map TrackIn.mid (h.announced ▸ hlaw _ _ h.history)

end Peer

namespace Call

theorem logged_invariant (config : Config) (ok : Call S → CallEvent S → Prop) :
    PeerInvariant config ok (Peer.Logged (S := S)) where
  start _ seed offer _ :=
    ⟨(Str0m.History.build seed config.iceLite).acceptOffer offer, rfl⟩
  send _ _ _ h := h.congr rfl rfl rfl
  subscribe _ _ h := h.congr rfl rfl rfl
  flags _ _ _ _ h := h.congr rfl rfl rfl
  answer _ _ _ answer _ _ _ _ _ h := h.acceptAnswer answer
  pollOutput heap now _ h := h.pollOutput heap now
  receive heap propagated _ h := h.receive heap propagated
  handleInput input _ h := h.handleInput input

theorem reachable_logged {ok : Call S → CallEvent S → Prop} {call : Call S}
    (h : (machine S config name).ReachableVia ok call) : ∀ peer ∈ call.peers, peer.Logged :=
  (logged_invariant config ok).holds h

end Call

end FerriteSfu
