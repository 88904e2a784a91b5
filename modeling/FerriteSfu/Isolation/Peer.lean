import FerriteSfu.Isolation.Rename

/-!
What a peer does, it does under any name.
-/

namespace FerriteSfu

variable {S : Str0m} {ρ : PeerId ↪ PeerId} (L : S.Relabel ρ)

/-! ### Negotiation -/

namespace TrackOut

theorem rename_stopDead (heap : Heap) (track : TrackOut) :
    (track.rename ρ).stopDead (heap.rename ρ) = (track.stopDead heap).rename ρ := by
  unfold stopDead
  simp only [rename_state, rename_trackIn, Heap.rename_upgrade, Option.isNone_map]
  cases track.state with
  | opened mid => dsimp only; split <;> rfl
  | toOpen | negotiating | toStop | negotiatingStop => rfl

theorem rename_negotiate (heap : Heap) (change : S.SdpApi) (track : TrackOut) :
    (track.rename ρ).negotiate (heap.rename ρ) (L.onChange change) =
      ((track.negotiate heap change).1.rename ρ, L.onChange (track.negotiate heap change).2.1,
        (track.negotiate heap change).2.2.map (Op.rename L)) := by
  unfold negotiate
  simp only [rename_state, rename_trackIn, Heap.rename_upgrade]
  cases track.state with
  | toOpen =>
      cases heap.upgrade track.trackIn with
      | none => rfl
      | some trackIn =>
          have hadded := L.addMedia change trackIn.kind trackIn.origin
          simp only [Option.map_some, TrackIn.rename]
          rw [hadded]
          rfl
  | toStop mid => simp [L.stopMedia, rename]
  | negotiating | opened | negotiatingStop => rfl

theorem rename_toMap (heap : Heap) (track : TrackOut) :
    (track.rename ρ).toMap (heap.rename ρ) = (track.toMap heap).map (TrackMap.rename ρ) := by
  have hstopping : (track.rename ρ).isStopping = track.isStopping := rfl
  unfold toMap
  simp only [rename_mid, rename_trackIn, hstopping, Heap.rename_upgrade]
  cases track.mid with
  | none => rfl
  | some mid =>
      cases heap.upgrade track.trackIn with
      | none => rfl
      | some trackIn =>
          cases track.isStopping <;> simp [TrackMap.rename, TrackIn.rename, renameText_asString]

theorem rename_settle (track : TrackOut) :
    (track.rename ρ).settle = track.settle.rename ρ := by
  unfold settle
  rw [rename_state]
  cases track.state <;> rfl

theorem rename_isNegotiatingStop (track : TrackOut) :
    (track.rename ρ).isNegotiatingStop = track.isNegotiatingStop := rfl

end TrackOut

theorem negotiateTracks_rename (heap : Heap) (change : S.SdpApi) (tracks : List TrackOut) :
    negotiateTracks (heap.rename ρ) (L.onChange change) (tracks.map (TrackOut.rename ρ)) =
      ((negotiateTracks heap change tracks).1.map (TrackOut.rename ρ),
        L.onChange (negotiateTracks heap change tracks).2.1,
        (negotiateTracks heap change tracks).2.2.map (Op.rename L)) := by
  induction tracks generalizing change with
  | nil => rfl
  | cons track rest ih =>
      rw [List.map_cons, negotiateTracks, negotiateTracks, TrackOut.rename_negotiate]
      simp only [ih, List.map_cons, List.map_append]

theorem trackMap_rename (heap : Heap) (tracks : List TrackOut) :
    trackMap (heap.rename ρ) (tracks.map (TrackOut.rename ρ)) =
      (trackMap heap tracks).map (TrackMap.rename ρ) := by
  simp only [trackMap, List.filterMap_map, List.map_filterMap]
  exact List.filterMap_congr fun track _ => TrackOut.rename_toMap heap track

namespace Peer

theorem rename_negotiateIfNeeded (heap : Heap) (peer : Peer S) :
    (peer.rename L).negotiateIfNeeded (heap.rename ρ) =
      ((peer.negotiateIfNeeded heap).1, (peer.negotiateIfNeeded heap).2.rename L) := by
  have hstop : ((peer.rename L).tracksOut.map (·.stopDead (heap.rename ρ))) =
      (peer.tracksOut.map (·.stopDead heap)).map (TrackOut.rename ρ) := by
    simp only [Peer.rename, List.map_map]
    exact List.map_congr_left fun track _ => TrackOut.rename_stopDead heap track
  have hneg := negotiateTracks_rename L heap (S.sdpApi peer.rtc)
    (peer.tracksOut.map (·.stopDead heap))
  have hpending : (peer.rename L).pending.isSome = peer.pending.isSome := by
    simp [Peer.rename]
  unfold negotiateIfNeeded
  simp only [hpending, rename_rtc, L.isAlive]
  by_cases hidle : (peer.pending.isSome || !S.isAlive peer.rtc) = true
  · rw [if_pos hidle, if_pos hidle]
  · rw [if_neg hidle, if_neg hidle]
    simp only [hstop, L.sdpApi, hneg, L.hasChanges]
    generalize negotiateTracks heap (S.sdpApi peer.rtc) (peer.tracksOut.map (·.stopDead heap)) =
      negotiated
    by_cases hchanges : (!S.hasChanges negotiated.2.1) = true
    · rw [if_pos hchanges, if_pos hchanges, L.release]
      simp [Peer.rename]
    · rw [if_neg hchanges, if_neg hchanges, L.apply]
      rcases happly : S.apply negotiated.2.1 with ⟨_ | ⟨offer, pending⟩, rtc⟩
      · simp [Peer.rename, Prod.map]
      · simp [Peer.rename, Prod.map, record, send, trackMap_rename, L.offerToSdpString, Op.rename,
          ServerMsg.rename]

theorem rename_acceptAnswer (answer : S.SdpAnswer) (peer : Peer S) :
    (peer.rename L).acceptAnswer answer =
      ((peer.acceptAnswer answer).1, (peer.acceptAnswer answer).2.rename L) := by
  unfold acceptAnswer
  cases hpending : peer.pending with
  | none => simp [Peer.rename, hpending]
  | some pending =>
      have hsettle : (peer.tracksOut.map (TrackOut.rename ρ)).map TrackOut.settle =
          (peer.tracksOut.map TrackOut.settle).map (TrackOut.rename ρ) := by
        simp only [List.map_map]
        exact List.map_congr_left fun track _ => track.rename_settle
      simp only [Peer.rename, hpending, Option.map_some, L.acceptAnswer, hsettle, List.filter_map]
      rcases S.acceptAnswer peer.rtc pending answer with ⟨_ | _, rtc⟩
      · simp [Prod.map]
      · simp [Prod.map, Function.comp_def, TrackOut.rename_isNegotiatingStop]

/-! ### Media -/

theorem rename_find (mid : Mid) (peer : Peer S) :
    (peer.rename L).tracksIn.find? (fun track => track.id.mid = mid) =
      (peer.tracksIn.find? fun track => track.id.mid = mid).map (TrackInEntry.rename ρ) :=
  List.find?_map ..

theorem rename_handleInput (input : S.Input) (peer : Peer S) :
    (peer.rename L).handleInput input = (peer.handleInput input).rename L := by
  unfold handleInput
  simp only [rename_rtc, L.isAlive, L.handleInput]
  split
  · rfl
  · rcases S.handleInput peer.rtc input with ⟨_ | _, rtc⟩
    · simp [Prod.map, Peer.rename, L.disconnect]
    · rfl

theorem rename_handleMediaAdded (heap : Heap) (added : MediaAdded) (peer : Peer S) :
    (peer.rename L).handleMediaAdded (heap.rename ρ) added =
      ((peer.handleMediaAdded heap added).1.rename ρ,
        (peer.handleMediaAdded heap added).2.1.rename L,
        (peer.handleMediaAdded heap added).2.2.rename ρ) := by
  simp [handleMediaAdded, Peer.rename, Propagated.rename, TrackIn.rename, TrackInEntry.rename,
    Heap.rename]

theorem rename_noteAudioLevel (now : Instant) (data : S.Media) (peer : Peer S) :
    (peer.rename L).noteAudioLevel now data = (peer.noteAudioLevel now data).rename L := by
  unfold noteAudioLevel
  split
  · rfl
  · dsimp only
    split <;> rfl

theorem rename_requestKeyframeThrottled (now : Instant) (mid : Mid) (kind : KeyframeRequestKind)
    (peer : Peer S) : (peer.rename L).requestKeyframeThrottled now mid kind =
      (peer.requestKeyframeThrottled now mid kind).rename L := by
  unfold requestKeyframeThrottled
  rw [rename_find]
  cases peer.tracksIn.find? fun track => track.id.mid = mid with
  | none => rfl
  | some entry =>
      have hlast : (entry.rename ρ).lastKeyframeRequest = entry.lastKeyframeRequest := rfl
      simp only [Option.map_some, hlast, rename_rtc, L.writer]
      split
      · rfl
      · cases S.writer peer.rtc mid with
        | none => rfl
        | some writer =>
            simp only [Option.map_some, L.requestKeyframe]
            rcases S.requestKeyframe writer none kind with ⟨_ | _, rtc⟩
            · simp [Prod.map, Peer.rename, record, Op.rename]
            · have hmark : (peer.tracksIn.map (TrackInEntry.rename ρ)).updateFirst
                  (fun track => track.id.mid = mid)
                  (fun track => { track with lastKeyframeRequest := some now }) =
                (peer.tracksIn.updateFirst (fun track => track.id.mid = mid)
                  (fun track => { track with lastKeyframeRequest := some now })).map
                    (TrackInEntry.rename ρ) :=
                List.updateFirst_map (by intro _; rfl) (by intro _; rfl) peer.tracksIn
              simp only [Prod.map, Peer.rename, record, hmark, List.map_append]
              rfl

theorem rename_handleMediaDataIn (now : Instant) (data : S.Media) (peer : Peer S) :
    (peer.rename L).handleMediaDataIn now data =
      ((peer.handleMediaDataIn now data).1.rename ρ,
        (peer.handleMediaDataIn now data).2.rename L) := by
  unfold handleMediaDataIn
  rw [rename_find]
  cases peer.tracksIn.find? fun track => track.id.mid = data.mid with
  | none => rfl
  | some entry =>
      have hkind : (entry.rename ρ).id.kind = entry.id.kind := rfl
      simp only [Option.map_some, hkind]
      cases entry.id.kind with
      | audio => simp [rename_noteAudioLevel, Propagated.rename]
      | video =>
          dsimp only
          split
          · simp [rename_requestKeyframeThrottled, Propagated.rename]
          · rfl

theorem rename_handleIncomingKeyframeRequest (heap : Heap) (request : KeyframeRequest)
    (peer : Peer S) :
    (peer.rename L).handleIncomingKeyframeRequest (heap.rename ρ) request =
      (peer.handleIncomingKeyframeRequest heap request).rename ρ := by
  have hfind : ((peer.rename L).tracksOut.find? fun track => track.mid = some request.mid) =
      (peer.tracksOut.find? fun track => track.mid = some request.mid).map (TrackOut.rename ρ) :=
    List.find?_map ..
  unfold handleIncomingKeyframeRequest
  rw [hfind]
  cases peer.tracksOut.find? fun track => track.mid = some request.mid with
  | none => rfl
  | some trackOut =>
      simp only [Option.map_some, TrackOut.rename_trackIn, Heap.rename_upgrade]
      cases heap.upgrade trackOut.trackIn <;> rfl

theorem rename_forwardMid (heap : Heap) (origin : PeerId) (mid : Mid) (peer : Peer S) :
    (peer.rename L).forwardMid (heap.rename ρ) (ρ origin) mid =
      peer.forwardMid heap origin mid := by
  have hpick : (fun out : TrackOut =>
      (((heap.rename ρ).upgrade out.trackIn).filter fun track =>
        decide (track.origin = ρ origin) && decide (track.mid = mid)).isSome) ∘ TrackOut.rename ρ =
      fun out => ((heap.upgrade out.trackIn).filter fun track =>
        decide (track.origin = origin) && decide (track.mid = mid)).isSome := by
    funext out
    simp only [Function.comp_apply, TrackOut.rename_trackIn, Heap.rename_upgrade]
    cases heap.upgrade out.trackIn with
    | none => rfl
    | some track =>
        simp only [Option.map_some, Option.filter, TrackIn.rename, ρ.injective.eq_iff]
        split <;> rfl
  unfold forwardMid
  rw [Peer.rename, List.find?_map, hpick]
  cases peer.tracksOut.find? _ <;> rfl

theorem rename_withAudioLevel (data : S.Media) (writer : S.Writer) :
    withAudioLevel data (L.onWriter writer) = L.onWriter (withAudioLevel data writer) := by
  unfold withAudioLevel
  split
  · exact L.audioLevel ..
  · rfl

theorem rename_forward (heap : Heap) (origin : PeerId) (data : S.Media) (peer : Peer S) :
    (peer.rename L).forward (heap.rename ρ) (ρ origin) data =
      (peer.forward heap origin data).rename L := by
  unfold forward
  rw [rename_forwardMid]
  cases peer.forwardMid heap origin data.mid with
  | none => rfl
  | some mid =>
      simp only [rename_rtc, L.writer]
      cases S.writer peer.rtc mid with
      | none => rfl
      | some writer =>
          simp only [Option.map_some, L.matchParams]
          cases S.matchParams writer data.params with
          | none => rfl
          | some pt =>
              simp only [rename_withAudioLevel, L.write]
              rcases S.write (withAudioLevel data writer) pt data.networkTime data.time data.data
                with ⟨_ | _, rtc⟩
              · simp [Prod.map, Peer.rename, record, Op.rename, L.disconnect]
              · simp [Prod.map, Peer.rename, record, Op.rename]

theorem rename_serveKeyframeRequest (mid : Mid) (kind : KeyframeRequestKind) (peer : Peer S) :
    (peer.rename L).serveKeyframeRequest mid kind =
      (peer.serveKeyframeRequest mid kind).rename L := by
  have hany : ((peer.rename L).tracksIn.any fun track => track.id.mid = mid) =
      peer.tracksIn.any fun track => track.id.mid = mid := List.any_map ..
  unfold serveKeyframeRequest
  simp only [hany, rename_rtc, L.writer]
  split
  · rfl
  · cases S.writer peer.rtc mid with
    | none => rfl
    | some writer => simp [L.requestKeyframe, Peer.rename, record, Op.rename]

/-! ### Polling -/

theorem rename_handleOutput (heap : Heap) (now : Instant) (output : S.Output) (peer : Peer S) :
    (peer.rename L).handleOutput (heap.rename ρ) now output =
      ((peer.handleOutput heap now output).1.rename ρ,
        (peer.handleOutput heap now output).2.1.rename L,
        (peer.handleOutput heap now output).2.2.rename ρ) := by
  cases output with
  | transmit | timeout => rfl
  | event event =>
      cases event with
      | iceConnectionStateChange state => cases state <;> rfl
      | mediaAdded added => exact rename_handleMediaAdded L heap added peer
      | mediaData data =>
          simp only [handleOutput, handleEvent, rename_handleMediaDataIn]
      | keyframeRequest request =>
          simp only [handleOutput, handleEvent, rename_handleIncomingKeyframeRequest]
      | other => rfl

theorem rename_pollOutput (heap : Heap) (now : Instant) (peer : Peer S) :
    (peer.rename L).pollOutput (heap.rename ρ) now =
      ((peer.pollOutput heap now).1.rename ρ, (peer.pollOutput heap now).2.1.rename L,
        (peer.pollOutput heap now).2.2.rename ρ) := by
  unfold pollOutput
  simp only [rename_rtc, L.isAlive, rename_negotiateIfNeeded]
  split
  · rfl
  · rcases peer.negotiateIfNeeded heap with ⟨_ | _, peer'⟩
    · dsimp only
      simp only [rename_rtc, L.pollOutput]
      rcases S.pollOutput peer'.rtc with ⟨error | output, rtc⟩
      · simp [Prod.map, Peer.rename, L.disconnect, Propagated.rename]
      · have hpolled := rename_handleOutput L heap now output
          ({ peer' with rtc := rtc }.record (.polled output))
        rw [← hpolled]
        simp [Prod.map, Peer.rename, record, Op.rename]
    · rfl

theorem rename_receive (heap : Heap) (propagated : Propagated S) (peer : Peer S) :
    (peer.rename L).receive (heap.rename ρ) (propagated.rename ρ) =
      (peer.receive heap propagated).rename L := by
  cases propagated with
  | noop | timeout => rfl
  | trackOpen id trackIn =>
      simp [receive, Propagated.rename, Peer.rename, TrackOut.rename, Op.rename]
  | media id data => exact rename_forward L heap id data peer
  | keyframeRequest id request publisher midIn =>
      simp only [receive, Propagated.rename, rename_id, ρ.injective.eq_iff]
      split
      · exact rename_serveKeyframeRequest L midIn request.kind peer
      · rfl

end Peer

end FerriteSfu
