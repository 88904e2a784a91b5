import FerriteSfu.Call.Attribution
import FerriteSfu.Call.History
import Mathlib.Data.List.Perm.Subperm

/-!
The m-lines of a subscriber.

Each m-line `add_media` created belongs to one subscription at most, whatever
has become of that subscription since. So with the law on mids, no two
subscriptions of a peer share an m-line.
-/

namespace FerriteSfu

variable {S : Str0m} {config : Config} {name : String}

/-- The m-line of a subscription, with the track it carries. -/
def TrackOut.line (track : TrackOut) : Option (Mid × TrackIn) :=
  track.mid.map fun mid => (mid, track.trackIn)

theorem TrackOut.line_congr {track track' : TrackOut} (hmid : track'.mid = track.mid)
    (htrack : track'.trackIn = track.trackIn) : track'.line = track.line := by
  rw [line, line, hmid, htrack]

/-- One turn gives a subscription the m-line it creates. -/
theorem TrackOut.negotiate_line (heap : Heap) (change : S.SdpApi) (track : TrackOut) :
    (track.negotiate heap change).1.line.toList =
      track.line.toList ++ (track.negotiate heap change).2.2.filterMap Op.createdFor := by
  rcases track with ⟨trackIn, state⟩
  cases state with
  | toOpen =>
      simp only [negotiate]
      split
      · rename_i live hup
        obtain ⟨-, rfl⟩ := Heap.upgrade_eq_some.mp hup
        rfl
      · rfl
  | negotiating | opened | toStop | negotiatingStop => rfl

/-- The loop over the subscriptions gives out each m-line it creates once. -/
theorem negotiateTracks_lines (heap : Heap) (change : S.SdpApi) (tracks : List TrackOut) :
    ((negotiateTracks heap change tracks).1.filterMap TrackOut.line).Perm
      (tracks.filterMap TrackOut.line ++
        (negotiateTracks heap change tracks).2.2.filterMap Op.createdFor) := by
  induction tracks generalizing change with
  | nil => simp [negotiateTracks]
  | cons track tracks ih =>
      have hcons : ∀ (track : TrackOut) tracks, (track :: tracks).filterMap TrackOut.line =
          track.line.toList ++ tracks.filterMap TrackOut.line := fun track tracks => by
        cases hline : track.line <;> simp [hline]
      have hfirst := track.negotiate_line heap change
      have hrest := ih (track.negotiate heap change).2.1
      simp only [negotiateTracks, hcons, hfirst, List.filterMap_append]
      rw [List.append_assoc, List.append_assoc]
      refine List.Perm.append_left _ ?_
      refine (hrest.append_left _).trans ?_
      rw [← List.append_assoc, ← List.append_assoc]
      exact List.perm_append_comm.append_right _

/-- M-lines that were created, each once, with the law on mids. -/
theorem nodup_of_subperm (hfresh : S.FreshMids) {state : S.Rtc ⊕ S.SdpApi} {ops : List (Op S)}
    (hhistory : S.History state ops) {lines : List (Mid × TrackIn)}
    (h : lines.Subperm (ops.filterMap Op.createdFor)) : (lines.map Prod.fst).Nodup := by
  obtain ⟨created, hperm, hsub⟩ := h
  exact (hperm.map Prod.fst).nodup_iff.mp ((hsub.map Prod.fst).nodup (hfresh state ops hhistory))

namespace Peer

/-- The m-lines of the peer's subscriptions. -/
def lines (peer : Peer S) : List (Mid × TrackIn) := peer.tracksOut.filterMap TrackOut.line

/-- Each of the m-lines was created for the subscription that has it. -/
def Drawn (peer : Peer S) : Prop := peer.lines.Subperm (peer.ops.filterMap Op.createdFor)

theorem Drawn.grow {peer peer' : Peer S} (h : peer.Drawn) (hlines : peer'.lines = peer.lines)
    (hops : peer.ops <+: peer'.ops) : peer'.Drawn := by
  obtain ⟨ops, hops⟩ := hops
  rw [Drawn, hlines, ← hops, List.filterMap_append]
  exact h.trans (List.sublist_append_left _ _).subperm

theorem lines_append {peer peer' : Peer S} (tracks : List TrackIn)
    (htracks : peer'.tracksOut = peer.tracksOut ++ tracks.map fun trackIn => ⟨trackIn, .toOpen⟩) :
    peer'.lines = peer.lines := by
  have hnone : (tracks.map fun trackIn => (⟨trackIn, .toOpen⟩ : TrackOut)).filterMap
      TrackOut.line = [] := by
    refine List.filterMap_eq_nil_iff.mpr fun track hmem => ?_
    obtain ⟨trackIn, -, rfl⟩ := List.mem_map.mp hmem
    rfl
  rw [lines, htracks, List.filterMap_append, hnone, List.append_nil]
  rfl

/-- The m-lines after the loop over the subscriptions. -/
theorem changes_lines (heap : Heap) (peer : Peer S) :
    ((peer.changes heap).1.filterMap TrackOut.line).Perm
      (peer.lines ++ (peer.changes heap).2.2.filterMap Op.createdFor) := by
  have hsame : (peer.tracksOut.map (·.stopDead heap)).filterMap TrackOut.line = peer.lines := by
    rw [List.filterMap_map]
    exact List.filterMap_congr fun track _ => TrackOut.line_congr
      (TrackOut.stopDead_mid heap track) (TrackOut.stopDead_trackIn heap track)
  rw [← hsame]
  exact negotiateTracks_lines heap _ _

theorem Drawn.changes {peer : Peer S} (h : peer.Drawn) (heap : Heap) :
    ((peer.changes heap).1.filterMap TrackOut.line).Subperm
      ((peer.ops ++ (peer.changes heap).2.2).filterMap Op.createdFor) := by
  rw [List.filterMap_append]
  exact (changes_lines heap peer).subperm.trans ((List.subperm_append_right _).mpr h)

theorem Drawn.negotiateIfNeeded {peer : Peer S} (h : peer.Drawn) (heap : Heap) :
    (peer.negotiateIfNeeded heap).2.Drawn := by
  have hchanges := h.changes heap
  rcases negotiateIfNeeded_cases heap peer with ⟨-, heq⟩ | ⟨-, -, heq⟩ | ⟨-, -, -, heq⟩ |
    ⟨-, -, offer, pending, -, heq⟩
  · exact heq ▸ h
  · exact heq ▸ hchanges
  · exact heq ▸ hchanges
  · have hchanged : (peer.changed heap (S.apply (peer.changes heap).2.1).2).Drawn := hchanges
    exact heq ▸ hchanged.grow rfl (List.prefix_append _ _)

theorem Drawn.pollOutput {peer : Peer S} (h : peer.Drawn) (heap : Heap) (now : Instant) :
    (peer.pollOutput heap now).2.1.Drawn := by
  have hneg := h.negotiateIfNeeded heap
  rcases pollOutput_cases heap now peer with ⟨-, heq⟩ | ⟨-, -, heq⟩ | ⟨-, -, output, rtc, -, heq⟩ |
    ⟨-, -, error, rtc, -, heq⟩
  · exact heq ▸ h
  · exact heq ▸ hneg
  · rw [heq]
    have hhandled := handleOutput_handled heap now output
      (Peer.record (.polled output) { (peer.negotiateIfNeeded heap).2 with rtc := rtc })
    obtain ⟨requests, hops, -⟩ := hhandled.ops
    refine hneg.grow (congrArg (List.filterMap TrackOut.line) hhandled.tracksOut) ?_
    rw [hops]
    exact (List.prefix_append _ _).trans (List.prefix_append _ _)
  · exact heq ▸ hneg

theorem Drawn.acceptAnswer {peer : Peer S} (h : peer.Drawn) (answer : S.SdpAnswer) :
    (peer.acceptAnswer answer).2.Drawn := by
  have hsettle : (peer.tracksOut.map TrackOut.settle).filterMap TrackOut.line = peer.lines := by
    rw [List.filterMap_map]
    exact List.filterMap_congr fun track _ => TrackOut.line_congr track.settle_mid
      track.settle_trackIn
  rw [Drawn, acceptAnswer_ops]
  rcases acceptAnswer_tracksOut answer peer with heq | heq
  · rwa [lines, heq]
  · rw [lines, heq]
    refine ((List.filter_sublist.filterMap _).subperm).trans ?_
    rw [hsettle]
    exact h

theorem Drawn.receive {peer : Peer S} (h : peer.Drawn) (heap : Heap)
    (propagated : Propagated S) : (peer.receive heap propagated).Drawn := by
  obtain ⟨ops, hops, -⟩ := receive_ops heap propagated peer
  exact h.grow (lines_append _ (receive_tracksOut heap propagated peer)) ⟨ops, hops.symm⟩

/-- With the law on mids, no two subscriptions share an m-line. -/
theorem Drawn.mids_nodup (hfresh : S.FreshMids) {peer : Peer S} (h : peer.Drawn)
    (hlogged : peer.Logged) : (peer.lines.map Prod.fst).Nodup :=
  nodup_of_subperm hfresh hlogged.history h

end Peer

namespace Call

theorem drawn_invariant (config : Config) (ok : Call S → CallEvent S → Prop) :
    PeerInvariant config ok (Peer.Drawn (S := S)) where
  start _ _ _ _ := List.Subperm.refl []
  send _ _ _ h := h
  subscribe tracks peer h := h.grow (Peer.lines_append tracks rfl) (List.prefix_refl _)
  flags _ _ _ _ h := h
  answer _ _ _ answer _ _ _ _ _ h := h.acceptAnswer answer
  pollOutput heap now _ h := h.pollOutput heap now
  receive heap propagated _ h := h.receive heap propagated
  handleInput input peer h := h.grow
    (congrArg (List.filterMap TrackOut.line) (Peer.handleInput_tracksOut input peer))
    ⟨[], by simp⟩

theorem reachable_drawn {ok : Call S → CallEvent S → Prop} {call : Call S}
    (h : (machine S config name).ReachableVia ok call) : ∀ peer ∈ call.peers, peer.Drawn :=
  (drawn_invariant config ok).holds h

end Call

end FerriteSfu
