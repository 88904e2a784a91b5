import FerriteSfu.Call.Lives
import FerriteSfu.Call.Speaking

/-!
What a peer has said, read off everything its `Rtc` has put out.

`speaking_until` keeps one instant only. It is that of the last voice packet of
an audio track, so it answers whether there was one in the last 600 ms, as long
as the clock never runs backwards.
-/

namespace FerriteSfu

variable {S : Str0m}

open Lib (picks)

/-- What an `Rtc` has put out, with what the clock showed. -/
abbrev Timeline (S : Str0m) := List (Instant × S.Output)

/-- The outputs of a life. -/
def timeline (log : List (Poll S)) : Timeline S :=
  log.filterMap fun poll => poll.output.map fun output => (poll.now, output)

theorem timeline_snoc (log : List (Poll S)) (poll : Poll S) :
    timeline (log ++ [poll]) =
      timeline log ++ (poll.output.map fun output => (poll.now, output)).toList := by
  rw [timeline, List.filterMap_append]
  cases houtput : poll.output <;> simp [timeline, houtput]

/-- A packet whose RFC 6464 level says that somebody is talking. -/
def MediaData.isVoice {Params MediaTime : Type} (data : MediaData Params MediaTime) : Bool :=
  data.extVals.audioLevel.any fun level =>
    data.extVals.voiceActivity.getD true && decide (level > -speakingThresholdDbov)

namespace Timeline

/-- The track an output announces. -/
def added : S.Output → Option MediaAdded
  | .event (.mediaAdded added) => some added
  | _ => none

/-- The tracks announced so far. -/
def announced (past : Timeline S) : List MediaAdded := past.filterMap fun entry => added entry.2

/-- What kind of track the m-line `mid` was announced as. -/
def kindOf (past : Timeline S) (mid : Mid) : Option MediaKind :=
  (past.announced.find? fun added => added.mid = mid).map (·.kind)

/-- Whether an entry is a voice packet of a track announced as audio. -/
def isVoice (past : Timeline S) (entry : Instant × S.Output) : Bool :=
  match entry.2 with
  | .event (.mediaData data) => decide (past.kindOf data.mid = some .audio) && data.isVoice
  | _ => false

/-- Less than 600 ms before `now` a voice packet came on a track that had been
announced as audio. -/
def VoiceAt (now : Instant) (past : Timeline S) : Prop :=
  ∃ before t data after, past = before ++ (t, .event (.mediaData data)) :: after ∧
    kindOf before data.mid = some .audio ∧ data.isVoice = true ∧ now < t + speakingHold

/-- The voice packets. -/
def voices (past : Timeline S) : Timeline S := picks isVoice past

theorem announced_snoc (past : Timeline S) (entry : Instant × S.Output) :
    announced (past ++ [entry]) = past.announced ++ (added entry.2).toList := by
  rw [announced, List.filterMap_append]
  cases hadded : added entry.2 <;> simp [announced, hadded]

theorem voices_snoc (past : Timeline S) (entry : Instant × S.Output) :
    voices (past ++ [entry]) = past.voices ++ if past.isVoice entry then [entry] else [] :=
  Lib.picks_snoc isVoice past entry

end Timeline

open Timeline (kindOf voices)

namespace Peer

/-- What the peer `id` keeps of the outputs `past`. -/
structure Heard (id : PeerId) (past : Timeline S) (peer : Peer S) : Prop where
  own : peer.id = id
  tracks : peer.tracks = past.announced.map fun added => ⟨id, added.mid, added.kind⟩
  speaking : peer.speakingUntil = (voices past).getLast?.map fun entry => entry.1 + speakingHold
  outputs : peer.outputs = past.map Prod.snd

theorem Newborn.heard {peer : Peer S} (h : peer.Newborn) : Heard peer.id [] peer where
  own := rfl
  tracks := by
    rw [Peer.tracks, h.tracksIn]
    rfl
  speaking := congrArg Memory.speakingUntil h.memory
  outputs := h.outputs

theorem Heard.calm {id : PeerId} {past : Timeline S} {peer peer' : Peer S} (h : Heard id past peer)
    (hcalm : peer.Calm peer') : Heard id past peer' where
  own := hcalm.id.trans h.own
  tracks := by
    rw [Peer.tracks, hcalm.tracksIn]
    exact h.tracks
  speaking := hcalm.speakingUntil.trans h.speaking
  outputs := hcalm.outputs.trans h.outputs

/-- The kind of a track is the one it was announced as. -/
theorem Heard.kind {id : PeerId} {past : Timeline S} {peer : Peer S} (h : Heard id past peer)
    (mid : Mid) :
    (peer.tracksIn.find? fun track => track.id.mid = mid).map (·.id.kind) = kindOf past mid := by
  have hfind : (peer.tracks.find? fun track => track.mid = mid).map TrackIn.kind =
      kindOf past mid := by
    rw [h.tracks, List.find?_map, Option.map_map]
    rfl
  rw [Peer.tracks, List.find?_map, Option.map_map] at hfind
  exact hfind

theorem noteAudioLevel_speaking (now : Instant) (data : S.Media) (peer : Peer S) :
    (peer.noteAudioLevel now data).speakingUntil =
      if data.isVoice then some (now + speakingHold) else peer.speakingUntil := by
  unfold noteAudioLevel MediaData.isVoice
  cases data.extVals.audioLevel with
  | none => rfl
  | some level =>
      dsimp only [Option.any_some]
      split <;> rfl

theorem requestKeyframeThrottled_speaking (now : Instant) (mid : Mid)
    (kind : KeyframeRequestKind) (peer : Peer S) :
    (peer.requestKeyframeThrottled now mid kind).speakingUntil = peer.speakingUntil := by
  unfold requestKeyframeThrottled
  repeat' split
  all_goals rfl

/-- A packet is heard only if its track is audio. -/
theorem Heard.handleMediaDataIn {id : PeerId} {past : Timeline S} {peer peer' : Peer S}
    (h : Heard id past peer) (now : Instant) (data : S.Media)
    (htracks : peer'.tracksIn = peer.tracksIn) :
    (peer'.handleMediaDataIn now data).2.speakingUntil =
      if Timeline.isVoice past (now, .event (.mediaData data)) then some (now + speakingHold)
      else peer'.speakingUntil := by
  unfold Peer.handleMediaDataIn
  simp only [htracks, h.kind]
  split
  · rename_i haudio
    rw [noteAudioLevel_speaking]
    simp [Timeline.isVoice, haudio]
  · rename_i hvideo
    have hsame : (if !data.contiguous then peer'.requestKeyframeThrottled now data.mid .pli
        else peer').speakingUntil = peer'.speakingUntil := by
      split
      · exact requestKeyframeThrottled_speaking now data.mid .pli peer'
      · rfl
    rw [hsame]
    simp [Timeline.isVoice, hvideo]
  · rename_i hnone
    simp [Timeline.isVoice, hnone]

/-- What is put out is taken note of at once. -/
theorem Heard.handleOutput {id : PeerId} {past : Timeline S} {peer : Peer S}
    (h : Heard id past peer) (heap : Heap) (now : Instant) (output : S.Output) :
    Heard id (past ++ [(now, output)])
      ((peer.record (.polled output)).handleOutput heap now output).2.1 := by
  have hout : ((peer.record (.polled output)).handleOutput heap now output).2.1.outputs =
      (past ++ [(now, output)]).map Prod.snd := by
    obtain ⟨requests, hops, hrequests⟩ :=
      (handleOutput_handled heap now output (peer.record (.polled output))).ops
    have hnone : requests.filterMap Op.output = [] := by
      refine List.filterMap_eq_nil_iff.mpr fun op hop => ?_
      obtain ⟨mid, kind, rfl⟩ := hrequests op hop
      rfl
    rw [Peer.outputs, hops, List.filterMap_append, hnone, List.append_nil, List.map_append,
      ← h.outputs]
    exact List.filterMap_append
  have hsilent : ∀ peer' : Peer S, peer'.outputs = (past ++ [(now, output)]).map Prod.snd →
      Timeline.added output = none → Timeline.isVoice past (now, output) = false →
      peer'.id = peer.id → peer'.tracks = peer.tracks →
      peer'.speakingUntil = peer.speakingUntil → Heard id (past ++ [(now, output)]) peer' := by
    intro peer' hout hadded hvoice hid htracks hspeaking
    refine ⟨hid.trans h.own, ?_, ?_, hout⟩
    · rw [htracks, h.tracks, Timeline.announced_snoc]
      simp [hadded]
    · rw [hspeaking, h.speaking, Timeline.voices_snoc]
      simp [hvoice]
  cases output with
  | transmit | timeout => exact hsilent _ hout rfl rfl rfl rfl rfl
  | event event =>
      cases event with
      | iceConnectionStateChange state =>
          cases state <;> exact hsilent _ hout rfl rfl rfl rfl rfl
      | keyframeRequest | other => exact hsilent _ hout rfl rfl rfl rfl rfl
      | mediaAdded added =>
          refine ⟨h.own, ?_, ?_, hout⟩
          · rw [Timeline.announced_snoc, List.map_append, ← h.tracks, ← h.own]
            exact List.map_append
          · rw [Timeline.voices_snoc]
            exact h.speaking.trans (by simp [Timeline.isVoice])
      | mediaData data =>
          have hrecorded : (peer.record (.polled (.event (.mediaData data)))).tracksIn =
              peer.tracksIn := rfl
          have hquiet := handleMediaDataIn_quiet now data
            (peer.record (.polled (.event (.mediaData data))))
          refine ⟨(id_eq_of_card hquiet.card).trans h.own, ?_, ?_, hout⟩
          · rw [Timeline.announced_snoc]
            refine hquiet.tracks.trans (h.tracks.trans ?_)
            simp [Timeline.added]
          · rw [Timeline.voices_snoc]
            refine (h.handleMediaDataIn now data hrecorded).trans ?_
            split
            · simp
            · refine Eq.trans (b := peer.speakingUntil) rfl ?_
              simpa using h.speaking

/-- One iteration. -/
theorem Heard.poll {id : PeerId} {log : List (Poll S)} {poll : Poll S}
    (h : Heard id (timeline log) poll.before) :
    Heard id (timeline (log ++ [poll])) poll.after := by
  rw [timeline_snoc]
  rcases poll.after_cases with ⟨hnone, hprepared⟩ | ⟨output, peer, hsome, hprepared, -, hafter⟩
  · rw [hnone, Option.map_none, Option.toList_none, List.append_nil]
    exact h.calm hprepared.toCalm
  · rw [hsome, hafter]
    exact (h.calm hprepared.toCalm).handleOutput poll.heap poll.now output

/-- **A peer keeps the tracks it announced and the end of its last voice packet.** -/
theorem Lives.heard {log : List (Poll S)} {newborn peer : Peer S} (h : Lives log newborn peer)
    (hborn : newborn.Newborn) : Heard peer.id (timeline log) peer := by
  rw [h.id]
  refine Lib.Lived.ofStart (P := fun log peer => Heard newborn.id (timeline log) peer)
    (fun _ _ _ hheard hcalm => hheard.calm hcalm) (fun log peer peer' poll hheard hpoll => ?_)
    h hborn.heard
  obtain ⟨rfl, rfl⟩ := hpoll
  exact hheard.poll

theorem isSpeaking_iff_until {now : Instant} {peer : Peer S} :
    peer.isSpeaking now = true ↔ ∃ til, peer.speakingUntil = some til ∧ now < til := by
  rw [isSpeaking]
  cases peer.speakingUntil <;> simp

/-- **Whether a peer is speaking is whether a voice packet came of it in the last
600 ms.** -/
theorem Heard.isSpeaking_iff {id : PeerId} {past : Timeline S} {peer : Peer S}
    (h : Heard id past peer) (hclock : past.Pairwise fun entry entry' => entry.1 ≤ entry'.1)
    (now : Instant) : peer.isSpeaking now = true ↔ past.VoiceAt now := by
  have hvoice : (∃ entry ∈ voices past, now < entry.1 + speakingHold) ↔ past.VoiceAt now := by
    constructor
    · rintro ⟨⟨t, output⟩, hentry, ht⟩
      obtain ⟨before, after, heq, htest⟩ := Lib.mem_picks.mp hentry
      rw [Timeline.isVoice] at htest
      split at htest
      · rename_i data houtput
        obtain rfl : output = .event (.mediaData data) := houtput
        obtain ⟨hkind, hloud⟩ := Bool.and_eq_true_iff.mp htest
        exact ⟨before, t, data, after, heq, of_decide_eq_true hkind, hloud, ht⟩
      · cases htest
    · rintro ⟨before, t, data, after, heq, hkind, hloud, ht⟩
      refine ⟨(t, .event (.mediaData data)), Lib.mem_picks.mpr ⟨before, after, heq, ?_⟩, ht⟩
      simp [Timeline.isVoice, hkind, hloud]
  have hmono : (voices past).Pairwise fun entry entry' => entry.1 ≤ entry'.1 :=
    hclock.sublist (Lib.picks_sublist _ _)
  rw [← hvoice, isSpeaking_iff_until, h.speaking,
    ← Lib.exists_getLast?_iff hmono fun entry entry' hle hnow => lt_of_lt_of_le hnow
      (Nat.add_le_add_right hle _)]
  simp only [Option.map_eq_some_iff, exists_exists_and_eq_and]

end Peer

end FerriteSfu
