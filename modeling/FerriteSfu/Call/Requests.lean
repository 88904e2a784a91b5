import FerriteSfu.Call.Voices
import FerriteSfu.Lib.Spacing

/-!
Keyframe requests a peer makes for gaps in its own video.

A request that `str0m` takes starts a second in which no other is made for the
same track. One that it refuses, or that finds no writer, does not.
-/

namespace FerriteSfu

variable {S : Str0m}

open Timeline (kindOf)

/-- How long a track is left alone after a request. -/
def keyframeInterval : Duration := Duration.fromSecs 1

/-- A keyframe was requested on the m-line `mid`. -/
def Op.isRequest (mid : Mid) : Op S → Bool
  | .requestedKeyframe other _ => decide (other = mid)
  | _ => false

namespace Peer

/-- When a request for the track `mid` was last taken. -/
def lastRequest (mid : Mid) (peer : Peer S) : Option Instant :=
  (peer.tracksIn.find? fun track => track.id.mid = mid).bind (·.lastKeyframeRequest)

/-- A request was taken less than a second ago. -/
def Requested (now : Instant) (mid : Mid) (peer : Peer S) : Prop :=
  ∃ last, peer.lastRequest mid = some last ∧ now - last < keyframeInterval

theorem lastRequest_congr {peer peer' : Peer S} (h : peer'.tracksIn = peer.tracksIn) (mid : Mid) :
    peer'.lastRequest mid = peer.lastRequest mid := by
  rw [lastRequest, h, lastRequest]

/-- A request is held back, or it is made and then noted if it is taken. -/
theorem requestKeyframeThrottled_cases (now : Instant) (mid : Mid) (kind : KeyframeRequestKind)
    (peer : Peer S) :
    (peer.requestKeyframeThrottled now mid kind = peer ∧
      ((peer.tracksIn.find? fun track => track.id.mid = mid) = none ∨
        peer.Requested now mid ∨ S.writer peer.rtc mid = none)) ∨
    (¬peer.Requested now mid ∧
      (peer.requestKeyframeThrottled now mid kind).ops = peer.ops ++ [.requestedKeyframe mid kind] ∧
      ∀ other, (peer.requestKeyframeThrottled now mid kind).lastRequest other =
        if other = mid ∧ (S.writer peer.rtc mid).any
          (fun writer => (S.requestKeyframe writer none kind).1.isOk) = true
        then some now else peer.lastRequest other) := by
  unfold requestKeyframeThrottled
  cases hfind : peer.tracksIn.find? fun track => track.id.mid = mid with
  | none => exact .inl ⟨rfl, .inl rfl⟩
  | some entry =>
      have hlast : peer.lastRequest mid = entry.lastKeyframeRequest := by
        rw [lastRequest, hfind, Option.bind_some]
      dsimp only
      split
      · rename_i hrecent
        refine .inl ⟨rfl, .inr (.inl ?_)⟩
        cases hentry : entry.lastKeyframeRequest with
        | none => simp [hentry] at hrecent
        | some last =>
            rw [hentry, Option.map_some, Option.getD_some, decide_eq_true_eq] at hrecent
            exact ⟨last, hlast.trans hentry, hrecent⟩
      · rename_i hrecent
        have hrested : ¬peer.Requested now mid := by
          rintro ⟨last, hsome, hlt⟩
          rw [hlast] at hsome
          rw [hsome, Option.map_some, Option.getD_some, decide_eq_true_eq] at hrecent
          exact hrecent hlt
        cases hwriter : S.writer peer.rtc mid with
        | none => exact .inl ⟨rfl, .inr (.inr rfl)⟩
        | some writer =>
            refine .inr ⟨hrested, ?_⟩
            dsimp only
            rw [Option.any_some]
            rcases hrequest : S.requestKeyframe writer none kind with ⟨_ | _, rtc⟩
            · refine ⟨rfl, fun other => ?_⟩
              simp only [Except.isOk, Except.toBool, Bool.false_eq_true, and_false, if_false]
              rfl
            · refine ⟨rfl, fun other => ?_⟩
              simp only [Except.isOk, Except.toBool, and_true]
              show ((peer.tracksIn.updateFirst _ _).find? _).bind _ = _
              split
              · rename_i hother
                subst hother
                rw [List.find?_updateFirst_self, hfind]
                · rfl
                · exact fun _ _ htrack => htrack
              · rename_i hother
                rw [List.find?_updateFirst_other, lastRequest]
                intro track _ htrack
                have hmid : track.id.mid = mid := of_decide_eq_true htrack
                have hne : ¬track.id.mid = other := fun he => hother (he.symm.trans hmid)
                exact ⟨decide_eq_false hne, decide_eq_false hne⟩

/-- A keyframe is asked for if a packet of a video track comes after a gap. -/
theorem handleMediaDataIn_cases (now : Instant) (data : S.Media) (peer : Peer S) :
    (¬(data.contiguous = false ∧
        (peer.tracksIn.find? fun track => track.id.mid = data.mid).map (·.id.kind) = some .video) ∧
      (peer.handleMediaDataIn now data).2.ops = peer.ops ∧
      (peer.handleMediaDataIn now data).2.tracksIn = peer.tracksIn) ∨
    ((data.contiguous = false ∧
        (peer.tracksIn.find? fun track => track.id.mid = data.mid).map (·.id.kind) = some .video) ∧
      (peer.handleMediaDataIn now data).2 = peer.requestKeyframeThrottled now data.mid .pli) := by
  unfold handleMediaDataIn
  dsimp only
  split
  · rename_i haudio
    have heq : peer.noteAudioLevel now data =
        { peer with speakingUntil := (peer.noteAudioLevel now data).speakingUntil } := by
      unfold noteAudioLevel
      dsimp only
      repeat' split
      all_goals rfl
    exact .inl ⟨fun hgap => by simp [haudio] at hgap, by rw [heq], by rw [heq]⟩
  · rename_i hvideo
    cases hgap : data.contiguous with
    | true => exact .inl ⟨by simp, rfl, rfl⟩
    | false => exact .inr ⟨⟨rfl, hvideo⟩, rfl⟩
  · rename_i hnone
    exact .inl ⟨fun hgap => by simp [hnone] at hgap, rfl, rfl⟩

end Peer

namespace Poll

/-- What the iteration logs. -/
def ops (poll : Poll S) : List (Op S) := poll.after.ops.drop poll.before.ops.length

/-- A keyframe is requested on the m-line `mid`. -/
def requests (mid : Mid) (poll : Poll S) : Bool := poll.ops.any (Op.isRequest mid)

/-- `str0m` takes a request on the m-line `mid`. -/
def takes (mid : Mid) (poll : Poll S) : Bool :=
  (S.writer poll.rtc mid).any fun writer => (S.requestKeyframe writer none .pli).1.isOk

/-- A keyframe is requested, and the request is taken. -/
def granted (mid : Mid) (poll : Poll S) : Bool := poll.requests mid && poll.takes mid

/-- A packet of the video track `mid` comes after a gap. -/
def Gap (mid : Mid) (kind : Option MediaKind) (poll : Poll S) : Prop :=
  ∃ data, poll.output = some (.event (.mediaData data)) ∧ data.mid = mid ∧
    data.contiguous = false ∧ kind = some .video

/-- What an iteration means for the track `mid`. -/
inductive Asks (mid : Mid) (kind : Option MediaKind) (poll : Poll S) : Prop
  /-- Nothing is requested. If there was a gap, there was a reason. -/
  | no (hnot : poll.requests mid = false)
      (hlast : poll.after.lastRequest mid = poll.before.lastRequest mid)
      (hreason : poll.Gap mid kind →
        poll.before.Requested poll.now mid ∨ S.writer poll.rtc mid = none)
  /-- A keyframe is requested for a gap, the last one was long enough ago. -/
  | yes (hrequests : poll.requests mid = true) (hgap : poll.Gap mid kind)
      (hrested : ¬poll.before.Requested poll.now mid)
      (hlast : poll.after.lastRequest mid =
        if poll.takes mid then some poll.now else poll.before.lastRequest mid)

theorem ops_eq {poll : Poll S} {ops : List (Op S)} (h : poll.after.ops = poll.before.ops ++ ops) :
    poll.ops = ops := by
  rw [Poll.ops, h]
  exact List.drop_left

/-- Nothing but the output was logged since the peer was ready. -/
theorem requests_of_ops {poll : Poll S} {peer : Peer S} (hprepared : poll.before.Prepared peer)
    {output : S.Output} {ops : List (Op S)}
    (hops : poll.after.ops = peer.ops ++ .polled output :: ops) (mid : Mid) :
    poll.requests mid = ops.any (Op.isRequest mid) := by
  obtain ⟨negotiated, hnegotiated, hall⟩ := hprepared.ops
  have hnone : negotiated.any (Op.isRequest mid) = false := by
    refine List.any_eq_false.mpr fun op hop => ?_
    cases hall op hop <;> simp [Op.isRequest]
  rw [hnegotiated, List.append_assoc] at hops
  rw [requests, ops_eq hops, List.any_append, hnone, List.any_cons]
  rfl

/-- **One iteration requests a keyframe only for a gap, and not when one was taken
less than a second ago.** -/
theorem asks (poll : Poll S) (mid : Mid) :
    poll.Asks mid ((poll.before.tracksIn.find? fun track => track.id.mid = mid).map (·.id.kind)) := by
  rcases poll.after_cases with ⟨hnone, hprepared⟩ | ⟨output, peer, hsome, hprepared, hrtc, hafter⟩
  · refine .no ?_ (Peer.lastRequest_congr hprepared.tracksIn mid) ?_
    · obtain ⟨negotiated, hnegotiated, hall⟩ := hprepared.ops
      rw [requests, ops_eq hnegotiated]
      refine List.any_eq_false.mpr fun op hop => ?_
      cases hall op hop <;> simp [Op.isRequest]
    · rintro ⟨data, houtput, -⟩
      rw [hnone] at houtput
      cases houtput
  have htracks : peer.tracksIn = poll.before.tracksIn := hprepared.tracksIn
  have hlast := Peer.lastRequest_congr htracks mid
  -- What is handled leaves the track alone, unless it is a packet after a gap.
  have hidle : ∀ handled : Peer S, poll.after = handled → handled.ops = peer.ops ++ [.polled output] →
      handled.lastRequest mid = peer.lastRequest mid →
      (poll.Gap mid ((poll.before.tracksIn.find? fun track => track.id.mid = mid).map (·.id.kind)) →
        poll.before.Requested poll.now mid ∨ S.writer poll.rtc mid = none) →
      poll.Asks mid ((poll.before.tracksIn.find? fun track => track.id.mid = mid).map (·.id.kind)) := by
    intro handled heq hops hsame hreason
    refine .no ?_ (heq ▸ hsame.trans hlast) hreason
    exact requests_of_ops hprepared (heq ▸ hops) mid
  have hnotdata : (∀ data, output ≠ .event (.mediaData data)) → ∀ kind, ¬poll.Gap mid kind := by
    rintro hne kind ⟨data, houtput, -⟩
    exact hne data (Option.some.inj (hsome.symm.trans houtput))
  cases output with
  | transmit | timeout =>
      exact hidle _ hafter rfl rfl fun hgap => absurd hgap (hnotdata (by simp) _)
  | event event =>
      cases event with
      | iceConnectionStateChange state =>
          refine hidle _ hafter ?_ ?_ fun hgap => absurd hgap (hnotdata (by simp) _)
          · cases state <;> rfl
          · cases state <;> rfl
      | keyframeRequest | other =>
          exact hidle _ hafter rfl rfl fun hgap => absurd hgap (hnotdata (by simp) _)
      | mediaAdded added =>
          refine hidle _ hafter rfl ?_ fun hgap => absurd hgap (hnotdata (by simp) _)
          show ((peer.tracksIn ++ [_]).find? _).bind _ = (peer.tracksIn.find? _).bind _
          rw [List.find?_append]
          cases peer.tracksIn.find? fun track => track.id.mid = mid with
          | none =>
              rw [Option.none_or, List.find?_singleton]
              split <;> rfl
          | some entry => rfl
      | mediaData data =>
          have hdata : ∀ {kind}, poll.Gap mid kind →
              data.mid = mid ∧ data.contiguous = false ∧ kind = some .video := by
            rintro kind ⟨data', houtput, hgap⟩
            rw [hsome] at houtput
            cases houtput
            exact hgap
          rcases (peer.record (.polled (.event (.mediaData data)))).handleMediaDataIn_cases poll.now
            data with ⟨hno, hops, hsame⟩ | ⟨hgap, hrequest⟩
          · refine hidle _ hafter hops (Peer.lastRequest_congr hsame mid) fun hgap => absurd ?_ hno
            obtain ⟨rfl, hcontiguous, hkind⟩ := hdata hgap
            exact ⟨hcontiguous, htracks ▸ hkind⟩
          · have hafter' := hafter.trans hrequest
            rcases Peer.requestKeyframeThrottled_cases poll.now data.mid .pli
              (peer.record (.polled (.event (.mediaData data)))) with ⟨hheld, hreason⟩ |
              ⟨hrested, hops, hnoted⟩
            · refine hidle _ (hafter'.trans hheld) rfl rfl fun hgap' => ?_
              obtain ⟨rfl, -, -⟩ := hdata hgap'
              rcases hreason with hnone | ⟨last, hlast', hrecent⟩ | hwriter
              · rw [hnone] at hgap
                cases hgap.2
              · exact .inl ⟨last, hlast.symm.trans hlast', hrecent⟩
              · exact .inr (hrtc ▸ hwriter)
            · have hrequests := requests_of_ops hprepared
                ((congrArg Peer.ops hafter').trans (hops.trans (List.append_assoc _ _ _))) mid
              have hnoted := (congrArg (Peer.lastRequest mid) hafter').trans (hnoted mid)
              by_cases hmid : data.mid = mid
              · subst hmid
                refine .yes (hrequests.trans (by simp [Op.isRequest]))
                  ⟨data, hsome, rfl, hgap.1, htracks ▸ hgap.2⟩ ?_ ?_
                · rintro ⟨last, hlast', hrecent⟩
                  exact hrested ⟨last, hlast.trans hlast', hrecent⟩
                · rw [hnoted, Poll.takes, ← hrtc, ← hlast]
                  simp only [true_and]
                  rfl
              · refine .no (hrequests.trans (by simp [Op.isRequest, hmid])) ?_ fun hgap' =>
                  absurd (hdata hgap').1 hmid
                rw [hnoted, if_neg fun h => hmid h.1.symm]
                exact hlast

end Poll

/-! ### Over a life -/

/-- When requests for the track `mid` were taken. -/
def grantedAt (mid : Mid) (log : List (Poll S)) : List Instant :=
  (log.filter (Poll.granted mid)).map Poll.now

theorem grantedAt_snoc (mid : Mid) (log : List (Poll S)) (poll : Poll S) :
    grantedAt mid (log ++ [poll]) =
      grantedAt mid log ++ if poll.granted mid then [poll.now] else [] := by
  rw [grantedAt, List.filter_append, List.map_append]
  cases hgranted : poll.granted mid <;> simp [grantedAt, hgranted]

theorem mem_grantedAt {mid : Mid} {log : List (Poll S)} {t : Instant} :
    t ∈ grantedAt mid log ↔ ∃ poll ∈ log, poll.granted mid = true ∧ poll.now = t := by
  simp [grantedAt, and_assoc]

/-- How keyframes are requested for the track `mid`. -/
structure Throttled (mid : Mid) (log : List (Poll S)) : Prop where
  /-- Once a request is taken, none is made for a second. -/
  spaced : log.Pairwise fun poll poll' => poll.granted mid = true → poll'.requests mid = true →
    poll.now + keyframeInterval ≤ poll'.now
  /-- A request is made for a gap in a track that was announced as video. -/
  cause : Lib.AtEach (fun past poll => poll.requests mid = true →
    poll.Gap mid (kindOf (timeline past) mid)) log
  /-- For each gap one is made, unless one was taken less than a second ago or
  there is no writer. -/
  covered : Lib.AtEach (fun past poll => poll.Gap mid (kindOf (timeline past) mid) →
    poll.requests mid = true ∨ S.writer poll.rtc mid = none ∨
      ∃ earlier ∈ past, earlier.granted mid = true ∧
        poll.now - earlier.now < keyframeInterval) log

/-- What the peer `id` keeps of its requests. -/
structure Peer.Asking (id : PeerId) (mid : Mid) (log : List (Poll S)) (peer : Peer S) : Prop where
  heard : peer.Heard id (timeline log)
  last : peer.lastRequest mid = (grantedAt mid log).getLast?
  spaced : Lib.Spaced keyframeInterval (grantedAt mid log)
  throttled : Throttled mid log

namespace Peer

theorem keyframeInterval_pos : 0 < keyframeInterval := by decide

theorem Newborn.asking {peer : Peer S} (h : peer.Newborn) (mid : Mid) :
    Asking peer.id mid [] peer where
  heard := h.heard
  last := by
    rw [lastRequest, h.tracksIn]
    rfl
  spaced := List.Pairwise.nil
  throttled := ⟨List.Pairwise.nil, Lib.atEach_nil _, Lib.atEach_nil _⟩

theorem Asking.calm {id : PeerId} {mid : Mid} {log : List (Poll S)} {peer peer' : Peer S}
    (h : Asking id mid log peer) (hcalm : peer.Calm peer') : Asking id mid log peer' where
  heard := h.heard.calm hcalm
  last := (lastRequest_congr hcalm.tracksIn mid).trans h.last
  spaced := h.spaced
  throttled := h.throttled

/-- **An iteration keeps the requests apart.** -/
theorem Asking.poll {id : PeerId} {mid : Mid} {log : List (Poll S)} {poll : Poll S}
    (h : Asking id mid log poll.before) : Asking id mid (log ++ [poll]) poll.after := by
  have hasks := poll.asks mid
  rw [h.heard.kind mid] at hasks
  cases hasks with
  | no hnot hlast hreason =>
      have hgranted : poll.granted mid = false := by rw [Poll.granted, hnot, Bool.false_and]
      have hsame : grantedAt mid (log ++ [poll]) = grantedAt mid log := by
        simp [grantedAt_snoc, hgranted]
      refine ⟨h.heard.poll, ?_, hsame ▸ h.spaced, ?_, ?_, ?_⟩
      · rw [hsame, hlast, h.last]
      · refine List.pairwise_append.mpr ⟨h.throttled.spaced, List.pairwise_singleton _ _, ?_⟩
        intro earlier _ last hmem _ hrequests
        rw [List.mem_singleton.mp hmem, hnot] at hrequests
        cases hrequests
      · exact h.throttled.cause.snoc fun hrequests => by rw [hnot] at hrequests; cases hrequests
      · refine h.throttled.covered.snoc fun hgap => .inr ?_
        rcases hreason hgap with ⟨last, hsome, hrecent⟩ | hwriter
        · obtain ⟨earlier, hearlier, htaken, rfl⟩ :=
            mem_grantedAt.mp (List.mem_of_getLast? (h.last.symm.trans hsome))
          exact .inr ⟨earlier, hearlier, htaken, hrecent⟩
        · exact .inl hwriter
  | yes hrequests hgap hrested hlast =>
      have hfar : ∀ last ∈ (grantedAt mid log).getLast?, last + keyframeInterval ≤ poll.now := by
        intro last hmem
        refine Lib.add_le_of_not_sub_lt keyframeInterval_pos fun hlt => hrested ⟨last, ?_, hlt⟩
        exact h.last.trans hmem
      refine ⟨h.heard.poll, ?_, ?_, ?_, ?_, ?_⟩
      · rw [hlast, grantedAt_snoc, Poll.granted, hrequests, Bool.true_and]
        split
        · simp
        · simpa using h.last
      · rw [grantedAt_snoc]
        split
        · exact h.spaced.snoc hfar
        · rw [List.append_nil]
          exact h.spaced
      · refine List.pairwise_append.mpr ⟨h.throttled.spaced, List.pairwise_singleton _ _, ?_⟩
        intro earlier hearlier last hmem htaken _
        rw [List.mem_singleton.mp hmem]
        exact h.spaced.add_le hfar _ (mem_grantedAt.mpr ⟨earlier, hearlier, htaken, rfl⟩)
      · exact h.throttled.cause.snoc fun _ => hgap
      · exact h.throttled.covered.snoc fun _ => .inl hrequests

/-- **Over a life, keyframes are requested for gaps, and at most one in a second is
taken.** -/
theorem Lives.asking {log : List (Poll S)} {newborn peer : Peer S} (h : Lives log newborn peer)
    (hborn : newborn.Newborn) (mid : Mid) : Asking peer.id mid log peer := by
  rw [h.id]
  refine Lib.Lived.ofStart (P := fun log peer => Asking newborn.id mid log peer)
    (fun _ _ _ hasking hcalm => hasking.calm hcalm)
    (fun log peer peer' poll hasking hpoll => ?_) h (hborn.asking mid)
  obtain ⟨rfl, rfl⟩ := hpoll
  exact hasking.poll

end Peer

end FerriteSfu
