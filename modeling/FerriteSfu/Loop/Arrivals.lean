import FerriteSfu.Loop.Departures
import FerriteSfu.Loop.Voices

/-!
What an arrival means.

A peer is announced to the host when its transport has come up, not when it
joins. Its `connected` flag is set by the reports of its own `Rtc`, its
`reported` flag by the announcement, and both only ever go up.
-/

namespace FerriteSfu

variable {S : Str0m} {config : Config}

open ReportEvent (joined)

/-- The output says that the transport is up. -/
def isUp : S.Output → Bool
  | .event (.iceConnectionStateChange state) => state.isRecovery
  | _ => false

/-- The transport has come up, at some time. -/
def Timeline.cameUp (past : Timeline S) : Bool := past.any fun entry => isUp entry.2

theorem Timeline.cameUp_append (past past' : Timeline S) :
    cameUp (past ++ past') = (past.cameUp || past'.cameUp) := List.any_append

namespace Peer

theorem handleMediaDataIn_connected (now : Instant) (data : S.Media) (peer : Peer S) :
    (peer.handleMediaDataIn now data).2.connected = peer.connected := by
  unfold handleMediaDataIn noteAudioLevel requestKeyframeThrottled
  dsimp only
  repeat' split
  all_goals rfl

theorem handleOutput_connected (heap : Heap) (now : Instant) (output : S.Output) (peer : Peer S) :
    (peer.handleOutput heap now output).2.1.connected = (peer.connected || isUp output) := by
  cases output with
  | transmit | timeout => exact (Bool.or_false _).symm
  | event event =>
      cases event with
      | iceConnectionStateChange state =>
          cases state with
          | connected | completed => exact (Bool.or_true _).symm
          | new | checking | disconnected => exact (Bool.or_false _).symm
      | mediaAdded | keyframeRequest | other => exact (Bool.or_false _).symm
      | mediaData data =>
          exact (handleMediaDataIn_connected now data peer).trans (Bool.or_false _).symm

/-- **A peer is connected once its transport has come up.** -/
theorem Lives.connected {log : List (Poll S)} {newborn peer : Peer S} (h : Lives log newborn peer)
    (hborn : newborn.Newborn) : peer.connected = (timeline log).cameUp := by
  refine Lib.Lived.ofStart (P := fun log peer => peer.connected = (timeline log).cameUp)
    (fun _ _ _ hconnected hcalm => hcalm.connected.trans hconnected)
    (fun log peer peer' poll hconnected hpoll => ?_) h (congrArg Memory.connected hborn.memory)
  obtain ⟨rfl, rfl⟩ := hpoll
  rw [timeline_snoc, Timeline.cameUp_append, ← hconnected]
  rcases poll.after_cases with ⟨hnone, hprepared⟩ | ⟨output, mid, hsome, hprepared, -, hafter⟩
  · rw [hnone, hprepared.connected]
    exact (Bool.or_false _).symm
  · have hrecorded : (mid.record (.polled output)).connected = poll.before.connected :=
      hprepared.connected
    rw [hsome, hafter, handleOutput_connected, hrecorded]
    exact congrArg _ (Bool.or_false _).symm

end Peer

/-- Only an arrival sets the flag of a member. -/
theorem Ledger.step_flagged {capacity : ℕ} {name : String} {ledger ledger' : Ledger}
    {event : LedgerEvent} (h : ledger.step capacity name event = some ledger')
    (hevent : ∀ arrived, event ≠ .arrive arrived) :
    ∀ card' ∈ ledger'.members, card'.reported = true → ∃ card ∈ ledger.members,
      card.id = card'.id ∧ card.userId = card'.userId ∧ card.reported = true := by
  intro card' hmem hreported
  cases event with
  | join userId fullName avatarUrl =>
      simp only [step] at h
      split at h
      · cases h
      · cases h
        rcases List.mem_append.mp hmem with hmem | hmem
        · exact ⟨card', List.mem_of_mem_filter hmem, rfl, rfl, hreported⟩
        · rw [List.mem_singleton.mp hmem] at hreported
          cases hreported
  | elsewhere =>
      cases h
      exact ⟨card', hmem, rfl, rfl, hreported⟩
  | leave gone =>
      cases h
      exact ⟨card', List.mem_of_mem_filter hmem, rfl, rfl, hreported⟩
  | setState id muted screen =>
      cases h
      unfold setState at hmem
      split at hmem
      · exact ⟨card', hmem, rfl, rfl, hreported⟩
      · obtain ⟨card, hcard, rfl⟩ := List.mem_map.mp hmem
        refine ⟨card, hcard, ?_, ?_, ?_⟩
        · split <;> rfl
        · split <;> rfl
        · split at hreported <;> exact hreported
  | arrive arrived => exact absurd rfl (hevent arrived)

theorem Call.eq_reportConnections {call : Call S} {event : CallEvent S} {arrived : PeerId → Bool}
    (h : call.ledgerEvent config event = some (.arrive arrived)) : event = .reportConnections := by
  cases event with
  | reportConnections => rfl
  | join request seed =>
      simp only [ledgerEvent] at h
      split at h
      · cases h
      · split at h <;> cases h
  | elsewhere | setState | leave | reap | answer | poll | syncSpeaking | handleInput
  | advanceTime => cases h

namespace Engine

theorem eq_reportConnections {name : String} {engine : Engine S} {event : Event S}
    (h : engine.callEvent name event = some .reportConnections) :
    ∃ order, event = .reportConnections order := by
  cases event with
  | reportConnections order => exact ⟨order, rfl⟩
  | command command seed =>
      cases command with
      | join request =>
          simp only [callEvent] at h
          split at h
          · cases h
          · split at h <;> cases h
      | answer | mute | screen | leave | shutdown => cases h
  | tickSpeaking now order =>
      simp only [callEvent] at h
      split at h <;> cases h
  | readOnce now datagram order =>
      simp only [callEvent] at h
      split at h <;> cases h
  | pollRooms | reap | advanceTime => cases h

/-- A flag goes up with the announcement of its peer. -/
theorem Sound.step_flagged {engine engine' : Engine S} (h : engine.Sound) {event : Event S}
    (hstep : engine.step event = some engine') {name : String} :
    ∀ peer' ∈ (engine'.call name).peers, peer'.reported = true →
      (∃ peer ∈ (engine.call name).peers, peer.id = peer'.id ∧ peer.userId = peer'.userId ∧
        peer.reported = true) ∨
      ∃ emission ∈ engine.emissions event, emission.cause = peer'.id ∧
        emission.report = joined name peer'.userId := by
  intro peer' hpeer' hreported
  by_cases hreport : ∃ order, event = .reportConnections order
  · obtain ⟨order, rfl⟩ := hreport
    obtain ⟨horder, heq⟩ := step_eq_some hstep
    cases heq
    have hperm := horder order rfl
    rw [reportConnections_call hperm, Call.reportConnections_peers] at hpeer'
    obtain ⟨peer, hpeer, rfl⟩ := List.mem_map.mp hpeer'
    cases harriving : peer.isArriving with
    | true =>
        obtain ⟨room, hroom, -⟩ := mem_call_peers.mp hpeer
        have hname : name ∈ order := hperm.mem_iff.mpr
          (AList.mem_keys.mpr (AList.lookup_isSome.mp (Option.isSome_iff_exists.mpr ⟨room, hroom⟩)))
        exact .inr ⟨_, List.mem_flatMap.mpr ⟨name, hname, List.mem_map.mpr
          ⟨peer, List.mem_filter.mpr ⟨hpeer, harriving⟩, rfl⟩⟩, rfl, rfl⟩
    | false =>
        simp only [harriving, Bool.false_eq_true, if_false] at hreported
        exact .inl ⟨peer, hpeer, rfl, rfl, hreported⟩
  · have hnever : ∀ ev, engine.roomEvent name event = some ev → ∀ arrived, ev ≠ .arrive arrived := by
      rintro ev hev arrived rfl
      obtain ⟨call, hcall, hledger⟩ := Option.bind_eq_some_iff.mp hev
      obtain rfl := Call.eq_reportConnections hledger
      exact hreport (eq_reportConnections hcall)
    have hcard : peer'.card ∈ (engine'.call name).ledger.members := List.mem_map_of_mem hpeer'
    have hold : ∃ card ∈ (engine.call name).ledger.members, card.id = peer'.id ∧
        card.userId = peer'.userId ∧ card.reported = true := by
      rcases h.step_ledger hstep name with ⟨-, heq⟩ | ⟨ev, hev, hledger⟩
      · exact ⟨peer'.card, heq ▸ hcard, rfl, rfl, hreported⟩
      · exact Ledger.step_flagged hledger (hnever ev hev) _ hcard hreported
    obtain ⟨card, hmem, hid, huser, hflag⟩ := hold
    obtain ⟨peer, hpeer, rfl⟩ := List.mem_map.mp hmem
    exact .inl ⟨peer, hpeer, hid, huser, hflag⟩

/-- Whoever is flagged has been announced. -/
theorem run_flagged {began : Instant} {events : List (Event S)} {engine : Engine S}
    (hrun : (machine S config).run (start config began) events = some engine) :
    ∀ name, ∀ peer ∈ (engine.call name).peers, peer.reported = true →
      ∃ emission ∈ reported config began events, emission.cause = peer.id ∧
        emission.report = joined name peer.userId := by
  have hnobody : ∀ name, ((Engine.start config began : Engine S).call name).peers = [] :=
    fun name => Call.peers_of_none (by simp [Engine.start])
  refine Lib.Machine.outputs_holds (m := machine S config) (f := emissions)
    (I := fun engine log => ∀ name, ∀ peer ∈ (engine.call name).peers, peer.reported = true →
      ∃ emission ∈ log, emission.cause = peer.id ∧ emission.report = joined name peer.userId)
    (fun engine log event engine' hreach hlog hstep name peer' hpeer' hreported => ?_)
    (.init ⟨began, rfl⟩) (by simp [hnobody]) hrun
  rcases (reachable_sound hreach).1.step_flagged hstep peer' hpeer' hreported with
    ⟨peer, hpeer, hid, huser, hflag⟩ | ⟨emission, hemission, hcause, hreport⟩
  · obtain ⟨emission, hemission, hcause, hreport⟩ := hlog name peer hpeer hflag
    exact ⟨emission, List.mem_append_left _ hemission, hcause.trans hid, huser ▸ hreport⟩
  · exact ⟨emission, List.mem_append_right _ hemission, hcause, hreport⟩

theorem run_connected {began : Instant} {events : List (Event S)} {engine : Engine S}
    (hrun : (machine S config).run (start config began) events = some engine) {name : String}
    {peer : Peer S} (hpeer : peer ∈ (engine.call name).peers) :
    peer.connected = (heardOf peer.id config began events).cameUp := by
  obtain ⟨newborn, hborn, hlives⟩ := (run_grown hrun peer.id).life name peer hpeer rfl
  exact hlives.connected hborn

theorem heardOf_append {began : Instant} {events : List (Event S)} {engine : Engine S}
    (hrun : (machine S config).run (start config began) events = some engine) (id : PeerId)
    (events' : List (Event S)) :
    heardOf id config began (events ++ events') = heardOf id config began events ++
      timeline ((machine S config).outputs (polls id) engine events') := by
  rw [heardOf, pollLog, Lib.Machine.outputs_append _ _ hrun]
  exact List.filterMap_append

/-- An announcement is one of `report_connections`. -/
theorem Sound.mem_joined {engine engine' : Engine S} (h : engine.Sound) {event : Event S}
    (hstep : engine.step event = some engine') {emission : Emission S}
    (hmem : emission ∈ engine.emissions event)
    (hjoined : emission.report.event = .participantJoined) :
    ∃ name, ∃ peer ∈ (engine.call name).peers, peer.connected = true ∧
      emission.cause = peer.id ∧ emission.report = joined name peer.userId := by
  rcases step_kinds hstep with ⟨ids, -, hemissions, -⟩ | ⟨order, rfl⟩ | ⟨-, hquiet⟩
  · rw [hemissions] at hmem
    obtain ⟨call, hcall, hmem⟩ := List.mem_flatMap.mp hmem
    rcases (h.mem_drops hcall).mem_tellDrop hmem with hevent | hevent <;>
      rw [hevent] at hjoined <;> cases hjoined
  · obtain ⟨name, -, peer, hpeer, harriving, hcause, hreport⟩ := mem_arrivals hmem
    exact ⟨name, peer, hpeer, (Bool.and_eq_true_iff.mp harriving).1, hcause, hreport⟩
  · rcases hquiet emission hmem with hevent | hevent <;> rw [hevent] at hjoined <;> cases hjoined

/-- Nobody is announced whose transport has not come up. -/
theorem run_announced {began : Instant} {events : List (Event S)} {engine : Engine S}
    (hrun : (machine S config).run (start config began) events = some engine)
    {emission : Emission S} (hemission : emission ∈ reported config began events)
    (hjoined : emission.report.event = .participantJoined) :
    (heardOf emission.cause config began events).cameUp = true := by
  obtain ⟨before, event, after, found, found', rfl, hbefore, hstep, -, hmem⟩ :=
    Lib.Machine.mem_outputs hrun hemission
  have hreach : (machine S config).Reachable found := .of_run (.init ⟨began, rfl⟩) hbefore
  obtain ⟨name, peer, hpeer, hconnected, hcause, -⟩ :=
    (reachable_sound hreach).1.mem_joined hstep hmem hjoined
  rw [heardOf_append hbefore, Timeline.cameUp_append, hcause, ← run_connected hbefore hpeer,
    hconnected, Bool.true_or]

/-- What the arrivals of a run say. -/
structure ArrivalsMean (config : Config) (began : Instant) (events : List (Event S))
    (engine : Engine S) : Prop where
  /-- Nobody has been announced whose transport has not come up. -/
  up : ∀ emission ∈ reported config began events, emission.report.event = .participantJoined →
    (heardOf emission.cause config began events).cameUp = true
  /-- After `report_connections` everybody whose transport has come up has been
  announced, and nobody else. -/
  told : ∀ order engine', engine.step (.reportConnections order) = some engine' →
    ∀ name, ∀ room ∈ engine'.rooms.lookup name, ∀ peer ∈ room.peers,
      (heardOf peer.id config began events).cameUp = true ↔
        ∃ emission ∈ reported config began (events ++ [.reportConnections order]),
          emission.cause = peer.id ∧ emission.report = joined name peer.userId

/-- **In every run a peer is announced to the host once its transport has come up,
and not before.** -/
theorem run_arrivals {began : Instant} {events : List (Event S)} {engine : Engine S}
    (hrun : (machine S config).run (start config began) events = some engine) :
    ArrivalsMean config began events engine := by
  refine ⟨fun emission hemission => run_announced hrun hemission, ?_⟩
  intro order engine' hstep name room hroom peer' hpeer'
  have hmem' : peer' ∈ (engine'.call name).peers := mem_call_peers.mpr ⟨room, hroom, hpeer'⟩
  have hrun' : (machine S config).run (start config began) (events ++ [.reportConnections order]) =
      some engine' := by
    rw [Lib.Machine.run_append, hrun, Option.bind_some, Lib.Machine.run_cons]
    exact Option.bind_eq_some_iff.mpr ⟨engine', hstep, rfl⟩
  -- Nobody is polled by `report_connections`.
  have hheard : heardOf peer'.id config began (events ++ [.reportConnections order]) =
      heardOf peer'.id config began events := by
    have hnone : engine.polls peer'.id (.reportConnections order) = [] := by
      simp only [polls, callEvent, Option.map_some]
      cases engine.peerRooms.lookup peer'.id <;> rfl
    have hrest : (machine S config).outputs (polls peer'.id) engine [.reportConnections order] =
        [] := by
      rw [Lib.Machine.outputs, hnone]
      cases (machine S config).step engine (.reportConnections order) <;> rfl
    rw [heardOf_append hrun, hrest]
    exact List.append_nil _
  have hconnected : peer'.connected = (heardOf peer'.id config began events).cameUp := by
    rw [run_connected hrun' hmem', hheard]
  rw [← hconnected]
  constructor
  · intro hup
    refine run_flagged hrun' name peer' hmem' ?_
    -- Whoever is connected is flagged on the way.
    obtain ⟨horder, heq⟩ := step_eq_some hstep
    cases heq
    rw [reportConnections_call (horder order rfl), Call.reportConnections_peers] at hmem'
    obtain ⟨peer, -, rfl⟩ := List.mem_map.mp hmem'
    cases harriving : peer.isArriving with
    | true => rw [if_pos rfl]
    | false =>
        simp only [harriving, Bool.false_eq_true, if_false] at hup ⊢
        simpa [Peer.isArriving, hup] using harriving
  · rintro ⟨emission, hemission, hcause, hreport⟩
    have hjoined : emission.report.event = .participantJoined := by rw [hreport]; rfl
    rw [hconnected, ← hheard, ← hcause]
    exact run_announced hrun' hemission hjoined

/-- Ann's transport comes up and is announced; Bob joins, and is told of once his has
come up too. -/
def comeUp : List (Event scripted) :=
  [.command (Puppet.joins "ann" "red" "a").1 "a", .command (Puppet.joins "bob" "red" "b").1 "b",
    .command (Puppet.joins "carl" "red" "c").1 "c"] ++
    utters 0 "a" [.iceConnectionStateChange .checking, .iceConnectionStateChange .connected] ++
    [.reportConnections ["red"]] ++
    utters 0 "b" [.iceConnectionStateChange .completed] ++
    utters 0 "c" [.iceConnectionStateChange .checking]

theorem run_arrivals_comeUp :
    ∃ engine engine', (machine scripted Puppet.config).run (start Puppet.config 0) comeUp =
        some engine ∧
      engine.step (.reportConnections ["red"]) = some engine' ∧
      engine'.reports = [joined "red" "ann", joined "red" "bob"] ∧
      (heardOf ⟨3⟩ Puppet.config 0 comeUp).cameUp = false ∧
      ArrivalsMean Puppet.config 0 comeUp engine := by
  obtain ⟨engine, hrun, hcheck⟩ := (Option.any_eq_true _ _).mp (by decide +kernel :
    ((machine scripted Puppet.config).run (start Puppet.config 0) comeUp).any (fun engine =>
      (engine.step (.reportConnections ["red"])).any fun engine' =>
        decide (engine'.reports = [joined "red" "ann", joined "red" "bob"])) = true)
  obtain ⟨engine', hstep, hreports⟩ := (Option.any_eq_true _ _).mp hcheck
  exact ⟨engine, engine', hrun, hstep, of_decide_eq_true hreports, by decide +kernel,
    run_arrivals hrun⟩

end Engine

end FerriteSfu
