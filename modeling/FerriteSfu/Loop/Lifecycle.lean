import FerriteSfu.Loop.Departures

/-!
The life of a room, as the host application is told of it.

A room is created by the join that finds none and ends with its last peer. Its
story, creations and reports in the order they happen, is one of episodes: each
opens with a creation, closes with the report that the room is finished, and
nothing is reported between two of them.
-/

namespace FerriteSfu

variable {S : Str0m} {config : Config}

open ReportEvent (joined left finished)

namespace Engine

/-- Whether an event is an admitted join of the room `name` that finds no such
room. -/
def creates (name : String) (engine : Engine S) : Event S → Bool
  | .command (.join request) seed =>
      decide (request.claims.room = name) && (engine.rooms.lookup name).isNone &&
        (engine.handleJoin request seed).2.assigned.isSome
  | _ => false

/-- What an event adds to the story of the room `name`: its creation, as
`none`, and the reports that name it. -/
def chapter (name : String) (engine : Engine S) (event : Event S) : List (Option ReportEvent) :=
  (if engine.creates name event then [none] else []) ++
    (((engine.emissions event).map Emission.report).filter fun report =>
      report.room.name = name).map some

def story (name : String) (config : Config) (now : Instant) (events : List (Event S)) :
    List (Option ReportEvent) :=
  (machine S config).outputs (chapter name) (start config now) events

/-! ### The story of a ledger -/

theorem handleJoin_assigned (request : JoinRequest) (seed : S.Seed) (engine : Engine S) :
    (engine.handleJoin request seed).2.assigned.isSome =
      (engine.call request.claims.room).admits engine.config request seed := by
  rcases handleJoin_cases request seed engine with ⟨-, hadmits, -, hassigned, -⟩ |
    ⟨-, hadmits, -, hassigned, -⟩ | ⟨-, hadmits, offer, answer, -, hassigned, -⟩ <;>
    rw [hadmits, hassigned] <;> rfl

theorem Sound.isEmpty_members {engine : Engine S} (h : engine.Sound) (name : String) :
    (!(engine.call name).ledger.members.isEmpty) = (engine.rooms.lookup name).isSome := by
  cases hroom : engine.rooms.lookup name with
  | none => simp [Call.peers_of_none, hroom]
  | some room =>
      have hpeers := h.indexed.nonempty name room hroom
      simp [call_peers hroom, hpeers]

theorem Sound.creates_eq {engine : Engine S} (h : engine.Sound) (name : String)
    (event : Event S) :
    engine.creates name event = (engine.roomEvent name event).any (engine.call name).ledger.opens := by
  have hempty := h.isEmpty_members name
  cases event with
  | command command seed =>
      cases command with
      | join request =>
          simp only [creates, roomEvent, callEvent, handleJoin_assigned]
          by_cases hname : request.claims.room = name
          · subst hname
            simp only [decide_true, Bool.true_and, if_true, Option.bind_some, Call.ledgerEvent]
            cases hadmits : (engine.call request.claims.room).admits engine.config request seed with
            | true =>
                simp only [if_true, Option.any_some, Ledger.opens, Bool.and_true]
                rw [← Bool.not_inj_iff, hempty]
                simp
            | false =>
                simp only [Bool.false_eq_true, if_false, Bool.and_false]
                split <;> rfl
          · simp only [hname, decide_false, Bool.false_and, if_false]
            split <;> rfl
      | answer | mute | screen | leave | shutdown => rfl
  | pollRooms | reportConnections | reap | advanceTime => rfl
  | tickSpeaking | readOnce =>
      simp only [creates, roomEvent, callEvent]
      split <;> rfl

theorem step_news {engine engine' : Engine S} {event : Event S}
    (hstep : engine.step event = some engine') (name : String) :
    (engine'.call name).reports = (engine.call name).reports ++
      ((engine.emissions event).map Emission.report).filter fun report =>
        report.room.name = name := by
  simp only [call, step_emissions hstep, List.filter_append]

/-- **Each step continues the story of every room.** -/
theorem Sound.step_phase {engine engine' : Engine S} (h : engine.Sound) {event : Event S}
    (hstep : engine.step event = some engine') (name : String) :
    Lib.phase Option.isNone (Ledger.isFinish name) (engine.rooms.lookup name).isSome
      (engine.chapter name event) = some (engine'.rooms.lookup name).isSome := by
  have hnews := step_news hstep name
  rw [← h.isEmpty_members name, ← (h.step hstep).isEmpty_members name, chapter, h.creates_eq]
  rcases h.step_ledger hstep name with ⟨hnone, hsame⟩ | ⟨ev, hev, hledger⟩
  · have hreports := congrArg Ledger.reports hsame
    rw [Call.ledger_reports, Call.ledger_reports, hnews, List.append_right_eq_self] at hreports
    rw [hnone, hreports, hsame]
    cases (engine.call name).ledger.members.isEmpty <;> rfl
  · have hreports := Ledger.step_reports hledger
    rw [Call.ledger_reports, Call.ledger_reports, hnews, List.append_cancel_left_eq] at hreports
    rw [hev, hreports]
    exact Ledger.step_phase hledger

/-! ### The end of a room -/

/-- What a step makes of the room `name`, as far as its end is concerned. -/
structure EndsOnce (name : String) (engine : Engine S) (event : Event S) (engine' : Engine S) :
    Prop where
  told : engine'.reports = engine.reports ++ (engine.emissions event).map Emission.report
  /-- The end is reported in the step that removes the room. -/
  removed : finished name ∈ (engine.emissions event).map Emission.report ↔
    (engine.rooms.lookup name).isSome = true ∧ engine'.rooms.lookup name = none
  /-- It is reported when the last peer is dropped, after its departure. -/
  last : ∀ call ∈ engine.dropCalls event,
    (finished name ∈ (tellDrop call).map Emission.report ↔
      ∃ room peer, call.2.rooms.lookup name = some room ∧ room.peers = [peer] ∧
        peer.id = call.1) ∧
    ∀ room peer, call.2.rooms.lookup name = some room → room.peers = [peer] →
      peer.id = call.1 → (tellDrop call).map Emission.report =
        (if peer.reported = true then [left name peer.userId] else []) ++ [finished name]
  /-- A join reports nothing, whomever it replaces, and leaves the room there. -/
  join : ∀ request seed, event = .command (.join request) seed →
    engine'.reports = engine.reports ∧
      ((engine.rooms.lookup name).isSome = true → (engine'.rooms.lookup name).isSome = true)

theorem finish_no_start (name : String) :
    ∀ entry : Option ReportEvent, entry.isNone = true → Ledger.isFinish name entry = false := by
  intro entry hnone
  rw [Option.isNone_iff_eq_none.mp hnone]
  rfl

theorem creates_emissions {name : String} {engine : Engine S} {event : Event S}
    (h : engine.creates name event = true) : engine.emissions event = [] := by
  unfold creates at h
  split at h
  · rfl
  · cases h

theorem countP_finish (name : String) (reports : List ReportEvent) :
    (((reports.filter fun report => report.room.name = name).map some).countP
      (Ledger.isFinish name)) = reports.count (finished name) := by
  rw [List.countP_map, List.count_eq_countP, List.countP_filter]
  refine List.countP_congr fun report _ => ?_
  simp only [Ledger.isFinish, Function.comp_apply, Option.some.injEq, Bool.and_eq_true,
    decide_eq_true_eq, beq_iff_eq]
  exact ⟨fun h => h.1, fun h => ⟨h, by rw [h]; rfl⟩⟩

theorem countP_start (reports : List ReportEvent) :
    (reports.map some).countP Option.isNone = 0 := by
  simp [List.countP_eq_zero]

theorem Sound.step_removed {engine engine' : Engine S} (h : engine.Sound) {event : Event S}
    (hstep : engine.step event = some engine') (name : String) :
    finished name ∈ (engine.emissions event).map Emission.report ↔
      (engine.rooms.lookup name).isSome = true ∧ engine'.rooms.lookup name = none := by
  have hphase := h.step_phase hstep name
  have hcount := Lib.phase_count (finish_no_start name) hphase
  rw [← List.count_pos_iff, ← countP_finish name]
  unfold chapter at hphase hcount
  cases hcreates : engine.creates name event with
  | true =>
      simp only [hcreates, if_true, creates_emissions hcreates, List.map_nil, List.filter_nil,
        List.append_nil, List.countP_nil] at hphase ⊢
      cases hroom : engine.rooms.lookup name with
      | none => simp
      | some room => simp [hroom, Lib.phase] at hphase
  | false =>
      simp only [hcreates, Bool.false_eq_true, if_false, List.nil_append, countP_start,
        Nat.zero_add] at hphase hcount
      cases hroom : engine.rooms.lookup name with
      | none =>
          simp only [hroom, Option.isSome_none, Bool.toNat_false] at hcount
          simp only [Option.isSome_none, Bool.false_eq_true, false_and, iff_false]
          omega
      | some room =>
          cases hroom' : engine'.rooms.lookup name with
          | none =>
              simp only [hroom, hroom', Option.isSome_none, Option.isSome_some, Bool.toNat_false,
                Bool.toNat_true] at hcount
              simp only [Option.isSome_some, and_self, iff_true]
              omega
          | some room' =>
              simp only [hroom, hroom', Option.isSome_some, Bool.toNat_true] at hcount
              simp only [reduceCtorEq, and_false, iff_false]
              omega

theorem Sound.drop_last {engine : Engine S} (h : engine.Sound) (id : PeerId) (name : String) :
    (finished name ∈ (tellDrop (id, engine)).map Emission.report ↔
      ∃ room peer, engine.rooms.lookup name = some room ∧ room.peers = [peer] ∧ peer.id = id) ∧
    ∀ room peer, engine.rooms.lookup name = some room → room.peers = [peer] → peer.id = id →
      (tellDrop (id, engine)).map Emission.report =
        (if peer.reported = true then [left name peer.userId] else []) ++ [finished name] := by
  cases hlookup : engine.peerRooms.lookup id with
  | none =>
      have hnobody : ∀ room peer, engine.rooms.lookup name = some room → room.peers = [peer] →
          peer.id ≠ id := by
        intro room peer hroom hpeers hid
        have hnot : engine.peerRooms.lookup id ≠ some name := by simp [hlookup]
        exact h.not_mem_ids hnot hroom peer (by simp [hpeers]) hid
      rw [tellDrop_none hlookup]
      refine ⟨?_, fun room peer hroom hpeers hid => absurd hid (hnobody room peer hroom hpeers)⟩
      simp only [List.map_nil, List.not_mem_nil, false_iff]
      rintro ⟨room, peer, hroom, hpeers, hid⟩
      exact hnobody room peer hroom hpeers hid
  | some home =>
      obtain ⟨room, peer, room', hroom, hremove, -, htell⟩ := h.tellDrop_some hlookup
      obtain ⟨⟨hpeer, hid⟩, -⟩ := Room.remove_eq_some (h.ids hroom) hremove
      have hemptied := Room.remove_isEmpty (h.ids hroom) hremove
      have hreports : (tellDrop (id, engine)).map Emission.report =
          Call.departure home peer room'.isEmpty := by
        simp [htell, Function.comp_def]
      -- The room the peer is in is the only one it can be the last peer of.
      have hsame : ∀ room₂ peer₂, engine.rooms.lookup name = some room₂ → room₂.peers = [peer₂] →
          peer₂.id = id → name = home ∧ room₂ = room ∧ peer₂ = peer := by
        intro room₂ peer₂ hroom₂ hpeers hid₂
        have hmember : id ∈ (engine.call name).peers.map Peer.id := by
          rw [call_peers hroom₂, hpeers]
          simp [hid₂]
        have hname := h.mem_call.mp hmember
        obtain rfl := Option.some.inj (hlookup.symm.trans hname)
        obtain rfl := Option.some.inj (hroom₂.symm.trans hroom)
        refine ⟨rfl, rfl, ?_⟩
        rw [hpeers, List.mem_singleton] at hpeer
        exact hpeer.symm
      rw [hreports]
      refine ⟨⟨fun hmem => ?_, ?_⟩, fun room₂ peer₂ hroom₂ hpeers hid₂ => ?_⟩
      · rcases mem_departure.mp hmem with ⟨-, heq⟩ | ⟨hempty, heq⟩
        · simp [left, finished, ReportEvent.new, ReportEvent.identity] at heq
        · have hname : name = home := by
            simpa [finished, ReportEvent.new] using heq
          subst hname
          exact ⟨room, peer, hroom, hemptied.mp hempty, hid⟩
      · rintro ⟨room₂, peer₂, hroom₂, hpeers, hid₂⟩
        obtain ⟨rfl, rfl, rfl⟩ := hsame room₂ peer₂ hroom₂ hpeers hid₂
        exact mem_departure.mpr (.inr ⟨hemptied.mpr hpeers, rfl⟩)
      · obtain ⟨rfl, rfl, rfl⟩ := hsame room₂ peer₂ hroom₂ hpeers hid₂
        simp [Call.departure, hemptied.mpr hpeers, left, finished]

theorem Sound.endsOnce {engine engine' : Engine S} (h : engine.Sound) {event : Event S}
    (hstep : engine.step event = some engine') (name : String) :
    EndsOnce name engine event engine' where
  told := step_emissions hstep
  removed := h.step_removed hstep name
  last call hcall := by
    have hdrops : ∃ ids, engine.dropCalls event = drops ids engine := by
      rcases step_kinds hstep with ⟨ids, hids, -, -⟩ | ⟨order, rfl⟩ | ⟨hnil, -⟩
      · exact ⟨ids, hids⟩
      · exact ⟨[], rfl⟩
      · exact ⟨[], hnil⟩
    obtain ⟨ids, hids⟩ := hdrops
    exact (h.mem_drops (hids ▸ hcall)).drop_last call.1 name
  join request seed hevent := by
    subst hevent
    have hreports := step_emissions hstep
    refine ⟨by simpa [emissions] using hreports, fun hthere => ?_⟩
    -- Were the room gone, its end would have been reported.
    by_contra hgone
    have hfinished := (h.step_removed hstep name).mpr ⟨hthere, by simpa using hgone⟩
    simp [emissions] at hfinished

/-- The reports about the room `name`, told against its creations. -/
structure Lifecycle (name : String) (engine : Engine S) (story : List (Option ReportEvent)) :
    Prop where
  reports : story.filterMap id = engine.reports.filter fun report => report.room.name = name
  count : engine.reports.count (finished name) +
    (if (engine.rooms.lookup name).isSome then 1 else 0) = story.count none
  silent : ∀ before after, story = before ++ some (finished name) :: after →
    ∀ entry ∈ after.head?, entry = none

/-- **The end of a room is reported once for each time it was created, when its
last peer goes, and nothing is reported of it until it is created again.** -/
theorem run_lifecycle {now : Instant} {events : List (Event S)} {engine : Engine S}
    (hrun : (machine S config).run (start config now) events = some engine) (name : String) :
    Lifecycle name engine (story name config now events) ∧
    ∀ before event after, events = before ++ event :: after → ∃ mid mid',
      (machine S config).run (start config now) before = some mid ∧
      mid.step event = some mid' ∧ EndsOnce name mid event mid' := by
  have hstart : (machine S config).Reachable (Engine.start config now : Engine S) :=
    .init ⟨now, rfl⟩
  obtain ⟨hphase, hreports⟩ := Lib.Machine.outputs_holds (m := machine S config)
    (f := chapter name)
    (I := fun engine log =>
      Lib.phase Option.isNone (Ledger.isFinish name) false log =
        some (engine.rooms.lookup name).isSome ∧
      log.filterMap id = engine.reports.filter fun report => report.room.name = name)
    (fun engine log event engine' hreach hlog hstep => by
      have hsound := (reachable_sound hreach).1
      refine ⟨?_, ?_⟩
      · rw [Lib.phase_append, hlog.1, Option.bind_some, hsound.step_phase hstep name]
      · rw [List.filterMap_append, hlog.2, step_emissions hstep, List.filter_append]
        refine congrArg _ ?_
        unfold chapter
        split <;> simp)
    hstart ⟨by simp [Engine.start, Lib.phase], by simp [Engine.start]⟩ hrun
  refine ⟨⟨hreports, ?_, fun before after heq entry hentry => ?_⟩, fun before event after heq => ?_⟩
  · have hcount := Lib.phase_count (finish_no_start name) hphase
    -- Of the story of the room, the ends are its `room_finished` reports.
    have hfinish : (story name config now events).countP (Ledger.isFinish name) =
        engine.reports.count (finished name) := by
      have hroom : engine.reports.count (finished name) =
          (engine.reports.filter fun report => report.room.name = name).count (finished name) := by
        rw [List.count_filter (by simp [finished])]
      rw [hroom, ← hreports, List.count_eq_countP, List.countP_filterMap]
      refine List.countP_congr fun entry _ => ?_
      cases entry <;> simp [Ledger.isFinish]
    have hstart : (story name config now events).countP Option.isNone =
        (story name config now events).count none := by
      rw [List.count_eq_countP]
      refine List.countP_congr fun entry _ => ?_
      cases entry <;> simp
    rw [← hstart, ← hfinish]
    cases hroom : engine.rooms.lookup name <;> simpa [hroom, story] using hcount
  · change (machine S config).outputs (chapter name) (Engine.start config now) events = _ at heq
    rw [heq] at hphase
    have hnext := Lib.phase_after_end (by simp [Ledger.isFinish]) rfl hphase entry hentry
    exact Option.isNone_iff_eq_none.mp hnext
  · rw [heq, Lib.Machine.run_append] at hrun
    obtain ⟨mid, hmid, hrest⟩ := Option.bind_eq_some_iff.mp hrun
    obtain ⟨mid', hstep, -⟩ := Option.bind_eq_some_iff.mp hrest
    exact ⟨mid, mid', hmid, hstep, (reachable_sound (hstart.of_run hmid)).1.endsOnce hstep name⟩

/-- Bob leaves too, and comes back to a new room. -/
def revisit : List (Event scripted) :=
  visit ++ [Puppet.turn [(.leave ⟨2⟩, "")] [] none,
    Puppet.turn [Puppet.joins "bob" "red" "c"] ["red"] none].flatMap Turn.events

theorem run_lifecycle_revisit :
    ∃ engine, (machine scripted Puppet.config).run (start Puppet.config 0) revisit = some engine ∧
      finished "red" ∈ engine.reports ∧ (engine.rooms.lookup "red").isSome = true ∧
      Lifecycle "red" engine (story "red" Puppet.config 0 revisit) := by
  obtain ⟨engine, hrun, hcheck⟩ := (Option.any_eq_true _ _).mp (by decide +kernel :
    ((machine scripted Puppet.config).run (start Puppet.config 0) revisit).any (fun engine =>
      decide (finished "red" ∈ engine.reports) && (engine.rooms.lookup "red").isSome) = true)
  rw [Bool.and_eq_true, decide_eq_true_eq] at hcheck
  exact ⟨engine, hrun, hcheck.1, hcheck.2, (run_lifecycle hrun "red").1⟩

end Engine

end FerriteSfu
