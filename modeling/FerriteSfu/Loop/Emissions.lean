import FerriteSfu.Call.Simulation
import FerriteSfu.Call.Departures

/-!
The reports of the media loop, with who caused them and when.

The report channel carries events that name rooms and identities. An emission
adds the peer on whose account the event was sent and the engine that sent it,
so statements about peers, and about the state at the time of a report, can be
made of the log of a run.
-/

namespace FerriteSfu

variable {S : Str0m} {config : Config}

open ReportEvent (joined left finished)

structure Emission (S : Str0m) where
  cause : PeerId
  report : ReportEvent
  /-- The engine, once the call that made the report has returned. -/
  engine : Engine S

namespace Engine

/-- The reports made on the way from one engine to the next, on account of
`cause`. -/
def tell (cause : PeerId) (engine engine' : Engine S) : List (Emission S) :=
  (engine'.reports.drop engine.reports.length).map fun report =>
    { cause := cause, report := report, engine := engine' }

/-- Successive calls of `drop_peer`, each with the engine it finds. -/
def drops : List PeerId → Engine S → List (PeerId × Engine S)
  | [], _ => []
  | id :: ids, engine => (id, engine) :: drops ids (engine.dropPeer id)

/-- The calls of `drop_peer` an event leads to. -/
def dropCalls (engine : Engine S) : Event S → List (PeerId × Engine S)
  | .command (.leave id) _ => drops [id] engine
  | .reap now order => drops (engine.deadIds now order) engine
  | _ => []

def tellDrop (call : PeerId × Engine S) : List (Emission S) :=
  tell call.1 call.2 (call.2.dropPeer call.1)

/-- Everything an event makes the loop report. -/
def emissions (engine : Engine S) : Event S → List (Emission S)
  | .command (.leave id) seed => (engine.dropCalls (.command (.leave id) seed)).flatMap tellDrop
  | .reap now order => (engine.dropCalls (.reap now order)).flatMap tellDrop
  | .command (.mute id muted) _ => tell id engine (engine.setState id (some muted) none)
  | .command (.screen id active) _ => tell id engine (engine.setState id none (some active))
  | .reportConnections order => order.flatMap fun name =>
      ((engine.call name).peers.filter Peer.isArriving).map fun peer =>
        { cause := peer.id, report := joined name peer.userId,
          engine := engine.reportConnections order }
  | _ => []

/-! ### They are the reports -/

theorem tell_reports {engine engine' : Engine S} (cause : PeerId)
    (h : engine.reports <+: engine'.reports) :
    engine'.reports = engine.reports ++ (tell cause engine engine').map Emission.report := by
  obtain ⟨reports, heq⟩ := h
  simp [tell, ← heq, Function.comp_def]

theorem dropPeer_grows (id : PeerId) (engine : Engine S) :
    engine.reports <+: (engine.dropPeer id).reports := by
  unfold dropPeer
  split
  · exact List.prefix_rfl
  · dsimp only
    split
    · exact List.prefix_rfl
    · split
      · exact List.prefix_rfl
      · split <;> split <;> simp [report, List.append_assoc]

/-- A change of state reports a screen share that starts or stops, or nothing. -/
theorem setState_reports (id : PeerId) (muted screen : Option Bool) (engine : Engine S) :
    (engine.setState id muted screen).reports = engine.reports ∨ ∃ event name user,
      (event = .trackPublished ∨ event = .trackUnpublished) ∧
      (engine.setState id muted screen).reports =
        engine.reports ++ [((ReportEvent.new event name).identity user).screenShare] := by
  unfold setState
  split
  · exact .inl rfl
  · split
    · exact .inl rfl
    · split
      · exact .inl rfl
      · dsimp only
        split
        · exact .inl rfl
        · refine .inr ⟨_, _, _, ?_, rfl⟩
          split
          · exact .inl rfl
          · exact .inr rfl

theorem setState_grows (id : PeerId) (muted screen : Option Bool) (engine : Engine S) :
    engine.reports <+: (engine.setState id muted screen).reports := by
  rcases setState_reports id muted screen engine with heq | ⟨event, name, user, -, heq⟩
  · exact ⟨[], by simp [heq]⟩
  · exact ⟨_, heq.symm⟩

theorem drops_reports (ids : List PeerId) (engine : Engine S) :
    (ids.foldl (fun engine id => engine.dropPeer id) engine).reports =
      engine.reports ++ ((drops ids engine).flatMap tellDrop).map Emission.report := by
  induction ids generalizing engine with
  | nil => simp [drops]
  | cons id ids ih =>
      rw [List.foldl_cons, ih, tell_reports id (dropPeer_grows id engine)]
      simp [drops, tellDrop]

theorem handleJoin_reports (request : JoinRequest) (seed : S.Seed) (engine : Engine S) :
    (engine.handleJoin request seed).1.reports = engine.reports := by
  rcases handleJoin_cases request seed engine with ⟨-, -, heq, -, -⟩ | ⟨-, -, heq, -, -⟩ |
    ⟨-, -, offer, answer, heq, -, -⟩ <;> rw [heq]
  rfl

/-- **The emissions of a step are what it adds to the reports.** -/
theorem step_emissions {engine engine' : Engine S} {event : Event S}
    (h : engine.step event = some engine') :
    engine'.reports = engine.reports ++ (engine.emissions event).map Emission.report := by
  obtain ⟨-, heq⟩ := step_eq_some h
  cases event with
  | command command seed =>
      cases heq
      cases command with
      | join request => simpa [emissions, apply] using handleJoin_reports request seed engine
      | answer id sdp =>
          rw [Engine.apply, handleAnswer_eq]
          simp [emissions]
      | mute id muted => exact tell_reports id (setState_grows id _ _ engine)
      | screen id active => exact tell_reports id (setState_grows id _ _ engine)
      | leave id => exact drops_reports [id] engine
      | shutdown => simp [emissions, apply]
  | pollRooms now order clock =>
      obtain ⟨polled, hpolled, rfl⟩ := Option.map_eq_some_iff.mp heq
      rw [foldlM_pollRoom_eq hpolled]
      simp [emissions]
  | reportConnections order =>
      cases heq
      rw [reportConnections_eq]
      simp only [emissions, List.map_flatMap, List.map_map]
      rfl
  | reap now order =>
      cases heq
      rw [reap_eq]
      exact drops_reports _ engine
  | tickSpeaking now order =>
      cases heq
      rw [tickSpeaking_eq]
      simp [emissions]
  | readOnce now datagram order =>
      cases heq
      rw [readOnce_eq]
      simp [emissions]
  | advanceTime now order =>
      cases heq
      simp [emissions, advanceTime]

/-- Everything a run reports. -/
def reported (config : Config) (now : Instant) (events : List (Event S)) : List (Emission S) :=
  (machine S config).outputs emissions (start config now) events

/-- **The emissions of a run are its reports.** -/
theorem run_reports {now : Instant} {events : List (Event S)} {engine : Engine S}
    (h : (machine S config).run (start config now) events = some engine) :
    (reported config now events).map Emission.report = engine.reports := by
  have hlog := Lib.Machine.outputs_holds (m := machine S config) (f := emissions)
    (I := fun engine log => engine.reports = log.map Emission.report)
    (fun engine log event engine' _ hlog hstep => by
      rw [step_emissions hstep, hlog, List.map_append]) (.init ⟨now, rfl⟩) rfl h
  exact hlog.symm

end Engine

end FerriteSfu
