import FerriteSfu.Main.Process
import FerriteSfu.Loop.Departures
import FerriteSfu.Loop.Reports

/-!
What a process tells the host application, from its boot on.

The media loop runs before the boot is announced. Nobody can be in a room then,
so it has nothing to report, and the announcement comes first. A host that
forgets everybody when it hears of a boot is right about the rooms of the
process that is there now, whatever it was told by those before it.
-/

namespace FerriteSfu

variable {S : Str0m} {app : AppState}

open Lib (SetOp)

def ReportEvent.isBoot (report : ReportEvent) : Bool := report.event = .sfuStarted

namespace Engine

/-- The media loop announces no boot. -/
theorem Sound.step_boots {engine engine' : Engine S} (h : engine.Sound) {event : Event S}
    (hstep : engine.step event = some engine') :
    ∀ emission ∈ engine.emissions event, emission.report.isBoot = false := by
  intro emission hmem
  rcases step_kinds hstep with ⟨ids, -, hemissions, -⟩ | ⟨order, rfl⟩ | ⟨-, hquiet⟩
  · rw [hemissions] at hmem
    obtain ⟨call, hcall, hmem⟩ := List.mem_flatMap.mp hmem
    rcases (h.mem_drops hcall).mem_tellDrop hmem with hevent | hevent <;>
      simp [ReportEvent.isBoot, hevent]
  · obtain ⟨name, -, peer, -, -, -, hreport⟩ := mem_arrivals hmem
    rw [hreport]
    rfl
  · rcases hquiet emission hmem with hevent | hevent <;> simp [ReportEvent.isBoot, hevent]

theorem reachable_boots {config : Config} {engine : Engine S}
    (h : (machine S config).Reachable engine) :
    ∀ report ∈ engine.reports, report.isBoot = false := by
  refine Lib.Machine.Invariant.holds (I := fun engine : Engine S =>
    ∀ report ∈ engine.reports, report.isBoot = false) ⟨?_, ?_⟩ h
  · rintro engine ⟨now, rfl⟩ report hreport
    cases hreport
  · intro engine event engine' hreach hboots _ hstep report hreport
    rw [step_emissions hstep] at hreport
    rcases List.mem_append.mp hreport with hreport | hreport
    · exact hboots report hreport
    · obtain ⟨emission, hemission, rfl⟩ := List.mem_map.mp hreport
      exact (reachable_sound hreach).1.step_boots hstep emission hemission

/-- Where nobody is, nothing but a join changes that or gives rise to a report. -/
theorem Sound.step_vacant {engine engine' : Engine S} (h : engine.Sound) {event : Event S}
    (hvacant : ∀ id, ¬engine.Present id) (hcommand : event.isCommand = false)
    (hstep : engine.step event = some engine') :
    engine'.reports = engine.reports ∧ ∀ id, ¬engine'.Present id := by
  have hnobody : ∀ name, (engine.call name).peers = [] := by
    intro name
    rcases hpeers : (engine.call name).peers with _ | ⟨peer, peers⟩
    · rfl
    · exact absurd ⟨name, by simp [hpeers]⟩ (hvacant peer.id)
  constructor
  · have hemits := step_emissions hstep
    cases event with
    | command => cases hcommand
    | reportConnections order =>
        have hnone : engine.emissions (.reportConnections order) = [] :=
          List.flatMap_eq_nil_iff.mpr fun name _ => by simp [hnobody]
        simpa [hnone] using hemits
    | reap now order =>
        have hdead : engine.deadIds now order = [] := by simp [deadIds, Call.dead, hnobody]
        simpa [emissions, dropCalls, hdead, drops] using hemits
    | pollRooms | tickSpeaking | readOnce | advanceTime => simpa [emissions] using hemits
  · intro id hid
    rcases h.step_present hstep id hid with hid | ⟨request, seed, rfl, -⟩
    · exact hvacant id hid
    · cases hcommand

theorem Sound.rooms_of_vacant {engine : Engine S} (h : engine.Sound)
    (hvacant : ∀ id, ¬engine.Present id) (name : String) : engine.rooms.lookup name = none := by
  rcases hroom : engine.rooms.lookup name with _ | room
  · rfl
  · obtain ⟨peer, hpeer⟩ := List.exists_mem_of_ne_nil _ (h.indexed.nonempty name room hroom)
    exact absurd ⟨name, List.mem_map_of_mem (mem_call_peers.mpr ⟨room, hroom, hpeer⟩)⟩
      (hvacant peer.id)

end Engine

namespace Process

variable {process process' : Process S}

/-- `main` serves no sockets yet. -/
def Early (process : Process S) : Prop :=
  process.stage = .spawned ∨ process.stage = .announced

/-- Nothing has come in, and nothing has come of it. -/
structure Untouched (process : Process S) : Prop where
  accepted : process.accepted = 0
  queue : process.queue = []
  reports : process.engine.reports = []
  vacant : ∀ id, ¬process.engine.Present id

theorem step_early {event : ProcessEvent S} (hstep : step app process event = some process')
    (h : process.Early → process.Untouched) (hearly : process'.Early) :
    process.Early ∧ process'.accepted = 0 ∧ process'.queue = [] := by
  cases event with
  | announce =>
      simp only [step] at hstep
      split at hstep <;> cases hstep
      rename_i hstage
      exact ⟨.inl hstage, (h (.inl hstage)).accepted, (h (.inl hstage)).queue⟩
  | serve | accept | interrupt =>
      simp only [step] at hstep
      split at hstep <;> cases hstep
      rename_i hstage
      rcases hearly with hearly | hearly <;> simp [hstage] at hearly
  | giveUp | returns | exit =>
      simp only [step] at hstep
      split at hstep <;> cases hstep
      rcases hearly with hearly | hearly <;> cases hearly
  | finish =>
      simp only [step] at hstep
      split at hstep <;> cases hstep
      rw [send_eq] at hearly
      rcases hearly with hearly | hearly <;> cases hearly
  | read s incoming =>
      obtain ⟨session, commands, -, hlt, -, rfl⟩ := step_read hstep
      rw [send_eq] at hearly
      have huntouched := h hearly
      simp [huntouched.accepted] at hlt
  | resume s =>
      obtain ⟨session, -, -, rfl⟩ := step_resume hstep
      exact ⟨hearly, (h hearly).accepted, (h hearly).queue⟩
  | receive seed =>
      rcases receive_cases (step_receive hstep).2.2 with ⟨-, -, rfl⟩ |
        ⟨sender, command, queue, hqueue, -, hstage, -⟩
      · exact ⟨hearly, (h hearly).accepted, (h hearly).queue⟩
      · rw [Early, hstage] at hearly
        rw [(h hearly).queue] at hqueue
        cases hqueue
  | loop event =>
      obtain ⟨engine, -, -, -, rfl⟩ := step_loop hstep
      exact ⟨hearly, (h hearly).accepted, (h hearly).queue⟩
  | stopWriting | fail =>
      simp only [step] at hstep
      split at hstep <;> cases hstep
      exact ⟨hearly, (h hearly).accepted, (h hearly).queue⟩

theorem reachable_untouched (h : (machine S app).Reachable process) (hearly : process.Early) :
    process.Untouched := by
  refine Lib.Machine.Invariant.holds
    (I := fun process : Process S => process.Early → process.Untouched) ⟨?_, ?_⟩ h hearly
  · rintro process ⟨now, rfl⟩ -
    refine ⟨rfl, rfl, rfl, ?_⟩
    rintro id ⟨name, hid⟩
    cases hid
  · intro process event process' hreach huntouched _ hstep hearly'
    obtain ⟨hearly, haccepted, hqueue⟩ := step_early hstep huntouched hearly'
    have hold := huntouched hearly
    rcases step_engine hstep with ⟨ev, hengine, hcommand, -⟩ | ⟨hsame, -⟩
    · have hother : ev.isCommand = false := by
        cases hev : ev.isCommand with
        | false => rfl
        | true => exact absurd hold.queue (hcommand hev)
      have hsound := (Engine.reachable_sound (reachable_engine hreach)).1
      obtain ⟨hreports, hvacant⟩ := hsound.step_vacant hold.vacant hother hengine
      exact ⟨haccepted, hqueue, hreports.trans hold.reports, hvacant⟩
    · exact ⟨haccepted, hqueue, by rw [hsame]; exact hold.reports, by rw [hsame]; exact hold.vacant⟩

/-! ### The announcement -/

/-- How the reports of a process begin, and what follows. -/
structure Announced (process : Process S) : Prop where
  /-- Nothing is said before the boot, and nobody is in a room before sockets
  are served. -/
  silent : process.stage = .spawned → process.channel = []
  empty : process.Early → ∀ name, process.engine.rooms.lookup name = none
  /-- From then on there is the boot, and what the media loop has reported. -/
  told : process.stage ≠ .spawned → process.channel = boot :: process.engine.reports
  /-- No other report says that the server has started. -/
  once : ∀ report ∈ process.engine.reports, report.isBoot = false

/-- The channel holds nothing until the boot, then the boot and the reports of the
media loop. -/
theorem reachable_channel (h : (machine S app).Reachable process) :
    (process.stage = .spawned → process.channel = []) ∧
      (process.stage ≠ .spawned → process.channel = boot :: process.engine.reports) := by
  refine Lib.Machine.Invariant.holds (I := fun process : Process S =>
    (process.stage = .spawned → process.channel = []) ∧
      (process.stage ≠ .spawned → process.channel = boot :: process.engine.reports))
    ⟨?_, ?_⟩ h
  · rintro process ⟨now, rfl⟩
    exact ⟨fun _ => rfl, fun hstage => absurd rfl hstage⟩
  · intro process event process' hreach ⟨hsilent, htold⟩ _ hstep
    rcases step_engine hstep with ⟨ev, hengine, hcommand, -, -, hstage, hchannel⟩ |
      ⟨hsame, -, ⟨hchannel, hstage⟩ | ⟨hspawned, hstage, hchannel⟩⟩
    · rw [hstage, hchannel]
      have hgrown := Engine.step_emissions hengine
      have hdrop : process'.engine.reports =
          process.engine.reports ++ process'.engine.reports.drop process.engine.reports.length := by
        rw [hgrown, List.drop_left]
      refine ⟨fun hspawned => ?_, fun hspoken => ?_⟩
      · -- nothing is in the rooms yet, so nothing is reported
        have hold := reachable_untouched hreach (.inl hspawned)
        have hsound := (Engine.reachable_sound (reachable_engine hreach)).1
        have hother : ev.isCommand = false := by
          cases hev : ev.isCommand with
          | false => rfl
          | true => exact absurd hold.queue (hcommand hev)
        rw [(hsound.step_vacant hold.vacant hother hengine).1, hsilent hspawned]
        simp
      · rw [htold hspoken, List.cons_append, ← hdrop]
    · rw [hsame, hchannel]
      exact ⟨fun h => hsilent (hstage.mp h), fun h => htold fun hs => h (hstage.mpr hs)⟩
    · rw [hsame, hchannel, hstage, hsilent hspawned,
        (reachable_untouched hreach (.inl hspawned)).reports]
      exact ⟨(fun he => by cases he), fun _ => rfl⟩

/-- **The boot is announced once, before anything else.** -/
theorem reachable_announced (h : (machine S app).Reachable process) : process.Announced where
  silent := (reachable_channel h).1
  empty hearly := (Engine.reachable_sound (reachable_engine h)).1.rooms_of_vacant
    (reachable_untouched h hearly).vacant
  told := (reachable_channel h).2
  once := Engine.reachable_boots (reachable_engine h)

end Process

namespace Puppet

/-- A process is started and Ann, who comes to the red room, is connected. -/
def opens : List (ProcessEvent scripted) :=
  [.announce, .serve, .accept, .accept, .accept, .read 0 (some (.text "ann")), .receive "a",
    .resume 0] ++
    ((turn [] ["red"] (some ⟨"a", [.iceConnectionStateChange .connected]⟩)).events ++
      (turn [] ["red"] none).events).map .loop

end Puppet

theorem Process.reachable_announced_opens :
    ∃ process, (machine scripted Puppet.state).Reachable process ∧
      process.engine.reports ≠ [] ∧ process.Announced := by
  obtain ⟨process, hrun, hreports⟩ := (Option.any_eq_true _ _).mp (by decide +kernel :
    ((machine scripted Puppet.state).run (start Puppet.config 0) Puppet.opens).any (fun process =>
      !process.engine.reports.isEmpty) = true)
  have hreach : (machine scripted Puppet.state).Reachable process := .of_run (.init ⟨0, rfl⟩) hrun
  exact ⟨process, hreach, by simpa using hreports, reachable_announced hreach⟩

/-! ### A host that hears of several lives -/

/-- What a report does to the participants, for a host that forgets everybody at
a boot. -/
def ReportEvent.census (report : ReportEvent) : SetOp String :=
  if report.isBoot then .clear else report.presence

/-- The participants of the room `name` in the eyes of that host. -/
def hostCount (name : String) (reports : List ReportEvent) : Finset String :=
  SetOp.replay ∅
    ((reports.filter fun report => report.isBoot || report.room.name = name).map
      ReportEvent.census)

/-- After a boot the host knows what it is told from there on. -/
theorem hostCount_boot (name : String) (old : List ReportEvent) {reports : List ReportEvent}
    (h : ∀ report ∈ reports, report.isBoot = false) :
    hostCount name (old ++ Process.boot :: reports) =
      presentAfter (reports.filter fun report => report.room.name = name) := by
  have hfilter : (reports.filter fun report => report.isBoot || report.room.name = name) =
      reports.filter fun report => report.room.name = name :=
    List.filter_congr fun report hreport => by simp [h report hreport]
  have hmap : ((reports.filter fun report => report.room.name = name).map ReportEvent.census) =
      (reports.filter fun report => report.room.name = name).map ReportEvent.presence :=
    List.map_congr_left fun report hreport => by
      simp [ReportEvent.census, h report (List.mem_of_mem_filter hreport)]
  rw [hostCount, List.filter_append, List.map_append, SetOp.replay_append,
    List.filter_cons_of_pos (by rfl), hfilter, List.map_cons, hmap, SetOp.replay_cons]
  rfl

/-- What the host makes of a process, after whatever it heard of others. -/
structure Process.Afresh (name : String) (process : Process S) : Prop where
  /-- If it hears everything, it counts as if there had been nothing before. -/
  exact : ∀ old, hostCount name (old ++ process.channel) = process.engine.hostPresent name
  /-- If it hears of the boot, and not of everything else, it counts nobody but
  who has been reported in this life of the server. -/
  lossy : ∀ old heard, heard.Sublist process.channel → Process.boot ∈ heard →
    ∀ user ∈ hostCount name (old ++ heard), ∃ report ∈ process.engine.reports,
      report.event = .participantJoined ∧ report.room.name = name ∧
        report.participant = some ⟨user⟩

theorem ReportEvent.presence_add {report : ReportEvent} {user : String}
    (h : report.presence = .add user) :
    report.event = .participantJoined ∧ report.participant = some ⟨user⟩ := by
  unfold presence at h
  split at h <;> cases h
  rename_i participant hevent hparticipant
  exact ⟨hevent, hparticipant⟩

/-- A host that has heard of a boot counts nobody but who has been reported since. -/
theorem reported_of_hostCount {name : String} {old heard reports : List ReportEvent}
    (honce : ∀ report ∈ reports, report.isBoot = false)
    (hsub : heard.Sublist (Process.boot :: reports)) (hboot : Process.boot ∈ heard)
    {user : String} (huser : user ∈ hostCount name (old ++ heard)) :
    ∃ report ∈ reports, report.event = .participantJoined ∧ report.room.name = name ∧
      report.participant = some ⟨user⟩ := by
  rcases List.sublist_cons_iff.mp hsub with hmissed | ⟨rest, rfl, hrest⟩
  · exact absurd (honce _ (hmissed.subset hboot)) (by decide)
  · rw [hostCount_boot name old fun report hreport => honce report (hrest.subset hreport)] at huser
    rcases SetOp.add_mem_of_mem_replay huser with hnone | hadd
    · cases hnone
    · obtain ⟨report, hreport, hpresence⟩ := List.mem_map.mp hadd
      obtain ⟨hmem, hroom⟩ := List.mem_filter.mp hreport
      obtain ⟨hevent, hparticipant⟩ := ReportEvent.presence_add hpresence
      exact ⟨report, hrest.subset hmem, hevent, by simpa using hroom, hparticipant⟩

/-- **A boot releases everybody from the rooms of the processes before.** -/
theorem Process.reachable_afresh {process : Process S} (h : (machine S app).Reachable process)
    (hstage : process.stage ≠ .spawned) (name : String) : process.Afresh name := by
  have hchannel := (reachable_channel h).2 hstage
  have honce := Engine.reachable_boots (reachable_engine h)
  constructor
  case exact =>
    intro old
    rw [hchannel, hostCount_boot name old honce]
    rfl
  case lossy =>
    intro old heard hsub hboot user huser
    rw [hchannel] at hsub
    exact reported_of_hostCount honce hsub hboot huser

theorem Process.reachable_afresh_opens :
    ∃ process, (machine scripted Puppet.state).Reachable process ∧ process.stage ≠ .spawned ∧
      process.engine.hostPresent "red" ≠ ∅ ∧ process.Afresh "red" := by
  obtain ⟨process, hrun, hcheck⟩ := (Option.any_eq_true _ _).mp (by decide +kernel :
    ((machine scripted Puppet.state).run (start Puppet.config 0) Puppet.opens).any (fun process =>
      decide (process.stage ≠ .spawned) &&
        decide (process.engine.hostPresent "red" ≠ ∅)) = true)
  obtain ⟨hstage, hpresent⟩ := Bool.and_eq_true_iff.mp hcheck
  have hreach : (machine scripted Puppet.state).Reachable process := .of_run (.init ⟨0, rfl⟩) hrun
  exact ⟨process, hreach, of_decide_eq_true hstage, of_decide_eq_true hpresent,
    reachable_afresh hreach (of_decide_eq_true hstage) "red"⟩

end FerriteSfu
