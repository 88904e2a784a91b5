import FerriteSfu.Main.Boot
import FerriteSfu.Report.Host

/-!
The host's view of the whole server. What the media loop posts goes to the report
task, from there over a network that loses and repeats, and to a host that may
have heard of earlier lives of the server.

Whatever the network does and wherever the task stands, the host notes part of
what was posted, in order. As long as every report gets through at some attempt,
what it has noted is a moment of the past of the server, and in the end the
present.
-/

namespace FerriteSfu

variable {S : Str0m} {app : AppState}

/-- What is around the report task. -/
structure Wire where
  webhook : Webhook
  url : String
  secret : String
  /-- The ids drawn for the reports. -/
  ids : ℕ → String
  /-- What becomes of each attempt for each report. -/
  network : ℕ → ℕ → Outcome
  host : Host
  /-- The bodies that the host has from before. -/
  past : List Bytes

namespace Wire

variable (wire : Wire)

/-- The reports of the channel, with their ids. -/
def reports (channel : List ReportEvent) : List Report :=
  (channel.zipIdx).map fun entry => ⟨wire.ids entry.2, entry.1⟩

/-- All the exchanges for what is in the channel. -/
def exchanges (channel : List ReportEvent) : List (Post × Outcome) :=
  FerriteSfu.exchanges
    (Report.run wire.webhook wire.url wire.secret wire.network 0 (wire.reports channel))

/-- What the host has noted after some of them. -/
def log (seen : List (Post × Outcome)) : List ReportEvent :=
  wire.host.log (wire.past ++ received seen)

/-- The ids are new and distinct, and the host can read what is posted. -/
structure Fits (channel : List ReportEvent) : Prop where
  distinct : ((wire.reports channel).map Report.id).Nodup
  new : ∀ report ∈ wire.reports channel, some report.id ∉ wire.past.map wire.host.readId
  read : wire.webhook.ReadBy wire.host (wire.reports channel)

/-- Every report gets through at one attempt or another. -/
def Carries (channel : List ReportEvent) : Prop :=
  ∀ entry ∈ (wire.reports channel).zipIdx, entry.1.Reaches (wire.network entry.2)

theorem reports_map_event (channel : List ReportEvent) :
    (wire.reports channel).map Report.event = channel := by
  rw [reports, List.map_map]
  exact List.zipIdx_map_fst 0 channel

variable {wire}

/-- Every body on the wire is that of a report of the channel. -/
theorem exists_report {channel : List ReportEvent} (h : wire.Fits channel)
    {seen : List (Post × Outcome)} (hseen : seen <+: wire.exchanges channel) {body : Bytes}
    (hbody : body ∈ received seen) :
    ∃ report ∈ wire.reports channel, wire.webhook.toVec report = some body := by
  have hmem : body ∈ received (wire.exchanges channel) := (received_mono hseen).subset hbody
  rw [exchanges, Report.received_run h.read] at hmem
  obtain ⟨entry, hentry, hcopy⟩ := List.mem_flatMap.mp hmem
  obtain ⟨outcome, -, hbytes⟩ := List.mem_filterMap.mp hcopy
  exact ⟨entry.1, List.mem_of_getElem? (List.mem_zipIdx_iff_getElem?.mp hentry), hbytes⟩

/-- What the host notes of this life, after what it had noted. -/
theorem log_eq {channel : List ReportEvent} (h : wire.Fits channel)
    {seen : List (Post × Outcome)} (hseen : seen <+: wire.exchanges channel) :
    wire.log seen = wire.host.log wire.past ++ wire.host.log (received seen) ∧
      wire.host.log (received seen) <+: wire.host.log (received (wire.exchanges channel)) ∧
      wire.host.log (received (wire.exchanges channel)) =
        (((wire.reports channel).zipIdx).filter fun entry =>
          decide (entry.1.Reaches (wire.network entry.2))).map fun entry => entry.1.event := by
  refine ⟨wire.host.log_append_of_new fun body hbody => ?_,
    wire.host.log_mono (received_mono hseen), Report.log_run h.distinct h.read _⟩
  obtain ⟨report, hreport, hwritten⟩ := exists_report h hseen hbody
  obtain ⟨bytes, hbytes, hid, -⟩ := h.read report hreport
  rw [hwritten] at hbytes
  rw [Option.some.inj hbytes, hid]
  exact h.new report hreport

theorem map_event_zipIdx (channel : List ReportEvent) :
    (((wire.reports channel).zipIdx).map fun entry => entry.1.event) = channel := by
  conv_rhs => rw [← wire.reports_map_event channel, ← List.zipIdx_map_fst 0 (wire.reports channel),
    List.map_map]
  rfl

/-- In order, and nothing that was not posted. -/
theorem log_sublist {channel : List ReportEvent} (h : wire.Fits channel)
    {seen : List (Post × Outcome)} (hseen : seen <+: wire.exchanges channel) :
    (wire.host.log (received seen)).Sublist channel := by
  obtain ⟨-, hprefix, hall⟩ := log_eq h hseen
  rw [hall] at hprefix
  have hsub := hprefix.sublist.trans (List.filter_sublist.map _)
  rwa [map_event_zipIdx] at hsub

/-- Nothing is left out either, on a wire that carries everything. -/
theorem log_of_carries {channel : List ReportEvent} (h : wire.Fits channel)
    (hcarries : wire.Carries channel) :
    wire.host.log (received (wire.exchanges channel)) = channel := by
  obtain ⟨-, -, hall⟩ := log_eq h (List.prefix_refl _)
  have hnone := List.filter_eq_self.mpr fun entry hentry =>
    decide_eq_true (hcarries entry hentry)
  rw [hall, hnone, map_event_zipIdx]

/-- A report that has reached the host has been noted. -/
theorem mem_log_of_received {channel : List ReportEvent} (h : wire.Fits channel)
    {seen : List (Post × Outcome)} (hseen : seen <+: wire.exchanges channel) {report : Report}
    (hreport : report ∈ wire.reports channel) {body : Bytes}
    (hbody : wire.webhook.toVec report = some body) (hmem : body ∈ received seen) :
    report.event ∈ wire.host.log (received seen) := by
  obtain ⟨bytes, hbytes, hid, hevent⟩ := h.read report hreport
  rw [hbody] at hbytes
  obtain rfl := Option.some.inj hbytes
  refine Host.mem_log hmem (fun other hother heq => ?_) hevent
  obtain ⟨origin, horigin, hwritten⟩ := exists_report h hseen hother
  obtain ⟨bytes, hbytes, hid', -⟩ := h.read origin horigin
  rw [hwritten] at hbytes
  rw [← Option.some.inj hbytes] at hid'
  rw [hid, hid'] at heq
  have hsame := List.inj_on_of_nodup_map h.distinct horigin hreport (Option.some.inj heq)
  rw [hsame, hbody] at hwritten
  exact (Option.some.inj hwritten).symm

end Wire

/-- The host's view of a server, of whose exchanges it has `seen` some. -/
structure Process.Watched (wire : Wire) (seen : List (Post × Outcome)) (name : String)
    (process : Process S) : Prop where
  /-- To what it knew it adds some of what was posted, in the same order. -/
  order : ∃ news, wire.log seen = wire.host.log wire.past ++ news ∧ news.Sublist process.channel
  /-- If nothing is lost for good, it is at a moment of the past of the server. -/
  lag : wire.Carries process.channel →
    ∃ news, wire.log seen = wire.host.log wire.past ++ news ∧ news <+: process.channel
  /-- In the end it counts as if there had been no earlier lives. -/
  exact : wire.Carries process.channel → seen = wire.exchanges process.channel →
    hostCount name (wire.log seen) = process.engine.hostPresent name
  /-- Once the boot has got through, it counts nobody but who has been reported in
  this life of the server. -/
  fresh : (∃ body ∈ received seen, wire.webhook.toVec ⟨wire.ids 0, Process.boot⟩ = some body) →
    ∀ user ∈ hostCount name (wire.log seen), ∃ report ∈ process.engine.reports,
      report.event = .participantJoined ∧ report.room.name = name ∧
        report.participant = some ⟨user⟩

/-- **Over any network the host's view is a past of the server, and with luck its
present.** -/
theorem Process.reachable_watched {process : Process S} (h : (machine S app).Reachable process)
    (hstage : process.stage ≠ .spawned) {wire : Wire} (hfits : wire.Fits process.channel)
    {seen : List (Post × Outcome)} (hseen : seen <+: wire.exchanges process.channel)
    (name : String) : process.Watched wire seen name := by
  have hchannel := (reachable_channel h).2 hstage
  have honce := Engine.reachable_boots (reachable_engine h)
  obtain ⟨hlog, hprefix, -⟩ := wire.log_eq hfits hseen
  have hsub := wire.log_sublist hfits hseen
  constructor
  case order => exact ⟨_, hlog, hsub⟩
  case lag =>
    intro hcarries
    rw [wire.log_of_carries hfits hcarries] at hprefix
    exact ⟨_, hlog, hprefix⟩
  case exact =>
    intro hcarries hall
    rw [hlog, hall, wire.log_of_carries hfits hcarries, hchannel, hostCount_boot name _ honce]
    rfl
  case fresh =>
    rintro ⟨body, hreceived, hbody⟩ user huser
    have hboot : (⟨wire.ids 0, boot⟩ : Report) ∈ wire.reports process.channel := by
      rw [hchannel]
      exact List.mem_cons_self ..
    have hnoted := wire.mem_log_of_received hfits hseen hboot hbody hreceived
    rw [hlog] at huser
    rw [hchannel] at hsub
    exact reported_of_hostCount honce hsub hnoted huser

namespace Puppet

/-- Eve was in the red room when the process before was killed. -/
def eve : Report where
  id := "0d"
  event := (ReportEvent.new .participantJoined "red").identity "eve"

/-- The boot is received twice, and Ann's arrival once in three attempts. -/
def patchy : Wire where
  webhook := Report.plain
  url := "host"
  secret := "secret"
  ids n := if n = 0 then Report.boot.id else Report.arrival.id
  network := Report.flaky
  host :=
    { readId := Report.firstField
      readEvent := fun body =>
        ([Report.boot, Report.arrival, eve].find? fun report =>
          Report.ascii report.json = body).map Report.event }
  past := [Report.ascii eve.json]

end Puppet

theorem Process.reachable_watched_patchy :
    ∃ process, (machine scripted Puppet.state).Reachable process ∧
      hostCount "red" (Puppet.patchy.log []) = {"eve"} ∧
      hostCount "red" (Puppet.patchy.log (Puppet.patchy.exchanges process.channel)) = {"ann"} ∧
      process.Watched Puppet.patchy (Puppet.patchy.exchanges process.channel) "red" := by
  obtain ⟨process, hrun, hcheck⟩ := (Option.any_eq_true _ _).mp (by decide +kernel :
    ((machine scripted Puppet.state).run (start Puppet.config 0) Puppet.opens).any (fun process =>
      decide (process.stage ≠ .spawned) &&
        decide (process.channel = [Report.boot.event, Report.arrival.event])) = true)
  obtain ⟨hstage, hchannel⟩ := Bool.and_eq_true_iff.mp hcheck
  have hreach : (machine scripted Puppet.state).Reachable process := .of_run (.init ⟨0, rfl⟩) hrun
  have htwo : Puppet.patchy.reports process.channel = [Report.boot, Report.arrival] := by
    rw [of_decide_eq_true hchannel]
    rfl
  have hfits : Puppet.patchy.Fits process.channel := by
    refine ⟨?distinct, ?new, ?read⟩
    case distinct =>
      rw [htwo]
      decide
    case new =>
      rw [htwo]
      decide +kernel
    case read =>
      rw [htwo]
      intro report hreport
      rcases List.mem_pair.mp hreport with rfl | rfl <;>
        exact ⟨_, rfl, by decide +kernel, by decide +kernel⟩
  refine ⟨process, hreach, by decide +kernel, ?_,
    reachable_watched hreach (of_decide_eq_true hstage) hfits (List.prefix_refl _) "red"⟩
  rw [of_decide_eq_true hchannel]
  decide +kernel

end FerriteSfu
