import FerriteSfu.Report.Delivery

/-!
The host at the far end of the report task. It drops what carries an id that it
has seen, in this life of the server or in an earlier one, and reads an event off
every body it keeps.

Each round puts copies of one body on the wire, so of the reports that get
through the host makes exactly their events, once each and in order, wherever the
task stands.
-/

namespace FerriteSfu

/-- The application that the reports are posted to. -/
structure Host where
  readId : Bytes → Option String
  readEvent : Bytes → Option ReportEvent

/-- The events of the bodies it has kept. -/
def Host.log (host : Host) (bodies : List Bytes) : List ReportEvent :=
  (Lib.firsts host.readId bodies).filterMap host.readEvent

/-- The host finds in every report what the server has put there. -/
def Webhook.ReadBy (webhook : Webhook) (host : Host) (reports : List Report) : Prop :=
  ∀ report ∈ reports, ∃ body, webhook.toVec report = some body ∧
    host.readId body = some report.id ∧ host.readEvent body = some report.event

namespace Host

/-- What it has noted it does not take back. -/
theorem log_mono (host : Host) {bodies bodies' : List Bytes} (h : bodies <+: bodies') :
    host.log bodies <+: host.log bodies' :=
  (Lib.firsts_mono host.readId h).filterMap host.readEvent

theorem log_append_of_new (host : Host) {past bodies : List Bytes}
    (h : ∀ body ∈ bodies, host.readId body ∉ past.map host.readId) :
    host.log (past ++ bodies) = host.log past ++ host.log bodies := by
  rw [log, Lib.firsts_append_of_new host.readId h, List.filterMap_append]
  rfl

/-- A body that no other shares its id with is noted. -/
theorem mem_log {host : Host} {bodies : List Bytes} {body : Bytes} (hmem : body ∈ bodies)
    (halone : ∀ other ∈ bodies, host.readId other = host.readId body → other = body)
    {event : ReportEvent} (hevent : host.readEvent body = some event) : event ∈ host.log bodies := by
  obtain ⟨kept, hkept, hid⟩ := Lib.exists_mem_firsts host.readId hmem
  rw [halone kept (Lib.firsts_subset host.readId bodies hkept) hid] at hkept
  exact List.mem_filterMap.mpr ⟨body, hkept, hevent⟩

end Host

theorem received_mono {seen all : List (Post × Outcome)} (h : seen <+: all) :
    received seen <+: received all :=
  (h.filter _).map _

namespace Report

variable {webhook : Webhook} {url secret : String}

/-- One of the attempts for the report gets through to the host. -/
def Reaches (network : ℕ → Outcome) (report : Report) : Prop :=
  ∃ attempt < report.attempts, (network attempt).isReceived = true

instance (network : ℕ → Outcome) (report : Report) : Decidable (report.Reaches network) :=
  inferInstanceAs (Decidable (∃ attempt < report.attempts, _))

/-- The bodies of the report that get through. -/
def copies (webhook : Webhook) (network : ℕ → Outcome) (report : Report) : List Bytes :=
  ((Lib.tries Outcome.isConfirmed network 0 report.attempts).filter Outcome.isReceived).filterMap
    fun _ => webhook.toVec report

theorem copies_eq_nil_iff {host : Host} {reports : List Report} (h : webhook.ReadBy host reports)
    {report : Report} (hmem : report ∈ reports) (network : ℕ → Outcome) :
    copies webhook network report = [] ↔ ¬report.Reaches network := by
  obtain ⟨body, hbody, -⟩ := h report hmem
  rw [← not_iff_not, not_not]
  have hcopies : ¬copies webhook network report = [] ↔
      ∃ outcome ∈ Lib.tries Outcome.isConfirmed network 0 report.attempts,
        outcome.isReceived = true := by
    simp [copies, hbody]
  rw [hcopies]
  constructor
  · rintro ⟨outcome, hmem, houtcome⟩
    obtain ⟨attempt, hattempt, rfl⟩ := Lib.mem_tries hmem
    rw [Nat.zero_add] at houtcome
    exact ⟨attempt, hattempt, houtcome⟩
  · rintro ⟨attempt, hattempt, hreceived⟩
    refine Lib.exists_tries (fun outcome hconfirmed => ?_) ⟨attempt, hattempt, by
      rwa [Nat.zero_add]⟩
    rw [of_decide_eq_true hconfirmed]
    rfl

/-- The wire carries the copies of one report after those of another. -/
theorem received_run {host : Host} {reports : List Report} (h : webhook.ReadBy host reports)
    (network : ℕ → ℕ → Outcome) (n : ℕ) :
    received (exchanges (run webhook url secret network n reports)) =
      (reports.zipIdx n).flatMap fun entry => copies webhook (network entry.2) entry.1 := by
  induction reports generalizing n with
  | nil => rfl
  | cons report reports ih =>
      obtain ⟨body, hbody, -⟩ := h report (List.mem_cons_self ..)
      have hrest := ih (fun other hother => h other (List.mem_cons_of_mem _ hother)) (n + 1)
      have hround : received (exchanges
          (deliver (webhook.post url secret body) (network n) 0 report.attempts).1) =
            copies webhook (network n) report := by
        rw [deliver_exchanges, received, copies, List.filter_map, List.map_map, hbody,
          ← List.filterMap_eq_map]
        rfl
      rw [List.zipIdx_cons, List.flatMap_cons, ← hrest, ← hround, run, hbody]
      simp only [exchanges, received, List.filterMap_append, List.filter_append, List.map_append]
      split <;> simp [Action.exchange]

/-- **Of the reports that get through, the host notes the event of each once, in
order.** -/
theorem log_run {host : Host} {reports : List Report} (hids : (reports.map Report.id).Nodup)
    (h : webhook.ReadBy host reports) (network : ℕ → ℕ → Outcome) :
    host.log (received (exchanges (run webhook url secret network 0 reports))) =
      ((reports.zipIdx).filter fun entry => decide (entry.1.Reaches (network entry.2))).map
        fun entry => entry.1.event := by
  let body (entry : Report × ℕ) : Bytes := (webhook.toVec entry.1).getD []
  have hmem : ∀ entry ∈ reports.zipIdx, entry.1 ∈ reports := fun entry hentry =>
    List.mem_of_getElem? (List.mem_zipIdx_iff_getElem?.mp hentry)
  have hbody : ∀ entry ∈ reports.zipIdx, webhook.toVec entry.1 = some (body entry) ∧
      host.readId (body entry) = some entry.1.id ∧
        host.readEvent (body entry) = some entry.1.event := by
    intro entry hentry
    obtain ⟨bytes, hbytes, hid, hevent⟩ := h entry.1 (hmem entry hentry)
    have heq : body entry = bytes := by simp [body, hbytes]
    rw [heq]
    exact ⟨hbytes, hid, hevent⟩
  have hcopies : ∀ entry ∈ reports.zipIdx,
      ∀ bytes ∈ copies webhook (network entry.2) entry.1, bytes = body entry := by
    intro entry hentry bytes hbytes
    obtain ⟨outcome, -, houtcome⟩ := List.mem_filterMap.mp hbytes
    rw [(hbody entry hentry).1] at houtcome
    exact (Option.some.inj houtcome).symm
  have hkeys : ((reports.zipIdx).map fun entry => host.readId (body entry)).Nodup := by
    have hmap : ((reports.zipIdx).map fun entry => host.readId (body entry)) =
        (reports.map Report.id).map some := by
      rw [List.map_congr_left fun entry hentry => (hbody entry hentry).2.1, List.map_map]
      conv_rhs => rw [← List.zipIdx_map_fst 0 reports, List.map_map]
      rfl
    rw [hmap]
    exact hids.map (Option.some_injective _)
  rw [Host.log, received_run h, Lib.firsts_flatMap host.readId hcopies hkeys,
    ← List.filterMap_eq_map, List.filterMap_filterMap, ← List.filterMap_eq_map]
  have hsame : ((reports.zipIdx).filter fun entry =>
      !(copies webhook (network entry.2) entry.1).isEmpty) =
        (reports.zipIdx).filter fun entry => decide (entry.1.Reaches (network entry.2)) := by
    refine List.filter_congr fun entry hentry => ?_
    rw [Bool.eq_iff_iff, Bool.not_eq_true', decide_eq_true_eq, ← not_iff_not, ← copies_eq_nil_iff h
      (hmem entry hentry) (network entry.2)]
    simp
  rw [hsame]
  exact List.filterMap_congr fun entry hentry =>
    (hbody entry (List.mem_of_mem_filter hentry)).2.2

end Report

end FerriteSfu
