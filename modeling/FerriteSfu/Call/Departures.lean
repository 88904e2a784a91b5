import FerriteSfu.Call.Ledger
import FerriteSfu.Lib.Episodes

/-!
What the reports of a call say in which order.

The host application keys participants by identity. Two peers of one identity
are never in a room at the same time, and a peer that is replaced is not
reported gone, so what the log says last about the identity of a reported peer
is that it joined. Every departure is therefore that of someone who was there.
-/

namespace FerriteSfu

open Lib (LastIs Follows lastIs_append_quiet lastIs_append_cons)

namespace ReportEvent

def joined (name user : String) : ReportEvent := (new .participantJoined name).identity user

def left (name user : String) : ReportEvent := (new .participantLeft name).identity user

def finished (name : String) : ReportEvent := new .roomFinished name

/-- The reports that decide whether `user` is in the room: its arrivals and
departures, and the end of the room. -/
def concerns (name user : String) (report : ReportEvent) : Bool :=
  decide (report = joined name user) || decide (report = left name user) ||
    decide (report = finished name)

theorem concerns_eq_false {name user : String} {report : ReportEvent} :
    concerns name user report = false ↔
      report ≠ joined name user ∧ report ≠ left name user ∧ report ≠ finished name := by
  simp [concerns, and_assoc]

theorem concerns_room {name user : String} {report : ReportEvent}
    (h : concerns name user report = true) : report.room.name = name := by
  simp only [concerns, Bool.or_eq_true, decide_eq_true_eq] at h
  rcases h with (rfl | rfl) | rfl <;> rfl

@[simp] theorem concerns_joined (name user : String) :
    concerns name user (joined name user) = true := by
  simp [concerns]

@[simp] theorem concerns_left (name user : String) :
    concerns name user (left name user) = true := by
  simp [concerns]

/-- Reports about another participant. -/
theorem concerns_joined_of_ne {name user user' : String} (h : user' ≠ user) :
    concerns name user (joined name user') = false := by
  simp [concerns, joined, left, finished, new, identity, h]

theorem concerns_left_of_ne {name user user' : String} (h : user' ≠ user) :
    concerns name user (left name user') = false := by
  simp [concerns, joined, left, finished, new, identity, h]

end ReportEvent

namespace Ledger

open ReportEvent (concerns joined left finished)

variable {capacity : ℕ} {name : String} {ledger ledger' : Ledger}

/-- What an event adds to the reports. -/
def news (name : String) (ledger : Ledger) : LedgerEvent → List ReportEvent
  | .join _ _ _ | .elsewhere => []
  | .leave gone =>
      ((ledger.leaving gone).filter (·.reported)).map (leftReport name) ++
        if ledger.leaving gone ≠ [] ∧ ledger.staying gone = [] then [finished name] else []
  | .setState id _ screen =>
      match ledger.members.find? fun card => card.id = id with
      | none => []
      | some card =>
          if screen.getD card.screen = card.screen then []
          else [screenReport name card (screen.getD card.screen)]
  | .arrive arrived => (ledger.arriving arrived).map (joinedReport name)

theorem step_reports {event : LedgerEvent} (h : ledger.step capacity name event = some ledger') :
    ledger'.reports = ledger.reports ++ ledger.news name event := by
  cases event with
  | join userId fullName avatarUrl =>
      simp only [step] at h
      split at h
      · cases h
      · cases h
        simp [join, news]
  | elsewhere =>
      cases h
      simp [news]
  | leave gone =>
      cases h
      simp [leave, news, finished]
  | setState id muted screen =>
      cases h
      unfold setState news
      cases hfind : ledger.members.find? (fun card => card.id = id) <;> simp [hfind]
  | arrive arrived =>
      cases h
      rfl

/-- A member keeps its flag, and whoever is new has none. -/
theorem step_reported {event : LedgerEvent} (h : ledger.step capacity name event = some ledger') :
    ∀ card' ∈ ledger'.members, card'.id = ⟨ledger.nextPeer⟩ ∨ ∃ card ∈ ledger.members,
      card.id = card'.id ∧ (card.reported = true → card'.reported = true) := by
  intro card' hmem
  cases event with
  | join userId fullName avatarUrl =>
      simp only [step] at h
      split at h
      · cases h
      · cases h
        rcases List.mem_append.mp hmem with hmem | hmem
        · exact .inr ⟨card', List.mem_of_mem_filter hmem, rfl, id⟩
        · exact .inl (congrArg Card.id (List.mem_singleton.mp hmem))
  | elsewhere =>
      cases h
      exact .inr ⟨card', hmem, rfl, id⟩
  | leave gone =>
      cases h
      exact .inr ⟨card', List.mem_of_mem_filter hmem, rfl, id⟩
  | setState id muted screen =>
      cases h
      unfold setState at hmem
      split at hmem
      · exact .inr ⟨card', hmem, rfl, fun hreported => hreported⟩
      · obtain ⟨card, hcard, rfl⟩ := List.mem_map.mp hmem
        refine .inr ⟨card, hcard, ?_, fun hreported => ?_⟩
        · split <;> rfl
        · split <;> exact hreported
  | arrive arrived =>
      cases h
      obtain ⟨card, hcard, rfl⟩ := List.mem_map.mp hmem
      refine .inr ⟨card, hcard, ?_, fun hreported => ?_⟩
      · split <;> rfl
      · split
        · rfl
        · exact hreported

/-! ### Departures -/

/-- Every departure in the log is that of someone who was there, and whoever
is reported is there according to the log. -/
structure Departs (name : String) (ledger : Ledger) : Prop where
  present : ∀ card ∈ ledger.members, card.reported = true →
    LastIs (concerns name card.userId) (joined name card.userId) ledger.reports
  follows : ∀ user, Follows (concerns name user) (joined name user) (left name user) ledger.reports

theorem screenReport_quiet (user : String) (card : Card) (isScreen : Bool) :
    concerns name user (screenReport name card isScreen) = false := by
  rw [ReportEvent.concerns_eq_false]
  cases isScreen <;>
    simp [screenReport, joined, left, finished, ReportEvent.new, ReportEvent.identity,
      ReportEvent.screenShare]

/-- Departures of others do not concern a participant. -/
theorem leftReport_quiet {user : String} {cards : List Card}
    (h : ∀ card ∈ cards, card.userId ≠ user) :
    ∀ report ∈ cards.map (leftReport name), concerns name user report = false := by
  intro report hmem
  obtain ⟨card, hcard, rfl⟩ := List.mem_map.mp hmem
  exact ReportEvent.concerns_left_of_ne (h card hcard)

theorem joinedReport_quiet {user : String} {cards : List Card}
    (h : ∀ card ∈ cards, card.userId ≠ user) :
    ∀ report ∈ cards.map (joinedReport name), concerns name user report = false := by
  intro report hmem
  obtain ⟨card, hcard, rfl⟩ := List.mem_map.mp hmem
  exact ReportEvent.concerns_joined_of_ne (h card hcard)

namespace Departs

theorem join (h : ledger.Departs name) (userId fullName avatarUrl : String) :
    (ledger.join userId fullName avatarUrl).Departs name where
  present card hmem hreported := by
    rcases List.mem_append.mp hmem with hmem | hmem
    · exact h.present card (List.mem_of_mem_filter hmem) hreported
    · rw [List.mem_singleton.mp hmem] at hreported
      cases hreported
  follows := h.follows

theorem leave (hwf : ledger.WellFormed capacity) (h : ledger.Departs name)
    (gone : PeerId → Bool) : (ledger.leave name gone).Departs name where
  present card hmem hreported := by
    obtain ⟨hcard, hstay⟩ := List.mem_filter.mp hmem
    have hne : ledger.staying gone ≠ [] := List.ne_nil_of_mem hmem
    simp only [Ledger.leave, hne, and_false, if_false, List.append_nil]
    refine (lastIs_append_quiet (leftReport_quiet fun other hother huser => ?_)).mpr
      (h.present card hcard hreported)
    obtain ⟨hother, hgone⟩ := List.mem_filter.mp (List.mem_of_mem_filter hother)
    rw [List.eq_of_map_eq hwf.users hother hcard huser] at hgone
    simp [hgone] at hstay
  follows user := by
    refine Follows.append_quiet ((h.follows user).append fun before after heq => ?_) ?_
    · -- No two of those who leave share an identity, so the departures before
      -- that of `user` are not about it.
      obtain ⟨firsts, rests, hcards, rfl, hrests⟩ := List.map_eq_append_iff.mp heq
      obtain ⟨card, others, rfl, hcard, -⟩ := List.map_eq_cons_iff.mp hrests
      have huser : card.userId = user := by
        simpa [leftReport, left, ReportEvent.new, ReportEvent.identity] using hcard
      subst huser
      have hmem : card ∈ (ledger.leaving gone).filter (·.reported) := by
        rw [hcards]
        simp
      obtain ⟨hleaving, hreported⟩ := List.mem_filter.mp hmem
      have hnodup : ((firsts ++ card :: others).map Card.userId).Nodup := by
        rw [← hcards]
        exact hwf.users.sublist ((List.filter_sublist.trans List.filter_sublist).map _)
      rw [List.map_append, List.nodup_append] at hnodup
      refine (lastIs_append_quiet (leftReport_quiet fun other hother huser => ?_)).mpr
        (h.present card (List.mem_of_mem_filter hleaving) hreported)
      exact hnodup.2.2 _ (List.mem_map_of_mem hother) _ (List.mem_map_of_mem List.mem_cons_self)
        huser
    · split <;> simp [left, ReportEvent.new, ReportEvent.identity]

theorem setState (h : ledger.Departs name) (id : PeerId) (muted screen : Option Bool) :
    (ledger.setState name id muted screen).Departs name := by
  unfold Ledger.setState
  split
  · exact h
  · rename_i card _
    have hquiet : ∀ user, ∀ report ∈
        if screen.getD card.screen = card.screen then ([] : List ReportEvent)
        else [screenReport name card (screen.getD card.screen)],
        concerns name user report = false := by
      intro user report hmem
      split at hmem
      · cases hmem
      · rw [List.mem_singleton.mp hmem]
        exact screenReport_quiet user card _
    refine ⟨fun card' hmem hreported => ?_,
      fun user => (h.follows user).append_quiet fun hmem => ?_⟩
    · obtain ⟨old, hold, rfl⟩ := List.mem_map.mp hmem
      refine (lastIs_append_quiet (hquiet _)).mpr ?_
      by_cases hid : old.id = id
      · simp only [hid, if_true] at hreported ⊢
        exact h.present old hold hreported
      · simp only [hid, if_false] at hreported ⊢
        exact h.present old hold hreported
    · have := hquiet user _ hmem
      simp at this

theorem arrive (hwf : ledger.WellFormed capacity) (h : ledger.Departs name)
    (arrived : PeerId → Bool) : (ledger.arrive name arrived).Departs name where
  present card hmem hreported := by
    obtain ⟨old, hold, rfl⟩ := List.mem_map.mp hmem
    have huser : (if arrived old.id then { old with reported := true } else old).userId =
        old.userId := by
      split <;> rfl
    have hnodup : ((ledger.arriving arrived).map Card.userId).Nodup :=
      hwf.users.sublist (List.filter_sublist.map _)
    rw [huser]
    by_cases harriving : old ∈ ledger.arriving arrived
    · -- It arrives now, and no one else arriving is of its identity.
      obtain ⟨firsts, others, hcards⟩ := List.append_of_mem harriving
      rw [hcards, List.map_append, List.map_cons, List.nodup_middle] at hnodup
      obtain ⟨hnot, -⟩ := List.nodup_cons.mp hnodup
      simp only [Ledger.arrive, hcards, List.map_append, List.map_cons, ← List.append_assoc]
      refine lastIs_append_cons (ReportEvent.concerns_joined _ _)
        (joinedReport_quiet fun other hother he => hnot ?_)
      exact List.mem_append_right _ (he ▸ List.mem_map_of_mem hother)
    · have hold' : old.reported = true := by
        split at hreported
        · rename_i hid
          by_contra hnot
          exact harriving (List.mem_filter.mpr ⟨hold, by simp [hid, hnot]⟩)
        · exact hreported
      refine (lastIs_append_quiet (joinedReport_quiet fun other hother he => harriving ?_)).mpr
        (h.present old hold hold')
      exact List.eq_of_map_eq hwf.users (List.mem_of_mem_filter hother) hold he ▸ hother
  follows user := by
    refine (h.follows user).append_quiet fun hmem => ?_
    obtain ⟨card, -, heq⟩ := List.mem_map.mp hmem
    simp [joinedReport, left, ReportEvent.new, ReportEvent.identity] at heq

theorem step (hwf : ledger.WellFormed capacity) (h : ledger.Departs name) {event : LedgerEvent}
    (hstep : ledger.step capacity name event = some ledger') : ledger'.Departs name := by
  cases event with
  | join userId fullName avatarUrl =>
      simp only [Ledger.step] at hstep
      split at hstep
      · cases hstep
      · cases hstep
        exact h.join userId fullName avatarUrl
  | elsewhere =>
      cases hstep
      exact ⟨h.present, h.follows⟩
  | leave gone =>
      cases hstep
      exact h.leave hwf gone
  | setState id muted screen =>
      cases hstep
      exact h.setState id muted screen
  | arrive arrived =>
      cases hstep
      exact h.arrive hwf arrived

end Departs

theorem reachable_departs {ok : Ledger → LedgerEvent → Prop}
    (h : (machine capacity name).ReachableVia ok ledger) : ledger.Departs name := by
  refine Lib.Machine.Invariant.holds (I := Departs name) ⟨?_, ?_⟩ h
  · rintro ledger rfl
    exact ⟨by simp [empty], fun _ => Lib.follows_nil⟩
  · intro ledger event ledger' hreach hledger _ hstep
    exact hledger.step (reachable_wellFormed hreach) hstep

/-! ### The life of a room -/

/-- Whether an event makes a room of nobody: a join that finds none. -/
def opens (ledger : Ledger) : LedgerEvent → Bool
  | .join _ _ _ => ledger.members.isEmpty
  | .elsewhere | .leave _ | .setState _ _ _ | .arrive _ => false

/-- What an event adds to the story of the room: its creation, as `none`, and
the reports. -/
def chapter (name : String) (ledger : Ledger) (event : LedgerEvent) : List (Option ReportEvent) :=
  (if ledger.opens event then [none] else []) ++ (ledger.news name event).map some

def isFinish (name : String) (entry : Option ReportEvent) : Bool :=
  decide (entry = some (finished name))

theorem phase_news {reports : List ReportEvent} (h : ∀ report ∈ reports, report ≠ finished name) :
    Lib.phase Option.isNone (isFinish name) true (reports.map some) = some true := by
  refine Lib.phase_quiet fun entry hmem => ?_
  obtain ⟨report, hreport, rfl⟩ := List.mem_map.mp hmem
  simp [isFinish, h report hreport]

theorem leftReport_ne_finished {cards : List Card} :
    ∀ report ∈ cards.map (leftReport name), report ≠ finished name := by
  intro report hmem
  obtain ⟨card, -, rfl⟩ := List.mem_map.mp hmem
  simp [leftReport, finished, ReportEvent.new, ReportEvent.identity]

/-- **Reports are made while the room exists, and its end is reported last.** -/
theorem step_phase {event : LedgerEvent} (h : ledger.step capacity name event = some ledger') :
    Lib.phase Option.isNone (isFinish name) (!ledger.members.isEmpty)
      (ledger.chapter name event) = some (!ledger'.members.isEmpty) := by
  cases event with
  | join userId fullName avatarUrl =>
      simp only [step] at h
      split at h
      · cases h
      · cases h
        cases hempty : ledger.members.isEmpty <;>
          simp [chapter, opens, news, join, hempty, Lib.phase]
  | elsewhere =>
      cases h
      cases ledger.members.isEmpty <;> rfl
  | leave gone =>
      cases h
      -- Nothing is said of a leave that takes nobody; otherwise the end comes after the goodbyes.
      by_cases hleaving : ledger.leaving gone = []
      · have hstaying : ledger.staying gone = ledger.members :=
          List.filter_eq_self.mpr fun card hcard => by
            simpa using List.filter_eq_nil_iff.mp hleaving card hcard
        simp only [chapter, opens, news, leave, hleaving, hstaying]
        cases ledger.members.isEmpty <;> rfl
      · have hmembers : ledger.members ≠ [] := fun he => hleaving (by simp [leaving, he])
        have hlefts : Lib.phase Option.isNone (isFinish name) true
            ((((ledger.leaving gone).filter (·.reported)).map (leftReport name)).map some) =
              some true := phase_news leftReport_ne_finished
        simp only [chapter, opens, news, leave, List.isEmpty_eq_false_iff.mpr hmembers,
          List.map_append, Lib.phase_append]
        by_cases hstaying : ledger.staying gone = []
        · simp only [Bool.false_eq_true, if_false, Bool.not_false, Lib.phase, Option.bind_some,
            hlefts, hleaving, hstaying, ne_eq, not_false_eq_true, and_self, if_true]
          simp [isFinish, Lib.phase]
        · simp only [Bool.false_eq_true, if_false, Bool.not_false, Lib.phase, Option.bind_some,
            hlefts, hstaying, and_false, List.map_nil, List.isEmpty_eq_false_iff.mpr hstaying]
  | setState id muted screen =>
      cases h
      simp only [setState, chapter, opens, news]
      cases hfind : ledger.members.find? (fun card => card.id = id) with
      | none => cases ledger.members.isEmpty <;> rfl
      | some card =>
          have hmembers : ledger.members ≠ [] :=
            List.ne_nil_of_mem (List.mem_of_find?_eq_some hfind)
          simp only [List.isEmpty_map, List.isEmpty_eq_false_iff.mpr hmembers]
          refine phase_news fun report hmem => ?_
          by_cases hsame : screen.getD card.screen = card.screen
          · simp [hsame] at hmem
          · rw [if_neg hsame] at hmem
            rw [List.mem_singleton.mp hmem]
            exact (ReportEvent.concerns_eq_false.mp (screenReport_quiet "" card _)).2.2
  | arrive arrived =>
      cases h
      by_cases hmembers : ledger.members = []
      · simp [chapter, opens, news, arrive, arriving, hmembers, Lib.phase]
      · simp only [chapter, opens, news, arrive, List.isEmpty_map,
          List.isEmpty_eq_false_iff.mpr hmembers]
        refine phase_news fun report hmem => ?_
        obtain ⟨card, -, rfl⟩ := List.mem_map.mp hmem
        simp [joinedReport, finished, ReportEvent.new, ReportEvent.identity]

end Ledger

end FerriteSfu
