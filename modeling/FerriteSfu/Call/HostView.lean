import FerriteSfu.Call.Ledger
import FerriteSfu.Lib.SetLog

/-!
What the host application concludes from the reports of a room.

It keeps a set of participants and a set of screen shares, by identity. Both
follow the room as long as whoever leaves was reported, and nobody who shares a
screen is replaced. The step lemmas are equivalences: where their condition
fails, the step that follows puts the host in the wrong.
-/

namespace FerriteSfu

open Lib (SetOp)

/-- What a report does to the set of participants. -/
def ReportEvent.presence (report : ReportEvent) : SetOp String :=
  match report.event, report.participant with
  | .participantJoined, some participant => .add participant.identity
  | .participantLeft, some participant => .remove participant.identity
  | .roomFinished, _ => .clear
  | _, _ => .skip

/-- What a report does to the set of screen shares. -/
def ReportEvent.sharing (report : ReportEvent) : SetOp String :=
  match report.event, report.participant with
  | .trackPublished, some participant => .add participant.identity
  | .trackUnpublished, some participant => .remove participant.identity
  | .participantLeft, some participant => .remove participant.identity
  | .roomFinished, _ => .clear
  | _, _ => .skip

/-- The participants the host application counts after these reports. -/
def presentAfter (reports : List ReportEvent) : Finset String :=
  SetOp.replay ∅ (reports.map ReportEvent.presence)

/-- The screen shares the host application counts after these reports. -/
def sharingAfter (reports : List ReportEvent) : Finset String :=
  SetOp.replay ∅ (reports.map ReportEvent.sharing)

theorem presentAfter_append (reports reports' : List ReportEvent) :
    presentAfter (reports ++ reports') =
      SetOp.replay (presentAfter reports) (reports'.map ReportEvent.presence) := by
  rw [presentAfter, List.map_append, SetOp.replay_append, presentAfter]

theorem sharingAfter_append (reports reports' : List ReportEvent) :
    sharingAfter (reports ++ reports') =
      SetOp.replay (sharingAfter reports) (reports'.map ReportEvent.sharing) := by
  rw [sharingAfter, List.map_append, SetOp.replay_append, sharingAfter]

namespace Ledger

variable {capacity : ℕ} {name : String} {ledger : Ledger}

/-! ### Departures -/

theorem leftReport_presence (name : String) (cards : List Card) :
    (cards.map (leftReport name)).map ReportEvent.presence =
      (cards.map Card.userId).map SetOp.remove := by
  simp only [List.map_map]
  rfl

theorem leftReport_sharing (name : String) (cards : List Card) :
    (cards.map (leftReport name)).map ReportEvent.sharing =
      (cards.map Card.userId).map SetOp.remove := by
  simp only [List.map_map]
  rfl

/-- When someone stays, a departure removes who was reported. -/
theorem mem_present_leave {gone : PeerId → Bool} (hstay : ledger.staying gone ≠ [])
    {user : String} :
    user ∈ presentAfter (ledger.leave name gone).reports ↔
      user ∉ ((ledger.leaving gone).filter (·.reported)).map Card.userId ∧
        user ∈ presentAfter ledger.reports := by
  simp only [leave, hstay, and_false, if_false, List.append_nil]
  rw [presentAfter_append, leftReport_presence, SetOp.mem_replay_remove]

theorem mem_sharing_leave {gone : PeerId → Bool} (hstay : ledger.staying gone ≠ [])
    {user : String} :
    user ∈ sharingAfter (ledger.leave name gone).reports ↔
      user ∉ ((ledger.leaving gone).filter (·.reported)).map Card.userId ∧
        user ∈ sharingAfter ledger.reports := by
  simp only [leave, hstay, and_false, if_false, List.append_nil]
  rw [sharingAfter_append, leftReport_sharing, SetOp.mem_replay_remove]

/-- When no one stays, the room is finished and both sets are empty. -/
theorem present_leave_all {gone : PeerId → Bool} (hleave : ledger.leaving gone ≠ [])
    (hstay : ledger.staying gone = []) :
    presentAfter (ledger.leave name gone).reports = ∅ := by
  simp only [leave, hleave, hstay, ne_eq, not_false_eq_true, and_self, if_true]
  rw [presentAfter_append]
  rfl

theorem sharing_leave_all {gone : PeerId → Bool} (hleave : ledger.leaving gone ≠ [])
    (hstay : ledger.staying gone = []) :
    sharingAfter (ledger.leave name gone).reports = ∅ := by
  simp only [leave, hleave, hstay, ne_eq, not_false_eq_true, and_self, if_true]
  rw [sharingAfter_append]
  rfl

/-- When no one leaves, nothing happens. -/
theorem leave_of_leaving_nil {gone : PeerId → Bool} (h : ledger.leaving gone = []) :
    ledger.leave name gone = ledger := by
  have hstaying : ledger.staying gone = ledger.members := by
    refine List.filter_eq_self.mpr fun card hmem => ?_
    simpa using List.filter_eq_nil_iff.mp h card hmem
  exact Ledger.ext hstaying (by simp [leave, h]) rfl

theorem mem_staying_or_leaving {gone : PeerId → Bool} {card : Card}
    (h : card ∈ ledger.members) : card ∈ ledger.staying gone ∨ card ∈ ledger.leaving gone := by
  cases hgone : gone card.id with
  | true => exact .inr (List.mem_filter.mpr ⟨h, hgone⟩)
  | false => exact .inl (List.mem_filter.mpr ⟨h, by simp [hgone]⟩)

/-- With one card per identity, whoever leaves has no namesake that stays. -/
theorem WellFormed.not_staying (h : ledger.WellFormed capacity) {gone : PeerId → Bool}
    {card card' : Card} (hleave : card ∈ ledger.leaving gone) (hstay : card' ∈ ledger.staying gone) :
    card'.userId ≠ card.userId := by
  intro he
  obtain ⟨hmem, hgone⟩ := List.mem_filter.mp hleave
  obtain ⟨hmem', hstays⟩ := List.mem_filter.mp hstay
  rw [List.eq_of_map_eq h.users hmem' hmem he, hgone] at hstays
  cases hstays

/-- Whoever leaves without having been announced is not reported to have left. -/
theorem WellFormed.not_told (h : ledger.WellFormed capacity) {gone : PeerId → Bool} {card : Card}
    (hcard : card ∈ ledger.leaving gone) (hunreported : card.reported ≠ true) :
    card.userId ∉ ((ledger.leaving gone).filter (·.reported)).map Card.userId := by
  intro hmem
  obtain ⟨card', hcard', he⟩ := List.mem_map.mp hmem
  obtain ⟨hleaving, hreported⟩ := List.mem_filter.mp hcard'
  rw [List.eq_of_map_eq h.users (List.mem_of_mem_filter hleaving)
    (List.mem_of_mem_filter hcard) he] at hreported
  exact hunreported hreported

/-! ### Participants -/

/-- Each participant the host counts is in the room. -/
def NoGhosts (ledger : Ledger) : Prop :=
  ∀ user ∈ presentAfter ledger.reports, ∃ card ∈ ledger.members, card.userId = user

/-- Everyone who leaves was reported, or is not counted, or leaves no one behind. -/
def DeparturesTold (ledger : Ledger) : LedgerEvent → Prop
  | .leave gone => ledger.staying gone = [] ∨ ∀ card ∈ ledger.leaving gone,
      card.reported = true ∨ card.userId ∉ presentAfter ledger.reports
  | _ => True

theorem noGhosts_join (h : ledger.NoGhosts) (userId fullName avatarUrl : String) :
    (ledger.join userId fullName avatarUrl).NoGhosts := by
  intro user hmem
  obtain ⟨card, hcard, rfl⟩ := h user hmem
  by_cases hu : card.userId = userId
  · exact ⟨ledger.newcomer userId fullName avatarUrl, by simp [join], hu.symm⟩
  · exact ⟨card, List.mem_append_left _ (List.mem_filter.mpr ⟨hcard, by simpa using hu⟩), rfl⟩

theorem noGhosts_leave_iff (hwf : ledger.WellFormed capacity) (h : ledger.NoGhosts)
    (name : String) (gone : PeerId → Bool) :
    (ledger.leave name gone).NoGhosts ↔ ledger.DeparturesTold (.leave gone) := by
  by_cases hleave : ledger.leaving gone = []
  · rw [leave_of_leaving_nil hleave]
    simp [DeparturesTold, hleave, h]
  by_cases hstay : ledger.staying gone = []
  · simp [NoGhosts, DeparturesTold, present_leave_all hleave hstay, hstay]
  constructor
  · intro hafter
    refine .inr fun card hcard => ?_
    by_contra hnot
    obtain ⟨hunreported, hcounted⟩ := not_or.mp hnot
    have hkept : card.userId ∈ presentAfter (ledger.leave name gone).reports :=
      (mem_present_leave hstay).mpr ⟨hwf.not_told hcard hunreported, not_not.mp hcounted⟩
    obtain ⟨card', hcard', he⟩ := hafter card.userId hkept
    exact hwf.not_staying hcard hcard' he
  · rintro (hnil | htold) user hmem
    · exact absurd hnil hstay
    · obtain ⟨hremoved, hcounted⟩ := (mem_present_leave hstay).mp hmem
      obtain ⟨card, hcard, rfl⟩ := h user hcounted
      rcases mem_staying_or_leaving hcard with hstays | hleaves
      · exact ⟨card, hstays, rfl⟩
      · rcases htold card hleaves with hreported | hnot
        · exact absurd (List.mem_map_of_mem (List.mem_filter.mpr ⟨hleaves, hreported⟩)) hremoved
        · exact absurd hcounted hnot

theorem noGhosts_setState (h : ledger.NoGhosts) (name : String) (id : PeerId)
    (muted screen : Option Bool) : (ledger.setState name id muted screen).NoGhosts := by
  unfold setState
  split
  · exact h
  · intro user hmem
    have hcounted : user ∈ presentAfter ledger.reports := by
      dsimp only at hmem
      rw [presentAfter_append, SetOp.replay_skip] at hmem
      · exact hmem
      · intro op hop
        obtain ⟨report, hreport, rfl⟩ := List.mem_map.mp hop
        split at hreport
        · simp at hreport
        · rw [List.mem_singleton.mp hreport, screenReport]
          split <;> rfl
    obtain ⟨card, hcard, rfl⟩ := h user hcounted
    refine ⟨_, List.mem_map_of_mem hcard, ?_⟩
    split <;> rfl

theorem noGhosts_arrive (h : ledger.NoGhosts) (name : String) (arrived : PeerId → Bool) :
    (ledger.arrive name arrived).NoGhosts := by
  intro user hmem
  have hkept : ∀ card ∈ ledger.members, ∃ card' ∈ (ledger.arrive name arrived).members,
      card'.userId = card.userId := by
    intro card hcard
    refine ⟨_, List.mem_map_of_mem hcard, ?_⟩
    split <;> rfl
  have hadds : ((ledger.arriving arrived).map (joinedReport name)).map ReportEvent.presence =
      ((ledger.arriving arrived).map Card.userId).map SetOp.add := by
    simp only [List.map_map]
    rfl
  simp only [arrive] at hmem
  rw [presentAfter_append, hadds, SetOp.mem_replay_add] at hmem
  rcases hmem with hmem | hmem
  · obtain ⟨card, hcard, rfl⟩ := List.mem_map.mp hmem
    exact hkept card (List.mem_of_mem_filter hcard)
  · obtain ⟨card, hcard, rfl⟩ := h user hmem
    exact hkept card hcard

/-- **The host counts no one who is not in the room.** -/
theorem noGhosts_holds (h : (machine capacity name).ReachableVia DeparturesTold ledger) :
    ledger.NoGhosts := by
  refine Lib.Machine.Invariant.holds (I := NoGhosts) ⟨?_, ?_⟩ h
  · rintro ledger rfl
    simp [NoGhosts, empty, presentAfter]
  · intro ledger event ledger' hreach hledger hok hstep
    cases event with
    | join userId fullName avatarUrl =>
        simp only [machine_step, step] at hstep
        split at hstep
        · cases hstep
        · cases hstep
          exact noGhosts_join hledger userId fullName avatarUrl
    | elsewhere =>
        cases hstep
        exact hledger
    | leave gone =>
        cases hstep
        exact (noGhosts_leave_iff (reachable_wellFormed hreach) hledger name gone).mpr hok
    | setState id muted screen =>
        cases hstep
        exact noGhosts_setState hledger name id muted screen
    | arrive arrived =>
        cases hstep
        exact noGhosts_arrive hledger name arrived

/-! ### Screen shares -/

/-- The host counts exactly the members that share their screen. -/
def SharingExact (ledger : Ledger) : Prop :=
  ∀ user, user ∈ sharingAfter ledger.reports ↔
    ∃ card ∈ ledger.members, card.userId = user ∧ card.screen = true

/-- No one who shares a screen is replaced, or leaves others behind without
having been reported. -/
def SharersTold (ledger : Ledger) : LedgerEvent → Prop
  | .join userId _ _ => ∀ card ∈ ledger.members, card.userId = userId → card.screen = false
  | .leave gone => ledger.staying gone = [] ∨ ∀ card ∈ ledger.leaving gone,
      card.reported = true ∨ card.screen = false
  | _ => True

/-- Members change without anyone's screen share changing, and no report tells
of one. -/
theorem SharingExact.of_map (h : ledger.SharingExact) {ledger' : Ledger} {f : Card → Card}
    (hmembers : ledger'.members = ledger.members.map f)
    (hf : ∀ card ∈ ledger.members, (f card).userId = card.userId ∧ (f card).screen = card.screen)
    (hreports : sharingAfter ledger'.reports = sharingAfter ledger.reports) :
    ledger'.SharingExact := by
  intro user
  rw [hreports, h user, hmembers]
  constructor
  · rintro ⟨card, hcard, huser, hscreen⟩
    obtain ⟨huser', hscreen'⟩ := hf card hcard
    exact ⟨f card, List.mem_map_of_mem hcard, huser'.trans huser, hscreen'.trans hscreen⟩
  · rintro ⟨card', hcard', huser, hscreen⟩
    obtain ⟨card, hcard, rfl⟩ := List.mem_map.mp hcard'
    obtain ⟨huser', hscreen'⟩ := hf card hcard
    exact ⟨card, hcard, huser'.symm.trans huser, hscreen'.symm.trans hscreen⟩

theorem sharingExact_join_iff (h : ledger.SharingExact) (userId fullName avatarUrl : String) :
    (ledger.join userId fullName avatarUrl).SharingExact ↔
      ledger.SharersTold (.join userId fullName avatarUrl) := by
  have hmembers : ∀ user, (∃ card ∈ (ledger.join userId fullName avatarUrl).members,
      card.userId = user ∧ card.screen = true) ↔
      ∃ card ∈ ledger.members, card.userId ≠ userId ∧ card.userId = user ∧ card.screen = true := by
    intro user
    constructor
    · rintro ⟨card, hcard, huser, hscreen⟩
      rcases List.mem_append.mp hcard with hcard | hcard
      · obtain ⟨hcard, hne⟩ := List.mem_filter.mp hcard
        exact ⟨card, hcard, by simpa using hne, huser, hscreen⟩
      · rw [List.mem_singleton.mp hcard] at hscreen
        cases hscreen
    · rintro ⟨card, hcard, hne, huser, hscreen⟩
      exact ⟨card, List.mem_append_left _ (List.mem_filter.mpr ⟨hcard, by simpa using hne⟩),
        huser, hscreen⟩
  constructor
  · intro hafter card hcard huser
    by_contra hscreen
    have hcounted := (h card.userId).mpr ⟨card, hcard, rfl, by simpa using hscreen⟩
    obtain ⟨card', -, hne, huser', -⟩ :=
      (hmembers card.userId).mp ((hafter card.userId).mp hcounted)
    exact hne (huser'.trans huser)
  · intro htold user
    rw [hmembers user]
    refine (h user).trans ⟨?_, ?_⟩
    · rintro ⟨card, hcard, huser, hscreen⟩
      refine ⟨card, hcard, fun he => ?_, huser, hscreen⟩
      rw [htold card hcard he] at hscreen
      cases hscreen
    · rintro ⟨card, hcard, -, huser, hscreen⟩
      exact ⟨card, hcard, huser, hscreen⟩

theorem sharingExact_leave_iff (hwf : ledger.WellFormed capacity) (h : ledger.SharingExact)
    (name : String) (gone : PeerId → Bool) :
    (ledger.leave name gone).SharingExact ↔ ledger.SharersTold (.leave gone) := by
  by_cases hleave : ledger.leaving gone = []
  · rw [leave_of_leaving_nil hleave]
    simp [SharersTold, hleave, h]
  by_cases hstay : ledger.staying gone = []
  · have hnone : (ledger.leave name gone).members = [] := hstay
    simp [SharingExact, SharersTold, sharing_leave_all hleave hstay, hstay, hnone]
  constructor
  · intro hafter
    refine .inr fun card hcard => ?_
    by_contra hnot
    obtain ⟨hunreported, hscreen⟩ := not_or.mp hnot
    have hcounted := (h card.userId).mpr
      ⟨card, List.mem_of_mem_filter hcard, rfl, by simpa using hscreen⟩
    have hkept : card.userId ∈ sharingAfter (ledger.leave name gone).reports :=
      (mem_sharing_leave hstay).mpr ⟨hwf.not_told hcard hunreported, hcounted⟩
    obtain ⟨card', hcard', he, -⟩ := (hafter card.userId).mp hkept
    exact hwf.not_staying hcard hcard' he
  · rintro (hnil | htold) user
    · exact absurd hnil hstay
    · rw [mem_sharing_leave hstay, h user]
      constructor
      · rintro ⟨hremoved, card, hcard, rfl, hscreen⟩
        rcases mem_staying_or_leaving hcard with hstays | hleaves
        · exact ⟨card, hstays, rfl, hscreen⟩
        · rcases htold card hleaves with hreported | hnot
          · exact absurd (List.mem_map_of_mem (List.mem_filter.mpr ⟨hleaves, hreported⟩)) hremoved
          · rw [hnot] at hscreen
            cases hscreen
      · rintro ⟨card, hcard, rfl, hscreen⟩
        refine ⟨fun hmem => ?_, card, List.mem_of_mem_filter hcard, rfl, hscreen⟩
        obtain ⟨card', hcard', he⟩ := List.mem_map.mp hmem
        exact hwf.not_staying (List.mem_of_mem_filter hcard') hcard he.symm

theorem screenReport_sharing (name : String) (card : Card) (isScreen : Bool) :
    (screenReport name card isScreen).sharing =
      if isScreen then .add card.userId else .remove card.userId := by
  cases isScreen <;> rfl

/-- One member turns its screen share on or off, and the report says so. -/
theorem sharingExact_toggle (hwf : ledger.WellFormed capacity) (h : ledger.SharingExact)
    {card : Card} {id : PeerId} (hcard : card ∈ ledger.members) (hid : card.id = id)
    (isMuted isScreen : Bool) :
    SharingExact { ledger with
      members := ledger.members.map fun card =>
        if card.id = id then { card with muted := isMuted, screen := isScreen } else card
      reports := ledger.reports ++ [screenReport name card isScreen] } := by
  have hsame : ∀ other ∈ ledger.members, other.id = id → other = card :=
    fun other hother he => List.eq_of_map_eq hwf.ids hother hcard (he.trans hid.symm)
  have hmembers : ∀ user, (∃ other ∈ ledger.members.map (fun card =>
        if card.id = id then { card with muted := isMuted, screen := isScreen } else card),
        other.userId = user ∧ other.screen = true) ↔
      (card.userId = user ∧ isScreen = true) ∨
        (user ≠ card.userId ∧ user ∈ sharingAfter ledger.reports) := by
    intro user
    constructor
    · rintro ⟨other', hother', huser, hscreen⟩
      obtain ⟨other, hother, rfl⟩ := List.mem_map.mp hother'
      by_cases hotherid : other.id = id
      · rw [if_pos hotherid] at huser hscreen
        rw [hsame other hother hotherid] at huser
        exact .inl ⟨huser, hscreen⟩
      · rw [if_neg hotherid] at huser hscreen
        refine .inr ⟨fun he => hotherid ?_, (h user).mpr ⟨other, hother, huser, hscreen⟩⟩
        rw [List.eq_of_map_eq hwf.users hother hcard (huser.trans he), hid]
    · rintro (⟨huser, hscreen⟩ | ⟨hne, hcounted⟩)
      · refine ⟨_, List.mem_map_of_mem hcard, ?_⟩
        rw [if_pos hid]
        exact ⟨huser, hscreen⟩
      · obtain ⟨other, hother, huser, hscreen⟩ := (h user).mp hcounted
        refine ⟨_, List.mem_map_of_mem hother, ?_⟩
        rw [if_neg fun he => hne (huser.symm.trans (congrArg Card.userId (hsame other hother he)))]
        exact ⟨huser, hscreen⟩
  intro user
  rw [hmembers user, sharingAfter_append]
  simp only [List.map_cons, List.map_nil, SetOp.replay_cons, SetOp.replay_nil,
    screenReport_sharing]
  cases isScreen with
  | true =>
      by_cases hu : user = card.userId
      · simp [hu]
      · simp [hu, Ne.symm hu]
  | false => simp

theorem sharingExact_setState (hwf : ledger.WellFormed capacity) (h : ledger.SharingExact)
    (name : String) (id : PeerId) (muted screen : Option Bool) :
    (ledger.setState name id muted screen).SharingExact := by
  unfold setState
  split
  · exact h
  · rename_i card hfind
    obtain ⟨hcard, hid⟩ := (List.find?_key_eq_some hwf.ids).mp hfind
    have hsame : ∀ card' ∈ ledger.members, card'.id = id → card' = card :=
      fun card' hcard' hid' => List.eq_of_map_eq hwf.ids hcard' hcard (hid'.trans hid.symm)
    by_cases hscreen : screen.getD card.screen = card.screen
    · refine h.of_map rfl (fun card' hcard' => ?_) (by simp [hscreen])
      split
      · rename_i hid'
        rw [hsame card' hcard' hid']
        exact ⟨rfl, hscreen⟩
      · exact ⟨rfl, rfl⟩
    · generalize screen.getD card.screen = isScreen at hscreen
      simp only [hscreen, if_false]
      exact sharingExact_toggle hwf h hcard hid (muted.getD card.muted) isScreen

theorem sharingExact_arrive (h : ledger.SharingExact) (name : String)
    (arrived : PeerId → Bool) : (ledger.arrive name arrived).SharingExact := by
  refine h.of_map rfl (fun card _ => ?_) ?_
  · split <;> exact ⟨rfl, rfl⟩
  · simp only [arrive]
    rw [sharingAfter_append, SetOp.replay_skip]
    intro op hop
    obtain ⟨report, hreport, rfl⟩ := List.mem_map.mp hop
    obtain ⟨card, -, rfl⟩ := List.mem_map.mp hreport
    rfl

/-- **The host counts exactly the screen shares there are.** -/
theorem sharingExact_holds (h : (machine capacity name).ReachableVia SharersTold ledger) :
    ledger.SharingExact := by
  refine Lib.Machine.Invariant.holds (I := SharingExact) ⟨?_, ?_⟩ h
  · rintro ledger rfl
    simp [SharingExact, empty, sharingAfter]
  · intro ledger event ledger' hreach hledger hok hstep
    have hwf := reachable_wellFormed hreach
    cases event with
    | join userId fullName avatarUrl =>
        simp only [machine_step, step] at hstep
        split at hstep
        · cases hstep
        · cases hstep
          exact (sharingExact_join_iff hledger userId fullName avatarUrl).mpr hok
    | elsewhere =>
        cases hstep
        exact hledger
    | leave gone =>
        cases hstep
        exact (sharingExact_leave_iff hwf hledger name gone).mpr hok
    | setState id muted screen =>
        cases hstep
        exact sharingExact_setState hwf hledger name id muted screen
    | arrive arrived =>
        cases hstep
        exact sharingExact_arrive hledger name arrived

end Ledger

end FerriteSfu
