import FerriteSfu.Sfu.Frame
import FerriteSfu.Lib.Machine

/-!
The ledger of a call: who is in it and what the host application was told.

Tracks, subscriptions and messages are not in it. What is left is a small
machine whose members are cards, and the structural claims about a room and
both views of the host application are statements about it.
-/

namespace FerriteSfu

@[ext] structure Ledger where
  members : List Card
  reports : List ReportEvent
  nextPeer : ℕ

inductive LedgerEvent
  | join (userId name avatarUrl : String)
  /-- An id was consumed without anyone entering. -/
  | elsewhere
  | leave (gone : PeerId → Bool)
  | setState (id : PeerId) (muted screen : Option Bool)
  | arrive (arrived : PeerId → Bool)

namespace Ledger

def empty : Ledger where
  members := []
  reports := []
  nextPeer := 1

/-- The card of whoever joins next. -/
def newcomer (userId name avatarUrl : String) (ledger : Ledger) : Card where
  id := ⟨ledger.nextPeer⟩
  userId := userId
  name := name
  avatarUrl := avatarUrl
  muted := false
  screen := false
  reported := false

def join (userId name avatarUrl : String) (ledger : Ledger) : Ledger :=
  { ledger with
    members := (ledger.members.filter fun card => card.userId ≠ userId) ++
      [ledger.newcomer userId name avatarUrl]
    nextPeer := ledger.nextPeer + 1 }

def leaving (gone : PeerId → Bool) (ledger : Ledger) : List Card :=
  ledger.members.filter fun card => gone card.id

def staying (gone : PeerId → Bool) (ledger : Ledger) : List Card :=
  ledger.members.filter fun card => !gone card.id

def joinedReport (name : String) (card : Card) : ReportEvent :=
  (ReportEvent.new .participantJoined name).identity card.userId

def leftReport (name : String) (card : Card) : ReportEvent :=
  (ReportEvent.new .participantLeft name).identity card.userId

def screenReport (name : String) (card : Card) (isScreen : Bool) : ReportEvent :=
  ((ReportEvent.new (if isScreen then .trackPublished else .trackUnpublished) name).identity
    card.userId).screenShare

/-- Members leave: those that were reported are reported gone, and the room is
reported finished with the last of them. -/
def leave (name : String) (gone : PeerId → Bool) (ledger : Ledger) : Ledger :=
  { ledger with
    members := ledger.staying gone
    reports := ledger.reports ++
      ((ledger.leaving gone).filter (·.reported)).map (leftReport name) ++
      if ledger.leaving gone ≠ [] ∧ ledger.staying gone = [] then
        [ReportEvent.new .roomFinished name]
      else [] }

/-- Members that leave one after the other, in the order of the room. -/
theorem leave_cons {name : String} {ledger : Ledger} (hids : (ledger.members.map Card.id).Nodup)
    {id : PeerId} {ids : List PeerId} (hsub : (id :: ids).Sublist (ledger.members.map Card.id)) :
    (ledger.leave name (fun id' => id' = id)).leave name (fun id' => id' ∈ ids) =
      ledger.leave name fun id' => id' ∈ id :: ids := by
  have hnot : id ∉ ids := (List.nodup_cons.mp (hsub.nodup hids)).1
  have hleaving : (ledger.leave name fun id' => id' = id).leaving (fun id' => id' ∈ ids) =
      ledger.leaving fun id' => id' ∈ ids := by
    simp only [leave, staying, leaving, List.filter_filter]
    refine List.filter_congr fun card _ => ?_
    by_cases he : card.id = id <;> simp [he, hnot]
  have hstaying : (ledger.leave name fun id' => id' = id).staying (fun id' => id' ∈ ids) =
      ledger.staying fun id' => id' ∈ id :: ids := by
    simp only [leave, staying, List.filter_filter]
    exact List.filter_congr fun card _ => by simp [Bool.and_comm]
  have hall : ledger.leaving (fun id' => id' ∈ id :: ids) =
      ledger.leaving (fun id' => id' = id) ++ ledger.leaving fun id' => id' ∈ ids :=
    List.filter_key_mem_cons hids hsub
  obtain ⟨card, hcard, hid⟩ := List.mem_map.mp (hsub.subset List.mem_cons_self)
  have hfirst : ledger.leaving (fun id' => id' = id) ≠ [] :=
    List.ne_nil_of_mem (List.mem_filter.mpr ⟨hcard, by simpa using hid⟩)
  cases ids with
  | nil =>
      have hnone : ledger.leaving (fun id' => id' ∈ ([] : List PeerId)) = [] := by
        simp [leaving]
      have hsame : ledger.staying (fun id' => id' ∈ [id]) =
          ledger.staying fun id' => id' = id := by
        simp [staying]
      rw [leave, hleaving, hstaying, hnone, hsame]
      simp [leave]
  | cons id₂ ids =>
      obtain ⟨card₂, hcard₂, hid₂⟩ :=
        List.mem_map.mp (hsub.subset (List.mem_cons_of_mem id List.mem_cons_self))
      have hne : id₂ ≠ id := fun he => hnot (by simp [he])
      have hsecond : ledger.leaving (fun id' => id' ∈ id₂ :: ids) ≠ [] :=
        List.ne_nil_of_mem (List.mem_filter.mpr ⟨hcard₂, by simp [hid₂]⟩)
      have hleft : ledger.staying (fun id' => id' = id) ≠ [] :=
        List.ne_nil_of_mem (List.mem_filter.mpr ⟨hcard₂, by simp [hid₂, hne]⟩)
      rw [leave, hleaving, hstaying]
      simp only [leave, hall, hleft, hsecond, ne_eq, List.append_eq_nil_iff, and_false,
        not_false_eq_true, true_and, if_false, List.append_nil, List.filter_append,
        List.map_append, List.append_assoc]

def setState (name : String) (id : PeerId) (muted screen : Option Bool) (ledger : Ledger) :
    Ledger :=
  match ledger.members.find? fun card => card.id = id with
  | none => ledger
  | some card =>
      let isMuted := muted.getD card.muted
      let isScreen := screen.getD card.screen
      { ledger with
        members := ledger.members.map fun card =>
          if card.id = id then { card with muted := isMuted, screen := isScreen } else card
        reports := ledger.reports ++
          if isScreen = card.screen then [] else [screenReport name card isScreen] }

def arriving (arrived : PeerId → Bool) (ledger : Ledger) : List Card :=
  ledger.members.filter fun card => arrived card.id && !card.reported

def arrive (name : String) (arrived : PeerId → Bool) (ledger : Ledger) : Ledger :=
  { ledger with
    members := ledger.members.map fun card =>
      if arrived card.id then { card with reported := true } else card
    reports := ledger.reports ++ (ledger.arriving arrived).map (joinedReport name) }

def step (capacity : ℕ) (name : String) (ledger : Ledger) : LedgerEvent → Option Ledger
  | .join userId fullName avatarUrl =>
      if ledger.members ≠ [] ∧ ledger.members.length ≥ capacity then none
      else some (ledger.join userId fullName avatarUrl)
  | .elsewhere => some { ledger with nextPeer := ledger.nextPeer + 1 }
  | .leave gone => some (ledger.leave name gone)
  | .setState id muted screen => some (ledger.setState name id muted screen)
  | .arrive arrived => some (ledger.arrive name arrived)

def machine (capacity : ℕ) (name : String) : Lib.Machine Ledger LedgerEvent where
  init ledger := ledger = empty
  step := step capacity name

@[simp] theorem machine_step (capacity : ℕ) (name : String) (ledger : Ledger)
    (event : LedgerEvent) :
    (machine capacity name).step ledger event = ledger.step capacity name event := rfl

/-- The events that take an id. -/
def takesId : LedgerEvent → Bool
  | .join _ _ _ | .elsewhere => true
  | .leave _ | .setState _ _ _ | .arrive _ => false

theorem step_nextPeer {capacity : ℕ} {name : String} {ledger ledger' : Ledger}
    {event : LedgerEvent} (hstep : ledger.step capacity name event = some ledger') :
    ledger'.nextPeer = ledger.nextPeer + if takesId event then 1 else 0 := by
  cases event with
  | join userId fullName avatarUrl =>
      simp only [step] at hstep
      split at hstep
      · cases hstep
      · cases hstep
        rfl
  | elsewhere =>
      cases hstep
      rfl
  | leave gone =>
      cases hstep
      rfl
  | setState id muted screen =>
      cases hstep
      unfold setState
      split <;> rfl
  | arrive arrived =>
      cases hstep
      rfl

/-- Whoever is in the ledger after a step was in it before, or has just joined. -/
theorem step_mem {capacity : ℕ} {name : String} {ledger ledger' : Ledger} {event : LedgerEvent}
    (hstep : ledger.step capacity name event = some ledger') :
    ∀ id ∈ ledger'.members.map Card.id, id ∈ ledger.members.map Card.id ∨
      (∃ userId fullName avatarUrl, event = .join userId fullName avatarUrl) ∧
        id = ⟨ledger.nextPeer⟩ := by
  cases event with
  | join userId fullName avatarUrl =>
      simp only [step] at hstep
      split at hstep
      · cases hstep
      · cases hstep
        intro id hid
        rw [join, List.map_append, List.mem_append] at hid
        rcases hid with hid | hid
        · exact .inl ((List.filter_sublist.map _).subset hid)
        · exact .inr ⟨⟨userId, fullName, avatarUrl, rfl⟩, List.mem_singleton.mp hid⟩
  | elsewhere =>
      cases hstep
      exact fun id => .inl
  | leave gone =>
      cases hstep
      exact fun id hid => .inl ((List.filter_sublist.map _).subset hid)
  | setState id muted screen =>
      cases hstep
      intro id' hid'
      refine .inl ?_
      unfold setState at hid'
      split at hid'
      · exact hid'
      · rw [List.map_map] at hid'
        convert hid' using 2
        funext card
        simp only [Function.comp_apply]
        split <;> rfl
  | arrive arrived =>
      cases hstep
      intro id hid
      refine .inl ?_
      rw [arrive, List.map_map] at hid
      convert hid using 2
      funext card
      simp only [Function.comp_apply]
      split <;> rfl

/-! ### Well-formedness -/

structure WellFormed (capacity : ℕ) (ledger : Ledger) : Prop where
  ids : (ledger.members.map Card.id).Nodup
  fresh : ∀ card ∈ ledger.members, card.id.val < ledger.nextPeer
  users : (ledger.members.map Card.userId).Nodup
  size : ledger.members.length ≤ max capacity 1

theorem wellFormed_empty (capacity : ℕ) : empty.WellFormed capacity :=
  ⟨by simp [empty], by simp [empty], by simp [empty], by simp [empty]⟩

namespace WellFormed

variable {capacity : ℕ} {ledger ledger' : Ledger}

/-- Fewer members, later ids. -/
theorem of_sublist (h : ledger.WellFormed capacity)
    (hmembers : ledger'.members.Sublist ledger.members)
    (hnext : ledger.nextPeer ≤ ledger'.nextPeer) : ledger'.WellFormed capacity where
  ids := h.ids.sublist (hmembers.map _)
  fresh card hmem := (h.fresh card (hmembers.subset hmem)).trans_le hnext
  users := h.users.sublist (hmembers.map _)
  size := hmembers.length_le.trans h.size

/-- Cards change, but not who they belong to. -/
theorem of_map (h : ledger.WellFormed capacity) {f : Card → Card}
    (hid : ∀ card, (f card).id = card.id) (huser : ∀ card, (f card).userId = card.userId)
    (hmembers : ledger'.members = ledger.members.map f)
    (hnext : ledger'.nextPeer = ledger.nextPeer) : ledger'.WellFormed capacity where
  ids := by simpa [hmembers, Function.comp_def, hid] using h.ids
  fresh card hmem := by
    rw [hmembers] at hmem
    obtain ⟨card', hmem', rfl⟩ := List.mem_map.mp hmem
    rw [hid, hnext]
    exact h.fresh card' hmem'
  users := by simpa [hmembers, Function.comp_def, huser] using h.users
  size := by simpa [hmembers] using h.size

theorem join (h : ledger.WellFormed capacity) (userId fullName avatarUrl : String)
    (hroom : ¬(ledger.members ≠ [] ∧ ledger.members.length ≥ capacity)) :
    (ledger.join userId fullName avatarUrl).WellFormed capacity where
  ids := by
    have hfresh : ∀ card ∈ ledger.members.filter (fun card => card.userId ≠ userId),
        card.id ≠ ⟨ledger.nextPeer⟩ := by
      intro card hmem he
      have hlt := h.fresh card (List.mem_of_mem_filter hmem)
      simp [he] at hlt
    simp only [Ledger.join, List.map_append, List.map_cons, List.map_nil]
    refine List.nodup_append.mpr ⟨h.ids.sublist (List.filter_sublist.map _), by simp, ?_⟩
    rintro id hmem id' hid' rfl
    obtain ⟨card, hcard, hid⟩ := List.mem_map.mp hmem
    exact hfresh card hcard (hid.trans (by simpa [newcomer] using hid'))
  fresh card hmem := by
    rcases List.mem_append.mp hmem with hmem | hmem
    · exact (h.fresh card (List.mem_of_mem_filter hmem)).trans (Nat.lt_succ_self _)
    · rw [List.mem_singleton.mp hmem]
      exact Nat.lt_succ_self _
  users := by
    simp only [Ledger.join, List.map_append, List.map_cons, List.map_nil]
    refine List.nodup_append.mpr ⟨h.users.sublist (List.filter_sublist.map _), by simp, ?_⟩
    rintro user hmem user' huser' rfl
    obtain ⟨card, hcard, huser⟩ := List.mem_map.mp hmem
    have hne : card.userId ≠ userId := by simpa using List.of_mem_filter hcard
    exact hne (huser.trans (by simpa [newcomer] using huser'))
  size := by
    have hle := List.length_filter_le (fun card : Card => decide (card.userId ≠ userId))
      ledger.members
    have hcap : ledger.members.length + 1 ≤ max capacity 1 := by
      by_cases hnil : ledger.members = []
      · simp [hnil]
      · have : ledger.members.length < capacity := by
          by_contra hfull
          exact hroom ⟨hnil, by omega⟩
        omega
    simp only [Ledger.join, List.length_append, List.length_singleton]
    omega

theorem leave (h : ledger.WellFormed capacity) (name : String) (gone : PeerId → Bool) :
    (ledger.leave name gone).WellFormed capacity :=
  h.of_sublist List.filter_sublist le_rfl

theorem setState (h : ledger.WellFormed capacity) (name : String) (id : PeerId)
    (muted screen : Option Bool) : (ledger.setState name id muted screen).WellFormed capacity := by
  unfold Ledger.setState
  split
  · exact h
  · refine h.of_map (fun card => ?_) (fun card => ?_) rfl rfl <;> split <;> rfl

theorem arrive (h : ledger.WellFormed capacity) (name : String) (arrived : PeerId → Bool) :
    (ledger.arrive name arrived).WellFormed capacity := by
  refine h.of_map (fun card => ?_) (fun card => ?_) rfl rfl <;> split <;> rfl

theorem step (h : ledger.WellFormed capacity) {name : String} {event : LedgerEvent}
    (hstep : ledger.step capacity name event = some ledger') : ledger'.WellFormed capacity := by
  cases event with
  | join userId fullName avatarUrl =>
      simp only [Ledger.step] at hstep
      split at hstep
      · cases hstep
      · rename_i hroom
        cases hstep
        exact h.join userId fullName avatarUrl hroom
  | elsewhere =>
      cases hstep
      exact h.of_sublist (.refl _) (Nat.le_succ _)
  | leave gone =>
      cases hstep
      exact h.leave name gone
  | setState id muted screen =>
      cases hstep
      exact h.setState name id muted screen
  | arrive arrived =>
      cases hstep
      exact h.arrive name arrived

end WellFormed

theorem reachable_wellFormed {capacity : ℕ} {name : String} {ok : Ledger → LedgerEvent → Prop}
    {ledger : Ledger} (h : (machine capacity name).ReachableVia ok ledger) :
    ledger.WellFormed capacity := by
  refine Lib.Machine.Invariant.holds (I := WellFormed capacity) ⟨?_, ?_⟩ h
  · rintro ledger rfl
    exact wellFormed_empty capacity
  · intro ledger event ledger' _ hledger _ hstep
    exact hledger.step hstep

end Ledger

end FerriteSfu
