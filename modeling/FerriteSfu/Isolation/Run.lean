import FerriteSfu.Isolation.Watch
import FerriteSfu.Scripted

/-!
Rooms are isolated: what is left of a run when only one room counts is a run
that shows the room in the same states, under other names.
-/

namespace FerriteSfu

variable {S : Str0m} {config : Config} {name : String} {ρ : PeerId ↪ PeerId}

/-! ### When the loop can take a step -/

namespace Engine

theorem Sound.pollRoom_isSome {engine : Engine S} (h : engine.Sound)
    {clock : String → ℕ → List Instant} {name : String}
    (hcall : ((engine.call name).poll (clock name)).isSome) (timeout : Instant) :
    ∃ next, Engine.pollRoom clock (engine, timeout) name = some next := by
  unfold Engine.pollRoom
  cases hroom : engine.rooms.lookup name with
  | none => exact ⟨_, rfl⟩
  | some room =>
      simp only [Call.poll, call_room, hroom, Option.isSome_map] at hcall
      obtain ⟨polled, hpolled⟩ := Option.isSome_iff_exists.mp hcall
      have hagrees : ∀ peer ∈ room.peers, peer.Agrees room.tracks engine.heap :=
        fun peer hpeer track hmem => (h.agrees hroom hpeer track hmem).symm
      obtain ⟨next, hnext, -⟩ := Room.poll_congr timeout (h.ids hroom) hagrees hpolled
      exact Option.isSome_iff_exists.mp (by simp [hnext])

theorem Sound.foldlM_pollRoom_isSome {engine : Engine S} (h : engine.Sound)
    {clock : String → ℕ → List Instant} {order : List String} (horder : order.Nodup)
    (hcalls : ∀ name ∈ order, ((engine.call name).poll (clock name)).isSome)
    (timeout : Instant) : ∃ next, order.foldlM (Engine.pollRoom clock) (engine, timeout) =
      some next := by
  induction order generalizing engine timeout with
  | nil => exact ⟨_, rfl⟩
  | cons first order ih =>
      obtain ⟨hnot, horder⟩ := List.nodup_cons.mp horder
      obtain ⟨⟨engine₁, timeout₁⟩, hfirst⟩ := h.pollRoom_isSome (hcalls first (by simp)) timeout
      obtain ⟨hsound, -, -, hothers⟩ := h.pollRoom hfirst
      rw [List.foldlM_cons, hfirst]
      refine ih hsound horder (fun name hmem => ?_) timeout₁
      rw [hothers name fun he => hnot (he ▸ hmem)]
      exact hcalls name (by simp [hmem])

/-- A step is taken whenever a sweep visits what there is to visit, and a poll
finds every room done. -/
theorem Sound.step_isSome {engine : Engine S} (h : engine.Sound) {event : Event S}
    (horder : ∀ order, event.order = some order → order.Perm engine.rooms.keys)
    (hpolls : ∀ now order clock, event = .pollRooms now order clock → ∀ name ∈ order,
      ((engine.call name).poll (clock name)).isSome) :
    ∃ engine', engine.step event = some engine' := by
  have hvisits : event.order.all engine.visits = true := by
    cases he : event.order with
    | none => rfl
    | some order => exact decide_eq_true (horder order he)
  unfold Engine.step
  rw [if_pos hvisits]
  cases event with
  | command | reportConnections | reap | tickSpeaking | readOnce | advanceTime => exact ⟨_, rfl⟩
  | pollRooms now order clock =>
      have hnodup := (horder order rfl).nodup_iff.mpr engine.rooms.nodupKeys
      obtain ⟨next, hnext⟩ :=
        h.foldlM_pollRoom_isSome hnodup (hpolls now order clock rfl) (now + maxIdle)
      exact ⟨next.1, by simp [Engine.pollRooms, hnext]⟩

end Engine

namespace Call

/-- Only a join opens a room. -/
theorem step_room_none {call call' : Call S} (h : call.room = none) {event : CallEvent S}
    (hjoin : ∀ request seed, event ≠ .join request seed)
    (hstep : call.step config name event = some call') : call'.room = none := by
  cases event with
  | join request seed => exact absurd rfl (hjoin request seed)
  | elsewhere =>
      cases hstep
      exact h
  | answer id sdp =>
      cases hstep
      rw [answer_of_not_mem (by simp [peers_of_none h])]
      exact h
  | setState id muted screen =>
      cases hstep
      rw [setState_of_not_mem (by simp [peers_of_none h])]
      exact h
  | leave id =>
      cases hstep
      rw [leave_of_not_mem (by simp [peers_of_none h])]
      exact h
  | poll clock =>
      simp only [step, poll, h, Option.some.injEq] at hstep
      exact hstep ▸ h
  | reap now =>
      cases hstep
      simpa [reap, dead, peers_of_none h] using h
  | reportConnections | syncSpeaking | handleInput | advanceTime =>
      cases hstep
      simp [reportConnections, h]

end Call

/-! ### What the watched run knows of a room -/

namespace Watched

/-- The ids handed out so far, as far as the room `name` goes. -/
structure Accounts (name : String) (watched : Watched S) : Prop where
  sound : watched.engine.Sound
  handed : ∀ entry ∈ watched.handed, entry.1.val < watched.engine.nextPeer
  /-- No member of the room got its id for another. -/
  members : ∀ peer ∈ (watched.engine.call name).peers, ∀ entry ∈ watched.handed,
    entry.1 = peer.id → entry.2 = name

theorem machine_step {watched watched' : Watched S} {event : Event S}
    (hstep : (machine S config).step watched event = some watched') :
    watched.engine.step event = some watched'.engine ∧
      watched'.handed = watched.handed ++ watched.engine.hands event := by
  obtain ⟨engine, hengine, rfl⟩ := Option.map_eq_some_iff.mp hstep
  exact ⟨hengine, rfl⟩

theorem Accounts.step {watched watched' : Watched S} (h : watched.Accounts name)
    {event : Event S} (hstep : (machine S config).step watched event = some watched') :
    watched'.Accounts name := by
  obtain ⟨hengine, hhanded⟩ := machine_step hstep
  have hnext := h.sound.step_nextPeer hengine
  refine ⟨h.sound.step hengine, fun entry hentry => ?_, fun peer hpeer entry hentry hid => ?_⟩
  · rw [hhanded] at hentry
    rcases List.mem_append.mp hentry with hold | hnew
    · have := h.handed entry hold
      omega
    · obtain ⟨hid, hlength, -⟩ := Engine.mem_hands hnew
      rw [hid, hnext, hlength]
      exact Nat.lt_succ_self _
  · have hnum := h.sound.numbered name
    -- whoever is in the room now was there before, or has just been admitted
    have hmem : peer.id ∈ (watched.engine.call name).peers.map Peer.id ∨
        ∃ request seed, event = .command (.join request) seed ∧ request.claims.room = name ∧
          peer.id = ⟨watched.engine.nextPeer⟩ := by
      have hcall := (h.sound.step_calls hengine).2.2 name
      unfold Engine.CallStep at hcall
      split at hcall
      · rw [hcall] at hpeer
        exact .inl (List.mem_map_of_mem hpeer)
      · rename_i ev hev
        refine (Call.step_mem hnum hcall _ (List.mem_map_of_mem hpeer)).imp_right ?_
        rintro ⟨request, seed, rfl, -, hid⟩
        obtain ⟨hevent, hroom⟩ := Engine.callEvent_join hev
        exact ⟨request, seed, hevent, hroom, hid⟩
    rw [hhanded] at hentry
    rcases List.mem_append.mp hentry with hold | hnew
    · rcases hmem with hmem | ⟨request, seed, -, -, hpeerid⟩
      · obtain ⟨peer', hpeer', hid'⟩ := List.mem_map.mp hmem
        exact h.members peer' hpeer' entry hold (hid.trans hid'.symm)
      · have hlt := h.handed entry hold
        rw [hid, hpeerid] at hlt
        exact absurd hlt (lt_irrefl _)
    · obtain ⟨hnewid, -, request, seed, rfl, hroom⟩ := Engine.mem_hands hnew
      rcases hmem with hmem | ⟨request', seed', heq, hroom', -⟩
      · rw [← hid, hnewid] at hmem
        exact absurd hmem hnum.new
      · cases heq
        exact hroom.symm.trans hroom'

theorem own_append {watched watched' : Watched S} {taken : List (PeerId × String)}
    (h : watched'.handed = watched.handed ++ taken) (name : String) :
    watched'.own name = watched.own name ++
      (taken.filter fun entry => entry.2 = name).map (·.1) := by
  simp [own, h]

theorem target_of_isForeign {watched : Watched S} {command : Command}
    (h : watched.isForeignCommand name command = true)
    (hjoin : ∀ request, command ≠ .join request) :
    ∃ id, command.target = some id ∧
      (watched.handed.any fun entry => entry.1 = id && entry.2 ≠ name) = true := by
  cases command with
  | join request => exact absurd rfl (hjoin request)
  | answer | mute | screen | leave => exact ⟨_, rfl, h⟩
  | shutdown => cases h

/-- The ids that are handed out for the room are handed out by what is kept. -/
theorem hands_isForeign {watched : Watched S} {event : Event S} :
    ∀ entry ∈ watched.engine.hands event,
      entry.2 ≠ name ↔ watched.isForeign name event = true := by
  intro entry hentry
  obtain ⟨-, -, request, seed, rfl, hroom⟩ := Engine.mem_hands hentry
  rw [← hroom]
  exact decide_eq_true_iff.symm

/-- What is left out of a run does not show in the room. -/
theorem Accounts.left_out {watched : Watched S} {engine' : Engine S} (h : watched.Accounts name)
    {event : Event S} (hstep : watched.engine.step event = some engine')
    (hforeign : watched.isForeign name event = true) :
    (engine'.call name).room = (watched.engine.call name).room ∧
      (engine'.call name).reports = (watched.engine.call name).reports ∧
      engine'.lastSpeaking = watched.engine.lastSpeaking := by
  have hcall := (h.sound.step_calls hstep).2.2 name
  have hlast := Engine.step_lastSpeaking hstep
  cases event with
  | pollRooms | reportConnections | reap | tickSpeaking | advanceTime => cases hforeign
  | readOnce now datagram order =>
      obtain ⟨room, hroom, hne⟩ := (Option.any_eq_true _ _).mp hforeign
      have hnot : watched.engine.receiver (.receive now datagram) order ≠ some name := by
        rw [hroom]
        simpa using hne
      simp only [Engine.CallStep, Engine.callEvent, if_neg hnot] at hcall
      exact ⟨by rw [hcall], by rw [hcall], hlast⟩
  | command command seed =>
      by_cases hjoin : ∃ request, command = .join request
      · obtain ⟨request, rfl⟩ := hjoin
        have hne : request.claims.room ≠ name := of_decide_eq_true hforeign
        simp only [Engine.CallStep, Engine.callEvent, if_neg hne] at hcall
        -- at most, the join consumes an id
        obtain ⟨next, hsame⟩ : ∃ next, engine'.call name =
            { watched.engine.call name with nextPeer := next } := by
          by_cases hconsumes : (watched.engine.call request.claims.room).consumes
              watched.engine.config request seed = true
          · rw [if_pos hconsumes] at hcall
            exact ⟨_, (Option.some.inj hcall).symm⟩
          · rw [if_neg hconsumes] at hcall
            exact ⟨_, hcall⟩
        exact ⟨by rw [hsame], by rw [hsame], hlast⟩
      · obtain ⟨id, htarget, hany⟩ := target_of_isForeign hforeign
          fun request he => hjoin ⟨request, he⟩
        obtain ⟨entry, hentry, hid⟩ := List.any_eq_true.mp hany
        simp only [Bool.and_eq_true, decide_eq_true_eq] at hid
        have hnot : ∀ peer ∈ (watched.engine.call name).peers, peer.id ≠ id :=
          fun peer hpeer he => hid.2 (h.members peer hpeer entry hentry (hid.1.trans he.symm))
        cases hstep
        have hsame := h.sound.apply_outsider htarget seed hnot
        exact ⟨by rw [hsame], by rw [hsame], hlast⟩

end Watched

/-! ### Runs in step with one another -/

variable (L : S.Relabel ρ)

/-- `mirror` shows the room `name` of the watched loop, and no other room. -/
structure Mirrored (name : String) (watched : Watched S) (mirror : Engine S) : Prop where
  accounts : watched.Accounts name
  sound : mirror.Sound
  config : mirror.config = watched.engine.config
  lastSpeaking : mirror.lastSpeaking = watched.engine.lastSpeaking
  call : mirror.call name = (watched.engine.call name).rename L mirror.nextPeer
  alone : ∀ other, other ≠ name → mirror.rooms.lookup other = none
  next : mirror.nextPeer = (watched.own name).length + 1

namespace Mirrored

variable {L} {watched : Watched S} {mirror : Engine S}

theorem room (h : Mirrored L name watched mirror) :
    mirror.rooms.lookup name = (watched.engine.rooms.lookup name).map (Room.rename L) :=
  congrArg Call.room h.call

/-- The sweep of the mirror visits the one room it has. -/
theorem visits (h : Mirrored L name watched mirror) {order : List String}
    (horder : order.Perm watched.engine.rooms.keys) :
    (order.filter fun room => room = name).Perm mirror.rooms.keys := by
  have hnodup := horder.nodup_iff.mpr watched.engine.rooms.nodupKeys
  refine (List.perm_ext_iff_of_nodup (hnodup.filter _) mirror.rooms.nodupKeys).mpr fun other => ?_
  change _ ↔ other ∈ mirror.rooms.keys
  have hmem : ∀ engine : Engine S, other ∈ engine.rooms.keys ↔
      (engine.rooms.lookup other).isSome = true :=
    fun engine => AList.mem_keys.symm.trans AList.lookup_isSome.symm
  rw [List.mem_filter, horder.mem_iff, hmem, hmem, decide_eq_true_eq]
  by_cases hother : other = name
  · subst hother
    simp [h.room]
  · simp [h.alone other hother, hother]

theorem receiver (h : Mirrored L name watched mirror) {input : S.Input} {order : List String}
    (hothers : ((watched.engine.receiver input order).any fun room => room ≠ name) = false) :
    mirror.receiver input (order.filter fun room => room = name) = some name ↔
      watched.engine.receiver input order = some name := by
  have haccepts : ((mirror.rooms.lookup name).map fun room =>
        room.peers.any (Peer.accepts input)).getD false =
      ((watched.engine.rooms.lookup name).map fun room =>
        room.peers.any (Peer.accepts input)).getD false := by
    have hsame : Peer.accepts input ∘ Peer.rename L = Peer.accepts input :=
      funext fun peer => L.accepts peer.rtc input
    rw [h.room]
    cases watched.engine.rooms.lookup name <;> simp [Room.rename, List.any_map, hsame]
  have hfind : ∀ p : String → Bool, ((order.find? p).any fun room => room ≠ name) = false →
      ((if name ∈ order ∧ p name = true then some name else none) = some name ↔
        order.find? p = some name) := by
    intro p hp
    constructor
    · intro hfound
      split at hfound
      · rename_i hmem
        obtain ⟨first, hfirst⟩ := Option.isSome_iff_exists.mp
          (List.find?_isSome.mpr ⟨name, hmem.1, hmem.2⟩)
        rw [hfirst] at hp ⊢
        simpa using hp
      · cases hfound
    · intro hfound
      rw [if_pos ⟨List.mem_of_find?_eq_some hfound, List.find?_some hfound⟩]
  unfold Engine.receiver at hothers ⊢
  rw [List.find?_filter_eq, haccepts]
  exact hfind _ hothers

/-- What is left of an event is to the mirror what the event is to the room. -/
theorem callEvent (h : Mirrored L name watched mirror) {event : Event S}
    (hown : watched.isForeign name event = false) :
    mirror.callEvent name (event.restrict name ρ) =
      (watched.engine.callEvent name event).map (CallEvent.rename ρ) := by
  cases event with
  | command command seed =>
      cases command with
      | join request =>
          have hroom : request.claims.room = name := by
            simpa [Watched.isForeign, Watched.isForeignCommand] using hown
          simp [Event.restrict, Command.rename, Engine.callEvent, hroom, CallEvent.rename]
      | answer | mute | screen | leave | shutdown => rfl
  | pollRooms | reportConnections | reap | advanceTime => rfl
  | tickSpeaking now order =>
      simp only [Event.restrict, Engine.callEvent, h.lastSpeaking]
      split <;> rfl
  | readOnce now datagram order =>
      simp only [Event.restrict, Engine.callEvent, h.receiver hown]
      split <;> rfl

/-- What is left of a run opens no other room. -/
theorem callEvent_other {event : Event S} (hown : watched.isForeign name event = false)
    {other : String} (hother : other ≠ name) (request : JoinRequest) (seed : S.Seed) :
    mirror.callEvent other (event.restrict name ρ) ≠ some (.join request seed) := by
  intro hev
  obtain ⟨hevent, hroom⟩ := Engine.callEvent_join hev
  cases event with
  | command command seed' =>
      cases command with
      | join request' =>
          cases hevent
          have hname : request.claims.room = name := by
            simpa [Watched.isForeign, Watched.isForeignCommand] using hown
          exact hother (hroom.symm.trans hname)
      | answer | mute | screen | leave | shutdown => cases hevent
  | pollRooms | reportConnections | reap | tickSpeaking | readOnce | advanceTime => cases hevent

/-- The mirror can take whatever is left of a step. -/
theorem step_isSome (h : Mirrored L name watched mirror) {engine' : Engine S} {event : Event S}
    (hstep : watched.engine.step event = some engine') :
    ∃ mirror', mirror.step (event.restrict name ρ) = some mirror' := by
  obtain ⟨horder, -⟩ := Engine.step_eq_some hstep
  refine h.sound.step_isSome (fun order' hvisited => ?_) fun now order' clock hpoll room hmem => ?_
  · rw [Event.restrict_order] at hvisited
    obtain ⟨order, hvisits, rfl⟩ := Option.map_eq_some_iff.mp hvisited
    exact h.visits (horder order hvisits)
  · cases event with
    | command | reportConnections | reap | tickSpeaking | readOnce | advanceTime => cases hpoll
    | pollRooms now order clock =>
        cases hpoll
        obtain ⟨-, hroom⟩ := List.mem_filter.mp hmem
        have hcall : (watched.engine.call name).poll (clock name) = some (engine'.call name) :=
          (h.accounts.sound.step_calls hstep).2.2 name
        rw [of_decide_eq_true hroom, h.call, Call.rename_poll, hcall]
        rfl

/-- The room of the mirror takes the step of the room it mirrors. -/
theorem call_step (h : Mirrored L name watched mirror) {engine' mirror' : Engine S}
    {event : Event S} (hstep : watched.engine.step event = some engine')
    (hown : watched.isForeign name event = false)
    (hnumber : ∀ entry ∈ watched.engine.hands event, entry.2 = name →
      ρ entry.1 = ⟨(watched.own name).length + 1⟩)
    (hstep' : mirror.step (event.restrict name ρ) = some mirror') :
    mirror'.call name = (engine'.call name).rename L
      (mirror.nextPeer + (engine'.nextPeer - watched.engine.nextPeer)) := by
  have hsound := h.accounts.sound
  have hcall := (hsound.step_calls hstep).2.2 name
  have hcall' := (h.sound.step_calls hstep').2.2 name
  unfold Engine.CallStep at hcall hcall'
  rw [h.callEvent hown] at hcall'
  cases hev : watched.engine.callEvent name event with
  | none =>
      rw [hev] at hcall hcall'
      have hnext : engine'.nextPeer = watched.engine.nextPeer := congrArg Call.nextPeer hcall
      rw [hnext, Nat.sub_self, Nat.add_zero, hcall]
      exact hcall'.trans h.call
  | some ev =>
      rw [hev] at hcall hcall'
      have helsewhere : ev ≠ .elsewhere := by
        rintro rfl
        obtain ⟨entry, hentry, hne⟩ := Engine.callEvent_elsewhere hev
        exact absurd ((Watched.hands_isForeign entry hentry).mp hne) (by simp [hown])
      have hnext : ∀ request seed, ev = .join request seed →
          (watched.engine.call name).consumes watched.engine.config request seed = true →
          ρ ⟨(watched.engine.call name).nextPeer⟩ = ⟨mirror.nextPeer⟩ := by
        rintro request seed rfl hconsumes
        obtain ⟨rfl, hroom⟩ := Engine.callEvent_join hev
        have hnew := hnumber (⟨watched.engine.nextPeer⟩, request.claims.room)
          (by simp [Engine.hands, hroom, hconsumes]) hroom
        rw [h.next]
        exact hnew
      have hrenamed := Call.step_rename L (Call.reachable_inOrder (hsound.calls name))
        (hsound.numbered name) helsewhere hnext hcall
      rw [← h.call, ← h.config] at hrenamed
      exact Option.some.inj (hcall'.symm.trans hrenamed)

/-- **A step and what is left of it lead to the same room.** -/
theorem step (h : Mirrored L name watched mirror) {watched' : Watched S} {event : Event S}
    (hstep : (Watched.machine S config).step watched event = some watched')
    (hnumber : ∀ entry ∈ watched.engine.hands event, entry.2 = name →
      ρ entry.1 = ⟨(watched.own name).length + 1⟩) :
    (Engine.machine S config).Mirrors (Mirrored L name) watched' mirror
      (watched.only name ρ event) := by
  obtain ⟨hengine, hhanded⟩ := Watched.machine_step hstep
  have haccounts := h.accounts.step hstep
  have hown := Watched.own_append hhanded name
  have hconfig := (h.accounts.sound.step_calls hengine).2.1
  unfold Watched.only
  cases hforeign : watched.isForeign name event with
  | true =>
      obtain ⟨hroom, hreports, hlast⟩ := h.accounts.left_out hengine hforeign
      have hnone : (watched.engine.hands event).filter (fun entry => entry.2 = name) = [] := by
        refine List.filter_eq_nil_iff.mpr fun entry hentry => ?_
        simpa using (Watched.hands_isForeign entry hentry).mpr hforeign
      refine ⟨haccounts, h.sound, h.config.trans hconfig.symm, h.lastSpeaking.trans hlast.symm,
        ?_, h.alone, ?_⟩
      · rw [h.call]
        exact Call.ext (congrArg (Option.map (Room.rename L)) hroom).symm hreports.symm rfl
      · rw [h.next, hown, hnone, List.map_nil, List.append_nil]
  | false =>
      obtain ⟨mirror', hstep'⟩ := h.step_isSome hengine
      obtain ⟨-, hconfig', hcalls'⟩ := h.sound.step_calls hstep'
      have hcall := h.call_step hengine hforeign hnumber hstep'
      have hnext : mirror'.nextPeer =
          mirror.nextPeer + (watched'.engine.nextPeer - watched.engine.nextPeer) :=
        congrArg Call.nextPeer hcall
      have hall : (watched.engine.hands event).filter (fun entry => entry.2 = name) =
          watched.engine.hands event := by
        refine List.filter_eq_self.mpr fun entry hentry => decide_eq_true ?_
        by_contra hne
        exact absurd ((Watched.hands_isForeign entry hentry).mp hne) (by simp [hforeign])
      refine ⟨mirror', hstep', haccounts, h.sound.step hstep',
        hconfig'.trans (h.config.trans hconfig.symm), ?_, ?_, fun other hother => ?_, ?_⟩
      · rw [Engine.step_lastSpeaking hstep', Engine.step_lastSpeaking hengine,
          Engine.lastTick_restrict, h.lastSpeaking]
      · rw [hcall, hnext]
      · have hstill := hcalls' other
        unfold Engine.CallStep at hstill
        split at hstill
        · exact (congrArg Call.room hstill).trans (h.alone other hother)
        · rename_i ev hev
          exact Call.step_room_none (h.alone other hother)
            (fun request seed he => callEvent_other hforeign hother request seed (he ▸ hev)) hstill
      · rw [hnext, h.accounts.sound.step_nextPeer hengine, h.next, hown, hall, List.length_append,
          List.length_map]
        omega

end Mirrored

/-! ### Isolation -/

def JoinSend.rename : JoinSend → JoinSend
  | .out message => .out (message.rename L)
  | .assigned id => .assigned (id.map ρ)

/-- What a join leaves outside the engine, under other names. -/
def JoinOutcome.rename (outcome : JoinOutcome S) : JoinOutcome S where
  sends := outcome.sends.map (JoinSend.rename L)
  replaced := outcome.replaced.map (Peer.rename L)

/-- `mirror` shows the room `name` as `engine` does, under other names, and no
other room. -/
structure Shows (name : String) (engine mirror : Engine S) : Prop where
  room : mirror.rooms.lookup name = (engine.rooms.lookup name).map (Room.rename L)
  reports : (mirror.reports.filter fun event => event.room.name = name) =
    engine.reports.filter fun event => event.room.name = name
  alone : ∀ other, other ≠ name → mirror.rooms.lookup other = none

namespace Mirrored

variable {L} {watched : Watched S} {mirror : Engine S}

theorem start (now : Instant) :
    Mirrored L name (Watched.start config now) (Engine.start config now) where
  accounts :=
    { sound := .start config now
      handed := fun _ hentry => by cases hentry
      members := fun _ _ _ hentry => by cases hentry }
  sound := .start config now
  config := rfl
  lastSpeaking := rfl
  call := Call.ext (by simp [Watched.start, Engine.start]) rfl rfl
  alone other _ := by simp [Engine.start]
  next := rfl

theorem shows (h : Mirrored L name watched mirror) : Shows L name watched.engine mirror where
  room := h.room
  reports := congrArg Call.reports h.call
  alone := h.alone

theorem handleJoin_outcome (h : Mirrored L name watched mirror) {request : JoinRequest}
    {seed : S.Seed} (hroom : request.claims.room = name)
    (hnumber : ∀ entry ∈ watched.engine.hands (.command (.join request) seed), entry.2 = name →
      ρ entry.1 = ⟨(watched.own name).length + 1⟩) :
    (mirror.handleJoin request seed).2 =
      (watched.engine.handleJoin request seed).2.rename L := by
  subst hroom
  -- `handle_join` reads the size of the room, its members and the next id: all three are mirrored.
  have hfull : ((mirror.rooms.lookup request.claims.room).map fun room =>
        decide (room.peers.length ≥ mirror.config.maxRoomPeers)).getD false =
      (watched.engine.call request.claims.room).isFull watched.engine.config := by
    rw [← Call.rename_isFull L mirror.nextPeer, ← h.call, ← h.config]
    rfl
  have hfull' : ((watched.engine.rooms.lookup request.claims.room).map fun room =>
        decide (room.peers.length ≥ watched.engine.config.maxRoomPeers)).getD false =
      (watched.engine.call request.claims.room).isFull watched.engine.config := rfl
  have hlobby : (mirror.rooms.lookup request.claims.room).getD (Room.new request.claims.callId) =
      ((watched.engine.rooms.lookup request.claims.room).getD
        (Room.new request.claims.callId)).rename L := by
    rw [h.room]
    cases watched.engine.rooms.lookup request.claims.room <;> rfl
  unfold Engine.handleJoin
  dsimp only
  rw [hfull, hfull', hlobby, h.config]
  cases hisFull : (watched.engine.call request.claims.room).isFull watched.engine.config with
  | true => rfl
  | false =>
      cases hparse : S.offerFromSdpString request.sdp with
      | error reason => rfl
      | ok offer =>
          have hconsumes : (watched.engine.call request.claims.room).consumes
              watched.engine.config request seed = true := by
            simp [Call.consumes, Call.verdict, hisFull, hparse]
          have hid : (⟨mirror.nextPeer⟩ : PeerId) = ρ ⟨watched.engine.nextPeer⟩ := by
            have hnew := hnumber (⟨watched.engine.nextPeer⟩, request.claims.room)
              (by simp [Engine.hands, hconsumes]) rfl
            rw [h.next, hnew]
          have hrtc : ∀ id : PeerId, (Peer.new id (S.build seed watched.engine.config.iceLite)
              request.claims.sub request.claims.name request.claims.avatarUrl).rtc =
                S.build seed watched.engine.config.iceLite := fun _ => rfl
          simp only [Bool.false_eq_true, if_false, Peer.acceptOffer, hrtc]
          rcases S.acceptOffer (S.build seed watched.engine.config.iceLite) offer with
            ⟨result, rtc⟩
          cases result with
          | error reason => rfl
          | ok answer =>
              have hretire := Room.rename_retire L
                (Call.stale request.claims.sub ((watched.engine.rooms.lookup
                  request.claims.room).getD (Room.new request.claims.callId)))
                ((watched.engine.rooms.lookup request.claims.room).getD
                  (Room.new request.claims.callId))
              rw [← Call.rename_stale] at hretire
              have hroster := congrArg (fun retired => retired.1.roster) hretire
              have hreplaced := congrArg Prod.snd hretire
              simp only [Prod.map, Room.rename_roster] at hroster hreplaced
              simp only [JoinOutcome.rename, JoinOutcome.mk.injEq, JoinSend.rename,
                ServerMsg.rename, renameText_asString, hid, List.map_cons, List.map_nil,
                Option.map_some, List.cons.injEq, JoinSend.out.injEq, ServerMsg.joined.injEq,
                true_and, and_true]
              exact ⟨hroster, hreplaced⟩

end Mirrored

namespace Watched

/-- The ids a room hands out are numbered in the order of the room. -/
theorem Accounts.number {watched watched' : Watched S} (h : watched.Accounts name)
    {event : Event S} (hstep : (machine S config).step watched event = some watched')
    {ids : List PeerId} (hahead : watched'.own name <+: ids) :
    ∀ entry ∈ watched.engine.hands event, entry.2 = name →
      numbering ids entry.1 = ⟨(watched.own name).length + 1⟩ := by
  intro entry hentry hname
  obtain ⟨-, hhanded⟩ := machine_step hstep
  obtain ⟨hid, hlength, -⟩ := Engine.mem_hands hentry
  obtain ⟨only, hsingle⟩ := List.length_eq_one_iff.mp hlength
  rw [hsingle, List.mem_singleton] at hentry
  subst hentry
  have hown := own_append hhanded name
  rw [hsingle, List.filter_cons_of_pos (by simpa using hname)] at hown
  obtain ⟨after, rfl⟩ := hahead
  have hnot : entry.1 ∉ watched.own name := by
    intro hmem
    obtain ⟨old, hold, heq⟩ := List.mem_map.mp hmem
    have hlt := h.handed old (List.mem_of_mem_filter hold)
    rw [heq, hid] at hlt
    exact absurd hlt (lt_irrefl _)
  rw [hown]
  simpa using numbering_append hnot after

theorem own_backward {watched watched' : Watched S} {event : Event S} {ids : List PeerId}
    (hstep : (machine S config).step watched event = some watched')
    (hahead : watched'.own name <+: ids) : watched.own name <+: ids := by
  rw [own_append (machine_step hstep).2 name] at hahead
  exact (List.prefix_append _ _).trans hahead

/-- Watching a run does not change it. -/
theorem run_engine (config : Config) (watched : Watched S) (events : List (Event S)) :
    (Engine.machine S config).run watched.engine events =
      ((machine S config).run watched events).map Watched.engine := by
  refine Lib.Machine.run_map (f := Watched.engine) (fun watched event => ?_) watched events
  simp [machine, Engine.machine, Function.comp_def]

end Watched

/-- A puppet is not told its labels. -/
def Puppet.relabel : scripted.Relabeling := fun ρ =>
  { onRtc := fun puppet => puppet
    onChange := fun change => change
    onWriter := fun writer => writer
    onOffer := fun offer => offer
    onPending := fun pending => pending
    onSdp := fun sdp => sdp
    offerToSdpString := fun _ => rfl
    acceptOffer := fun _ _ _ => rfl
    isAlive := fun _ => rfl
    disconnect := fun _ => rfl
    accepts := fun _ _ => rfl
    handleInput := fun _ _ => rfl
    pollOutput := fun _ => rfl
    acceptAnswer := fun _ _ _ => rfl
    sdpApi := fun _ => rfl
    addMedia := fun _ _ _ => rfl
    stopMedia := fun _ _ => rfl
    hasChanges := fun _ => rfl
    apply := fun change => by cases hchanged : change.2 <;> simp [scripted, hchanged]
    release := fun _ => rfl
    writer := fun puppet _ => by cases halive : puppet.alive <;> simp [scripted, halive]
    matchParams := fun _ _ => rfl
    audioLevel := fun _ _ _ => rfl
    write := fun _ _ _ _ _ => rfl
    requestKeyframe := fun _ _ _ => rfl }

namespace Engine

/-- **Room isolation.** What is left of a run when only the room `name` counts
is a run, and at every moment it shows the room as the whole run does. -/
theorem run_isolated (relabel : S.Relabeling) (name : String) {now : Instant}
    {events : List (Event S)} {engine : Engine S}
    (hrun : (machine S config).run (start config now) events = some engine) :
    ∃ ρ : PeerId ↪ PeerId, ∀ before after, events = before ++ after →
      isolated name ρ config now before <+: isolated name ρ config now events ∧
      ∃ engine₁ engine₂, (machine S config).run (start config now) before = some engine₁ ∧
        (machine S config).run (start config now) (isolated name ρ config now before) =
          some engine₂ ∧
        Shows (relabel ρ) name engine₁ engine₂ ∧
        ∀ request seed rest, after = .command (.join request) seed :: rest →
          request.claims.room = name →
          (engine₂.handleJoin request seed).2 =
            (engine₁.handleJoin request seed).2.rename (relabel ρ) := by
  have hwatched := Watched.run_engine config (Watched.start config now) events
  obtain ⟨final, hfinal, -⟩ := Option.map_eq_some_iff.mp (hwatched.symm.trans hrun)
  refine ⟨numbering (final.own name), ?_⟩
  generalize relabel (numbering (final.own name)) = L
  rintro before after rfl
  obtain ⟨mid, hmid, hrest⟩ :=
    Option.bind_eq_some_iff.mp ((Lib.Machine.run_append _ _ before after).symm.trans hfinal)
  have hahead : mid.own name <+: final.own name :=
    Lib.Machine.run_backward (P := fun watched => watched.own name <+: final.own name)
      (fun _ _ _ => Watched.own_backward) hrest List.prefix_rfl
  obtain ⟨mirror, hmirror, hshown⟩ := Lib.Machine.run_thin
    (P := fun watched : Watched S => watched.own name <+: final.own name)
    (R := Mirrored L name) (fun _ _ _ => Watched.own_backward)
    (fun _ _ _ _ h hown hstep => h.step hstep (h.accounts.number hstep hown))
    (Mirrored.start now) hmid hahead
  have hengine : (machine S config).run (start config now) before = some mid.engine :=
    (Watched.run_engine config (Watched.start config now) before).trans
      (by rw [hmid, Option.map_some])
  refine ⟨?_, mid.engine, mirror, hengine, hmirror, hshown.shows, ?_⟩
  · rw [isolated, isolated, Lib.Machine.thin_append _ _ hmid]
    exact List.prefix_append _ _
  · rintro request seed rest rfl hroom
    obtain ⟨next, hstep, hlater⟩ := Option.bind_eq_some_iff.mp hrest
    have hown := Lib.Machine.run_backward
      (P := fun watched : Watched S => watched.own name <+: final.own name)
      (fun _ _ _ => Watched.own_backward) hlater List.prefix_rfl
    exact hshown.handleJoin_outcome hroom (hshown.accounts.number hstep hown)

theorem run_isolated_pair :
    ∃ (events : List (Event scripted)) (engine : Engine scripted),
      (machine scripted Puppet.config).run (start Puppet.config 0) events = some engine ∧
      engine.rooms.keys.length = 2 ∧
      ∃ ρ : PeerId ↪ PeerId, ∀ before after, events = before ++ after →
        isolated "red" ρ Puppet.config 0 before <+: isolated "red" ρ Puppet.config 0 events ∧
        ∃ engine₁ engine₂,
          (machine scripted Puppet.config).run (start Puppet.config 0) before = some engine₁ ∧
          (machine scripted Puppet.config).run (start Puppet.config 0)
            (isolated "red" ρ Puppet.config 0 before) = some engine₂ ∧
          Shows (Puppet.relabel ρ) "red" engine₁ engine₂ ∧
          ∀ request seed rest, after = .command (.join request) seed :: rest →
            request.claims.room = "red" →
            (engine₂.handleJoin request seed).2 =
              (engine₁.handleJoin request seed).2.rename (Puppet.relabel ρ) := by
  -- Ann is alone in the blue room; Bob and Carl are in the red one
  let events : List (Event scripted) :=
    [.command (Puppet.joins "ann" "blue" "a").1 "a", .command (Puppet.joins "bob" "red" "b").1 "b",
      .command (.mute ⟨1⟩ true) "", .command (Puppet.joins "carl" "red" "c").1 "c",
      .readOnce 0 ⟨"b", [Puppet.announces "0" .audio]⟩ ["red", "blue"],
      .pollRooms 0 ["blue", "red"] fun _ _ => List.replicate 8 0, .command (.leave ⟨2⟩) ""]
  obtain ⟨engine, hrun, hrooms⟩ := (Option.any_eq_true _ _).mp (by decide +kernel :
    ((machine scripted Puppet.config).run (start Puppet.config 0) events).any
      (fun engine => engine.rooms.keys.length = 2) = true)
  exact ⟨events, engine, hrun, of_decide_eq_true hrooms,
    run_isolated Puppet.relabel "red" hrun⟩

end Engine

end FerriteSfu
