import FerriteSfu.Call.Departures
import FerriteSfu.Isolation.Run
import FerriteSfu.Lib.Lockstep

/-!
What becomes of a run when the maps are visited in another order.

The rooms are kept in a hash map, which is visited in no order a program can
rely on. The calls of a step do not look at that order, so two runs that differ
in it alone show every room in the same states; only the reports of different
rooms may change places.
-/

namespace FerriteSfu

variable {S : Str0m} {config : Config}

open ReportEvent (joined)

/-- The same event, with its rooms visited in another order. -/
inductive Event.Reordered : Event S → Event S → Prop
  | command (command : Command) (seed : S.Seed) :
      Reordered (.command command seed) (.command command seed)
  | pollRooms (now : Instant) {order order' : List String} (h : order.Perm order')
      (clock : String → ℕ → List Instant) :
      Reordered (.pollRooms now order clock) (.pollRooms now order' clock)
  | reportConnections {order order' : List String} (h : order.Perm order') :
      Reordered (.reportConnections order) (.reportConnections order')
  | reap (now : Instant) {order order' : List String} (h : order.Perm order') :
      Reordered (.reap now order) (.reap now order')
  | tickSpeaking (now : Instant) {order order' : List String} (h : order.Perm order') :
      Reordered (.tickSpeaking now order) (.tickSpeaking now order')
  | readOnce (now : Instant) (datagram : S.Datagram) {order order' : List String}
      (h : order.Perm order') : Reordered (.readOnce now datagram order)
        (.readOnce now datagram order')
  | advanceTime (now : Instant) {order order' : List String} (h : order.Perm order') :
      Reordered (.advanceTime now order) (.advanceTime now order')

theorem Event.Reordered.order {event event' : Event S} (h : event.Reordered event')
    {order' : List String} (horder : event'.order = some order') :
    ∃ order, event.order = some order ∧ order.Perm order' := by
  cases h with
  | command => cases horder
  | pollRooms _ h | reportConnections h | reap _ h | tickSpeaking _ h | readOnce _ _ h
  | advanceTime _ h =>
      cases horder
      exact ⟨_, rfl, h⟩

namespace Engine

/-- Some peer of the room accepts the datagram. -/
def accepts (input : S.Input) (engine : Engine S) (name : String) : Bool :=
  ((engine.rooms.lookup name).map fun room => room.peers.any (Peer.accepts input)).getD false

/-- A datagram is accepted in one room only, that of the instance that owns it. -/
def OneRoom (engine : Engine S) : Event S → Prop
  | .readOnce now datagram _ => ∀ name name', engine.accepts (.receive now datagram) name = true →
      engine.accepts (.receive now datagram) name' = true → name = name'
  | _ => True

/-- Two engines that show every room in the same state. -/
structure Alike (engine engine' : Engine S) : Prop where
  sound : engine.Sound
  sound' : engine'.Sound
  config : engine'.config = engine.config
  lastSpeaking : engine'.lastSpeaking = engine.lastSpeaking
  calls : ∀ name, engine'.call name = engine.call name

theorem find?_perm {p : String → Bool} {order order' : List String} (h : order.Perm order')
    (hone : ∀ name name', p name = true → p name' = true → name = name') :
    order.find? p = order'.find? p := by
  cases hfind : order.find? p with
  | none =>
      refine (List.find?_eq_none.mpr fun name hname => ?_).symm
      exact List.find?_eq_none.mp hfind name (h.mem_iff.mpr hname)
  | some name =>
      have hname : name ∈ order' := h.mem_iff.mp (List.mem_of_find?_eq_some hfind)
      cases hfind' : order'.find? p with
      | none => exact absurd (List.find?_some hfind) (List.find?_eq_none.mp hfind' name hname)
      | some name' =>
          rw [hone name name' (List.find?_some hfind) (List.find?_some hfind')]

namespace Alike

variable {engine engine' : Engine S}

theorem keys (h : Alike engine engine') : engine.rooms.keys.Perm engine'.rooms.keys := by
  refine (List.perm_ext_iff_of_nodup engine.rooms.nodupKeys engine'.rooms.nodupKeys).mpr
    fun name => ?_
  have hroom : engine'.rooms.lookup name = engine.rooms.lookup name :=
    congrArg Call.room (h.calls name)
  change name ∈ engine.rooms ↔ name ∈ engine'.rooms
  rw [← AList.lookup_isSome, ← AList.lookup_isSome, hroom]

/-- An event means the same to every room, however its rooms are ordered. -/
theorem callEvent (h : Alike engine engine') {event event' : Event S}
    (hevent : event.Reordered event') (hone : engine.OneRoom event) (name : String) :
    engine'.callEvent name event' = engine.callEvent name event := by
  cases hevent with
  | command command seed =>
      cases command with
      | join request => simp only [Engine.callEvent, h.calls, h.config]
      | answer | mute | screen | leave | shutdown => rfl
  | pollRooms | reportConnections | reap | advanceTime => rfl
  | tickSpeaking => simp only [Engine.callEvent, h.lastSpeaking]
  | @readOnce now datagram order order' horder =>
      have hsame : engine'.accepts (.receive now datagram) =
          engine.accepts (.receive now datagram) := by
        funext other
        have hroom : engine'.rooms.lookup other = engine.rooms.lookup other :=
          congrArg Call.room (h.calls other)
        rw [accepts, hroom, accepts]
      have hreceiver : engine'.receiver (.receive now datagram) order' =
          engine.receiver (.receive now datagram) order := by
        change order'.find? (engine'.accepts _) = order.find? (engine.accepts _)
        rw [hsame, find?_perm horder hone]
      simp only [Engine.callEvent, hreceiver]

/-- **A step in another order can be taken too, and it leads to the same rooms.** -/
theorem step (h : Alike engine engine') {event event' : Event S}
    (hevent : event.Reordered event') (hone : engine.OneRoom event) {next : Engine S}
    (hstep : engine.step event = some next) :
    ∃ next', engine'.step event' = some next' ∧ Alike next next' := by
  have hcalls := (h.sound.step_calls hstep).2.2
  obtain ⟨hvisits, -⟩ := step_eq_some hstep
  have horder : ∀ order', event'.order = some order' → order'.Perm engine'.rooms.keys := by
    intro order' horder'
    obtain ⟨order, horder, hperm⟩ := hevent.order horder'
    exact (hperm.symm.trans (hvisits order horder)).trans h.keys
  have hpolls : ∀ now order' clock, event' = .pollRooms now order' clock → ∀ name ∈ order',
      ((engine'.call name).poll (clock name)).isSome := by
    rintro now order' clock rfl name -
    cases hevent with
    | pollRooms =>
        have hcall := hcalls name
        simp only [CallStep, Engine.callEvent, Call.step] at hcall
        rw [h.calls, hcall]
        rfl
  obtain ⟨next', hnext'⟩ := h.sound'.step_isSome horder hpolls
  refine ⟨next', hnext', h.sound.step hstep, h.sound'.step hnext', ?_, ?_, fun name => ?_⟩
  · rw [(h.sound'.step_calls hnext').2.1, (h.sound.step_calls hstep).2.1, h.config]
  · rw [step_lastSpeaking hnext', step_lastSpeaking hstep, h.lastSpeaking]
    cases hevent <;> rfl
  · have hcall := hcalls name
    have hcall' := (h.sound'.step_calls hnext').2.2 name
    unfold CallStep at hcall hcall'
    rw [h.callEvent hevent hone, h.calls] at hcall'
    rcases hev : engine.callEvent name event with _ | ev
    · simp only [hev] at hcall hcall'
      rw [hcall', hcall]
    · simp only [hev] at hcall hcall'
      rw [h.config] at hcall'
      exact Option.some.inj (hcall'.symm.trans hcall)

/-- Rooms in the same states were reported on in the same words. -/
theorem reports (h : Alike engine engine') : engine'.reports.Perm engine.reports :=
  List.perm_of_filter_key (g := fun report : ReportEvent => report.room.name)
    fun name => congrArg Call.reports (h.calls name)

theorem peerRooms (h : Alike engine engine') (id : PeerId) :
    engine'.peerRooms.lookup id = engine.peerRooms.lookup id := by
  refine Option.ext fun name => ?_
  have hiff : ∀ {engine : Engine S}, engine.Sound → ∀ name,
      engine.peerRooms.lookup id = some name ↔ id ∈ (engine.call name).peers.map Peer.id :=
    fun hsound _ => hsound.mem_call.symm
  rw [hiff h.sound', hiff h.sound, h.calls]

end Alike

/-- **The order in which the maps are visited decides nothing.** With the rooms of
any of its events in another order a run can still be taken. It leads to the same
rooms, and every room is reported on in the same words. -/
theorem run_reordered {began : Instant} {events events' : List (Event S)} {engine : Engine S}
    (hevents : List.Forall₂ Event.Reordered events events')
    (hone : (machine S config).Along OneRoom (start config began) events)
    (hrun : (machine S config).run (start config began) events = some engine) :
    ∃ engine', (machine S config).run (start config began) events' = some engine' ∧
      (∀ name, engine'.rooms.lookup name = engine.rooms.lookup name) ∧
      (∀ id, engine'.peerRooms.lookup id = engine.peerRooms.lookup id) ∧
      engine'.nextPeer = engine.nextPeer ∧ engine'.lastSpeaking = engine.lastSpeaking ∧
      engine'.reports.Perm engine.reports ∧
      ∀ name, (engine'.reports.filter fun report => report.room.name = name) =
        engine.reports.filter fun report => report.room.name = name := by
  have hstart : Alike (start config began : Engine S) (start config began) :=
    ⟨.start config began, .start config began, rfl, rfl, fun _ => rfl⟩
  obtain ⟨engine', hrun', halike⟩ := Lib.Machine.run_lockstep (m := machine S config)
    (n := machine S config) (R := Alike) (E := Event.Reordered)
    (fun _ _ _ _ _ h hevent hone hstep => h.step hevent hone hstep) hstart hevents hone hrun
  exact ⟨engine', hrun', fun name => congrArg Call.room (halike.calls name), halike.peerRooms,
    congrArg Call.nextPeer (halike.calls ""), halike.lastSpeaking, halike.reports,
    fun name => congrArg Call.reports (halike.calls name)⟩

/-- Whether at most one room accepts the datagram of an event. -/
def acceptsOnce (engine : Engine S) : Event S → Bool
  | .readOnce now datagram _ =>
      (engine.rooms.keys.filter (engine.accepts (.receive now datagram))).length ≤ 1
  | _ => true

theorem oneRoom_of_acceptsOnce {engine : Engine S} {event : Event S}
    (h : engine.acceptsOnce event = true) : engine.OneRoom event := by
  cases event with
  | readOnce now datagram order =>
      intro name name' hname hname'
      have hmem : ∀ {name : String}, engine.accepts (.receive now datagram) name = true →
          name ∈ engine.rooms.keys.filter (engine.accepts (.receive now datagram)) := by
        intro name hname
        refine List.mem_filter.mpr ⟨?_, hname⟩
        change name ∈ engine.rooms
        rw [← AList.lookup_isSome]
        cases hroom : engine.rooms.lookup name with
        | none => simp [accepts, hroom] at hname
        | some room => rfl
      have hlength := of_decide_eq_true h
      match hnames : engine.rooms.keys.filter (engine.accepts (.receive now datagram)) with
      | [] => exact absurd (hnames ▸ hmem hname) List.not_mem_nil
      | [only] =>
          rw [hnames] at hmem
          rw [List.mem_singleton.mp (hmem hname), List.mem_singleton.mp (hmem hname')]
      | _ :: _ :: _ => simp [hnames] at hlength
  | command | pollRooms | reportConnections | reap | tickSpeaking | advanceTime => trivial

/-- Ann comes to the blue room and Bob to the red one, and both are connected,
while the rooms are visited in the order `order`. -/
def twoRooms (order : List String) : List (Event scripted) :=
  [.command (Puppet.joins "ann" "blue" "a").1 "a", .command (Puppet.joins "bob" "red" "b").1 "b",
    .readOnce 0 ⟨"a", [.iceConnectionStateChange .connected]⟩ order,
    .readOnce 0 ⟨"b", [.iceConnectionStateChange .connected]⟩ order,
    .pollRooms 0 order fun _ _ => List.replicate 8 0, .reportConnections order]

theorem run_reordered_twoRooms :
    ∃ engine engine', (machine scripted Puppet.config).run (start Puppet.config 0)
        (twoRooms ["blue", "red"]) = some engine ∧
      (machine scripted Puppet.config).run (start Puppet.config 0)
        (twoRooms ["red", "blue"]) = some engine' ∧
      engine.reports = [joined "blue" "ann", joined "red" "bob"] ∧
      engine'.reports.Perm engine.reports := by
  obtain ⟨engine, hrun, hreports⟩ := (Option.any_eq_true _ _).mp (by decide +kernel :
    ((machine scripted Puppet.config).runIf acceptsOnce (start Puppet.config 0)
      (twoRooms ["blue", "red"])).any (fun engine =>
        decide (engine.reports = [joined "blue" "ann", joined "red" "bob"])) = true)
  have hswap : ["blue", "red"].Perm ["red", "blue"] := .swap ..
  have hevents : List.Forall₂ Event.Reordered (twoRooms ["blue", "red"])
      (twoRooms ["red", "blue"]) :=
    .cons (.command ..) <| .cons (.command ..) <| .cons (.readOnce _ _ hswap) <|
      .cons (.readOnce _ _ hswap) <| .cons (.pollRooms _ hswap _) <|
        .cons (.reportConnections hswap) .nil
  obtain ⟨engine', hrun', -, -, -, -, hperm, -⟩ := run_reordered hevents
    (Lib.Machine.Along.of_runIf (fun _ _ => oneRoom_of_acceptsOnce) hrun)
    (Lib.Machine.run_of_runIf hrun)
  exact ⟨engine, engine', Lib.Machine.run_of_runIf hrun, hrun', of_decide_eq_true hreports, hperm⟩

end Engine

end FerriteSfu
