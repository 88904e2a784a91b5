import FerriteSfu.Isolation.Call
import FerriteSfu.Call.Bystanders
import FerriteSfu.Lib.Thinning

/-!
What is left of a run of the loop when only one room counts.

The joins of other rooms go, and so do the commands of their peers and the
datagrams that reach them. What remains is what concerns the room, the clock,
and the sweeps, which visit no other room. Whose command it is can be told from
the ids handed out so far, so these are watched along the run.
-/

namespace FerriteSfu

variable {S : Str0m}

/-- The command about the renamed peer. -/
def Command.rename (ρ : PeerId ↪ PeerId) : Command → Command
  | .answer peer sdp => .answer (ρ peer) sdp
  | .mute peer muted => .mute (ρ peer) muted
  | .screen peer active => .screen (ρ peer) active
  | .leave peer => .leave (ρ peer)
  | .join request => .join request
  | .shutdown => .shutdown

/-- The event, with its peer renamed and its sweep restricted to the room `name`. -/
def Event.restrict (name : String) (ρ : PeerId ↪ PeerId) : Event S → Event S
  | .command cmd seed => .command (cmd.rename ρ) seed
  | .pollRooms now order clock => .pollRooms now (order.filter fun room => room = name) clock
  | .reportConnections order => .reportConnections (order.filter fun room => room = name)
  | .reap now order => .reap now (order.filter fun room => room = name)
  | .tickSpeaking now order => .tickSpeaking now (order.filter fun room => room = name)
  | .readOnce now datagram order =>
      .readOnce now datagram (order.filter fun room => room = name)
  | .advanceTime now order => .advanceTime now (order.filter fun room => room = name)

theorem Event.restrict_order (name : String) (ρ : PeerId ↪ PeerId) (event : Event S) :
    (event.restrict name ρ).order =
      event.order.map fun order => order.filter fun room => room = name := by
  cases event <;> rfl

/-- The media loop, with the ids it has handed out and the rooms they were meant for. -/
structure Watched (S : Str0m) where
  engine : Engine S
  handed : List (PeerId × String)

namespace Watched

def start (config : Config) (now : Instant) : Watched S where
  engine := Engine.start config now
  handed := []

def machine (S : Str0m) (config : Config) : Lib.Machine (Watched S) (Event S) where
  init watched := ∃ now, watched = start config now
  step watched event := (watched.engine.step event).map fun engine =>
    { engine := engine, handed := watched.handed ++ watched.engine.hands event }

/-- The ids handed out for the room `name`. -/
def own (name : String) (watched : Watched S) : List PeerId :=
  (watched.handed.filter fun entry => entry.2 = name).map (·.1)

/-- Whether a command is about another room: a join of it, or a command of a
peer that was given its id for it. -/
def isForeignCommand (name : String) (watched : Watched S) : Command → Bool
  | .join request => request.claims.room ≠ name
  | command => command.target.any fun id =>
      watched.handed.any fun entry => entry.1 = id && entry.2 ≠ name

/-- Whether an event is a command about another room, or a datagram that reaches
a peer of another room. -/
def isForeign (name : String) (watched : Watched S) : Event S → Bool
  | .command command _ => watched.isForeignCommand name command
  | .readOnce now datagram order =>
      (watched.engine.receiver (.receive now datagram) order).any fun room => room ≠ name
  | _ => false

/-- What is left of an event when only the room `name` counts. -/
def only (name : String) (ρ : PeerId ↪ PeerId) (watched : Watched S) (event : Event S) :
    Option (Event S) :=
  if watched.isForeign name event then none else some (event.restrict name ρ)

end Watched

/-- What is left of a run when only the room `name` counts. -/
def isolated (name : String) (ρ : PeerId ↪ PeerId) (config : Config) (now : Instant)
    (events : List (Event S)) : List (Event S) :=
  (Watched.machine S config).thin (Watched.only name ρ) (Watched.start config now) events

/-! ### Numbering the peers of a room -/

/-- Numbers the ids of a list from 1 on, in the order of the list, and the others
above them. -/
def numbering (ids : List PeerId) : PeerId ↪ PeerId where
  toFun id := if id ∈ ids then ⟨ids.idxOf id + 1⟩ else ⟨ids.length + 1 + id.val⟩
  inj' a b h := by
    have hlt : ∀ id ∈ ids, ids.idxOf id < ids.length := fun id => List.idxOf_lt_length_iff.mpr
    dsimp only at h
    by_cases ha : a ∈ ids <;> by_cases hb : b ∈ ids
    · rw [if_pos ha, if_pos hb, PeerId.mk.injEq] at h
      exact (List.idxOf_inj ha).mp (Nat.succ.inj h)
    · rw [if_pos ha, if_neg hb, PeerId.mk.injEq] at h
      have := hlt a ha
      omega
    · rw [if_neg ha, if_pos hb, PeerId.mk.injEq] at h
      have := hlt b hb
      omega
    · rw [if_neg ha, if_neg hb, PeerId.mk.injEq] at h
      exact PeerId.ext (by omega)

theorem numbering_append {before : List PeerId} {id : PeerId} (h : id ∉ before)
    (after : List PeerId) : numbering (before ++ id :: after) id = ⟨before.length + 1⟩ := by
  simp [numbering, List.idxOf_append_of_notMem h]

/-! ### The speaking tick -/

namespace Engine

/-- The time of the last speaking tick after an event. -/
def lastTick (last : Instant) : Event S → Instant
  | .tickSpeaking now _ => if now - last < speakingTick then last else now
  | _ => last

theorem lastTick_restrict (last : Instant) (name : String) (ρ : PeerId ↪ PeerId)
    (event : Event S) : lastTick last (event.restrict name ρ) = lastTick last event := by
  cases event <;> rfl

theorem handleJoin_lastSpeaking (request : JoinRequest) (seed : S.Seed) (engine : Engine S) :
    (engine.handleJoin request seed).1.lastSpeaking = engine.lastSpeaking := by
  rcases handleJoin_cases request seed engine with ⟨-, -, hjoined, -⟩ | ⟨-, -, hjoined, -⟩ |
    ⟨-, -, offer, answer, hjoined, -⟩
  all_goals simp only [hjoined, entered]

theorem dropPeer_lastSpeaking (id : PeerId) (engine : Engine S) :
    (engine.dropPeer id).lastSpeaking = engine.lastSpeaking := by
  rw [dropPeer_eq]

theorem reap_lastSpeaking (now : Instant) (order : List String) (engine : Engine S) :
    (engine.reap now order).lastSpeaking = engine.lastSpeaking := by
  rw [reap_eq]
  generalize engine.deadIds now order = dead
  induction dead generalizing engine with
  | nil => rfl
  | cons id dead ih => exact (ih (engine.dropPeer id)).trans (dropPeer_lastSpeaking id engine)

theorem step_lastSpeaking {engine engine' : Engine S} {event : Event S}
    (hstep : engine.step event = some engine') :
    engine'.lastSpeaking = lastTick engine.lastSpeaking event := by
  obtain ⟨-, heq⟩ := step_eq_some hstep
  cases event with
  | command command seed =>
      cases heq
      cases command with
      | join request => exact handleJoin_lastSpeaking request seed engine
      | answer id sdp =>
          rw [Engine.apply, handleAnswer_eq]
          rfl
      | mute id muted =>
          rw [Engine.apply, setState_eq]
          rfl
      | screen id active =>
          rw [Engine.apply, setState_eq]
          rfl
      | leave id => exact dropPeer_lastSpeaking id engine
      | shutdown => rfl
  | pollRooms now order clock =>
      obtain ⟨polled, hpoll, rfl⟩ := Option.map_eq_some_iff.mp heq
      rw [foldlM_pollRoom_eq hpoll]
      rfl
  | reportConnections order =>
      cases heq
      rw [reportConnections_eq]
      rfl
  | reap now order =>
      cases heq
      exact reap_lastSpeaking now order engine
  | tickSpeaking now order =>
      cases heq
      simp only [tickSpeaking, lastTick]
      split <;> rfl
  | readOnce now datagram order =>
      cases heq
      rw [readOnce_eq]
      rfl
  | advanceTime now order =>
      cases heq
      rfl

end Engine

end FerriteSfu
