import FerriteSfu.Sfu.Engine

/-!
`Engine::run`: the order in which the loop takes its steps.

A turn applies the commands that wait, polls, reports, reaps and ticks, then
blocks until a datagram arrives or the wait it computed is over, and at last
tells every peer the time. A shutdown ends the loop before it polls.
-/

namespace FerriteSfu

variable {S : Str0m}

/-- What one turn of the loop finds: commands, clock readings, visiting orders,
and the datagram it is woken by, if it is. -/
structure Turn (S : Str0m) where
  commands : List (Command × S.Seed)
  pollNow : Instant
  pollOrder : List String
  clock : String → ℕ → List Instant
  reportOrder : List String
  reapNow : Instant
  reapOrder : List String
  tickNow : Instant
  tickOrder : List String
  waitNow : Instant
  heard : Option (Instant × S.Datagram × List String)
  endNow : Instant
  endOrder : List String

namespace Turn

def drainCommands (turn : Turn S) : List (Event S) :=
  turn.commands.map fun command => .command command.1 command.2

/-- The steps between polling and blocking. -/
def settle (turn : Turn S) : List (Event S) :=
  [.reportConnections turn.reportOrder, .reap turn.reapNow turn.reapOrder,
    .tickSpeaking turn.tickNow turn.tickOrder]

/-- The steps after blocking. -/
def wake (turn : Turn S) : List (Event S) :=
  (turn.heard.map fun heard => .readOnce heard.1 heard.2.1 heard.2.2).toList ++
    [.advanceTime turn.endNow turn.endOrder]

/-- All the steps of the turn, in order. -/
def events (turn : Turn S) : List (Event S) :=
  turn.drainCommands ++
    .pollRooms turn.pollNow turn.pollOrder turn.clock :: (turn.settle ++ turn.wake)

def stops (turn : Turn S) : Bool :=
  turn.commands.any fun command =>
    match command.1 with
    | .shutdown => true
    | _ => false

end Turn

namespace Engine

/-- The shortest read timeout the loop sets. -/
def minWait : Duration := Duration.fromMillis 1

/-- The first half of a turn: the engine that is about to block, and for how long. -/
def block (config : Config) (turn : Turn S) (engine : Engine S) : Option (Engine S × Duration) :=
  if turn.stops then none
  else
    ((machine S config).run engine turn.drainCommands).bind fun engine =>
      if engine.visits turn.pollOrder then
        (engine.pollRooms turn.pollNow turn.pollOrder turn.clock).bind fun polled =>
          ((machine S config).run polled.1 turn.settle).map fun engine =>
            (engine, max (polled.2 - turn.waitNow) minWait)
      else none

/-- The media loop, turn by turn. -/
def loop (S : Str0m) (config : Config) : Lib.Machine (Engine S) (Turn S) where
  init engine := ∃ now, engine = start config now
  step engine turn := (engine.block config turn).bind fun blocked =>
    (machine S config).run blocked.1 turn.wake

theorem block_eq_some {config : Config} {turn : Turn S} {engine blocked : Engine S}
    {wait : Duration} (h : engine.block config turn = some (blocked, wait)) :
    ∃ drained polled timeout, (machine S config).run engine turn.drainCommands = some drained ∧
      drained.visits turn.pollOrder = true ∧
      drained.pollRooms turn.pollNow turn.pollOrder turn.clock = some (polled, timeout) ∧
      (machine S config).run polled turn.settle = some blocked ∧
      wait = max (timeout - turn.waitNow) minWait := by
  unfold block at h
  split at h
  · cases h
  · obtain ⟨drained, hdrained, h⟩ := Option.bind_eq_some_iff.mp h
    split at h
    · rename_i hvisits
      obtain ⟨⟨polled, timeout⟩, hpolled, h⟩ := Option.bind_eq_some_iff.mp h
      obtain ⟨settled, hsettled, heq⟩ := Option.map_eq_some_iff.mp h
      cases heq
      exact ⟨drained, polled, timeout, hdrained, hvisits, hpolled, hsettled, rfl⟩
    · cases h

/-- A pass of `poll_rooms` is a step of the machine. -/
theorem step_pollRooms {engine polled : Engine S} {now timeout : Instant} {order : List String}
    {clock : String → ℕ → List Instant} (hvisits : engine.visits order = true)
    (hpolled : engine.pollRooms now order clock = some (polled, timeout)) :
    engine.step (.pollRooms now order clock) = some polled := by
  simp [step, Event.order, hvisits, hpolled]

/-- The engine that is about to block, as the result of the first steps. -/
theorem run_block {config : Config} {turn : Turn S} {engine blocked : Engine S} {wait : Duration}
    (h : engine.block config turn = some (blocked, wait)) :
    (machine S config).run engine (turn.drainCommands ++
      .pollRooms turn.pollNow turn.pollOrder turn.clock :: turn.settle) = some blocked := by
  obtain ⟨drained, polled, timeout, hdrained, hvisits, hpolled, hsettled, -⟩ := block_eq_some h
  rw [Lib.Machine.run_append, hdrained, Option.bind_some, Lib.Machine.run_cons]
  have hstep : (machine S config).step drained
      (.pollRooms turn.pollNow turn.pollOrder turn.clock) = some polled :=
    step_pollRooms hvisits hpolled
  rw [hstep]
  exact hsettled

theorem run_turn {config : Config} {turn : Turn S} {engine engine' : Engine S}
    (h : (loop S config).step engine turn = some engine') :
    (machine S config).run engine turn.events = some engine' := by
  obtain ⟨⟨blocked, wait⟩, hblock, hwake⟩ := Option.bind_eq_some_iff.mp h
  have hevents : turn.events = (turn.drainCommands ++
      .pollRooms turn.pollNow turn.pollOrder turn.clock :: turn.settle) ++ turn.wake := by
    simp [Turn.events]
  rw [hevents, Lib.Machine.run_append, run_block hblock]
  exact hwake

/-- **The loop takes the steps of the machine, in the order of the source.** -/
theorem loop_reachable {config : Config} {engine : Engine S}
    (h : (loop S config).Reachable engine) : (machine S config).Reachable engine := by
  induction h with
  | init hinit => exact .init hinit
  | step hs _ hstep ih => exact Lib.Machine.Reachable.of_run ih (run_turn hstep)

end Engine

end FerriteSfu
