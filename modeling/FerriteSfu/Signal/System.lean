import FerriteSfu.Signal.Session
import FerriteSfu.Lib.Mailbox

/-!
The sessions and the media loop, connected by the queue of commands.

What a session sends stays in the order it was sent; which session the media
loop hears next is left open.
-/

namespace FerriteSfu

variable {S : Str0m}

/-- What every session is given. -/
structure AppState where
  codec : Codec
  sharedSecret : String
  config : Config

structure System (S : Str0m) where
  engine : Engine S
  sessions : ℕ → Session
  /-- The commands under way, each with the session that sent it. -/
  queue : Lib.Mailbox ℕ Command

inductive SystemEvent (S : Str0m)
  /-- A frame, the end of the socket, or the deadline for the first frame. -/
  | read (session : ℕ) (incoming : Option Incoming)
  /-- The answer to a join reaches its session. -/
  | resume (session : ℕ)
  /-- The socket takes no more messages. -/
  | stopWriting (session : ℕ)
  /-- The media loop applies the next command of a session. -/
  | deliver (session : ℕ) (seed : S.Seed)
  /-- The media loop takes any other step. -/
  | loop (event : Event S)

def Event.isCommand : Event S → Bool
  | .command _ _ => true
  | _ => false

namespace System

def start (config : Config) (now : Instant) : System S where
  engine := .start config now
  sessions _ := .opened
  queue := []

/-- What a session has sent that the media loop has not applied yet. -/
def sent (s : ℕ) (system : System S) : List Command := system.queue.sentBy s

def setSession (s : ℕ) (session : Session) (system : System S) : System S :=
  { system with sessions := Function.update system.sessions s session }

def read (app : AppState) (s : ℕ) (incoming : Option Incoming) (system : System S) :
    Option (System S) :=
  ((system.sessions s).read app.codec app.sharedSecret incoming).map fun read =>
    { system.setSession s read.1 with queue := system.queue.post s read.2 }

def deliver (s : ℕ) (seed : S.Seed) (system : System S) : Option (System S) :=
  (system.sent s).head?.map fun command =>
    let applied := system.engine.apply command seed
    let system := { system with
      engine := applied.1
      queue := system.queue.take s }
    match applied.2 with
    | none => system
    | some outcome => system.setSession s ((system.sessions s).answered outcome)

def step (app : AppState) (system : System S) : SystemEvent S → Option (System S)
  | .read s incoming => system.read app s incoming
  | .resume s => (system.sessions s).resume.map fun session => system.setSession s session
  | .stopWriting s =>
      some (system.setSession s { system.sessions s with writing := false })
  | .deliver s seed => system.deliver s seed
  | .loop event =>
      if event.isCommand then none
      else (system.engine.step event).map fun engine => { system with engine := engine }

def machine (S : Str0m) (app : AppState) : Lib.Machine (System S) (SystemEvent S) where
  init system := ∃ now, system = start app.config now
  step := step app

end System

end FerriteSfu
