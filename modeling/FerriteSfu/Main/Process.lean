import FerriteSfu.Signal.Dialogue
import FerriteSfu.Signal.Authentication
import Mathlib.Data.List.Induction

/-!
`main`: the process, from the start of the media loop on.

The media loop runs as soon as it is spawned. `main` announces the boot, serves
sockets until it is interrupted, and then sends a shutdown behind whatever the
sessions have sent. It returns then, or before that if it cannot serve. With it go
the tasks of the sessions and all the senders of commands, and the process ends,
wherever the media loop stands. There is one channel for commands and one for
reports. When the loop is over, nothing that is sent finds anyone to take it.
-/

namespace FerriteSfu

variable {S : Str0m}

namespace Session

/-- The task reads on, when the media loop may be gone: what is sent then is
lost, and ends the session. -/
def hear (codec : Codec) (secret : String) (up : Bool) (incoming : Option Incoming)
    (session : Session) : Option (Session × List Command) :=
  match session.phase with
  | .joining =>
      match codec.admitJoin secret incoming with
      | .ok request =>
          if up then some ({ session with phase := .admitting }, [.join request])
          else
            some ({ session with
              phase := .closed
              out := session.out ++ [.error "unavailable" "The call service is restarting."] },
              [.join request])
      | .error refusal =>
          some ({ session with phase := .closed, out := session.out ++ refusal }, [])
  | .live peer =>
      match incoming with
      | none => none
      | some (.text text) =>
          let forwarded := codec.forwardTo text peer up session.writing
          let session := { session with out := session.out ++ forwarded.replies }
          if forwarded.continues then some (session, forwarded.command.toList)
          else some ({ session with phase := .closed }, forwarded.command.toList ++ [.leave peer])
      | some .other => some (session, [])
      | some .close | some .failed | some .ended =>
          some ({ session with phase := .closed }, [.leave peer])
  | .admitting | .closed => none

/-- The task takes the answer to its join, or learns that the media loop has let
go of the request. -/
def await (up : Bool) (session : Session) : Option Session :=
  match session.phase, session.assigned with
  | .admitting, none => if up then none else some { session with phase := .closed }
  | _, _ => session.resume

/-- Reading leaves the answer to the join alone. -/
theorem hear_assigned {codec : Codec} {secret : String} {up : Bool} {incoming : Option Incoming}
    {session session' : Session} {commands : List Command}
    (h : session.hear codec secret up incoming = some (session', commands)) :
    session'.assigned = session.assigned := by
  unfold hear at h
  split at h
  · split at h
    · split at h <;> cases h <;> rfl
    · cases h
      rfl
  · split at h
    · cases h
    · dsimp only at h
      split at h <;> cases h <;> rfl
    all_goals
      cases h
      rfl
  all_goals cases h

theorem await_assigned {up : Bool} {session session' : Session}
    (h : session.await up = some session') : session'.assigned = session.assigned := by
  unfold await resume at h
  split at h
  · split at h <;> cases h
    rfl
  · split at h <;> cases h <;> rfl

theorem await_up (session : Session) : session.await true = session.resume := by
  unfold await
  split
  · rename_i hphase hassigned
    simp [resume, hphase, hassigned]
  · rfl

end Session

def Command.isShutdown : Command → Bool
  | .shutdown => true
  | _ => false

/-- A session sends no shutdown. -/
theorem Session.read_shutdown {app : AppState} {incoming : Option Incoming}
    {session session' : Session} {commands : List Command}
    (h : session.read app.codec app.sharedSecret incoming = some (session', commands)) :
    ∀ command ∈ commands, command.isShutdown = false := by
  intro command hmem
  rcases read_commands h with ⟨-, request, -, rfl⟩ | ⟨peer, htarget⟩
  · rw [List.mem_singleton.mp hmem]
    rfl
  · cases hcommand : command.isShutdown with
    | false => rfl
    | true =>
        cases command <;> cases hcommand
        cases htarget _ hmem

/-- How far `main` has come. -/
inductive Stage
  | spawned
  | announced
  | serving
  | interrupted
  /-- It has sent the shutdown. -/
  | finished
  /-- The runtime is gone, and with it the tasks and every sender of commands. -/
  | returned
  /-- The process is over. -/
  | exited
  deriving DecidableEq, Repr

/-- The thread of the media loop. -/
inductive Media
  | running
  /-- It has taken the shutdown, or found that nobody can send it anything. -/
  | stopped
  /-- The socket refused a read timeout. -/
  | failed
  deriving DecidableEq, Repr

structure Process (S : Str0m) where
  stage : Stage
  media : Media
  engine : Engine S
  /-- How many sockets were accepted. -/
  accepted : ℕ
  sessions : ℕ → Session
  /-- The commands that were sent and not taken; `main` sends under no number. -/
  queue : Lib.Mailbox (Option ℕ) Command
  /-- Everything that was sent to the task that reports. -/
  channel : List ReportEvent

inductive ProcessEvent (S : Str0m)
  | announce
  | serve
  | accept
  | read (session : ℕ) (incoming : Option Incoming)
  | resume (session : ℕ)
  | stopWriting (session : ℕ)
  | interrupt
  | finish
  /-- `main` cannot bind its listener, or cannot go on serving. -/
  | giveUp
  | returns
  | exit
  /-- The media loop takes the next command. -/
  | receive (seed : S.Seed)
  /-- The media loop takes any other step. -/
  | loop (event : Event S)
  | fail

/-- The session `s` finds out what became of its join. -/
def ProcessEvent.IsResume (s : ℕ) : ProcessEvent S → Prop
  | .resume s' => s' = s
  | _ => False

namespace Process

/-- Announced once on boot: every room this process was carrying is gone. -/
def boot : ReportEvent := .new .sfuStarted ""

def start (config : Config) (now : Instant) : Process S where
  stage := .spawned
  media := .running
  engine := .start config now
  accepted := 0
  sessions _ := .opened
  queue := []
  channel := []

/-- Whether what is sent to the media loop is taken. -/
def up (process : Process S) : Bool := process.media = .running

/-- Whether the tasks are there, those of the sessions among them. -/
def hasTasks (process : Process S) : Bool :=
  decide (process.stage ≠ .returned ∧ process.stage ≠ .exited)

/-- Whether the media loop goes on, as long as there is a process. -/
def loops (process : Process S) : Bool := process.up && decide (process.stage ≠ .exited)

def send (sender : Option ℕ) (commands : List Command) (process : Process S) : Process S :=
  if process.up then { process with queue := process.queue.post sender commands } else process

def setSession (s : ℕ) (session : Session) (process : Process S) : Process S :=
  { process with sessions := Function.update process.sessions s session }

/-- The media loop goes on, and what it reports goes into the channel. -/
def advance (engine : Engine S) (process : Process S) : Process S :=
  { process with
    engine := engine
    channel := process.channel ++ engine.reports.drop process.engine.reports.length }

def read (app : AppState) (s : ℕ) (incoming : Option Incoming) (process : Process S) :
    Option (Process S) :=
  if process.hasTasks ∧ s < process.accepted then
    ((process.sessions s).hear app.codec app.sharedSecret process.up incoming).map fun heard =>
      (process.setSession s heard.1).send (some s) heard.2
  else none

/-- One round of `drain_commands`. An empty channel is left alone, or ends the loop
when all its senders are gone. -/
def receive (seed : S.Seed) (process : Process S) : Option (Process S) :=
  match process.queue with
  | [] => if process.hasTasks then none else some { process with media := .stopped }
  | (sender, command) :: queue =>
      let process := { process with queue := queue }
      if command.isShutdown then some { process with media := .stopped }
      else
        let applied := process.engine.apply command seed
        let process := process.advance applied.1
        match applied.2, sender with
        | some outcome, some s =>
            some (process.setSession s ((process.sessions s).answered outcome))
        | _, _ => some process

def step (app : AppState) (process : Process S) : ProcessEvent S → Option (Process S)
  | .announce =>
      if process.stage = .spawned then
        some { process with stage := .announced, channel := process.channel ++ [boot] }
      else none
  | .serve => if process.stage = .announced then some { process with stage := .serving } else none
  | .accept =>
      if process.stage = .serving then some { process with accepted := process.accepted + 1 }
      else none
  | .read s incoming => process.read app s incoming
  | .resume s =>
      if process.hasTasks then
        ((process.sessions s).await process.up).map fun session => process.setSession s session
      else none
  | .stopWriting s =>
      if process.hasTasks ∧ s < process.accepted then
        some (process.setSession s { process.sessions s with writing := false })
      else none
  | .interrupt =>
      if process.stage = .serving then some { process with stage := .interrupted } else none
  | .finish =>
      if process.stage = .interrupted then
        some ({ process with stage := .finished }.send none [.shutdown])
      else none
  | .giveUp =>
      if process.stage = .announced ∨ process.stage = .serving then
        some { process with stage := .returned }
      else none
  | .returns =>
      if process.stage = .finished then some { process with stage := .returned } else none
  | .exit => if process.stage = .returned then some { process with stage := .exited } else none
  | .receive seed => if process.loops then process.receive seed else none
  | .loop event =>
      if process.loops && !event.isCommand then
        (process.engine.step event).map fun engine => process.advance engine
      else none
  | .fail => if process.loops then some { process with media := .failed } else none

def machine (S : Str0m) (app : AppState) : Lib.Machine (Process S) (ProcessEvent S) where
  init process := ∃ now, process = start app.config now
  step := step app

/-! ### What a process shows of itself -/

variable {app : AppState}

@[simp] theorem setSession_engine (s : ℕ) (session : Session) (process : Process S) :
    (process.setSession s session).engine = process.engine := rfl

@[simp] theorem setSession_queue (s : ℕ) (session : Session) (process : Process S) :
    (process.setSession s session).queue = process.queue := rfl

@[simp] theorem setSession_up (s : ℕ) (session : Session) (process : Process S) :
    (process.setSession s session).up = process.up := rfl

theorem send_of_up {sender : Option ℕ} {commands : List Command} {process : Process S}
    (h : process.up = true) :
    process.send sender commands =
      { process with queue := process.queue.post sender commands } := if_pos h

theorem send_of_down {sender : Option ℕ} {commands : List Command} {process : Process S}
    (h : process.up = false) : process.send sender commands = process := by
  simp [send, h]

theorem send_queue (sender : Option ℕ) (commands : List Command) (process : Process S) :
    (process.send sender commands).queue =
      if process.up then process.queue.post sender commands else process.queue := by
  unfold send
  split <;> rfl

/-- Sending changes nothing but the queue. -/
theorem send_eq (sender : Option ℕ) (commands : List Command) (process : Process S) :
    process.send sender commands =
      { process with queue := (process.send sender commands).queue } := by
  unfold send
  split <;> rfl

/-! ### The steps of the tasks and of the loop -/

variable {process process' : Process S}

theorem step_read {s : ℕ} {incoming : Option Incoming}
    (h : step app process (.read s incoming) = some process') :
    ∃ session commands, process.hasTasks = true ∧ s < process.accepted ∧
      (process.sessions s).hear app.codec app.sharedSecret process.up incoming =
        some (session, commands) ∧
      process' = (process.setSession s session).send (some s) commands := by
  simp only [step, read] at h
  split at h
  · rename_i hthere
    obtain ⟨⟨session, commands⟩, hhear, rfl⟩ := Option.map_eq_some_iff.mp h
    exact ⟨session, commands, hthere.1, hthere.2, hhear, rfl⟩
  · cases h

theorem step_resume {s : ℕ} (h : step app process (.resume s) = some process') :
    ∃ session, process.hasTasks = true ∧ (process.sessions s).await process.up = some session ∧
      process' = process.setSession s session := by
  simp only [step] at h
  split at h
  · rename_i hthere
    obtain ⟨session, hawait, rfl⟩ := Option.map_eq_some_iff.mp h
    exact ⟨session, hthere, hawait, rfl⟩
  · cases h

theorem step_receive {seed : S.Seed} (h : step app process (.receive seed) = some process') :
    process.up = true ∧ process.stage ≠ .exited ∧ process.receive seed = some process' := by
  simp only [step] at h
  split at h
  · rename_i hloops
    obtain ⟨hup, hstage⟩ := Bool.and_eq_true_iff.mp hloops
    exact ⟨hup, of_decide_eq_true hstage, h⟩
  · cases h

theorem step_loop {event : Event S} (h : step app process (.loop event) = some process') :
    ∃ engine, process.up = true ∧ event.isCommand = false ∧
      process.engine.step event = some engine ∧ process' = process.advance engine := by
  simp only [step] at h
  split at h
  · rename_i hloop
    obtain ⟨hloops, hcommand⟩ := Bool.and_eq_true_iff.mp hloop
    obtain ⟨engine, hengine, rfl⟩ := Option.map_eq_some_iff.mp h
    exact ⟨engine, (Bool.and_eq_true_iff.mp hloops).1, by simpa using hcommand, hengine, rfl⟩
  · cases h

theorem step_fail (h : step app process .fail = some process') :
    process.up = true ∧ process' = { process with media := .failed } := by
  simp only [step] at h
  split at h <;> cases h
  rename_i hloops
  exact ⟨(Bool.and_eq_true_iff.mp hloops).1, rfl⟩

/-- Whether it is the thread of the media loop that takes the step. -/
def isMedia : ProcessEvent S → Bool
  | .receive _ | .loop _ | .fail => true
  | .announce | .serve | .accept | .read _ _ | .resume _ | .stopWriting _ | .interrupt | .finish
  | .giveUp | .returns | .exit => false

/-- `main` and the sessions leave the media loop alone, but for its queue. -/
theorem step_tasks {event : ProcessEvent S} (hevent : isMedia event = false)
    (hstep : step app process event = some process') :
    process'.engine = process.engine ∧ process'.media = process.media := by
  cases event with
  | read s incoming =>
      obtain ⟨session, commands, -, -, -, rfl⟩ := step_read hstep
      rw [send_eq]
      exact ⟨rfl, rfl⟩
  | resume s =>
      obtain ⟨session, -, -, rfl⟩ := step_resume hstep
      exact ⟨rfl, rfl⟩
  | finish =>
      simp only [step] at hstep
      split at hstep <;> cases hstep
      rw [send_eq]
      exact ⟨rfl, rfl⟩
  | announce | serve | accept | stopWriting | interrupt | giveUp | returns | exit =>
      simp only [step] at hstep
      split at hstep <;> cases hstep
      exact ⟨rfl, rfl⟩
  | receive | loop | fail => cases hevent

/-- What the media loop does with the command it takes, or with a channel that nobody
sends to any more. -/
theorem receive_cases {seed : S.Seed} (h : process.receive seed = some process') :
    (process.queue = [] ∧ process.hasTasks = false ∧
        process' = { process with media := .stopped }) ∨
    ∃ sender command queue, process.queue = (sender, command) :: queue ∧
      process'.queue = queue ∧ process'.stage = process.stage ∧
      process'.accepted = process.accepted ∧
      ((command.isShutdown = true ∧ process' = { process with media := .stopped, queue := queue }) ∨
        command.isShutdown = false ∧ process'.media = process.media ∧
          process'.engine = (process.engine.apply command seed).1 ∧
          process'.channel = process.channel ++
            (process.engine.apply command seed).1.reports.drop process.engine.reports.length ∧
          ∀ s, process'.sessions s = match (process.engine.apply command seed).2 with
            | none => process.sessions s
            | some outcome =>
                if sender = some s then (process.sessions s).answered outcome
                else process.sessions s) := by
  unfold receive at h
  split at h
  · rename_i hqueue
    split at h <;> cases h
    rename_i hgone
    exact .inl ⟨hqueue, by simpa using hgone, rfl⟩
  · rename_i sender command queue hqueue
    refine .inr ⟨sender, command, queue, hqueue, ?_⟩
    dsimp only at h
    split at h
    · rename_i hshutdown
      cases h
      exact ⟨rfl, rfl, rfl, .inl ⟨hshutdown, rfl⟩⟩
    · rename_i hshutdown
      have hcommand : command.isShutdown = false := by simpa using hshutdown
      rcases houtcome : (process.engine.apply command seed).2 with _ | outcome
      · simp only [houtcome] at h
        cases h
        exact ⟨rfl, rfl, rfl, .inr ⟨hcommand, rfl, rfl, rfl, fun _ => rfl⟩⟩
      · cases sender with
        | none =>
            simp only [houtcome] at h
            cases h
            exact ⟨rfl, rfl, rfl, .inr ⟨hcommand, rfl, rfl, rfl, fun _ => rfl⟩⟩
        | some s =>
            simp only [houtcome] at h
            cases h
            refine ⟨rfl, rfl, rfl, .inr ⟨hcommand, rfl, rfl, rfl, fun s' => ?_⟩⟩
            simp only [setSession, advance, Function.update_apply, Option.some.injEq,
              eq_comm (a := s)]
            split
            · rename_i hs
              rw [hs]
            · rfl

/-! ### The channel of commands -/

/-- What an event puts into the channel, with the sender. -/
def posted (app : AppState) (process : Process S) : ProcessEvent S → List (Option ℕ × Command)
  | .read s incoming =>
      if process.up then
        ((((process.sessions s).hear app.codec app.sharedSecret true incoming).map (·.2)).getD
          []).map fun command => (some s, command)
      else []
  | .finish => if process.up then [(none, .shutdown)] else []
  | _ => []

/-- What an event takes out of it. -/
def taken (process : Process S) : ProcessEvent S → List (Option ℕ × Command)
  | .receive _ => process.queue.head?.toList
  | _ => []

theorem step_queue {event : ProcessEvent S} (hstep : step app process event = some process') :
    process.queue ++ process.posted app event = process.taken event ++ process'.queue := by
  cases event with
  | read s incoming =>
      obtain ⟨session, commands, -, -, hhear, rfl⟩ := step_read hstep
      rw [send_queue, posted]
      cases hup : process.up with
      | true =>
          rw [hup] at hhear
          simp [hup, hhear, taken, Lib.Mailbox.post]
      | false => simp [hup, taken]
  | finish =>
      simp only [step] at hstep
      split at hstep <;> cases hstep
      have hsame : { process with stage := .finished }.up = process.up := rfl
      rw [send_queue, hsame, posted]
      cases process.up with
      | true => simp [taken, Lib.Mailbox.post]
      | false => simp [taken]
  | receive seed =>
      rcases receive_cases (step_receive hstep).2.2 with ⟨hqueue, -, rfl⟩ |
        ⟨sender, command, queue, hqueue, hqueue', -⟩
      · simp [posted, taken, hqueue]
      · simp [posted, taken, hqueue, hqueue']
  | resume s =>
      obtain ⟨session, -, -, rfl⟩ := step_resume hstep
      simp [posted, taken]
  | loop event =>
      obtain ⟨engine, -, -, -, rfl⟩ := step_loop hstep
      simp [posted, taken, advance]
  | announce | serve | accept | stopWriting | interrupt | giveUp | returns | exit | fail =>
      simp only [step] at hstep
      split at hstep <;> cases hstep
      simp [posted, taken]

/-- Only `main` sends a shutdown. -/
theorem posted_addressed (process : Process S) (event : ProcessEvent S) :
    ∀ entry ∈ process.posted app event, entry.2.isShutdown = entry.1.isNone := by
  intro entry hentry
  cases event with
  | read s incoming =>
      rw [posted] at hentry
      split at hentry
      · obtain ⟨command, hcommand, rfl⟩ := List.mem_map.mp hentry
        rcases hhear : (process.sessions s).hear app.codec app.sharedSecret true incoming with
          _ | ⟨session, commands⟩
        · simp [hhear] at hcommand
        · rw [hhear] at hcommand
          exact Session.read_shutdown hhear command hcommand
      · cases hentry
  | finish =>
      rw [posted] at hentry
      split at hentry
      · cases List.mem_singleton.mp hentry
        rfl
      · cases hentry
  | announce | serve | accept | resume | stopWriting | interrupt | giveUp | returns | exit |
      receive | loop | fail => cases hentry

theorem reachable_addressed (h : (machine S app).Reachable process) :
    ∀ entry ∈ process.queue, entry.2.isShutdown = entry.1.isNone := by
  refine Lib.Machine.Invariant.holds (I := fun process : Process S =>
    ∀ entry ∈ process.queue, entry.2.isShutdown = entry.1.isNone) ⟨?_, ?_⟩ h
  · rintro process ⟨now, rfl⟩ entry hentry
    cases hentry
  · intro process event process' _ hqueue _ hstep entry hentry
    have hmem : entry ∈ process.queue ++ process.posted app event := by
      rw [step_queue hstep]
      exact List.mem_append_right _ hentry
    rcases List.mem_append.mp hmem with hmem | hmem
    · exact hqueue entry hmem
    · exact posted_addressed process event entry hmem

/-! ### Sessions and media loop -/

/-- The sessions and the media loop, as they stand. -/
def system (process : Process S) : System S where
  engine := process.engine
  sessions := process.sessions
  queue := process.queue.filterMap fun entry => entry.1.map fun s => (s, entry.2)

@[simp] theorem system_engine (process : Process S) : process.system.engine = process.engine := rfl

/-- What the sessions read in an event. -/
def frames : ProcessEvent S → List (ℕ × Option Incoming)
  | .read s incoming => [(s, incoming)]
  | _ => []

/-- While the media loop is there, a process takes the steps of its sessions and
of its media loop. -/
theorem step_system {event : ProcessEvent S}
    (haddressed : ∀ entry ∈ process.queue, entry.2.isShutdown = entry.1.isNone)
    (hstep : step app process event = some process') (hup : process'.up = true) :
    (process'.system = process.system ∧ frames event = []) ∨
      ∃ ev, System.step app process.system ev = some process'.system ∧
        System.frames ev = frames event := by
  cases event with
  | read s incoming =>
      obtain ⟨session, commands, -, -, hhear, rfl⟩ := step_read hstep
      have hold : process.up = true := by
        rw [send_eq] at hup
        exact hup
      refine .inr ⟨.read s incoming, ?_, rfl⟩
      rw [hold] at hhear
      have hread : (process.system.sessions s).read app.codec app.sharedSecret incoming =
          some (session, commands) := hhear
      simp only [System.step, System.read, hread, Option.map_some]
      rw [send_of_up (by exact hold)]
      simp [system, setSession, System.setSession, Lib.Mailbox.post, List.filterMap_map]
  | resume s =>
      obtain ⟨session, -, hawait, rfl⟩ := step_resume hstep
      have hold : process.up = true := hup
      rw [hold, Session.await_up] at hawait
      have hresume : (process.system.sessions s).resume = some session := hawait
      refine .inr ⟨.resume s, ?_, rfl⟩
      simp only [System.step, hresume, Option.map_some]
      rfl
  | stopWriting s =>
      simp only [step] at hstep
      split at hstep <;> cases hstep
      exact .inr ⟨.stopWriting s, rfl, rfl⟩
  | finish =>
      simp only [step] at hstep
      split at hstep <;> cases hstep
      refine .inl ⟨?_, rfl⟩
      have hold : { process with stage := .finished }.up = true := by
        rw [send_eq] at hup
        exact hup
      rw [send_of_up hold]
      simp [system, Lib.Mailbox.post]
  | receive seed =>
      rcases receive_cases (step_receive hstep).2.2 with ⟨-, -, rfl⟩ | ⟨sender, command, queue,
        hqueue, hqueue', -, -, ⟨hshutdown, rfl⟩ | ⟨hcommand, hmedia, hengine, -, hsessions⟩⟩
      · cases hup
      · cases hup
      · have hsender := haddressed (sender, command) (by simp [hqueue])
        obtain ⟨s, rfl⟩ : ∃ s, sender = some s :=
          Option.isSome_iff_exists.mp (by simpa [hcommand] using hsender.symm)
        refine .inr ⟨.deliver s seed, ?_, rfl⟩
        have hsent : process.system.queue = (s, command) :: process'.system.queue := by
          simp [system, hqueue, hqueue']
        simp only [System.step, System.deliver, System.sent, Lib.Mailbox.sentBy, hsent]
        simp only [decide_true, List.filter_cons_of_pos, List.map_cons, List.head?_cons,
          Option.map_some, Lib.Mailbox.take, List.eraseP_cons_of_pos]
        have hsystem : process'.system =
            { engine := (process.engine.apply command seed).1, sessions := process'.sessions,
              queue := process'.system.queue } := by
          rw [← hengine]
          rfl
        rw [hsystem]
        rcases houtcome : (process.engine.apply command seed).2 with _ | outcome
        · simp only [houtcome] at hsessions
          simp only [system_engine, houtcome]
          rw [funext hsessions]
          rfl
        · simp only [houtcome, Option.some.injEq] at hsessions
          have hupdate : process'.sessions = Function.update process.sessions s
              ((process.sessions s).answered outcome) := by
            funext s'
            rw [hsessions, Function.update_apply]
            by_cases hs : s' = s
            · simp [hs]
            · simp [hs, Ne.symm hs]
          simp only [system_engine, houtcome]
          rw [hupdate]
          rfl
  | loop event =>
      obtain ⟨engine, -, hcommand, hengine, rfl⟩ := step_loop hstep
      refine .inr ⟨.loop event, ?_, rfl⟩
      rw [System.step, hcommand]
      exact congrArg (Option.map fun engine => { process.system with engine := engine }) hengine
  | announce | serve | accept | interrupt | giveUp | returns | exit | fail =>
      simp only [step] at hstep
      split at hstep <;> cases hstep
      exact .inl ⟨rfl, rfl⟩

/-- What a step does to the media loop and to the channel of reports: the loop
takes a step of its own and reports what that reports, or it is left alone and
`main` may announce the boot. -/
theorem step_engine {event : ProcessEvent S} (hstep : step app process event = some process') :
    (∃ ev, process.engine.step ev = some process'.engine ∧
      (ev.isCommand = true → process.queue ≠ []) ∧
      process.up = true ∧ process'.up = true ∧
      process'.stage = process.stage ∧
      process'.channel =
        process.channel ++ process'.engine.reports.drop process.engine.reports.length) ∨
    process'.engine = process.engine ∧ (process'.up = true → process.up = true) ∧
      (process'.channel = process.channel ∧
          (process'.stage = .spawned ↔ process.stage = .spawned) ∨
        process.stage = .spawned ∧ process'.stage = .announced ∧
          process'.channel = process.channel ++ [boot]) := by
  cases event with
  | announce =>
      simp only [step] at hstep
      split at hstep <;> cases hstep
      rename_i hstage
      exact .inr ⟨rfl, id, .inr ⟨hstage, rfl, rfl⟩⟩
  | read s incoming =>
      obtain ⟨session, commands, -, -, -, rfl⟩ := step_read hstep
      rw [send_eq]
      exact .inr ⟨rfl, id, .inl ⟨rfl, .rfl⟩⟩
  | resume s =>
      obtain ⟨session, -, -, rfl⟩ := step_resume hstep
      exact .inr ⟨rfl, id, .inl ⟨rfl, .rfl⟩⟩
  | finish =>
      simp only [step] at hstep
      split at hstep <;> cases hstep
      rename_i hstage
      rw [send_eq]
      exact .inr ⟨rfl, id, .inl ⟨rfl, by simp [hstage]⟩⟩
  | receive seed =>
      obtain ⟨hup, -, hreceive⟩ := step_receive hstep
      rcases receive_cases hreceive with ⟨-, -, rfl⟩ |
        ⟨sender, command, queue, hqueue, -, hstage, -, ⟨-, rfl⟩ | ⟨-, hmedia, hengine, hchannel, -⟩⟩
      · exact .inr ⟨rfl, (fun h => by cases h), .inl ⟨rfl, .rfl⟩⟩
      · exact .inr ⟨rfl, (fun h => by cases h), .inl ⟨rfl, .rfl⟩⟩
      · refine .inl ⟨.command command seed, ?_, by simp [hqueue], hup, ?_, hstage, ?_⟩
        · rw [hengine, Engine.step_command]
        · rwa [up, hmedia]
        · rw [hchannel, hengine]
  | loop event =>
      obtain ⟨engine, hup, hcommand, hengine, rfl⟩ := step_loop hstep
      exact .inl ⟨event, hengine, fun h => by simp [h] at hcommand, hup, hup, rfl, rfl⟩
  | serve | accept | interrupt | returns | exit =>
      simp only [step] at hstep
      split at hstep <;> cases hstep
      rename_i hstage
      exact .inr ⟨rfl, id, .inl ⟨rfl, by simp [hstage]⟩⟩
  | giveUp =>
      simp only [step] at hstep
      split at hstep <;> cases hstep
      rename_i hstage
      exact .inr
        ⟨rfl, id, .inl ⟨rfl, by rcases hstage with hstage | hstage <;> simp [hstage]⟩⟩
  | stopWriting s =>
      simp only [step] at hstep
      split at hstep <;> cases hstep
      exact .inr ⟨rfl, id, .inl ⟨rfl, .rfl⟩⟩
  | fail =>
      obtain ⟨-, rfl⟩ := step_fail hstep
      exact .inr ⟨rfl, (fun h => by cases h), .inl ⟨rfl, .rfl⟩⟩

/-- What a step does to a session: it reads, looks for its answer, loses its writer,
is answered by the media loop, or is left alone. -/
theorem step_session {event : ProcessEvent S} (hstep : step app process event = some process')
    (s : ℕ) :
    (∃ incoming commands,
      (process.sessions s).hear app.codec app.sharedSecret process.up incoming =
        some (process'.sessions s, commands) ∧ ¬event.IsResume s) ∨
    (process.sessions s).await process.up = some (process'.sessions s) ∨
    (process'.sessions s).phase = (process.sessions s).phase ∧ ¬event.IsResume s ∧
      ((process'.sessions s).assigned = (process.sessions s).assigned ∨
        ∃ request, process.queue = (some s, .join request) :: process'.queue ∧
          process'.up = true ∧ (process'.sessions s).assigned.isSome = true) := by
  cases event with
  | read s' incoming =>
      obtain ⟨session, commands, -, -, hhear, rfl⟩ := step_read hstep
      rw [send_eq]
      by_cases hs : s = s'
      · subst hs
        exact .inl ⟨incoming, commands, by simp [setSession, hhear], not_false⟩
      · exact .inr (.inr (by simp [setSession, hs, ProcessEvent.IsResume]))
  | resume s' =>
      obtain ⟨session, -, hawait, rfl⟩ := step_resume hstep
      by_cases hs : s = s'
      · subst hs
        exact .inr (.inl (by simp [setSession, hawait]))
      · exact .inr (.inr (by simp [setSession, hs, ProcessEvent.IsResume, Ne.symm hs]))
  | receive seed =>
      obtain ⟨hup, -, hreceive⟩ := step_receive hstep
      rcases receive_cases hreceive with ⟨-, -, rfl⟩ |
        ⟨sender, command, queue, hqueue, hqueue', -, -, ⟨-, rfl⟩ |
          ⟨-, hmedia, -, -, hsessions⟩⟩
      · exact .inr (.inr ⟨rfl, not_false, .inl rfl⟩)
      · exact .inr (.inr ⟨rfl, not_false, .inl rfl⟩)
      · refine .inr (.inr ?_)
        rw [hsessions]
        split
        · exact ⟨rfl, not_false, .inl rfl⟩
        · rename_i outcome houtcome
          split
          · rename_i hsender
            cases command with
            | join request =>
                have hup' : process'.up = true := by rwa [up, hmedia]
                exact ⟨rfl, not_false,
                  .inr ⟨request, by rw [hqueue, hqueue', hsender], hup', rfl⟩⟩
            | answer | mute | screen | leave | shutdown => cases houtcome
          · exact ⟨rfl, not_false, .inl rfl⟩
  | stopWriting s' =>
      simp only [step] at hstep
      split at hstep <;> cases hstep
      refine .inr (.inr ?_)
      by_cases hs : s = s'
      · subst hs
        simp [setSession, ProcessEvent.IsResume]
      · simp [setSession, hs, ProcessEvent.IsResume]
  | loop event =>
      obtain ⟨engine, -, -, -, rfl⟩ := step_loop hstep
      exact .inr (.inr ⟨rfl, not_false, .inl rfl⟩)
  | finish =>
      simp only [step] at hstep
      split at hstep <;> cases hstep
      rw [send_eq]
      exact .inr (.inr ⟨rfl, not_false, .inl rfl⟩)
  | announce | serve | accept | interrupt | giveUp | returns | exit | fail =>
      simp only [step] at hstep
      split at hstep <;> cases hstep
      exact .inr (.inr ⟨rfl, not_false, .inl rfl⟩)

/-- Without a media loop nobody is answered. -/
theorem step_assigned {event : ProcessEvent S} (hstep : step app process event = some process')
    (hdown : process'.up = false) (s : ℕ) :
    (process'.sessions s).assigned = (process.sessions s).assigned := by
  rcases step_session hstep s with ⟨incoming, commands, hhear, -⟩ | hawait |
    ⟨-, -, hsame | ⟨-, -, hup, -⟩⟩
  · exact Session.hear_assigned hhear
  · exact Session.await_assigned hawait
  · exact hsame
  · rw [hdown] at hup
    cases hup

/-- A run of a process, as far as its media loop and its sessions go. -/
structure Runs (app : AppState) (now : Instant) (events : List (ProcessEvent S))
    (process : Process S) (steps : List (SystemEvent S)) (system : System S) : Prop where
  run : (System.machine S app).run (System.start app.config now) steps = some system
  /-- What the sessions read after the end of the loop is missing. -/
  frames : steps.flatMap System.frames <+: events.flatMap frames
  engine : process.engine = system.engine
  assigned : ∀ s, (process.sessions s).assigned = (system.sessions s).assigned
  up : process.up = true → process.system = system ∧
    steps.flatMap System.frames = events.flatMap Process.frames

/-- **A process runs its sessions and its media loop as they were verified**, up
to the moment the loop is over, and the engine stays as it is then. -/
theorem run_system {now : Instant} {events : List (ProcessEvent S)}
    (hrun : (machine S app).run (start app.config now) events = some process) :
    ∃ steps system, Runs app now events process steps system := by
  induction events using List.reverseRecOn generalizing process with
  | nil =>
      cases hrun
      exact ⟨[], _, rfl, List.prefix_refl _, rfl, fun _ => rfl, fun _ => ⟨rfl, rfl⟩⟩
  | append_singleton events event ih =>
      rw [Lib.Machine.run_append] at hrun
      obtain ⟨middle, hmiddle, hlast⟩ := Option.bind_eq_some_iff.mp hrun
      have hstep : step app middle event = some process := by simpa [machine] using hlast
      have hreach : (machine S app).Reachable middle := .of_run (.init ⟨now, rfl⟩) hmiddle
      obtain ⟨steps, system, hruns⟩ := ih hmiddle
      have hloop := step_engine hstep
      have hall : (events ++ [event]).flatMap Process.frames =
          events.flatMap Process.frames ++ Process.frames event := by
        simp
      cases hup : process.up with
      | false =>
          refine ⟨steps, system, hruns.run,
            hall ▸ hruns.frames.trans (List.prefix_append _ _), ?_,
            fun s => (step_assigned hstep hup s).trans (hruns.assigned s),
            fun hup' => absurd hup' (Bool.eq_false_iff.mp hup)⟩
          rcases hloop with ⟨-, -, -, -, hup', -⟩ | ⟨hsame, -⟩
          · rw [hup] at hup'
            cases hup'
          · exact hsame.trans hruns.engine
      | true =>
          have hold : middle.up = true := by
            rcases hloop with ⟨-, -, -, hold, -⟩ | ⟨-, hold, -⟩
            · exact hold
            · exact hold hup
          obtain ⟨rfl, hframes⟩ := hruns.up hold
          rcases step_system (reachable_addressed hreach) hstep hup with ⟨hsame, hnone⟩ |
            ⟨ev, hev, hframe⟩
          · have hframes' : steps.flatMap System.frames =
                (events ++ [event]).flatMap Process.frames := by
              rw [hall, hnone, List.append_nil, hframes]
            refine ⟨steps, process.system, ?_, hframes' ▸ List.prefix_refl _, rfl, fun _ => rfl,
              fun _ => ⟨rfl, hframes'⟩⟩
            rw [hsame]
            exact hruns.run
          · have hframes' : (steps ++ [ev]).flatMap System.frames =
                (events ++ [event]).flatMap Process.frames := by
              rw [hall, List.flatMap_append, hframes, ← hframe]
              simp
            refine ⟨steps ++ [ev], process.system, ?_, hframes' ▸ List.prefix_refl _, rfl,
              fun _ => rfl, fun _ => ⟨rfl, hframes'⟩⟩
            have hnext : (System.machine S app).step middle.system ev = some process.system := hev
            rw [Lib.Machine.run_append, hruns.run]
            simp [hnext]

theorem reachable_system (h : (machine S app).Reachable process) :
    ∃ system, (System.machine S app).Reachable system ∧ process.engine = system.engine ∧
      (process.up = true → process.system = system) := by
  obtain ⟨start, events, ⟨now, rfl⟩, hrun⟩ := h.exists_run
  obtain ⟨steps, system, hruns⟩ := run_system hrun
  exact ⟨system, .of_run (.init ⟨now, rfl⟩) hruns.run, hruns.engine, fun hup => (hruns.up hup).1⟩

end Process

/-- The media loop of a system is a media loop. -/
theorem System.reachable_engine {app : AppState} {system : System S}
    (h : (machine S app).Reachable system) :
    (Engine.machine S app.config).Reachable system.engine := by
  induction h with
  | init hinit =>
      obtain ⟨now, rfl⟩ := hinit
      exact .init ⟨now, rfl⟩
  | @step system system' event _ _ hstep ih =>
      cases event with
      | read s incoming =>
          obtain ⟨read, -, rfl⟩ := Option.map_eq_some_iff.mp hstep
          exact ih
      | resume s =>
          obtain ⟨session, -, rfl⟩ := Option.map_eq_some_iff.mp hstep
          exact ih
      | stopWriting s =>
          cases hstep
          exact ih
      | deliver s seed =>
          obtain ⟨command, rest, -, hengine, -⟩ := deliver_eq_some hstep
          have hcommand : (Engine.machine S app.config).step system.engine
              (.command command seed) = some system'.engine := by
            rw [hengine]
            exact Engine.step_command command seed system.engine
          exact .step ih trivial hcommand
      | loop event =>
          simp only [machine, System.step] at hstep
          split at hstep
          · cases hstep
          · obtain ⟨engine, hengine, rfl⟩ := Option.map_eq_some_iff.mp hstep
            exact .step ih trivial hengine

theorem Process.reachable_engine {app : AppState} {process : Process S}
    (h : (machine S app).Reachable process) :
    (Engine.machine S app.config).Reachable process.engine := by
  obtain ⟨system, hsystem, heq, -⟩ := reachable_system h
  exact heq ▸ System.reachable_engine hsystem

end FerriteSfu
