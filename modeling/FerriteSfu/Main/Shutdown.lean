import FerriteSfu.Main.Boot

/-!
How the media loop ends.

It takes what is sent to it in order, and stops at the shutdown, behind which nothing
is taken, or when nobody is left who could send. When the socket fails it ends where it
is. The first end comes shortly before that of the process, for `main` returns once it
has sent the shutdown. After the last one the process lives on without a media loop:
nobody is admitted any more, and whoever comes is told so.
-/

namespace FerriteSfu

variable {S : Str0m} {app : AppState}

theorem Command.eq_of_isShutdown : ∀ {command : Command}, command.isShutdown = true →
    command = .shutdown
  | .shutdown, _ => rfl

namespace Process

variable {process process' : Process S}

/-! ### Up to the shutdown -/

/-- What is taken tells whether the loop goes on, and but for the lack of senders
nothing else stops it. -/
theorem step_taken {event : ProcessEvent S} (hstep : step app process event = some process') :
    (∃ entry, process.taken event = [entry] ∧ entry ∈ process.queue ∧
      process.media = .running ∧
      (entry.2.isShutdown = true ∧ process'.media = .stopped ∨
        entry.2.isShutdown = false ∧ process'.media = .running)) ∨
    process.taken event = [] ∧ ((process'.media = .stopped ↔ process.media = .stopped) ∨
      process.media = .running ∧ process.queue = [] ∧ process.hasTasks = false) := by
  cases event with
  | receive seed =>
      obtain ⟨hup, -, hreceive⟩ := step_receive hstep
      have hrunning : process.media = .running := of_decide_eq_true hup
      rcases receive_cases hreceive with ⟨hqueue, hgone, rfl⟩ | ⟨sender, command, queue, hqueue, -,
        -, -, ⟨hshutdown, rfl⟩ | ⟨hcommand, hmedia, -⟩⟩
      · exact .inr ⟨by simp [taken, hqueue], .inr ⟨hrunning, hqueue, hgone⟩⟩
      · exact .inl ⟨(sender, command), by simp [taken, hqueue], by simp [hqueue], hrunning,
          .inl ⟨hshutdown, rfl⟩⟩
      · exact .inl ⟨(sender, command), by simp [taken, hqueue], by simp [hqueue], hrunning,
          .inr ⟨hcommand, hmedia.trans hrunning⟩⟩
  | loop event =>
      obtain ⟨engine, -, -, -, rfl⟩ := step_loop hstep
      exact .inr ⟨rfl, .inl .rfl⟩
  | fail =>
      obtain ⟨hup, rfl⟩ := step_fail hstep
      have hrunning : process.media = .running := of_decide_eq_true hup
      exact .inr ⟨rfl, .inl (by simp [hrunning])⟩
  | announce | serve | accept | read | resume | stopWriting | interrupt | finish | giveUp |
      returns | exit =>
      exact .inr ⟨rfl, .inl (by rw [(step_tasks rfl hstep).2])⟩

/-- The tasks do not come back. -/
theorem step_hasTasks {event : ProcessEvent S} (hstep : step app process event = some process')
    (hgone : process.hasTasks = false) : process'.hasTasks = false := by
  have hstage : process.stage = .returned ∨ process.stage = .exited := by
    have hnot := of_decide_eq_false hgone
    by_contra hneither
    exact hnot (not_or.mp hneither)
  cases event with
  | read => simp [(step_read hstep).choose_spec.choose_spec.1] at hgone
  | resume => simp [(step_resume hstep).choose_spec.1] at hgone
  | receive seed =>
      rcases receive_cases (step_receive hstep).2.2 with ⟨-, -, rfl⟩ | ⟨-, -, -, -, -, hsame, -⟩
      · exact hgone
      · rwa [hasTasks, hsame]
  | loop event =>
      obtain ⟨engine, -, -, -, rfl⟩ := step_loop hstep
      exact hgone
  | fail =>
      obtain ⟨-, rfl⟩ := step_fail hstep
      exact hgone
  | announce | serve | accept | interrupt | finish | giveUp =>
      simp only [step] at hstep
      split at hstep <;> cases hstep
      rename_i hother
      rcases hstage with hstage | hstage <;> simp [hstage] at hother
  | stopWriting =>
      simp only [step] at hstep
      split at hstep <;> cases hstep
      exact hgone
  | returns | exit =>
      simp only [step] at hstep
      split at hstep <;> cases hstep
      rfl

theorem posted_of_down (hdown : process.up = false) (event : ProcessEvent S) :
    process.posted app event = [] := by
  cases event <;> simp [posted, hdown]

/-- Nobody is left who could send anything, and nothing waits to be taken. -/
structure Deserted (process : Process S) : Prop where
  hasTasks : process.hasTasks = false
  queue : process.queue = []

theorem Deserted.step (h : process.Deserted) (hdown : process.up = false) {event : ProcessEvent S}
    (hstep : Process.step app process event = some process') : process'.Deserted := by
  have hqueue := step_queue hstep
  rw [h.queue, posted_of_down hdown, List.append_nil] at hqueue
  exact ⟨step_hasTasks hstep h.hasTasks, (List.append_eq_nil_iff.mp hqueue.symm).2⟩

/-- What has been taken, as far as shutdowns go. -/
structure Heard (process : Process S) (applied : List (Option ℕ × Command)) : Prop where
  before : process.media ≠ .stopped → ∀ entry ∈ applied, entry.2.isShutdown = false
  stopped : process.media = .stopped →
    (∃ earlier, applied = earlier ++ [(none, .shutdown)] ∧
      ∀ entry ∈ earlier, entry.2.isShutdown = false) ∨
    process.Deserted ∧ ∀ entry ∈ applied, entry.2.isShutdown = false

theorem Heard.step {applied : List (Option ℕ × Command)} (h : process.Heard applied)
    (haddressed : ∀ entry ∈ process.queue, entry.2.isShutdown = entry.1.isNone)
    {event : ProcessEvent S} (hstep : Process.step app process event = some process') :
    process'.Heard (applied ++ process.taken event) := by
  rcases step_taken hstep with ⟨⟨sender, command⟩, htaken, hmem, hrunning, ⟨hshutdown, hmedia⟩ |
    ⟨hcommand, hmedia⟩⟩ | ⟨htaken, hmedia | ⟨hrunning, hqueue, hgone⟩⟩
  · rw [htaken]
    refine ⟨fun hne => absurd hmedia hne,
      fun _ => .inl ⟨applied, ?_, h.before (by simp [hrunning])⟩⟩
    have hcommand : command = .shutdown := Command.eq_of_isShutdown hshutdown
    have hsender : sender = none :=
      Option.isNone_iff_eq_none.mp ((haddressed _ hmem).symm.trans hshutdown)
    rw [hcommand, hsender]
  · rw [htaken]
    refine ⟨fun _ entry hentry => ?_, fun hstopped => by simp [hmedia] at hstopped⟩
    rcases List.mem_append.mp hentry with hentry | hentry
    · exact h.before (by simp [hrunning]) entry hentry
    · rwa [List.mem_singleton.mp hentry]
  · rw [htaken, List.append_nil]
    refine ⟨fun hne => h.before fun hstopped => hne (hmedia.mpr hstopped), fun hstopped => ?_⟩
    have hdown : process.up = false := by simp [up, hmedia.mp hstopped]
    exact (h.stopped (hmedia.mp hstopped)).imp_right fun hrest =>
      ⟨hrest.1.step hdown hstep, hrest.2⟩
  · rw [htaken, List.append_nil]
    have hall := h.before (by simp [hrunning])
    have hsame := step_queue hstep
    rw [htaken, hqueue, List.nil_append, List.nil_append] at hsame
    have hposted : process.posted app event = [] := by
      cases event with
      | read => simp [(step_read hstep).choose_spec.choose_spec.1] at hgone
      | finish =>
          have hgone' := step_hasTasks hstep hgone
          simp only [Process.step] at hstep
          split at hstep <;> cases hstep
          rw [send_eq] at hgone'
          cases hgone'
      | announce | serve | accept | resume | stopWriting | interrupt | giveUp | returns | exit |
          receive | loop | fail => rfl
    exact ⟨fun _ => hall,
      fun _ => .inr ⟨⟨step_hasTasks hstep hgone, hsame.symm.trans hposted⟩, hall⟩⟩

end Process

/-- The command an event of the media loop takes. -/
def Event.commandOf : Event S → Option Command
  | .command sent _ => some sent
  | _ => none

theorem Event.commandOf_eq_none {event : Event S} (h : event.isCommand = false) :
    event.commandOf = none := by
  cases event with
  | command => cases h
  | pollRooms | reportConnections | reap | tickSpeaking | readOnce | advanceTime => rfl

namespace Process

variable {process process' : Process S}

/-- What was taken, without the shutdowns and the senders. -/
def applies (taken : List (Option ℕ × Command)) : List Command :=
  (taken.map Prod.snd).filter fun command => !command.isShutdown

/-- What is taken is applied, unless it is a shutdown, and nothing else is. -/
theorem step_applies {event : ProcessEvent S} (hstep : step app process event = some process') :
    (∃ ev, process.engine.step ev = some process'.engine ∧
      ev.commandOf.toList = applies (process.taken event)) ∨
    process'.engine = process.engine ∧ applies (process.taken event) = [] := by
  cases event with
  | receive seed =>
      rcases receive_cases (step_receive hstep).2.2 with ⟨hqueue, -, rfl⟩ | ⟨sender, command, queue,
        hqueue, -, -, -, ⟨hshutdown, rfl⟩ | ⟨hcommand, -, hengine, -⟩⟩
      · exact .inr ⟨rfl, by simp [applies, taken, hqueue]⟩
      · exact .inr ⟨rfl, by simp [applies, taken, hqueue, hshutdown]⟩
      · refine .inl ⟨.command command seed, ?_, by
          simp [applies, taken, hqueue, hcommand, Event.commandOf]⟩
        rw [hengine, Engine.step_command]
  | loop event =>
      obtain ⟨engine, -, hcommand, hengine, rfl⟩ := step_loop hstep
      exact .inl ⟨event, hengine, by rw [Event.commandOf_eq_none hcommand]; rfl⟩
  | fail =>
      obtain ⟨-, rfl⟩ := step_fail hstep
      exact .inr ⟨rfl, rfl⟩
  | announce | serve | accept | read | resume | stopWriting | interrupt | finish | giveUp |
      returns | exit =>
      exact .inr ⟨(step_tasks rfl hstep).1, rfl⟩

/-- The media loop is where a run of it leads that takes these commands and no others. -/
def Applied (config : Config) (now : Instant) (process : Process S)
    (applied : List (Option ℕ × Command)) : Prop :=
  ∃ events, (Engine.machine S config).run (Engine.start config now) events = some process.engine ∧
    events.filterMap Event.commandOf = applies applied

theorem Applied.step {config : Config} {now : Instant} {applied : List (Option ℕ × Command)}
    (h : process.Applied config now applied) {event : ProcessEvent S}
    (hstep : Process.step app process event = some process') :
    process'.Applied config now (applied ++ process.taken event) := by
  obtain ⟨events, hrun, hcommands⟩ := h
  have happend : applies (applied ++ process.taken event) =
      applies applied ++ applies (process.taken event) := by
    simp [applies]
  rcases step_applies hstep with ⟨ev, hengine, hcommand⟩ | ⟨hsame, hnone⟩
  · refine ⟨events ++ [ev], ?_, ?_⟩
    · rw [Lib.Machine.run_append, hrun]
      have hone : (Engine.machine S config).step process.engine ev = some process'.engine := hengine
      simp [hone]
    · rw [List.filterMap_append, hcommands, happend, ← hcommand]
      cases hev : ev.commandOf <;> simp [hev]
  · exact ⟨events, by rw [hsame]; exact hrun, by rw [happend, hnone, List.append_nil, hcommands]⟩

/-- A loop that is there stops once it has taken what is before the shutdown. -/
theorem run_receive {earlier later : List (Option ℕ × Command)} {process : Process S}
    (hloops : process.loops = true)
    (hqueue : process.queue = earlier ++ (none, .shutdown) :: later)
    (hearlier : ∀ entry ∈ earlier, entry.2.isShutdown = false) {seeds : List S.Seed}
    (hlength : seeds.length = earlier.length + 1) :
    ∃ process', (machine S app).run process (seeds.map .receive) = some process' ∧
      process'.media = .stopped ∧ process'.queue = later := by
  induction earlier generalizing process seeds with
  | nil =>
      obtain ⟨seed, rfl⟩ := List.length_eq_one_iff.mp hlength
      refine ⟨{ process with media := .stopped, queue := later }, ?_, rfl, rfl⟩
      simp [machine, step, hloops, receive, hqueue, Command.isShutdown]
  | cons entry earlier ih =>
      obtain ⟨sender, command⟩ := entry
      rcases seeds with _ | ⟨seed, seeds⟩
      · cases hlength
      · have hcommand : command.isShutdown = false := hearlier _ (List.mem_cons_self ..)
        obtain ⟨next, hnext⟩ : ∃ next, process.receive seed = some next := by
          simp only [receive, hqueue, List.cons_append, hcommand, Bool.false_eq_true, if_false]
          split <;> exact ⟨_, rfl⟩
        rcases receive_cases hnext with ⟨hnone, -⟩ | ⟨_, _, queue, hcons, hqueue', hstage, -,
          ⟨hshutdown, -⟩ | ⟨-, hmedia, -⟩⟩
        · rw [hqueue] at hnone
          cases hnone
        · rw [hqueue] at hcons
          cases hcons
          rw [hcommand] at hshutdown
          cases hshutdown
        · rw [hqueue] at hcons
          cases hcons
          have hloops' : next.loops = true := by rwa [loops, up, hmedia, hstage]
          obtain ⟨process', hrun, hend⟩ := ih hloops' hqueue'
            (fun entry hentry => hearlier entry (List.mem_cons_of_mem _ hentry))
            (Nat.succ_injective hlength)
          refine ⟨process', ?_, hend⟩
          have hstep : (machine S app).step process (.receive seed) = some next := by
            simp [machine, step, hloops, hnext]
          rw [List.map_cons, Lib.Machine.run_cons, hstep]
          exact hrun

/-- What has been sent, what has been taken, and what the end of the loop has to do
with it. -/
structure Orderly (app : AppState) (now : Instant) (process : Process S)
    (sent applied : List (Option ℕ × Command)) : Prop where
  fifo : sent = applied ++ process.queue
  /-- The rooms are what the commands that were taken make of them, in this order. -/
  rooms : process.Applied app.config now applied
  /-- A loop that has not stopped has taken no shutdown. -/
  before : process.media ≠ .stopped → ∀ entry ∈ applied, entry.2.isShutdown = false
  /-- One that has stopped has applied what was sent before the shutdown, all of
  it and nothing else; or there was no shutdown, and it has applied whatever was sent
  before the last who could send anything were gone. -/
  stopped : process.media = .stopped →
    (∃ earlier, sent = earlier ++ (none, .shutdown) :: process.queue ∧
      applied = earlier ++ [(none, .shutdown)] ∧
      ∀ entry ∈ earlier, entry.2.isShutdown = false) ∨
    process.hasTasks = false ∧ sent = applied ∧ ∀ entry ∈ sent, entry.2.isShutdown = false
  /-- One that is still there stops as soon as it has taken what is before the
  shutdown. -/
  stops : process.loops = true → ∀ earlier later,
    process.queue = earlier ++ (none, .shutdown) :: later →
      (∀ entry ∈ earlier, entry.2.isShutdown = false) →
      ∀ seeds : List S.Seed, seeds.length = earlier.length + 1 →
        ∃ process', (machine S app).run process (seeds.map .receive) = some process' ∧
          process'.media = .stopped ∧ process'.queue = later

/-- **The media loop is driven by what is sent to it, in order, up to the shutdown.** -/
theorem run_orderly {now : Instant} {events : List (ProcessEvent S)}
    (hrun : (machine S app).run (start app.config now) events = some process) :
    process.Orderly app now
      ((machine S app).outputs (posted app) (start app.config now) events)
      ((machine S app).outputs taken (start app.config now) events) := by
  have hstart : (machine S app).Reachable (start app.config now) := .init ⟨now, rfl⟩
  have hfifo := Lib.Machine.outputs_fifo (m := machine S app) (q := Process.queue)
    (f := posted app) (g := taken) (fun _ _ _ hstep => step_queue hstep) hrun
  have hsent : (machine S app).outputs (posted app) (start app.config now) events = _ := hfifo
  have hheard := Lib.Machine.outputs_holds (m := machine S app) (f := taken) (I := Heard)
    (fun process applied event process' hreach h hstep =>
      h.step (reachable_addressed hreach) hstep) hstart
    ⟨(fun _ _ hentry => by cases hentry), (fun hstopped => by cases hstopped)⟩ hrun
  have happlied := Lib.Machine.outputs_holds (m := machine S app) (f := taken)
    (I := Applied app.config now) (fun _ _ _ _ _ h hstep => h.step hstep) hstart
    ⟨[], rfl, rfl⟩ hrun
  refine ⟨hfifo, happlied, hheard.before, fun hstopped => ?_,
    fun hloops earlier later hqueue hearlier seeds hlength =>
      run_receive hloops hqueue hearlier hlength⟩
  rcases hheard.stopped hstopped with ⟨earlier, htaken, hearlier⟩ | ⟨hdeserted, hall⟩
  · refine .inl ⟨earlier, ?_, htaken, hearlier⟩
    rw [hsent, htaken, List.append_assoc]
    rfl
  · rw [hdeserted.queue, List.append_nil] at hsent
    exact .inr ⟨hdeserted.hasTasks, hsent, by rw [hsent]; exact hall⟩

end Process

namespace Puppet

/-- Ann leaves before the shutdown, and somebody else comes after it. -/
def closes : List (ProcessEvent scripted) :=
  opens ++ [.read 0 (some .close), .interrupt, .finish, .read 1 (some (.text "bob")),
    .receive "", .receive ""]

end Puppet

theorem Process.run_orderly_closes :
    ∃ process, (machine scripted Puppet.state).run (start Puppet.config 0) Puppet.closes =
        some process ∧
      process.media = .stopped ∧ process.queue ≠ [] ∧ process.Orderly Puppet.state 0
        ((machine scripted Puppet.state).outputs (posted Puppet.state) (start Puppet.config 0)
          Puppet.closes)
        ((machine scripted Puppet.state).outputs taken (start Puppet.config 0) Puppet.closes) := by
  obtain ⟨process, hrun, hcheck⟩ := (Option.any_eq_true _ _).mp (by decide +kernel :
    ((machine scripted Puppet.state).run (start Puppet.config 0) Puppet.closes).any
      (fun process => decide (process.media = .stopped) && !process.queue.isEmpty) = true)
  obtain ⟨hstopped, hqueue⟩ := Bool.and_eq_true_iff.mp hcheck
  exact ⟨process, hrun, of_decide_eq_true hstopped, by simpa using hqueue, run_orderly hrun⟩

/-! ### After the end of the loop -/

/-- What a browser is told whose first frame comes too late. -/
def Codec.turnedAway (codec : Codec) (secret : String) (incoming : Option Incoming) :
    List ServerMsg :=
  match codec.admitJoin secret incoming with
  | .ok _ => [.error "unavailable" "The call service is restarting."]
  | .error refusal => refusal

/-- What is read when the media loop is gone admits nobody. -/
theorem Session.hear_down {codec : Codec} {secret : String} {incoming : Option Incoming}
    {session session' : Session} {commands : List Command}
    (h : session.hear codec secret false incoming = some (session', commands)) :
    session.phase = .joining ∧ session' = { session with
        phase := .closed
        out := session.out ++ codec.turnedAway secret incoming } ∨
      ∃ peer, session.phase = .live peer ∧
        (session'.phase = .live peer ∧ commands = [] ∨ session'.phase = .closed) := by
  obtain ⟨phase, assigned, writing, out⟩ := session
  cases phase <;> simp only [hear, reduceCtorEq] at h
  case joining =>
    rcases hadmits : codec.admitJoin secret incoming with refusal | request <;>
      simp only [hadmits, if_false] at h <;> cases h <;>
      exact .inl ⟨rfl, by simp [Codec.turnedAway, hadmits]⟩
  case live peer =>
    refine .inr ⟨peer, rfl, ?_⟩
    split at h
    · cases h
    · rename_i text
      split at h <;> cases h
      · rename_i hcontinues
        refine .inl ⟨rfl, ?_⟩
        unfold Codec.forwardTo at hcontinues ⊢
        split <;> simp_all
      · exact .inr rfl
    · cases h
      exact .inl ⟨rfl, rfl⟩
    all_goals
      cases h
      exact .inr rfl

/-- What may become of a session without a media loop, when it reads only what is
`heard`. -/
structure Session.Alone (codec : Codec) (secret : String) (heard : Option Incoming → Prop)
    (session session' : Session) : Prop where
  /-- Nobody is let in but who had been assigned a peer. -/
  live : ∀ peer, session'.phase = .live peer → session.phase = .live peer ∨
    session.phase = .admitting ∧ session.assigned = some (some peer)
  /-- Whoever comes is told that there is no service, or what it did wrong. -/
  joining : session.phase = .joining →
    (session'.phase = .joining ∧ session'.out = session.out) ∨
      session'.phase = .closed ∧
        ∃ incoming, heard incoming ∧ session'.out = session.out ++ codec.turnedAway secret incoming
  closed : session.phase = .closed → session'.phase = .closed ∧ session'.out = session.out
  admitting : session'.phase = .admitting →
    session.phase = .admitting ∧ session'.assigned = session.assigned

namespace Session.Alone

variable {codec : Codec} {secret : String} {heard heard' : Option Incoming → Prop}
  {session session' session'' : Session}

theorem refl (session : Session) : Alone codec secret heard session session :=
  ⟨fun _ => .inl, fun hjoining => .inl ⟨hjoining, rfl⟩, fun hclosed => ⟨hclosed, rfl⟩,
    fun hadmitting => ⟨hadmitting, rfl⟩⟩

theorem mono (h : Alone codec secret heard session session')
    (hheard : ∀ incoming, heard incoming → heard' incoming) :
    Alone codec secret heard' session session' where
  live := h.live
  joining hjoining := (h.joining hjoining).imp_right fun ⟨hclosed, incoming, hmem, hout⟩ =>
    ⟨hclosed, incoming, hheard incoming hmem, hout⟩
  closed := h.closed
  admitting := h.admitting

theorem trans (h : Alone codec secret heard session session')
    (h' : Alone codec secret heard session' session'') :
    Alone codec secret heard session session'' where
  live peer hlive := by
    rcases h'.live peer hlive with hlive' | ⟨hadmitting, hassigned⟩
    · exact h.live peer hlive'
    · obtain ⟨hold, hsame⟩ := h.admitting hadmitting
      exact .inr ⟨hold, hsame ▸ hassigned⟩
  joining hjoining := by
    rcases h.joining hjoining with ⟨hstill, hout⟩ | ⟨hclosed, incoming, hmem, hout⟩
    · rw [← hout]
      exact h'.joining hstill
    · obtain ⟨hclosed', hout'⟩ := h'.closed hclosed
      exact .inr ⟨hclosed', incoming, hmem, hout'.trans hout⟩
  closed hclosed := by
    obtain ⟨hclosed', hout⟩ := h.closed hclosed
    obtain ⟨hclosed'', hout'⟩ := h'.closed hclosed'
    exact ⟨hclosed'', hout'.trans hout⟩
  admitting hadmitting := by
    obtain ⟨hold, hsame⟩ := h'.admitting hadmitting
    obtain ⟨hold', hsame'⟩ := h.admitting hold
    exact ⟨hold', hsame.trans hsame'⟩

theorem hear {incoming : Option Incoming} {commands : List Command}
    (h : session.hear codec secret false incoming = some (session', commands)) :
    Alone codec secret (· = incoming) session session' := by
  rcases hear_down h with ⟨hjoining, rfl⟩ | ⟨peer, hlive, hstays | hcloses⟩
  · refine ⟨(fun _ he => by cases he), (fun _ => .inr ⟨rfl, incoming, rfl, rfl⟩),
      fun hclosed => ?_, (fun he => by cases he)⟩
    rw [hjoining] at hclosed
    cases hclosed
  · refine ⟨fun peer' he => ?_, fun he => ?_, fun he => ?_, fun he => ?_⟩
    · rw [hstays.1] at he
      cases he
      exact .inl hlive
    · simp [hlive] at he
    · simp [hlive] at he
    · simp [hstays.1] at he
  · refine ⟨fun peer' he => ?_, fun he => ?_, fun he => ?_, fun he => ?_⟩
    · simp [hcloses] at he
    · simp [hlive] at he
    · simp [hlive] at he
    · simp [hcloses] at he

theorem await (h : session.await false = some session') :
    Alone codec secret heard session session' := by
  rcases hphase : session.phase with _ | _ | peer | _
  case admitting =>
    have hrest : session'.phase ≠ .admitting ∧ ∀ peer, session'.phase = .live peer →
        session.assigned = some (some peer) := by
      rcases hassigned : session.assigned with _ | _ | peer <;>
        simp only [Session.await, resume, hphase, hassigned, Bool.false_eq_true, if_false] at h <;>
        cases h <;> simp
    exact ⟨fun peer hlive => .inr ⟨hphase, hrest.2 peer hlive⟩,
      (fun he => by simp [hphase] at he), (fun he => by simp [hphase] at he),
      fun he => absurd he hrest.1⟩
  all_goals simp [Session.await, resume, hphase] at h

end Session.Alone

namespace Process

variable {process process' process'' : Process S} {events events' : List (ProcessEvent S)}

/-- What happens after the end of the loop, from one process to another. -/
structure Settled (app : AppState) (process : Process S) (events : List (ProcessEvent S))
    (process' : Process S) : Prop where
  /-- The media loop stays as it is, and nothing is sent to it. -/
  media : process'.media = process.media
  engine : process'.engine = process.engine
  queue : process'.queue = process.queue
  sessions : ∀ s, Session.Alone app.codec app.sharedSecret
    (fun incoming => .read s incoming ∈ events) (process.sessions s) (process'.sessions s)

/-- A step that is the business of one session. -/
theorem settled_setSession (s : ℕ) (session : Session)
    (h : Session.Alone app.codec app.sharedSecret (fun incoming => .read s incoming ∈ events)
      (process.sessions s) session) :
    (process : Process S).Settled app events (process.setSession s session) where
  media := rfl
  engine := rfl
  queue := rfl
  sessions s' := by
    simp only [setSession, Function.update_apply]
    split
    · rename_i hs
      subst hs
      exact h
    · exact .refl _

theorem settled_step {event : ProcessEvent S} (hdown : process.up = false)
    (hstep : step app process event = some process') : process.Settled app [event] process' := by
  cases event with
  | read s incoming =>
      obtain ⟨session, commands, -, -, hhear, rfl⟩ := step_read hstep
      rw [hdown] at hhear
      have hlost : (process.setSession s session).send (some s) commands =
          process.setSession s session := send_of_down hdown
      rw [hlost]
      exact settled_setSession s session ((Session.Alone.hear hhear).mono (by simp))
  | resume s =>
      obtain ⟨session, -, hawait, rfl⟩ := step_resume hstep
      rw [hdown] at hawait
      exact settled_setSession s session (.await hawait)
  | stopWriting s =>
      simp only [step] at hstep
      split at hstep <;> cases hstep
      exact settled_setSession s _ ⟨fun _ => .inl, fun he => .inl ⟨he, rfl⟩, fun he => ⟨he, rfl⟩,
        fun he => ⟨he, rfl⟩⟩
  | receive | loop | fail =>
      simp only [step, loops, hdown, Bool.false_and, Bool.false_eq_true, if_false] at hstep
      cases hstep
  | finish =>
      simp only [step] at hstep
      split at hstep <;> cases hstep
      have hlost : { process with stage := .finished }.send none [.shutdown] =
          { process with stage := .finished } := send_of_down hdown
      rw [hlost]
      exact ⟨rfl, rfl, rfl, fun _ => .refl _⟩
  | announce | serve | accept | interrupt | giveUp | returns | exit =>
      simp only [step] at hstep
      split at hstep <;> cases hstep
      exact ⟨rfl, rfl, rfl, fun _ => .refl _⟩

theorem Settled.trans (h : process.Settled app events process')
    (h' : process'.Settled app events' process'') :
    process.Settled app (events ++ events') process'' where
  media := h'.media.trans h.media
  engine := h'.engine.trans h.engine
  queue := h'.queue.trans h.queue
  sessions s := ((h.sessions s).mono fun _ hmem => List.mem_append_left _ hmem).trans
    ((h'.sessions s).mono fun _ hmem => List.mem_append_right _ hmem)

/-- **Without a media loop nobody is let in, and everyone who comes is told.** -/
theorem run_settled (hdown : process.up = false)
    (hrun : (machine S app).run process events = some process') :
    process.Settled app events process' := by
  induction events generalizing process with
  | nil =>
      cases hrun
      exact ⟨rfl, rfl, rfl, fun _ => .refl _⟩
  | cons event events ih =>
      obtain ⟨next, hstep, hrest⟩ := Option.bind_eq_some_iff.mp hrun
      have hnext := settled_step hdown hstep
      have hdown' : next.up = false := by rwa [up, hnext.media]
      exact hnext.trans (ih hdown' hrest)

end Process

/-- Bob's join was never taken, and Cid is told so. -/
theorem Process.run_settled_closes :
    ∃ process process', process.up = false ∧
      (machine scripted Puppet.state).run process
        [.resume 1, .read 2 (some (.text "cid"))] = some process' ∧
      (process'.sessions 1).phase = .closed ∧ (process'.sessions 2).out ≠ [] ∧
      process.Settled Puppet.state [.resume 1, .read 2 (some (.text "cid"))] process' := by
  obtain ⟨process, -, hcheck⟩ := (Option.any_eq_true _ _).mp (by decide +kernel :
    ((machine scripted Puppet.state).run (start Puppet.config 0) Puppet.closes).any
      (fun process => !process.up && ((machine scripted Puppet.state).run process
        [.resume 1, .read 2 (some (.text "cid"))]).any (fun process' =>
          decide ((process'.sessions 1).phase = .closed) &&
            !(process'.sessions 2).out.isEmpty)) = true)
  obtain ⟨hdown, hlate⟩ := Bool.and_eq_true_iff.mp hcheck
  obtain ⟨process', hrun, hend⟩ := (Option.any_eq_true _ _).mp hlate
  obtain ⟨hclosed, hout⟩ := Bool.and_eq_true_iff.mp hend
  have hdown' : process.up = false := by simpa using hdown
  exact ⟨process, process', hdown', hrun, of_decide_eq_true hclosed, by simpa using hout,
    run_settled hdown' hrun⟩

end FerriteSfu
