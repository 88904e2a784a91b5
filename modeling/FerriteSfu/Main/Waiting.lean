import FerriteSfu.Main.Shutdown
import FerriteSfu.Signal.Conclusion

/-!
Nobody waits for the media loop for ever, whatever becomes of it.

A session that has asked to be let in waits for the loop to come to its join, and
then for itself to look. The loop may fail before that, while the process lives on.
The join is lost with it, and the session finds that out instead.
-/

namespace FerriteSfu

variable {S : Str0m} {app : AppState}

/-- The media loop takes a command. -/
def ProcessEvent.IsReceive : ProcessEvent S → Prop
  | .receive _ => True
  | _ => False

/-- A session that waits looks, and does not wait any more. -/
theorem Session.await_phase {up : Bool} {session session' : Session}
    (h : session.await up = some session') :
    session.phase = .admitting ∧ 2 ≤ session'.phase.stage ∧
      ∀ peer, session'.phase = .live peer → session.assigned = some (some peer) := by
  unfold await at h
  split at h
  · rename_i hphase _
    split at h <;> cases h
    exact ⟨hphase, Nat.le_succ 2, fun peer he => by cases he⟩
  · unfold resume at h
    split at h
    · rename_i peer hphase hassigned
      cases h
      refine ⟨hphase, Nat.le_refl 2, fun peer' he => ?_⟩
      cases he
      exact hassigned
    · rename_i hphase _
      cases h
      exact ⟨hphase, Nat.le_succ 2, fun peer he => by cases he⟩
    · cases h

/-- Reading lets nobody in. -/
theorem Session.hear_phase {codec : Codec} {secret : String} {up : Bool}
    {incoming : Option Incoming} {session session' : Session} {commands : List Command}
    (h : session.hear codec secret up incoming = some (session', commands)) :
    session.phase ≠ .admitting ∧ session.phase.stage ≤ session'.phase.stage ∧
      ∀ peer, session'.phase = .live peer → session.phase = .live peer := by
  obtain ⟨phase, assigned, writing, out⟩ := session
  cases phase with
  | joining =>
      refine ⟨by simp, ?_⟩
      simp only [hear] at h
      split at h
      · split at h <;> cases h <;> exact ⟨Nat.zero_le _, fun peer he => by cases he⟩
      · cases h
        exact ⟨Nat.zero_le _, fun peer he => by cases he⟩
  | live peer =>
      refine ⟨by simp, ?_⟩
      simp only [hear] at h
      split at h
      · cases h
      · split at h <;> cases h
        · exact ⟨Nat.le_refl _, fun peer he => he⟩
        · exact ⟨Nat.le_succ 2, fun peer he => by cases he⟩
      · cases h
        exact ⟨Nat.le_refl _, fun peer he => he⟩
      all_goals
        cases h
        exact ⟨Nat.le_succ 2, fun peer he => by cases he⟩
  | admitting | closed => cases h

namespace Process

variable {process process' : Process S} {event : ProcessEvent S} {s : ℕ}

/-! ### A session in one step -/

theorem step_stage (hstep : step app process event = some process') (s : ℕ) :
    (process.sessions s).phase.stage ≤ (process'.sessions s).phase.stage := by
  rcases step_session hstep s with ⟨incoming, commands, hhear, -⟩ | hawait | ⟨hsame, -⟩
  · exact (Session.hear_phase hhear).2.1
  · obtain ⟨hphase, hstage, -⟩ := Session.await_phase hawait
    rw [hphase]
    exact Nat.le_of_succ_le hstage
  · exact Nat.le_of_eq (congrArg Phase.stage hsame.symm)

/-- While a session waits, nothing but the media loop has to do with it. -/
theorem step_admitting (hstep : step app process event = some process')
    (hphase : (process.sessions s).phase = .admitting)
    (hphase' : (process'.sessions s).phase = .admitting) :
    ¬event.IsResume s ∧ ((process'.sessions s).assigned = (process.sessions s).assigned ∨
      ∃ request, process.queue = (some s, .join request) :: process'.queue ∧
        process'.up = true ∧ (process'.sessions s).assigned.isSome = true) := by
  rcases step_session hstep s with ⟨incoming, commands, hhear, -⟩ | hawait | ⟨-, hidle, hkept⟩
  · exact absurd hphase (Session.hear_phase hhear).1
  · have hstage := (Session.await_phase hawait).2.1
    rw [hphase'] at hstage
    exact absurd hstage (by decide)
  · exact ⟨hidle, hkept⟩

theorem step_flows (hstep : step app process event = some process') :
    (∃ entry, event.IsReceive ∧ process.queue = entry :: process'.queue) ∨
      process.queue <+: process'.queue ∧ (event.IsReceive → process'.up = false) := by
  have hqueue := step_queue hstep
  cases event with
  | receive seed =>
      rcases receive_cases (step_receive hstep).2.2 with ⟨hnone, -, rfl⟩ |
        ⟨sender, command, queue, hcons, hrest, -⟩
      · exact .inr ⟨List.prefix_refl _, fun _ => rfl⟩
      · exact .inl ⟨(sender, command), trivial, by rw [hcons, hrest]⟩
  | announce | serve | accept | read | resume | stopWriting | interrupt | finish | giveUp |
      returns | exit | loop | fail =>
      exact .inr ⟨⟨process.posted app _, hqueue⟩, fun he => he.elim⟩

theorem up_of_step (hstep : step app process event = some process') (hup : process'.up = true) :
    process.up = true := by
  rcases step_engine hstep with ⟨-, -, -, hold, -⟩ | ⟨-, hold, -⟩
  · exact hold
  · exact hold hup

/-! ### Who waits for whom -/

theorem accounted_of_up (h : (machine S app).Reachable process) (hup : process.up = true) :
    process.system.Accounted := by
  obtain ⟨system, hsystem, -, hsame⟩ := reachable_system h
  rw [hsame hup]
  exact System.reachable_accounted hsystem

/-- Whether the queue has something of the session `s`. -/
def sentBy (s : ℕ) (entry : Option ℕ × Command) : Bool := decide (entry.1 = some s)

theorem mem_system_sent {command : Command} :
    command ∈ process.system.sent s ↔ (some s, command) ∈ process.queue := by
  rw [System.sent, Lib.Mailbox.mem_sentBy, system, List.mem_filterMap]
  constructor
  · rintro ⟨⟨sender, sent⟩, hentry, heq⟩
    obtain ⟨s', hs', hpair⟩ := Option.map_eq_some_iff.mp heq
    cases hpair
    exact hs' ▸ hentry
  · exact fun hentry => ⟨_, hentry, rfl⟩

/-- A session that has no answer has its join in the queue, and nothing else. -/
theorem queue_of_admitting (h : (machine S app).Reachable process) (hup : process.up = true)
    (hphase : (process.sessions s).phase = .admitting)
    (hassigned : (process.sessions s).assigned = none) :
    process.queue.any (sentBy s) = true ∧
      ∀ command, (some s, command) ∈ process.queue → ∃ request, command = .join request := by
  have hbooks := (accounted_of_up h hup).books s
  have hphase' : (process.system.sessions s).phase = .admitting := hphase
  have hassigned' : (process.system.sessions s).assigned = none := hassigned
  rw [hphase', hassigned'] at hbooks
  have hmem : ∀ command, command ∈ process.system.sent s ↔ (some s, command) ∈ process.queue :=
    fun _ => mem_system_sent
  generalize process.system.sent s = sent at hbooks hmem
  cases hbooks with
  | asked request =>
      refine ⟨List.any_eq_true.mpr ⟨_, (hmem (.join request)).mp (by simp), by simp [sentBy]⟩, ?_⟩
      intro command hcommand
      exact ⟨request, List.mem_singleton.mp ((hmem command).mpr hcommand)⟩

/-- The loop that takes a join answers it. -/
theorem assigned_of_taken (hstep : step app process event = some process')
    (hreceive : event.IsReceive) {request : JoinRequest}
    (hqueue : process.queue = (some s, .join request) :: process'.queue) :
    (process'.sessions s).assigned.isSome = true := by
  cases event with
  | receive seed =>
      rcases receive_cases (step_receive hstep).2.2 with ⟨hnone, -⟩ |
        ⟨sender, command, queue, hcons, -, -, -, ⟨hshutdown, -⟩ | ⟨-, -, -, -, hsessions⟩⟩
      · rw [hqueue] at hnone
        cases hnone
      · rw [hqueue] at hcons
        cases hcons
        cases hshutdown
      · rw [hqueue] at hcons
        cases hcons
        rw [hsessions]
        dsimp only [Engine.apply]
        rw [if_pos rfl]
        rfl
  | announce | serve | accept | read | resume | stopWriting | interrupt | finish | giveUp |
      returns | exit | loop | fail => exact hreceive.elim

/-- The session waits for the media loop, and not only for itself to look. -/
def waitsForLoop (s : ℕ) (process : Process S) : Bool :=
  process.up && (process.sessions s).assigned.isNone

/-- How many commands the loop has to take for it. -/
def away (s : ℕ) (process : Process S) : ℕ :=
  if process.waitsForLoop s then process.queue.findIdx (sentBy s) + 1 else 0

/-- Who is to do something: the loop, or the session. -/
def Helps (s : ℕ) (loop : Bool) (event : ProcessEvent S) : Prop :=
  if loop then event.IsReceive else event.IsResume s

/-- As long as there are tasks, the session does not wait. -/
def Served (s : ℕ) (process : Process S) : Prop :=
  process.hasTasks = true → (process.sessions s).phase ≠ .admitting

theorem not_served (h : ¬process.Served s) :
    process.hasTasks = true ∧ (process.sessions s).phase = .admitting := by
  obtain ⟨htasks, hphase⟩ := Classical.not_imp.mp h
  exact ⟨htasks, not_not.mp hphase⟩

theorem enabled_served (seed : S.Seed) (h : (machine S app).Reachable process)
    (hserved : ¬process.Served s) :
    (machine S app).Enabled (Helps s (process.waitsForLoop s)) process := by
  obtain ⟨htasks, hphase⟩ := not_served hserved
  cases hwaits : process.waitsForLoop s with
  | true =>
      obtain ⟨hup, hnone⟩ := Bool.and_eq_true_iff.mp hwaits
      have hqueue := (queue_of_admitting h hup hphase (Option.isNone_iff_eq_none.mp hnone)).1
      have hloops : process.loops = true :=
        Bool.and_eq_true_iff.mpr ⟨hup, decide_eq_true (of_decide_eq_true htasks).2⟩
      refine Lib.Machine.enabled_of_isSome (e := .receive seed) trivial ?_
      simp only [machine, step, hloops, if_true]
      unfold receive
      split
      · rename_i hempty
        rw [hempty] at hqueue
        cases hqueue
      · dsimp only
        split
        · rfl
        · split <;> rfl
  | false =>
      refine Lib.Machine.enabled_of_isSome (e := .resume s) rfl ?_
      simp only [machine, step, htasks, if_true]
      refine Option.isSome_map.trans ?_
      rw [Session.await, Session.resume, hphase]
      rcases hassigned : (process.sessions s).assigned with _ | _ | peer
      · have hdown : process.up = false := by simpa [waitsForLoop, hassigned] using hwaits
        rw [hdown]
        rfl
      · rfl
      · rfl

theorem lowers_served (h : (machine S app).Reachable process) (hserved : ¬process.Served s)
    (hstep : step app process event = some process') (hserved' : ¬process'.Served s) :
    process'.away s < process.away s ∨ ¬Helps s (process.waitsForLoop s) event ∧
      process'.away s = process.away s ∧ process'.waitsForLoop s = process.waitsForLoop s := by
  obtain ⟨-, hphase⟩ := not_served hserved
  obtain ⟨-, hphase'⟩ := not_served hserved'
  obtain ⟨hidle, hassigned⟩ := step_admitting hstep hphase hphase'
  cases hwaits : process.waitsForLoop s with
  | false =>
      -- What it waits for has happened, and does not become undone.
      have hstill : process'.waitsForLoop s = false := by
        by_contra htrue
        obtain ⟨hup', hnone'⟩ := Bool.and_eq_true_iff.mp (Bool.not_eq_false _ ▸ htrue)
        have hup := up_of_step hstep hup'
        rcases hassigned with hsame | ⟨-, -, -, hsome⟩
        · rw [waitsForLoop, hup, ← hsame, hnone'] at hwaits
          cases hwaits
        · simp [Option.isNone_iff_eq_none.mp hnone'] at hsome
      exact .inr ⟨hidle, by simp [away, hwaits, hstill], hstill⟩
  | true =>
      obtain ⟨hup, hnone⟩ := Bool.and_eq_true_iff.mp hwaits
      obtain ⟨hany, hjoin⟩ :=
        queue_of_admitting h hup hphase (Option.isNone_iff_eq_none.mp hnone)
      cases hwaits' : process'.waitsForLoop s with
      | false => exact .inl (by simp [away, hwaits, hwaits'])
      | true =>
          obtain ⟨hup', hnone'⟩ := Bool.and_eq_true_iff.mp hwaits'
          simp only [away, hwaits, hwaits', if_true]
          rcases step_flows hstep with ⟨entry, hreceive, hqueue⟩ | ⟨⟨more, hmore⟩, hother⟩
          · refine .inl (Nat.succ_lt_succ ?_)
            have hfirst : sentBy s entry = false := by
              by_contra hmine
              obtain ⟨sender, command⟩ := entry
              obtain rfl : sender = some s := by simpa [sentBy] using hmine
              obtain ⟨request, rfl⟩ := hjoin command (by simp [hqueue])
              have hsome := assigned_of_taken hstep hreceive hqueue
              simp [Option.isNone_iff_eq_none.mp hnone'] at hsome
            rw [hqueue, List.findIdx_cons, hfirst]
            exact Nat.lt_succ_self _
          · refine .inr ⟨fun hreceive => ?_, ?_, trivial⟩
            · rw [hother hreceive] at hup'
              cases hup'
            · rw [← hmore, List.findIdx_append,
                if_pos (List.findIdx_lt_length.mpr (List.any_eq_true.mp hany))]

theorem helpful_served (seed : S.Seed) (s : ℕ) :
    (machine S app).Helpful (Served s) (away s) (waitsForLoop s) (Helps s) where
  enabled _ hreach hserved := enabled_served seed hreach hserved
  lowers _ _ _ hreach hserved hstep hserved' := lowers_served hreach hserved hstep hserved'

/-- Whoever is let in is let in as the peer that was made for it. -/
theorem reachable_assigned (h : (machine S app).Reachable process) (s : ℕ) (peer : PeerId)
    (hlive : (process.sessions s).phase = .live peer) :
    (process.sessions s).assigned = some (some peer) := by
  refine Lib.Machine.Invariant.holds (I := fun process : Process S =>
    ∀ s peer, (process.sessions s).phase = .live peer →
      (process.sessions s).assigned = some (some peer)) ⟨?_, ?_⟩ h s peer hlive
  · rintro process ⟨now, rfl⟩ s peer hlive
    cases hlive
  · intro process event process' hreach ih _ hstep s peer hlive
    rcases step_session hstep s with ⟨incoming, commands, hhear, -⟩ | hawait | ⟨hsame, -, hkept⟩
    · rw [Session.hear_assigned hhear]
      exact ih s peer ((Session.hear_phase hhear).2.2 peer hlive)
    · rw [Session.await_assigned hawait]
      exact (Session.await_phase hawait).2.2 peer hlive
    · rw [hsame] at hlive
      rcases hkept with hassigned | ⟨request, hqueue, hup, -⟩
      · rw [hassigned]
        exact ih s peer hlive
      · -- A session that is live has sent no join that is not taken yet.
        have hbooks := (accounted_of_up hreach (up_of_step hstep hup)).books s
        have hphase : (process.system.sessions s).phase = .live peer := hlive
        have hsent : .join request ∈ process.system.sent s :=
          mem_system_sent.mpr (by simp [hqueue])
        rw [hphase] at hbooks
        generalize process.system.sent s = sent at hbooks hsent
        generalize (process.system.sessions s).assigned = assigned at hbooks
        cases hbooks with
        | live peer sent hall => cases hall _ hsent

/-! ### For good -/

variable {states : ℕ → Process S} {events : ℕ → ProcessEvent S}

theorem monotone_stage (h : (machine S app).Forever states events) (s : ℕ) :
    Monotone fun n => ((states n).sessions s).phase.stage :=
  monotone_nat_of_le_succ fun n => step_stage (h.step n) s

/-- If there are tasks, there were tasks before. -/
theorem hasTasks_of_le (h : (machine S app).Forever states events) {n k : ℕ} (hk : n ≤ k)
    (hserves : (states k).hasTasks = true) : (states n).hasTasks = true := by
  by_contra hgone
  rw [Bool.not_eq_true] at hgone
  have hstays : (states k).hasTasks = false := by
    induction k, hk using Nat.le_induction with
    | base => exact hgone
    | succ k _ ih =>
        refine step_hasTasks (h.step k) ?_
        by_contra hthere
        exact absurd (ih (Bool.not_eq_false _ ▸ hthere)) hthere
  rw [hserves] at hstays
  cases hstays

/-- **Nobody waits for ever to be let in, whatever becomes of the media loop.** -/
theorem forever_answered (h : (machine S app).Forever states events) (seed : S.Seed)
    (hserves : ∀ n, (states n).hasTasks = true)
    (hreceive : (machine S app).Fair states events ProcessEvent.IsReceive)
    (hresume : (machine S app).Fair states events (ProcessEvent.IsResume s)) {n : ℕ}
    (hphase : ((states n).sessions s).phase = .admitting) :
    ∃ m ≥ n, ∀ k ≥ m, ((states k).sessions s).phase = .closed ∨
      ∃ peer, ((states k).sessions s).phase = .live peer ∧
        ((states k).sessions s).assigned = some (some peer) := by
  have hfair : ∀ process : Process S,
      (machine S app).Fair states events (Helps s (process.waitsForLoop s)) := by
    intro process
    cases process.waitsForLoop s with
    | true => exact hreceive
    | false => exact hresume
  obtain ⟨m, hm, hserved⟩ := h.leads (helpful_served seed s) hfair n
  have hone : 1 ≤ ((states n).sessions s).phase.stage := by
    rw [hphase]
    exact Nat.le_refl _
  have htwo := Phase.two_le_stage (hone.trans (monotone_stage h s hm)) (hserved (hserves m))
  refine ⟨m, hm, fun k hk => ?_⟩
  rcases Phase.live_or_closed (htwo.trans (monotone_stage h s hk)) with ⟨peer, hlive⟩ | hclosed
  · exact .inr ⟨peer, hlive, reachable_assigned (h.reachable k) s peer hlive⟩
  · exact .inl hclosed

/-! ### The socket fails before Bob's turn -/

theorem not_enabled_receive (hdown : process.up = false) :
    ¬(machine S app).Enabled ProcessEvent.IsReceive process := by
  rintro ⟨event, process', hreceive, hstep⟩
  cases event with
  | receive seed =>
      have hstep : step app process (.receive seed) = some process' := hstep
      have hup := (step_receive hstep).1
      rw [hdown] at hup
      cases hup
  | announce | serve | accept | read | resume | stopWriting | interrupt | finish | giveUp |
      returns | exit | loop | fail => exact hreceive.elim

theorem not_enabled_resume (hphase : (process.sessions s).phase ≠ .admitting) :
    ¬(machine S app).Enabled (ProcessEvent.IsResume s) process := by
  rintro ⟨event, process', hresume, hstep⟩
  cases event with
  | resume s' =>
      obtain rfl : s' = s := hresume
      have hstep : step app process (.resume s') = some process' := hstep
      obtain ⟨session, -, hawait, -⟩ := step_resume hstep
      exact hphase (Session.await_phase hawait).1
  | announce | serve | accept | read | stopWriting | interrupt | finish | giveUp | returns | exit |
      receive | loop | fail => exact hresume.elim

/-- The writer of a session does not stop twice. -/
theorem step_stopWriting (app : AppState) (hthere : process.hasTasks = true ∧ s < process.accepted)
    (h : (process.sessions s).writing = false) :
    step app process (.stopWriting s) = some process := by
  have hsame : { process.sessions s with writing := false } = process.sessions s := by
    rw [← h]
  simp only [step, if_pos hthere, setSession, hsame, Function.update_eq_self]

end Process

namespace Puppet

/-- Ann is in the red room, and Bob asks to be let in. -/
def asks : List (ProcessEvent scripted) := opens ++ [.read 1 (some (.text "bob"))]

/-- The media loop fails, and Bob learns of it. -/
def fails : List (ProcessEvent scripted) := asks ++ [.fail, .resume 1, .stopWriting 2]

end Puppet

theorem Process.forever_answered_fails :
    ∃ states events, (machine scripted Puppet.state).Forever states events ∧
      (states Puppet.asks.length).up = true ∧
      ((states Puppet.asks.length).sessions 1).phase = .admitting ∧
      ∃ m ≥ Puppet.asks.length, ∀ k ≥ m, ((states k).sessions 1).phase = .closed ∨
        ∃ peer, ((states k).sessions 1).phase = .live peer ∧
          ((states k).sessions 1).assigned = some (some peer) := by
  obtain ⟨process, hrun, hcheck⟩ := (Option.any_eq_true _ _).mp (by decide +kernel :
    ((machine scripted Puppet.state).run (start Puppet.config 0) Puppet.fails).any
      (fun process => !process.up && (decide ((process.sessions 1).phase ≠ .admitting) &&
        (decide (process.hasTasks = true ∧ 2 < process.accepted) &&
          decide ((process.sessions 2).writing = false)))) = true)
  simp only [Bool.and_eq_true, Bool.not_eq_true', decide_eq_true_eq] at hcheck
  obtain ⟨hdown, hphase, hthere, hwriting⟩ := hcheck
  have hidle : (machine scripted Puppet.state).step process (.stopWriting 2) = some process :=
    step_stopWriting Puppet.state hthere hwriting
  have hforever : (machine scripted Puppet.state).Forever
      ((machine scripted Puppet.state).trail (start Puppet.config 0) Puppet.fails)
      (Lib.Machine.trailing Puppet.fails (.stopWriting 2)) :=
    Lib.Machine.forever_of_run (.init ⟨0, rfl⟩) hrun hidle
  have hserves : ∀ n, ((machine scripted Puppet.state).trail (start Puppet.config 0)
      Puppet.fails n).hasTasks = true := by
    intro n
    refine hasTasks_of_le hforever (Nat.le_max_left n Puppet.fails.length) ?_
    rw [Lib.Machine.trail_of_length_le hrun (Nat.le_max_right _ _)]
    exact hthere.1
  exact ⟨_, _, hforever, by decide +kernel, by decide +kernel,
    forever_answered hforever "" hserves
      (Lib.Machine.fair_of_run hrun (not_enabled_receive hdown))
      (Lib.Machine.fair_of_run hrun (not_enabled_resume hphase)) (by decide +kernel)⟩

end FerriteSfu
