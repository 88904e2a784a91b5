import FerriteSfu.Signal.Duties
import FerriteSfu.Lib.Fairness

/-!
How the sessions end.

A session that asks to be let in waits for the media loop, and one that is over has
a leave on the way to it. As long as the loop goes on taking commands, each gets what
it waits for: the one an answer, the other the departure of its peer.
-/

namespace FerriteSfu

variable {S : Str0m} {app : AppState}

def Command.isLeave : Command → Bool
  | .leave _ => true
  | .join _ | .answer _ _ | .mute _ _ | .screen _ _ | .shutdown => false

/-- How far a session has come. -/
def Phase.stage : Phase → ℕ
  | .joining => 0
  | .admitting => 1
  | .live _ => 2
  | .closed => 3

theorem Phase.eq_closed {phase : Phase} (h : 3 ≤ phase.stage) : phase = .closed := by
  cases phase with
  | closed => rfl
  | joining | admitting | live => simp [stage] at h

theorem Phase.live_or_closed {phase : Phase} (h : 2 ≤ phase.stage) :
    (∃ peer, phase = .live peer) ∨ phase = .closed := by
  cases phase with
  | live peer => exact .inl ⟨peer, rfl⟩
  | closed => exact .inr rfl
  | joining | admitting => simp [stage] at h

theorem Phase.two_le_stage {phase : Phase} (h : 1 ≤ phase.stage) (hphase : phase ≠ .admitting) :
    2 ≤ phase.stage := by
  cases phase with
  | live | closed => simp [stage]
  | joining => simp [stage] at h
  | admitting => exact absurd rfl hphase

theorem Session.read_stage {codec : Codec} {secret : String} {incoming : Option Incoming}
    {session session' : Session} {commands : List Command}
    (hread : session.read codec secret incoming = some (session', commands)) :
    session.phase.stage ≤ session'.phase.stage := by
  by_cases hphase : session.phase = .joining
  · rw [hphase]
    exact Nat.zero_le _
  · rcases Session.read_phase hread hphase with he | he
    · rw [he]
      cases session.phase <;> simp [Phase.stage]
    · rw [he]

theorem Session.resume_stage {session session' : Session}
    (hresume : session.resume = some session') :
    session.phase.stage = 1 ∧ 1 ≤ session'.phase.stage := by
  unfold resume at hresume
  split at hresume
  case h_1 hphase _ =>
    cases hresume
    exact ⟨by rw [hphase]; rfl, Nat.le_succ 1⟩
  case h_2 hphase _ =>
    cases hresume
    exact ⟨by rw [hphase]; rfl, Nat.le_add_left 1 2⟩
  case h_3 => cases hresume

/-- The step does the duty for the session `s`. -/
def SystemEvent.Does (s : ℕ) (duty : Duty) (event : SystemEvent S) : Prop :=
  duty.DoneBy s (.system event)

namespace System

variable {system system' : System S} {event : SystemEvent S} {s : ℕ}

/-! ### Being let in -/

/-- The session does not wait for its admission. -/
def Answered (s : ℕ) (system : System S) : Prop := (system.sessions s).phase ≠ .admitting

/-- What an admission waits for: the media loop, and then the session itself. -/
def awaits (s : ℕ) (system : System S) : Duty :=
  if (system.sessions s).assigned.isNone then .deliver else .resume

/-- How much of that is to come. -/
def awaited (s : ℕ) (system : System S) : ℕ :=
  if (system.sessions s).assigned.isNone then 2 else 1

/-- While a session waits, its answer comes from the media loop alone. -/
theorem Accounted.step_admitting (h : system.Accounted)
    (hstep : system.step app event = some system')
    (hphase : (system.sessions s).phase = .admitting)
    (hphase' : (system'.sessions s).phase = .admitting) :
    (¬event.Does s (system.awaits s) ∧
      (system'.sessions s).assigned = (system.sessions s).assigned) ∨
    ((system.sessions s).assigned = none ∧ (system'.sessions s).assigned.isSome = true) := by
  have hidle : (∀ seed, event ≠ .deliver s seed) → event ≠ .resume s →
      ¬event.Does s (system.awaits s) := by
    intro hdeliver hresume
    rw [awaits]
    split
    · intro hdone
      obtain ⟨seed, he⟩ := Duty.eq_of_deliver hdone
      exact hdeliver seed (ConferenceEvent.system.inj he)
    · exact fun hdone => hresume (ConferenceEvent.system.inj (Duty.eq_of_resume hdone))
  cases event with
  | read s' incoming =>
      refine .inl ⟨hidle (by simp) (by simp), ?_⟩
      obtain ⟨⟨session, commands⟩, hsession, rfl⟩ := Option.map_eq_some_iff.mp hstep
      simp only [setSession_sessions]
      split
      · rename_i hs
        subst hs
        exact ((h.books s).read hsession).1
      · rfl
  | resume s' =>
      obtain ⟨session, hresume, rfl⟩ := Option.map_eq_some_iff.mp hstep
      by_cases hs : s = s'
      · subst hs
        rw [setSession_sessions, if_pos rfl] at hphase'
        exact absurd hphase' (Session.resume_phase hresume).2
      · rw [setSession_sessions, if_neg hs]
        exact .inl ⟨hidle (by simp) fun he => hs (SystemEvent.resume.inj he).symm, rfl⟩
  | stopWriting s' =>
      cases hstep
      refine .inl ⟨hidle (by simp) (by simp), ?_⟩
      rw [setSession_sessions]
      split
      · rename_i hs
        rw [hs]
      · rfl
  | loop event =>
      refine .inl ⟨hidle (by simp) (by simp), ?_⟩
      simp only [System.step] at hstep
      split at hstep
      · cases hstep
      · obtain ⟨engine, -, rfl⟩ := Option.map_eq_some_iff.mp hstep
        rfl
  | deliver s' seed =>
      obtain ⟨command, rest, hsent, -, -, hsessions⟩ := deliver_eq_some hstep
      by_cases hs : s = s'
      · subst hs
        rcases h.sent_cons hsent with ⟨-, hnone, ⟨request, rfl⟩, -⟩ | ⟨peer, howns, -, -⟩
        · refine .inr ⟨hnone, ?_⟩
          rw [hsessions]
          dsimp only [Engine.apply]
          rw [if_pos rfl]
          rfl
        · -- a session that was answered has sent nothing since
          have hbooks := h.books s
          rw [hphase, howns, hsent] at hbooks
          cases hbooks
      · refine .inl ⟨hidle (fun _ he => hs (SystemEvent.deliver.inj he).1.symm) (by simp), ?_⟩
        rw [hsessions]
        split
        · rfl
        · rw [if_neg hs]

/-- A session that waits can be answered, or finds its answer. -/
theorem Accounted.enabled_admitting (h : system.Accounted) (seed : S.Seed)
    (hphase : (system.sessions s).phase = .admitting) :
    (machine S app).Enabled (SystemEvent.Does s (system.awaits s)) system := by
  have hbooks := h.books s
  rw [hphase] at hbooks
  rw [awaits]
  cases hassigned : (system.sessions s).assigned with
  | none =>
      rw [hassigned] at hbooks
      have hsent : (system.sent s).head?.isSome = true := by
        generalize system.sent s = sent at hbooks
        cases hbooks
        rfl
      refine Lib.Machine.enabled_of_isSome (e := .deliver s seed) rfl ?_
      exact Option.isSome_map.trans hsent
  | some reply =>
      refine Lib.Machine.enabled_of_isSome (e := .resume s) rfl ?_
      refine Option.isSome_map.trans ?_
      rw [Session.resume, hphase, hassigned]
      cases reply <;> rfl

theorem helpful_answered (seed : S.Seed) (s : ℕ) :
    (machine S app).Helpful (Answered s) (awaited s) (awaits s) (SystemEvent.Does s) where
  enabled system hreach hwaits :=
    (reachable_accounted hreach).enabled_admitting seed (not_not.mp hwaits)
  lowers system event system' hreach hwaits hstep hwaits' := by
    rcases (reachable_accounted hreach).step_admitting hstep (not_not.mp hwaits)
      (not_not.mp hwaits') with ⟨hidle, hsame⟩ | ⟨hnone, hsome⟩
    · refine .inr ⟨hidle, ?_, ?_⟩
      · rw [awaited, awaited, hsame]
      · rw [awaits, awaits, hsame]
    · refine .inl ?_
      obtain ⟨reply, hreply⟩ := Option.isSome_iff_exists.mp hsome
      rw [awaited, awaited, hnone, hreply]
      exact Nat.one_lt_two

/-! ### Being let go -/

/-- If the session is over, its peer is in no room. -/
def Gone (s : ℕ) (system : System S) : Prop :=
  (system.sessions s).phase = .closed → ∀ id, system.Owns s id → ¬system.engine.Present id

/-- How many commands come before the leave. -/
def ahead (s : ℕ) (system : System S) : ℕ := (system.sent s).findIdx Command.isLeave

theorem Accounted.leaves (h : system.Accounted) (hgone : ¬system.Gone s) :
    ∃ id, system.Owns s id ∧ (system.sent s).any Command.isLeave = true := by
  simp only [Gone, not_forall, not_not] at hgone
  obtain ⟨hphase, id, howns, hpresent⟩ := hgone
  exact ⟨id, howns, List.any_eq_true.mpr ⟨_, h.departed s id howns hphase hpresent, rfl⟩⟩

/-- The media loop that has taken a leave has dropped the peer. -/
theorem Accounted.gone_of_leave (h : system.Accounted) {seed : S.Seed}
    (hstep : system.deliver s seed = some system') {command : Command} {rest : List Command}
    (hsent : system.sent s = command :: rest) (hleave : command.isLeave = true) :
    system'.Gone s := by
  intro _ id howns' hpresent
  obtain ⟨taken, later, htaken, hengine, -, hsessions⟩ := deliver_eq_some hstep
  obtain ⟨rfl, -⟩ := List.cons.inj (hsent.symm.trans htaken)
  cases command with
  | leave target =>
      rcases h.sent_cons hsent with ⟨-, -, ⟨_, he⟩, -⟩ | ⟨peer, howns, htarget, -⟩
      · cases he
      · obtain rfl : target = peer := Option.some.inj htarget
        obtain rfl : id = target := by
          rw [Owns, hsessions] at howns'
          exact Option.some.inj (Option.some.inj (howns'.symm.trans howns))
        rw [hengine] at hpresent
        exact h.sound.not_present_dropPeer id hpresent
  | join | answer | mute | screen | shutdown => cases hleave

theorem helpful_gone (seed : S.Seed) (s : ℕ) :
    (machine S app).Helpful (Gone s) (ahead s) (fun _ => .deliver) (SystemEvent.Does s) where
  enabled system hreach hgone := by
    obtain ⟨id, -, hany⟩ := (reachable_accounted hreach).leaves hgone
    obtain ⟨command, hmem, -⟩ := List.any_eq_true.mp hany
    refine Lib.Machine.enabled_of_isSome (e := .deliver s seed) rfl ?_
    refine Option.isSome_map.trans ?_
    rw [List.isSome_head?]
    exact List.ne_nil_of_mem hmem
  lowers system event system' hreach hgone hstep hgone' := by
    have haccounted := reachable_accounted hreach
    obtain ⟨id, howns, hany⟩ := haccounted.leaves hgone
    obtain ⟨-, hflows, -⟩ := haccounted.step_session hstep howns
    rcases hflows.place hany with ⟨hidle, -, hplace⟩ | ⟨hdone, command, hsent, hleave | ⟨-, hlower⟩⟩
    · exact .inr ⟨hidle, hplace, rfl⟩
    · obtain ⟨seed', he⟩ := Duty.eq_of_deliver hdone
      cases he
      exact absurd (haccounted.gone_of_leave hstep hsent hleave) hgone'
    · exact .inl hlower

/-! ### For good -/

/-- A session goes on, or stays where it is, and what it was answered stays. -/
theorem Accounted.step_stage (h : system.Accounted)
    (hstep : system.step app event = some system') (s : ℕ) :
    (system.sessions s).phase.stage ≤ (system'.sessions s).phase.stage ∧
      ((system.sessions s).phase = .closed →
        (system'.sessions s).assigned = (system.sessions s).assigned) := by
  cases event with
  | read s' incoming =>
      obtain ⟨⟨session, commands⟩, hsession, rfl⟩ := Option.map_eq_some_iff.mp hstep
      simp only [setSession_sessions]
      split
      · rename_i hs
        subst hs
        exact ⟨Session.read_stage hsession, fun _ => ((h.books s).read hsession).1⟩
      · exact ⟨Nat.le_refl _, fun _ => rfl⟩
  | resume s' =>
      obtain ⟨session, hresume, rfl⟩ := Option.map_eq_some_iff.mp hstep
      rw [setSession_sessions]
      split
      · rename_i hs
        subst hs
        obtain ⟨hone, hle⟩ := Session.resume_stage hresume
        exact ⟨hone.trans_le hle, fun _ => ((h.books s).resume hresume).1⟩
      · exact ⟨Nat.le_refl _, fun _ => rfl⟩
  | stopWriting s' =>
      cases hstep
      rw [setSession_sessions]
      split
      · rename_i hs
        subst hs
        exact ⟨Nat.le_refl _, fun _ => rfl⟩
      · exact ⟨Nat.le_refl _, fun _ => rfl⟩
  | loop event =>
      simp only [System.step] at hstep
      split at hstep
      · cases hstep
      · obtain ⟨engine, -, rfl⟩ := Option.map_eq_some_iff.mp hstep
        exact ⟨Nat.le_refl _, fun _ => rfl⟩
  | deliver s' seed =>
      obtain ⟨command, rest, hsent, -, -, hsessions⟩ := deliver_eq_some hstep
      rw [hsessions]
      rcases h.sent_cons hsent with ⟨hphase, -, ⟨request, rfl⟩, -⟩ | ⟨peer, -, htarget, -⟩
      · dsimp only [Engine.apply]
        split
        · -- the session waits for this answer
          rename_i hs
          subst hs
          exact ⟨Nat.le_refl _, fun he => by rw [he] at hphase; cases hphase⟩
        · exact ⟨Nat.le_refl _, fun _ => rfl⟩
      · rw [(h.sound.apply_present htarget seed).1]
        exact ⟨Nat.le_refl _, fun _ => rfl⟩

/-- Nobody comes back. -/
theorem Accounted.step_gone (h : system.Accounted)
    (hstep : system.step app event = some system')
    (hphase : (system.sessions s).phase = .closed) (hgone : system.Gone s) : system'.Gone s := by
  intro _ id howns' hpresent'
  have howns : system.Owns s id := ((h.step_stage hstep s).2 hphase).symm.trans howns'
  refine hgone hphase id howns ?_
  rcases step_event hstep with ⟨-, hengine⟩ | ⟨event, -, hengine⟩
  · rwa [← hengine]
  · rcases h.sound.step_present hengine id hpresent' with hpresent | ⟨_, _, -, -, rfl⟩
    · exact hpresent
    · exact absurd (h.given s _ howns) (Nat.lt_irrefl _)

variable {states : ℕ → System S} {events : ℕ → SystemEvent S}

theorem monotone_stage (h : (machine S app).Forever states events) (s : ℕ) :
    Monotone fun n => ((states n).sessions s).phase.stage :=
  monotone_nat_of_le_succ fun n =>
    ((reachable_accounted (h.reachable n)).step_stage (h.step n) s).1

theorem closed_of_le (h : (machine S app).Forever states events) {n k : ℕ} (hk : n ≤ k)
    (hphase : ((states n).sessions s).phase = .closed) :
    ((states k).sessions s).phase = .closed := by
  refine Phase.eq_closed (Nat.le_trans ?_ (monotone_stage h s hk))
  dsimp only
  rw [hphase]
  exact Nat.le_refl _

theorem gone_of_le (h : (machine S app).Forever states events) {n k : ℕ} (hk : n ≤ k)
    (hphase : ((states n).sessions s).phase = .closed) (hgone : (states n).Gone s) :
    (states k).Gone s := by
  induction k, hk using Nat.le_induction with
  | base => exact hgone
  | succ k hk ih =>
      exact (reachable_accounted (h.reachable k)).step_gone (h.step k)
        (closed_of_le h hk hphase) ih

/-- What becomes of a session, from the time `n` on, if the media loop goes on taking
its commands. -/
structure Concludes (s n : ℕ) (states : ℕ → System S) : Prop where
  /-- Whoever asks to be let in is let in or turned away. -/
  answered : ((states n).sessions s).phase = .admitting →
    ∃ m ≥ n, ∀ k ≥ m, (∃ peer, ((states k).sessions s).phase = .live peer) ∨
      ((states k).sessions s).phase = .closed
  /-- Whoever is done is in no room any more, and never will be. -/
  left : ((states n).sessions s).phase = .closed →
    ∃ m ≥ n, ∀ k ≥ m, ((states k).sessions s).phase = .closed ∧
      ∀ id, (states k).Owns s id → ¬(states k).engine.Present id

/-- **Whoever asks to be let in is answered, and whoever is done is let go.** -/
theorem forever_concludes (h : (machine S app).Forever states events) (seed : S.Seed)
    (hdeliver : (machine S app).Fair states events (SystemEvent.Does s .deliver))
    (hresume : (machine S app).Fair states events (SystemEvent.Does s .resume)) (n : ℕ) :
    Concludes s n states where
  answered hphase := by
    have hfair : ∀ system : System S,
        (machine S app).Fair states events (SystemEvent.Does s (system.awaits s)) := by
      intro system
      rw [awaits]
      split
      · exact hdeliver
      · exact hresume
    obtain ⟨m, hm, hanswered⟩ := h.leads (helpful_answered seed s) hfair n
    have hone : 1 ≤ ((states n).sessions s).phase.stage := by
      rw [hphase]
      exact Nat.le_refl _
    have htwo := Phase.two_le_stage (hone.trans (monotone_stage h s hm)) hanswered
    exact ⟨m, hm, fun k hk => Phase.live_or_closed (htwo.trans (monotone_stage h s hk))⟩
  left hphase := by
    obtain ⟨m, hm, hgone⟩ := h.leads (helpful_gone seed s) (fun _ => hdeliver) n
    have hclosed := closed_of_le h hm hphase
    refine ⟨m, hm, fun k hk => ?_⟩
    have hphase' := closed_of_le h hk hclosed
    exact ⟨hphase', gone_of_le h hk hclosed hgone hphase'⟩

/-! ### Ann has left, Bob is told -/

theorem not_enabled_deliver (hsent : system.sent s = []) :
    ¬(machine S app).Enabled (SystemEvent.Does s .deliver) system := by
  rintro ⟨event, system', hdone, hstep⟩
  obtain ⟨seed, he⟩ := Duty.eq_of_deliver hdone
  cases he
  obtain ⟨command, rest, hcons, -⟩ := deliver_eq_some hstep
  rw [hsent] at hcons
  cases hcons

theorem not_enabled_resume (hphase : (system.sessions s).phase ≠ .admitting) :
    ¬(machine S app).Enabled (SystemEvent.Does s .resume) system := by
  rintro ⟨event, system', hdone, hstep⟩
  cases Duty.eq_of_resume hdone
  obtain ⟨session, hresume, -⟩ := Option.map_eq_some_iff.mp hstep
  exact hphase (Session.resume_phase hresume).1

end System

/-- The media loop takes Ann's leave, and Bob finds that he was let in. -/
def Puppet.concludes : List (SystemEvent scripted) :=
  visits ++ [.deliver 0 "", .resume 1, .stopWriting 2]

theorem System.forever_concludes_concludes :
    ∃ states events, (machine scripted Puppet.state).Forever states events ∧
      ((states Puppet.visits.length).sessions 0).phase = .closed ∧
      ¬(states Puppet.visits.length).Gone 0 ∧
      ((states Puppet.visits.length).sessions 1).phase = .admitting ∧
      Concludes 0 Puppet.visits.length states ∧ Concludes 1 Puppet.visits.length states := by
  obtain ⟨system, hrun, hcheck⟩ := (Option.any_eq_true _ _).mp (by decide +kernel :
    ((machine scripted Puppet.state).run (start Puppet.config 0) Puppet.concludes).any
      (fun system => (system.sent 0).isEmpty && ((system.sent 1).isEmpty &&
        (decide ((system.sessions 0).phase ≠ .admitting) &&
          (decide ((system.sessions 1).phase ≠ .admitting) &&
            decide ((system.sessions 2).writing = false))))) = true)
  simp only [Bool.and_eq_true, List.isEmpty_iff, decide_eq_true_eq] at hcheck
  obtain ⟨hsent₀, hsent₁, hphase₀, hphase₁, hwriting⟩ := hcheck
  have hidle : (machine scripted Puppet.state).step system (.stopWriting 2) = some system :=
    step_stopWriting Puppet.state hwriting
  have hforever : (machine scripted Puppet.state).Forever
      ((machine scripted Puppet.state).trail (start Puppet.config 0) Puppet.concludes)
      (Lib.Machine.trailing Puppet.concludes (.stopWriting 2)) :=
    Lib.Machine.forever_of_run (.init ⟨0, rfl⟩) hrun hidle
  refine ⟨_, _, hforever, by decide +kernel, fun hgone => ?_, by decide +kernel,
    forever_concludes hforever "" (Lib.Machine.fair_of_run hrun (not_enabled_deliver hsent₀))
      (Lib.Machine.fair_of_run hrun (not_enabled_resume hphase₀)) _,
    forever_concludes hforever "" (Lib.Machine.fair_of_run hrun (not_enabled_deliver hsent₁))
      (Lib.Machine.fair_of_run hrun (not_enabled_resume hphase₁)) _⟩
  exact hgone (by decide +kernel) ⟨1⟩ (by decide +kernel) ⟨"red", by decide +kernel⟩

end FerriteSfu
