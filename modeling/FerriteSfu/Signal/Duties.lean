import FerriteSfu.Signal.Browser

/-!
Who has to do what for a session, and what a step does to its queues.

The commands of a session are taken by the media loop, what its browser sent is read
by the session, and what its peer was pushed is read by the browser. Each queue is
read from the front and fills at the end.
-/

namespace FerriteSfu

variable {S : Str0m} {app : AppState}

/-- What has to go on for the offers of a session. -/
inductive Duty
  /-- The media loop takes its commands. -/
  | deliver
  /-- It finds that it was admitted. -/
  | resume
  /-- It reads what its browser sent. -/
  | read
  /-- Its browser reads what the peer was pushed. -/
  | hear
  deriving DecidableEq, Repr

/-- The step does the duty for the session `s`. -/
def Duty.DoneBy (s : ℕ) : Duty → ConferenceEvent S → Prop
  | .deliver, .system (.deliver s' _) => s' = s
  | .resume, .system (.resume s') => s' = s
  | .read, .system (.read s' (some (.text _))) => s' = s
  | .hear, .hear s' _ => s' = s
  | _, _ => False

theorem Duty.eq_of_read {s : ℕ} {event : ConferenceEvent S} (h : Duty.read.DoneBy s event) :
    ∃ text, event = .system (.read s (some (.text text))) := by
  cases event with
  | say | hear => cases h
  | system event =>
      cases event with
      | read s' incoming =>
          rcases incoming with _ | (text | _ | _ | _ | _)
          case some.text =>
            obtain rfl : s' = s := h
            exact ⟨text, rfl⟩
          all_goals cases h
      | resume | stopWriting | deliver | loop => cases h

theorem Duty.eq_of_deliver {s : ℕ} {event : ConferenceEvent S} (h : Duty.deliver.DoneBy s event) :
    ∃ seed, event = .system (.deliver s seed) := by
  cases event with
  | say | hear => cases h
  | system event =>
      cases event with
      | deliver s' seed =>
          obtain rfl : s' = s := h
          exact ⟨seed, rfl⟩
      | read | resume | stopWriting | loop => cases h

theorem Duty.eq_of_resume {s : ℕ} {event : ConferenceEvent S} (h : Duty.resume.DoneBy s event) :
    event = .system (.resume s) := by
  cases event with
  | say | hear => cases h
  | system event =>
      cases event with
      | resume s' =>
          obtain rfl : s' = s := h
          rfl
      | read | stopWriting | deliver | loop => cases h

namespace Engine

/-- What a peer was pushed stays pushed. -/
theorem Sound.step_out {engine engine' : Engine S} (h : engine.Sound) {event : Event S}
    (hstep : engine.step event = some engine') {id : PeerId} (hid : id.val < engine.nextPeer)
    {peer peer' : Peer S} (hpeer : engine.peerOf id = some peer)
    (hpeer' : engine'.peerOf id = some peer') : peer.out <+: peer'.out := by
  obtain ⟨hholds', hid'⟩ := peerOf_eq_some hpeer'
  have hsame : ∀ old : Peer S, engine.Holds old → old.id = id → old = peer := by
    rintro old hold rfl
    exact Option.some.inj ((h.peerOf_holds hold).symm.trans hpeer)
  by_cases hanswer : ∃ id sdp seed, event = .command (.answer id sdp) seed
  · obtain ⟨target, sdp, seed, rfl⟩ := hanswer
    obtain ⟨old, hold, hold_id, hout, -⟩ := h.step_answer hstep peer' hholds'
    have hsame_out : peer'.out = peer.out := by rw [hout, hsame old hold (hold_id.symm.trans hid')]
    exact hsame_out ▸ List.prefix_refl _
  · obtain ⟨old, hfollows, hold | ⟨hnew, -, -⟩⟩ := h.step_follows hstep
      (fun id sdp seed he => hanswer ⟨id, sdp, seed, he⟩) peer' hholds'
    · rw [← hsame old hold (hfollows.balanced.1.symm.trans hid')]
      exact hfollows.out
    · have hold_id : old.id = id := hfollows.balanced.1.symm.trans hid'
      rw [hold_id] at hnew
      exact absurd hid (Nat.not_lt.mpr hnew)

end Engine

/-- What a step does to the phase of the session `s`: it closes it, or finds that
it was admitted, or nothing. -/
def PhaseMoves (s : ℕ) (event : ConferenceEvent S) (phase phase' : Phase) : Prop :=
  phase' = .closed ∨ (¬Duty.resume.DoneBy s event ∧ phase' = phase) ∨
    (Duty.resume.DoneBy s event ∧ phase = .admitting ∧ phase' ≠ .admitting)

theorem Session.read_phase {codec : Codec} {secret : String} {incoming : Option Incoming}
    {session session' : Session} {commands : List Command}
    (hread : session.read codec secret incoming = some (session', commands))
    (hphase : session.phase ≠ .joining) :
    session'.phase = .closed ∨ session'.phase = session.phase := by
  obtain ⟨phase, assigned, writing, out⟩ := session
  cases phase <;> simp only [read, reduceCtorEq] at hread
  case joining => exact absurd rfl hphase
  case live peer =>
    split at hread
    · cases hread
    · split at hread <;> cases hread
      · exact .inr rfl
      · exact .inl rfl
    · cases hread
      exact .inr rfl
    all_goals
      cases hread
      exact .inl rfl

theorem Session.resume_phase {session session' : Session}
    (hresume : session.resume = some session') :
    session.phase = .admitting ∧ session'.phase ≠ .admitting := by
  unfold resume at hresume
  split at hresume <;> cases hresume
  · exact ⟨‹_›, by simp⟩
  · exact ⟨‹_›, by simp⟩

namespace System

/-- What the media loop does in a step. -/
def event (system : System S) : SystemEvent S → Option (Event S)
  | .deliver s seed => (system.sent s).head?.map fun command => .command command seed
  | .loop event => some event
  | .read _ _ | .resume _ | .stopWriting _ => none

theorem step_event {system system' : System S} {ev : SystemEvent S}
    (hstep : system.step app ev = some system') :
    system.event ev = none ∧ system'.engine = system.engine ∨
      ∃ event, system.event ev = some event ∧ system.engine.step event = some system'.engine := by
  cases ev with
  | read s incoming =>
      obtain ⟨read, -, rfl⟩ := Option.map_eq_some_iff.mp hstep
      exact .inl ⟨rfl, rfl⟩
  | resume s =>
      obtain ⟨session, -, rfl⟩ := Option.map_eq_some_iff.mp hstep
      exact .inl ⟨rfl, rfl⟩
  | stopWriting s =>
      cases hstep
      exact .inl ⟨rfl, rfl⟩
  | deliver s seed =>
      obtain ⟨command, rest, hsent, hengine, -⟩ := deliver_eq_some hstep
      refine .inr ⟨.command command seed, by rw [event, hsent]; rfl, ?_⟩
      rw [hengine]
      exact Engine.step_command command seed system.engine
  | loop event =>
      simp only [System.step] at hstep
      split at hstep
      · cases hstep
      · obtain ⟨engine, hengine, rfl⟩ := Option.map_eq_some_iff.mp hstep
        exact .inr ⟨event, rfl, hengine⟩

/-- The writer of a session does not stop twice. -/
theorem step_stopWriting (app : AppState) {system : System S} {s : ℕ}
    (h : (system.sessions s).writing = false) :
    system.step app (.stopWriting s) = some system := by
  have hsame : { system.sessions s with writing := false } = system.sessions s := by
    rw [← h]
  simp only [System.step, setSession, hsame, Function.update_eq_self]

/-- What a step does to a session that owns a peer. -/
theorem Accounted.step_session {system system' : System S} (h : system.Accounted)
    {event : SystemEvent S} (hstep : system.step app event = some system') {s : ℕ} {owned : PeerId}
    (howns : system.Owns s owned) :
    system'.Owns s owned ∧
      Lib.Flows (Duty.deliver.DoneBy s (.system event)) (system.sent s) (system'.sent s) ∧
      PhaseMoves s (.system event) (system.sessions s).phase (system'.sessions s).phase := by
  cases event with
  | read s' incoming =>
      obtain ⟨⟨session, commands⟩, hsession, rfl⟩ := Option.map_eq_some_iff.mp hstep
      have hassigned := ((h.books s').read hsession).1
      have hsent : ∀ s, System.sent s { system.setSession s' session with
          queue := system.queue.post s' commands } =
            if s = s' then system.sent s' ++ commands else system.sent s :=
        fun s => Lib.Mailbox.sentBy_post ..
      simp only [Owns, hsent, setSession_sessions]
      by_cases hs : s = s'
      · subst hs
        have hjoined : (system.sessions s).phase ≠ .joining := by
          intro hphase
          rw [Owns, (h.books s).of_joining hphase] at howns
          cases howns
        rw [if_pos rfl, if_pos rfl]
        refine ⟨hassigned.trans howns, .grows not_false (List.prefix_append _ _), ?_⟩
        exact (Session.read_phase hsession hjoined).imp_right fun he => .inl ⟨not_false, he⟩
      · rw [if_neg hs, if_neg hs]
        exact ⟨howns, .same not_false rfl, .inr (.inl ⟨not_false, rfl⟩)⟩
  | resume s' =>
      obtain ⟨session, hresume, rfl⟩ := Option.map_eq_some_iff.mp hstep
      simp only [Owns, setSession_sessions]
      by_cases hs : s = s'
      · subst hs
        obtain ⟨hadmitting, hphase⟩ := Session.resume_phase hresume
        rw [if_pos rfl]
        exact ⟨((h.books s).resume hresume).1.trans howns, .same not_false rfl,
          .inr (.inr ⟨rfl, hadmitting, hphase⟩)⟩
      · rw [if_neg hs]
        exact ⟨howns, .same not_false rfl, .inr (.inl ⟨fun he => hs he.symm, rfl⟩)⟩
  | stopWriting s' =>
      cases hstep
      simp only [Owns, setSession_sessions]
      by_cases hs : s = s'
      · subst hs
        rw [if_pos rfl]
        exact ⟨howns, .same not_false rfl, .inr (.inl ⟨not_false, rfl⟩)⟩
      · rw [if_neg hs]
        exact ⟨howns, .same not_false rfl, .inr (.inl ⟨not_false, rfl⟩)⟩
  | loop event =>
      simp only [System.step] at hstep
      split at hstep
      · cases hstep
      · obtain ⟨engine, -, rfl⟩ := Option.map_eq_some_iff.mp hstep
        exact ⟨howns, .same not_false rfl, .inr (.inl ⟨not_false, rfl⟩)⟩
  | deliver s' seed =>
      obtain ⟨command, rest, hsent, -, hrest, hsessions⟩ := deliver_eq_some hstep
      have hsame : system'.sessions s = system.sessions s := by
        rw [hsessions]
        rcases h.sent_cons hsent with ⟨-, hassigned, ⟨request, rfl⟩, -⟩ | ⟨peer, -, htarget, -⟩
        · dsimp only [Engine.apply]
          rw [if_neg]
          rintro rfl
          rw [Owns, hassigned] at howns
          cases howns
        · rw [(h.sound.apply_present htarget seed).1]
      refine ⟨by rwa [Owns, hsame], ?_, .inr (.inl ⟨not_false, by rw [hsame]⟩)⟩
      rw [hrest]
      by_cases hs : s = s'
      · subst hs
        rw [if_pos rfl]
        exact .taken rfl command hsent
      · rw [if_neg hs]
        exact .same (fun he => hs he.symm) rfl

theorem Accounted.step_out {system system' : System S} (h : system.Accounted)
    {event : SystemEvent S} (hstep : system.step app event = some system') {s : ℕ} {owned : PeerId}
    (howns : system.Owns s owned) {peer peer' : Peer S}
    (hpeer : system.engine.peerOf owned = some peer)
    (hpeer' : system'.engine.peerOf owned = some peer') : peer.out <+: peer'.out := by
  have hstill : system'.engine = system.engine → peer.out <+: peer'.out := by
    intro hengine
    rw [hengine, hpeer] at hpeer'
    exact Option.some.inj hpeer' ▸ List.prefix_refl _
  cases event with
  | read s' incoming =>
      obtain ⟨_, -, rfl⟩ := Option.map_eq_some_iff.mp hstep
      exact hstill rfl
  | resume s' =>
      obtain ⟨_, -, rfl⟩ := Option.map_eq_some_iff.mp hstep
      exact hstill rfl
  | stopWriting s' =>
      cases hstep
      exact hstill rfl
  | loop event =>
      simp only [System.step] at hstep
      split at hstep
      · cases hstep
      · obtain ⟨engine, hengine, rfl⟩ := Option.map_eq_some_iff.mp hstep
        exact h.sound.step_out hengine (h.given s owned howns) hpeer hpeer'
  | deliver s' seed =>
      obtain ⟨command, rest, -, hengine, -⟩ := deliver_eq_some hstep
      have hcommand : system.engine.step (.command command seed) = some system'.engine := by
        rw [hengine]
        exact Engine.step_command command seed system.engine
      exact h.sound.step_out hcommand (h.given s owned howns) hpeer hpeer'

end System

namespace Conference

variable {conference conference' : Conference S}

/-- The messages its browser has not read. -/
def messages (s : ℕ) (conference : Conference S) : List ServerMsg :=
  ((conference.peerOf s).map fun peer => peer.out.drop (conference.browsers s).seen).getD []

theorem messages_eq {s : ℕ} {peer : Peer S} (hp : conference.peerOf s = some peer) :
    conference.messages s = peer.out.drop (conference.browsers s).seen := by
  rw [messages, hp]
  rfl

/-- What a step does to the queues and the phase of the session `s`. -/
structure Moves (s : ℕ) (event : ConferenceEvent S) (conference conference' : Conference S) :
    Prop where
  sent : Lib.Flows (Duty.deliver.DoneBy s event) (conference.system.sent s)
    (conference'.system.sent s)
  wire : Lib.Flows (Duty.read.DoneBy s event) (conference.browsers s).wire
    (conference'.browsers s).wire
  messages : ∀ peer peer', conference.peerOf s = some peer → conference'.peerOf s = some peer' →
    Lib.Flows (Duty.hear.DoneBy s event) (conference.messages s) (conference'.messages s)
  phase : PhaseMoves s event (conference.system.sessions s).phase
    (conference'.system.sessions s).phase

namespace InTurn

/-- Steps of the sessions and of the media loop. -/
theorem moves_system (h : conference.InTurn app) {event : SystemEvent S}
    (hstep : conference.system.step app event = some conference'.system) {s : ℕ} {peer : Peer S}
    (hp : conference.peerOf s = some peer)
    (hseen : (conference'.browsers s).seen = (conference.browsers s).seen)
    (hwire : Lib.Flows (Duty.read.DoneBy s (.system event)) (conference.browsers s).wire
      (conference'.browsers s).wire) :
    Moves s (.system event) conference conference' := by
  obtain ⟨owned, howns, hfound⟩ := peerOf_eq_some.mp hp
  obtain ⟨howns', hsent, hphase⟩ := h.accounted.step_session hstep howns
  refine ⟨hsent, hwire, fun before after hbefore hafter => ?_, hphase⟩
  obtain rfl := Option.some.inj (hp.symm.trans hbefore)
  obtain ⟨owned', howns'', hfound'⟩ := peerOf_eq_some.mp hafter
  obtain rfl : owned' = owned := by
    rw [System.Owns] at howns' howns''
    rw [howns''] at howns'
    exact Option.some.inj (Option.some.inj howns')
  rw [messages_eq hp, messages_eq hafter, hseen]
  obtain ⟨more, hout⟩ := h.accounted.step_out hstep howns hfound hfound'
  rw [← hout, List.drop_append_of_le_length (h.seen s peer hp)]
  exact .grows not_false (List.prefix_append _ _)

/-- Steps of the browsers. -/
theorem moves_browser {event : ConferenceEvent S} (hevent : ∀ event', event ≠ .system event')
    {s s' : ℕ} {browser : Browser}
    (hwire : s' = s → (conference.browsers s).wire <+: browser.wire)
    (hmessages : ∀ peer, conference.peerOf s = some peer → s' = s →
      Lib.Flows (Duty.hear.DoneBy s event) (peer.out.drop (conference.browsers s).seen)
        (peer.out.drop browser.seen))
    (hother : s' ≠ s → ¬Duty.hear.DoneBy s event) :
    Moves s event conference (conference.setBrowser s' browser) := by
  have hnone : ∀ duty : Duty, duty ≠ .hear → ¬duty.DoneBy s event := by
    intro duty hduty
    cases event with
    | system event' => exact absurd rfl (hevent event')
    | say | hear => cases duty <;> first | exact not_false | exact absurd rfl hduty
  refine ⟨.same (hnone _ (by decide)) rfl, ?_, fun before after hbefore hafter => ?_,
    .inr (.inl ⟨hnone _ (by decide), rfl⟩)⟩
  · by_cases hs : s' = s
    · subst hs
      rw [setBrowser_browsers, if_pos rfl]
      exact .grows (hnone _ (by decide)) (hwire rfl)
    · rw [setBrowser_browsers, if_neg fun he => hs he.symm]
      exact .same (hnone _ (by decide)) rfl
  · obtain rfl : before = after := Option.some.inj (hbefore.symm.trans hafter)
    rw [messages_eq hbefore, messages_eq hafter]
    by_cases hs : s' = s
    · subst hs
      rw [setBrowser_browsers, if_pos rfl]
      exact hmessages before hbefore rfl
    · rw [setBrowser_browsers, if_neg fun he => hs he.symm]
      exact .same (hother hs) rfl

theorem moves (h : conference.InTurn app) {event : ConferenceEvent S}
    (hstep : Conference.step app conference event = some conference') {s : ℕ} {peer : Peer S}
    (hp : conference.peerOf s = some peer) : Moves s event conference conference' := by
  unfold Conference.step at hstep
  split at hstep
  · rename_i s' text
    simp only [Conference.say] at hstep
    split at hstep
    · cases hstep
      refine moves_browser (by simp) (fun hs => ?_) (fun before _ hs => ?_) fun _ => not_false
      · subst hs
        exact List.prefix_append _ _
      · subst hs
        exact .same not_false rfl
    · cases hstep
  · rename_i s' reply
    obtain ⟨reader, hreader, hstep⟩ := Option.bind_eq_some_iff.mp hstep
    obtain ⟨message, hmessage, hstep⟩ := Option.bind_eq_some_iff.mp hstep
    obtain ⟨hlt, hget⟩ := List.getElem?_eq_some_iff.mp hmessage
    have hpops : ∀ before, conference.peerOf s = some before → s' = s →
        Lib.Flows (Duty.hear.DoneBy s (.hear s' reply : ConferenceEvent S))
          (before.out.drop (conference.browsers s).seen)
          (before.out.drop ((conference.browsers s').seen + 1)) := by
      rintro before hbefore rfl
      obtain rfl := Option.some.inj (hreader.symm.trans hbefore)
      exact .taken rfl message (by rw [List.drop_eq_getElem_cons hlt, hget])
    cases message with
    | offer sdp tracks =>
        simp only at hstep
        split at hstep
        · cases hstep
          refine moves_browser (by simp) (fun hs => ?_) hpops fun hs => hs
          subst hs
          exact List.prefix_append _ _
        · cases hstep
    | joined | peerJoined | peerLeft | peerState | speaking | error | pong =>
        cases hstep
        refine moves_browser (by simp) (fun hs => ?_) hpops fun hs => hs
        subst hs
        exact List.prefix_refl _
  · rename_i s' text
    split at hstep
    · cases hstep
    · rename_i next wire hwire
      split at hstep
      · rename_i he
        subst he
        obtain ⟨system, hread, rfl⟩ := Option.map_eq_some_iff.mp hstep
        have hread' : conference.system.step app (.read s' (some (.text next))) =
            some ({ conference with system := system }.setBrowser s'
              { conference.browsers s' with wire := wire }).system := hread
        refine h.moves_system hread' hp ?_ ?_
        · rw [setBrowser_browsers]
          split
          · rename_i hs
            subst hs
            rfl
          · rfl
        · rw [setBrowser_browsers]
          by_cases hs : s = s'
          · subst hs
            rw [if_pos rfl]
            exact .taken rfl next hwire
          · rw [if_neg hs]
            exact .same (fun he => hs he.symm) rfl
      · cases hstep
  · rename_i event hother
    obtain ⟨system, hsystem, rfl⟩ := Option.map_eq_some_iff.mp hstep
    refine h.moves_system hsystem hp rfl (.same (fun hdone => ?_) rfl)
    obtain ⟨text, he⟩ := Duty.eq_of_read hdone
    exact hother s text (ConferenceEvent.system.inj he)

/-- A text that its session reads stays under way. -/
theorem underway_of_read (h : conference.InTurn app) {event : ConferenceEvent S}
    (hstep : Conference.step app conference event = some conference') {s : ℕ}
    (hread : Duty.read.DoneBy s event) :
    conference'.underway app s = conference.underway app s := by
  obtain ⟨text, rfl⟩ := Duty.eq_of_read hread
  simp only [Conference.step] at hstep
  split at hstep
  · cases hstep
  · rename_i next wire hwire
    split at hstep
    · rename_i he
      subst he
      obtain ⟨system, hsystem, rfl⟩ := Option.map_eq_some_iff.mp hstep
      exact h.underway_readText hwire hsystem s
    · cases hstep

end InTurn

end Conference

end FerriteSfu
