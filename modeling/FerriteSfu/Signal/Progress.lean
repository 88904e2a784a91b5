import FerriteSfu.Signal.Duties
import FerriteSfu.Lib.Fairness
import Mathlib.Data.Prod.Lex

/-!
Every offer is settled in the end.

An offer that is outstanding waits in one of three queues: it is among the
messages the browser has not read, or its answer is among the texts the session
has not read, or the answer, or else the leave of the session, is among the
commands the media loop has not taken. So if browser, session and loop each go on
reading, the offer moves up and on, and is answered, or the peer is gone.
-/

namespace FerriteSfu

variable {S : Str0m} {app : AppState}

def ServerMsg.isOffer (message : ServerMsg) : Bool := message.offerTracks.isSome

/-- After these commands of its session a peer has nothing outstanding. -/
def Command.settles : Command → Bool
  | .answer _ _ | .leave _ => true
  | .join _ | .mute _ _ | .screen _ _ | .shutdown => false

namespace Conference

variable {conference conference' : Conference S}

/-- Nothing is outstanding of the session `s`. -/
def Free (s : ℕ) (conference : Conference S) : Prop :=
  ∀ peer, conference.peerOf s = some peer → peer.pending = none

/-- How far an offer is from being settled, and whose turn it is. -/
structure Standing where
  /-- Which of the queues it waits in, the last one first. -/
  level : ℕ
  place : ℕ
  duty : Duty

def standing (app : AppState) (s : ℕ) (conference : Conference S) : Standing :=
  let sent := conference.system.sent s
  let messages := conference.messages s
  let wire := (conference.browsers s).wire.findIdx fun text => (app.codec.answerOf text).isSome
  if sent.any Command.settles then ⟨0, sent.findIdx Command.settles, .deliver⟩
  else if messages.any ServerMsg.isOffer then ⟨2, messages.findIdx ServerMsg.isOffer, .hear⟩
  else if (conference.system.sessions s).phase = .admitting then ⟨1, 2 * wire + 1, .resume⟩
  else ⟨1, 2 * wire, .read⟩

def Standing.rank (standing : Standing) : ℕ ×ₗ ℕ := toLex (standing.level, standing.place)

/-- An offer that is not settled yet has its answer or the leave of its session
sent, is unread, or has its answer on the wire. -/
inductive Stands (app : AppState) (s : ℕ) (conference : Conference S) : Prop
  | sent (hany : (conference.system.sent s).any Command.settles = true)
      (heq : conference.standing app s =
        ⟨0, (conference.system.sent s).findIdx Command.settles, .deliver⟩)
  | unread (hnone : (conference.system.sent s).any Command.settles = false)
      (hany : (conference.messages s).any ServerMsg.isOffer = true)
      (heq : conference.standing app s =
        ⟨2, (conference.messages s).findIdx ServerMsg.isOffer, .hear⟩)
  | wire (hnone : (conference.system.sent s).any Command.settles = false)
      (hread : offersIn (conference.messages s) = 0)
      (hany : ((conference.browsers s).wire.any fun text =>
        (app.codec.answerOf text).isSome) = true)
      (heq : (conference.system.sessions s).phase = .admitting ∧
          conference.standing app s = ⟨1, 2 * ((conference.browsers s).wire.findIdx fun text =>
            (app.codec.answerOf text).isSome) + 1, .resume⟩ ∨
        (∃ id, (conference.system.sessions s).phase = .live id) ∧
          conference.standing app s = ⟨1, 2 * ((conference.browsers s).wire.findIdx fun text =>
            (app.codec.answerOf text).isSome), .read⟩)

theorem any_isOffer {messages : List ServerMsg} :
    messages.any ServerMsg.isOffer = true ↔ 0 < offersIn messages := by
  rw [offersIn, List.length_pos_iff, ne_eq, List.filterMap_eq_nil_iff, List.any_eq_true]
  simp [ServerMsg.isOffer, Option.isSome_iff_ne_none]

theorem any_answerOf {wire : List String} :
    (wire.any fun text => (app.codec.answerOf text).isSome) = true ↔
      0 < (wire.filterMap app.codec.answerOf).length := by
  rw [List.length_pos_iff, ne_eq, List.filterMap_eq_nil_iff, List.any_eq_true]
  simp [Option.isSome_iff_ne_none]

theorem answers_eq_nil {sent : List Command} (h : sent.any Command.settles = false) :
    sent.filterMap Command.answerOf = [] := by
  refine List.filterMap_eq_nil_iff.mpr fun command hmem => ?_
  have hsettles : command.settles = false := by
    simpa using List.any_eq_false.mp h command hmem
  cases command <;> first | rfl | cases hsettles

namespace InTurn

/-- When the media loop has taken an answer or a leave, nothing is outstanding. -/
theorem free_of_settles (h : conference.InTurn app) {s : ℕ} {seed : S.Seed}
    (hstep : Conference.step app conference (.system (.deliver s seed)) = some conference')
    {command : Command} {rest : List Command} (hsent : conference.system.sent s = command :: rest)
    (hsettles : command.settles = true) : conference'.Free s := by
  intro peer' hp'
  obtain ⟨system, hdeliver, rfl⟩ := Option.map_eq_some_iff.mp hstep
  obtain ⟨taken, later, htaken, hengine, -⟩ := System.deliver_eq_some hdeliver
  obtain ⟨rfl, -⟩ := List.cons.inj (hsent.symm.trans htaken)
  rcases h.accounted.sent_cons hsent with ⟨-, -, ⟨request, rfl⟩, -⟩ | ⟨owned, howns, htarget, -⟩
  · cases hsettles
  · have hsystem : conference.system.step app (.deliver s seed) = some system := hdeliver
    obtain ⟨howns', -⟩ := h.accounted.step_session hsystem howns
    obtain ⟨id, hid, hfound⟩ := peerOf_eq_some.mp hp'
    obtain rfl : id = owned := by
      rw [System.Owns] at howns' hid
      rw [hid] at howns'
      exact Option.some.inj (Option.some.inj howns')
    obtain ⟨hholds, hpeer⟩ := Engine.peerOf_eq_some hfound
    cases command with
    | answer target sdp =>
        obtain rfl : target = id := Option.some.inj htarget
        have hcommand : conference.system.engine.step (.command (.answer target sdp) seed) =
            some system.engine := by
          rw [hengine]
          exact Engine.step_command ..
        obtain ⟨old, hold, hsame, -, hpending⟩ :=
          h.accounted.sound.step_answer hcommand peer' hholds
        have hwas : conference.peerOf s = some old :=
          peerOf_eq_some.mpr ⟨old.id, by rwa [← hsame, hpeer], h.accounted.sound.peerOf_holds hold⟩
        have hok := h.parses s old hwas sdp (by
          rw [underway, hsent, List.filterMap_cons_some (by rfl)]
          exact List.mem_cons_self ..)
        rw [hpending, if_pos ⟨hsame.symm.trans hpeer, hok⟩]
    | leave target =>
        obtain rfl : target = id := Option.some.inj htarget
        obtain ⟨name, room, hroom, hmem⟩ := hholds
        refine absurd ⟨name, ?_⟩ (h.accounted.sound.not_present_dropPeer target)
        rw [← hpeer]
        refine List.mem_map_of_mem (Engine.mem_call_peers.mpr ⟨room, ?_, hmem⟩)
        rw [← hroom, hengine, hpeer]
        rfl
    | join | mute | screen | shutdown => cases hsettles

/-! Where an offer stands. -/

/-- What is outstanding is in one of the queues, and once the session is over its
leave is on the way. -/
theorem waiting (h : conference.InTurn app) {s : ℕ} (hfree : ¬conference.Free s) :
    ∃ peer, conference.peerOf s = some peer ∧
      offersIn (conference.messages s) + (conference.underway app s).length = 1 ∧
      ((conference.system.sent s).any Command.settles = true ∨
        (conference.system.sessions s).phase = .admitting ∨
          ∃ id, (conference.system.sessions s).phase = .live id) := by
  obtain ⟨peer, hp, hpending⟩ : ∃ peer, conference.peerOf s = some peer ∧ peer.pending ≠ none := by
    by_contra hnone
    exact hfree fun peer hp => by_contra fun hpending => hnone ⟨peer, hp, hpending⟩
  refine ⟨peer, hp, ?_, ?_⟩
  · have hturn := h.turn s peer hp
    rw [Peer.unanswered, Option.isSome_iff_ne_none.mpr hpending] at hturn
    rw [messages_eq hp]
    exact hturn
  · obtain ⟨owned, howns, hfound⟩ := peerOf_eq_some.mp hp
    obtain ⟨⟨name, room, hroom, hmem⟩, rfl⟩ := Engine.peerOf_eq_some hfound
    have hpresent : conference.system.engine.Present peer.id :=
      ⟨name, List.mem_map_of_mem (Engine.mem_call_peers.mpr ⟨room, hroom, hmem⟩)⟩
    rcases hphase : (conference.system.sessions s).phase with _ | _ | id | _
    · rw [System.Owns, (h.accounted.books s).of_joining hphase] at howns
      cases howns
    · exact .inr (.inl rfl)
    · exact .inr (.inr ⟨id, rfl⟩)
    · exact .inl (List.any_eq_true.mpr
        ⟨_, h.accounted.departed s peer.id howns hphase hpresent, rfl⟩)

theorem stands (h : conference.InTurn app) {s : ℕ} (hfree : ¬conference.Free s) :
    conference.Stands app s := by
  obtain ⟨peer, hp, hone, hphase⟩ := h.waiting hfree
  cases hsent : (conference.system.sent s).any Command.settles with
  | true => exact .sent hsent (by rw [standing, if_pos hsent])
  | false =>
      cases hmessages : (conference.messages s).any ServerMsg.isOffer with
      | true =>
          exact .unread hsent hmessages
            (by rw [standing, hsent, if_neg (by simp), if_pos hmessages])
      | false =>
          have hread : offersIn (conference.messages s) = 0 := by
            have hnot := mt any_isOffer.mpr (by rw [hmessages]; simp)
            omega
          refine .wire hsent hread (any_answerOf.mpr ?_) ?_
          · rw [hread, underway, answers_eq_nil hsent, List.nil_append, Nat.zero_add] at hone
            exact Nat.lt_of_lt_of_eq Nat.zero_lt_one hone.symm
          · rw [hsent] at hphase
            rcases hphase with hfalse | hadmitting | ⟨id, hlive⟩
            · cases hfalse
            · refine .inl ⟨hadmitting, ?_⟩
              rw [standing, hsent, hmessages, if_neg (by simp), if_neg (by simp), if_pos hadmitting]
            · refine .inr ⟨⟨id, hlive⟩, ?_⟩
              rw [standing, hsent, hmessages, if_neg (by simp), if_neg (by simp),
                if_neg (by rw [hlive]; simp)]

/-! Nothing but the duty that is due changes where an offer stands, unless for the
better. -/

section

variable {event : ConferenceEvent S} {s : ℕ}

/-- The goal of a step: nothing gets worse, and the duty makes it better. -/
def Nearer (app : AppState) (s : ℕ) (event : ConferenceEvent S)
    (conference conference' : Conference S) : Prop :=
  (conference'.standing app s).rank < (conference.standing app s).rank ∨
    ¬(conference.standing app s).duty.DoneBy s event ∧
      (conference'.standing app s).rank = (conference.standing app s).rank ∧
        (conference'.standing app s).duty = (conference.standing app s).duty

theorem rank_lt_of_level {standing standing' : Standing} (h : standing'.level < standing.level) :
    standing'.rank < standing.rank := Prod.Lex.toLex_lt_toLex.mpr (.inl h)

theorem rank_lt_of_place {standing standing' : Standing} (hlevel : standing'.level = standing.level)
    (h : standing'.place < standing.place) : standing'.rank < standing.rank :=
  Prod.Lex.toLex_lt_toLex.mpr (.inr ⟨hlevel, h⟩)

theorem nearer_of_sent (h : conference.InTurn app)
    (hstep : Conference.step app conference event = some conference')
    (hmoves : Moves s event conference conference') (hfree : ¬conference'.Free s)
    (hany : (conference.system.sent s).any Command.settles = true)
    (heq : conference.standing app s =
      ⟨0, (conference.system.sent s).findIdx Command.settles, .deliver⟩) :
    Nearer app s event conference conference' := by
  have hstands : (conference'.system.sent s).any Command.settles = true →
      conference'.standing app s =
        ⟨0, (conference'.system.sent s).findIdx Command.settles, .deliver⟩ :=
    fun hany' => by rw [standing, if_pos hany']
  rcases hmoves.sent.place hany with ⟨hnot, hany', hplace⟩ |
    ⟨hdone, command, hsent, hsettles | ⟨hany', hplace⟩⟩
  · refine .inr ?_
    rw [heq, hstands hany', hplace]
    exact ⟨hnot, rfl, rfl⟩
  · obtain ⟨seed, rfl⟩ := Duty.eq_of_deliver hdone
    exact absurd (h.free_of_settles hstep hsent hsettles) hfree
  · refine .inl ?_
    rw [heq, hstands hany']
    exact rank_lt_of_place rfl hplace

theorem nearer_of_unread (h : conference.InTurn app)
    (hstep : Conference.step app conference event = some conference')
    (hmoves : Moves s event conference conference') (hfree : ¬conference.Free s)
    (hfree' : ¬conference'.Free s)
    (hany : (conference.messages s).any ServerMsg.isOffer = true)
    (heq : conference.standing app s =
      ⟨2, (conference.messages s).findIdx ServerMsg.isOffer, .hear⟩) :
    Nearer app s event conference conference' := by
  obtain ⟨peer, hp, hone, -⟩ := h.waiting hfree
  obtain ⟨peer', hp', -⟩ := (h.step hstep).waiting hfree'
  rcases (h.step hstep).stands hfree' with ⟨-, heq'⟩ | ⟨-, hany', heq'⟩ | ⟨-, -, -, heq'⟩
  · refine .inl (rank_lt_of_level ?_)
    rw [heq, heq']
    exact Nat.zero_lt_two
  · rcases (hmoves.messages peer peer' hp hp').place hany with ⟨hnot, -, hplace⟩ |
      ⟨hdone, message, hmessages, hoffer | ⟨-, hplace⟩⟩
    · refine .inr ?_
      rw [heq, heq', hplace]
      exact ⟨hnot, rfl, rfl⟩
    · -- the only offer has been read, so there is none left
      have hfirst : 0 < offersIn [message] :=
        any_isOffer.mp (by rw [List.any_cons, hoffer, Bool.true_or])
      have hrest := any_isOffer.mp hany'
      have hcount : offersIn (conference.messages s) =
          offersIn [message] + offersIn (conference'.messages s) := by
        rw [hmessages, ← offersIn_append]
        rfl
      omega
    · refine .inl ?_
      rw [heq, heq']
      exact rank_lt_of_place rfl hplace
  · refine .inl (rank_lt_of_level ?_)
    rcases heq' with ⟨-, heq'⟩ | ⟨-, heq'⟩ <;>
      rw [heq, heq'] <;> exact Nat.one_lt_two

theorem nearer_of_wire (h : conference.InTurn app)
    (hstep : Conference.step app conference event = some conference')
    (hmoves : Moves s event conference conference') (hfree : ¬conference.Free s)
    (hfree' : ¬conference'.Free s)
    (hnone : (conference.system.sent s).any Command.settles = false)
    (hany : ((conference.browsers s).wire.any fun text =>
      (app.codec.answerOf text).isSome) = true)
    (heq : (conference.system.sessions s).phase = .admitting ∧
        conference.standing app s = ⟨1, 2 * ((conference.browsers s).wire.findIdx fun text =>
          (app.codec.answerOf text).isSome) + 1, .resume⟩ ∨
      (∃ id, (conference.system.sessions s).phase = .live id) ∧
        conference.standing app s = ⟨1, 2 * ((conference.browsers s).wire.findIdx fun text =>
          (app.codec.answerOf text).isSome), .read⟩) :
    Nearer app s event conference conference' := by
  obtain ⟨-, -, hone, -⟩ := h.waiting hfree
  obtain ⟨-, -, hone', -⟩ := (h.step hstep).waiting hfree'
  have hlevel : (conference.standing app s).level = 1 := by
    rcases heq with ⟨-, heq⟩ | ⟨-, heq⟩ <;> rw [heq]
  have hplace := hmoves.wire.place hany
  -- the answer stays under way, so no offer is unread
  have hunderway : 0 < (conference'.underway app s).length := by
    rcases hplace with ⟨-, hany', -⟩ | ⟨hdone, -⟩
    · have hanswers := any_answerOf.mp hany'
      rw [underway, List.length_append]
      omega
    · rw [h.underway_of_read hstep hdone, underway, List.length_append]
      have hanswers := any_answerOf.mp hany
      omega
  rcases (h.step hstep).stands hfree' with ⟨-, heq'⟩ | ⟨-, hany', -⟩ | ⟨hnone', -, hany', heq'⟩
  · refine .inl (rank_lt_of_level ?_)
    rw [hlevel, heq']
    exact Nat.zero_lt_one
  · have hoffers := any_isOffer.mp hany'
    omega
  rcases hplace with ⟨hnot, -, hsame⟩ | ⟨hdone, text, hwire, hanswer | ⟨-, hlower⟩⟩
  · rw [hsame] at heq'
    rcases heq with ⟨hadmitting, heq⟩ | ⟨⟨id, hlive⟩, heq⟩ <;>
      rcases heq' with ⟨hadmitting', heq'⟩ | ⟨⟨id', hlive'⟩, heq'⟩
    · refine .inr ?_
      rw [heq, heq']
      refine ⟨?_, rfl, rfl⟩
      rcases hmoves.phase with hclosed | ⟨hundone, -⟩ | ⟨-, -, hleft⟩
      · rw [hadmitting'] at hclosed
        cases hclosed
      · exact hundone
      · exact absurd hadmitting' hleft
    · refine .inl ?_
      rw [heq, heq']
      exact rank_lt_of_place rfl (Nat.lt_succ_self _)
    · rcases hmoves.phase with hclosed | ⟨-, hphase⟩ | ⟨-, hphase, -⟩
      · rw [hadmitting'] at hclosed
        cases hclosed
      · rw [hadmitting', hlive] at hphase
        cases hphase
      · rw [hlive] at hphase
        cases hphase
    · refine .inr ?_
      rw [heq, heq']
      exact ⟨hnot, rfl, rfl⟩
  · -- the answer has been read, and is not on the wire any more
    have hanswers := any_answerOf.mp hany'
    obtain ⟨sdp, hsdp⟩ := Option.isSome_iff_exists.mp hanswer
    rw [underway, answers_eq_nil hnone, List.nil_append, hwire,
      List.filterMap_cons_some hsdp, List.length_cons] at hone
    omega
  · refine .inl ?_
    rcases heq with ⟨-, heq⟩ | ⟨-, heq⟩ <;> rcases heq' with ⟨-, heq'⟩ | ⟨-, heq'⟩ <;>
      rw [heq, heq'] <;> refine rank_lt_of_place rfl ?_ <;> dsimp only <;> omega

theorem nearer (h : conference.InTurn app)
    (hstep : Conference.step app conference event = some conference')
    (hfree : ¬conference.Free s) (hfree' : ¬conference'.Free s) :
    Nearer app s event conference conference' := by
  obtain ⟨peer, hp, -⟩ := h.waiting hfree
  have hmoves := h.moves hstep hp
  rcases h.stands hfree with ⟨hany, heq⟩ | ⟨-, hany, heq⟩ | ⟨hnone, -, hany, heq⟩
  · exact h.nearer_of_sent hstep hmoves hfree' hany heq
  · exact h.nearer_of_unread hstep hmoves hfree hfree' hany heq
  · exact h.nearer_of_wire hstep hmoves hfree hfree' hnone hany heq

/-- The duty that is due can be done. -/
theorem due (h : conference.InTurn app) (seed : S.Seed) {reply : String}
    (hreply : ((app.codec.answerOf reply).any fun sdp => (S.answerFromSdpString sdp).isOk) = true)
    (hfree : ¬conference.Free s) :
    (machine S app).Enabled ((conference.standing app s).duty.DoneBy s) conference := by
  obtain ⟨peer, hp, -⟩ := h.waiting hfree
  obtain ⟨owned, howns, -⟩ := peerOf_eq_some.mp hp
  rcases h.stands hfree with ⟨hany, heq⟩ | ⟨-, hany, heq⟩ | ⟨-, -, hany, heq⟩
  · obtain ⟨command, hmem, -⟩ := List.any_eq_true.mp hany
    have hdeliver : (conference.system.deliver s seed).isSome = true := by
      rw [System.deliver, Option.isSome_map, List.isSome_head?]
      exact List.ne_nil_of_mem hmem
    rw [heq]
    refine Lib.Machine.enabled_of_isSome (e := .system (.deliver s seed)) rfl ?_
    exact Option.isSome_map.trans hdeliver
  · obtain ⟨message, hmem, -⟩ := List.any_eq_true.mp hany
    rw [messages_eq hp] at hmem
    have hlt : (conference.browsers s).seen < peer.out.length := by
      by_contra hge
      rw [List.drop_of_length_le (Nat.not_lt.mp hge)] at hmem
      cases hmem
    have hhear : (conference.hear app s reply).isSome = true := by
      rw [Conference.hear, hp, Option.bind_some, List.getElem?_eq_getElem hlt, Option.bind_some]
      cases peer.out[(conference.browsers s).seen] with
      | offer sdp tracks =>
          dsimp only
          rw [if_pos hreply]
          rfl
      | _ => rfl
    rw [heq]
    exact Lib.Machine.enabled_of_isSome (e := .hear s reply) rfl hhear
  · rcases heq with ⟨hadmitting, heq⟩ | ⟨⟨id, hlive⟩, heq⟩
    · have hresume : ((conference.system.sessions s).resume).isSome = true := by
        rw [System.Owns] at howns
        rw [Session.resume, hadmitting, howns]
        rfl
      rw [heq]
      refine Lib.Machine.enabled_of_isSome (e := .system (.resume s)) rfl ?_
      exact Option.isSome_map.trans (Option.isSome_map.trans hresume)
    · cases hwire : (conference.browsers s).wire with
      | nil => simp [hwire] at hany
      | cons text wire =>
          have hread : (conference.system.read app s (some (.text text))).isSome = true := by
            rw [System.read, Option.isSome_map, Session.read, hlive]
            dsimp only
            split <;> rfl
          rw [heq]
          refine Lib.Machine.enabled_of_isSome (e := .system (.read s (some (.text text)))) rfl ?_
          simp only [machine, Conference.step, hwire, if_pos]
          exact Option.isSome_map.trans hread

end

end InTurn

/-- Where an offer stands leads to its being settled. -/
theorem helpful_free (seed : S.Seed) {r : String}
    (hreply : ((app.codec.answerOf r).any fun sdp => (S.answerFromSdpString sdp).isOk) = true)
    (s : ℕ) : (machine S app).Helpful (Free s) (fun c => (c.standing app s).rank)
      (fun c => (c.standing app s).duty) (Duty.DoneBy s) where
  enabled _ hreach hfree := (reachable_inTurn hreach).due seed hreply hfree
  lowers _ _ _ hreach hfree hstep hfree' := (reachable_inTurn hreach).nearer hstep hfree hfree'

/-- **Whoever goes on reading has every offer settled.** In a run without end that
leaves no duty of a session out for ever, there is always a moment to come at which
nothing is outstanding of its peer. -/
theorem forever_settled {states : ℕ → Conference S} {events : ℕ → ConferenceEvent S}
    (hrun : (machine S app).Forever states events) (seed : S.Seed) {r : String}
    (hreply : ((app.codec.answerOf r).any fun sdp => (S.answerFromSdpString sdp).isOk) = true)
    {s : ℕ} (hfair : ∀ duty : Duty, (machine S app).Fair states events (duty.DoneBy s)) (n : ℕ) :
    ∃ k ≥ n, (states k).Free s :=
  hrun.leads (helpful_free seed hreply s) (fun _ => hfair _) n

/-! ### Bob's answer -/

/-- A session that has nothing to read or to send, and whose browser has read
everything, has no duty. -/
theorem not_enabled_of_rest {s : ℕ} (hsent : conference.system.sent s = [])
    (hphase : (conference.system.sessions s).phase ≠ .admitting)
    (hwire : (conference.browsers s).wire = [])
    (hseen : ∀ peer, conference.peerOf s = some peer →
      peer.out.length ≤ (conference.browsers s).seen) (duty : Duty) :
    ¬(machine S app).Enabled (duty.DoneBy s) conference := by
  rintro ⟨event, conference', hdone, hstep⟩
  cases duty with
  | deliver =>
      obtain ⟨seed, rfl⟩ := Duty.eq_of_deliver hdone
      obtain ⟨system, hdeliver, -⟩ := Option.map_eq_some_iff.mp hstep
      obtain ⟨command, rest, hcons, -⟩ := System.deliver_eq_some hdeliver
      rw [hsent] at hcons
      cases hcons
  | resume =>
      cases Duty.eq_of_resume hdone
      obtain ⟨system, hresume, -⟩ := Option.map_eq_some_iff.mp hstep
      obtain ⟨session, hsession, -⟩ := Option.map_eq_some_iff.mp hresume
      exact hphase (Session.resume_phase hsession).1
  | read =>
      obtain ⟨text, rfl⟩ := Duty.eq_of_read hdone
      simp [machine, Conference.step, hwire] at hstep
  | hear =>
      cases event with
      | hear s' reply =>
          obtain rfl : s' = s := hdone
          obtain ⟨peer, hp, hstep⟩ := Option.bind_eq_some_iff.mp hstep
          obtain ⟨message, hmessage, -⟩ := Option.bind_eq_some_iff.mp hstep
          obtain ⟨hlt, -⟩ := List.getElem?_eq_some_iff.mp hmessage
          exact absurd (hseen peer hp) (Nat.not_le.mpr hlt)
      | say | system => cases hdone

theorem step_stopWriting (app : AppState) {s : ℕ}
    (h : (conference.system.sessions s).writing = false) :
    step app conference (.system (.stopWriting s)) = some conference := by
  simp only [step, System.step_stopWriting app h, Option.map_some]

end Conference

namespace Puppet

/-- Bob's answer is taken, and nothing else happens ever after. -/
def settles : List (ConferenceEvent scripted) :=
  replies ++ [.system (.deliver 1 ""), .system (.stopWriting 2)]

end Puppet

theorem Conference.forever_settled_settles :
    ∃ states events, (machine scripted Puppet.tabs).Forever states events ∧
      ¬(states Puppet.replies.length).Free 1 ∧
      ∃ k ≥ Puppet.replies.length, (states k).Free 1 := by
  obtain ⟨conference, hrun, hcheck⟩ := (Option.any_eq_true _ _).mp (by decide +kernel :
    ((machine scripted Puppet.tabs).run (start Puppet.config 0) Puppet.settles).any
      (fun conference => (conference.system.sent 1).isEmpty &&
        (decide ((conference.system.sessions 1).phase ≠ .admitting) &&
          ((conference.browsers 1).wire.isEmpty &&
            ((conference.peerOf 1).all (fun peer =>
                decide (peer.out.length ≤ (conference.browsers 1).seen)) &&
              decide ((conference.system.sessions 2).writing = false))))) = true)
  simp only [Bool.and_eq_true, List.isEmpty_iff, decide_eq_true_eq] at hcheck
  obtain ⟨hsent, hphase, hwire, hseen, hwriting⟩ := hcheck
  have hidle : (machine scripted Puppet.tabs).step conference (.system (.stopWriting 2)) =
      some conference := step_stopWriting Puppet.tabs hwriting
  have hforever : (machine scripted Puppet.tabs).Forever
      ((machine scripted Puppet.tabs).trail (start Puppet.config 0) Puppet.settles)
      (Lib.Machine.trailing Puppet.settles (.system (.stopWriting 2))) :=
    Lib.Machine.forever_of_run (.init ⟨0, rfl⟩) hrun hidle
  have hpending : (((machine scripted Puppet.tabs).trail (start Puppet.config 0) Puppet.settles
      Puppet.replies.length).peerOf 1).any (fun peer => peer.pending.isSome) = true := by
    decide +kernel
  obtain ⟨peer, hp, hsome⟩ := (Option.any_eq_true _ _).mp hpending
  refine ⟨_, _, hforever, fun hfree => ?_, forever_settled hforever "" (r := "answer")
    (by decide +kernel) (fun duty => Lib.Machine.fair_of_run hrun
      (not_enabled_of_rest hsent hphase hwire (fun peer hp => ?_) duty)) _⟩
  · rw [hfree peer hp] at hsome
    cases hsome
  · rw [hp] at hseen
    simpa using hseen

end FerriteSfu
