import FerriteSfu.Signal.Session
import FerriteSfu.Lib.Lists

/-!
One session from its first frame to its last.

`Signal.Session` takes a session step by step, among others and with the media
loop there to take what it sends. Here the whole of `run` is one function of
what its socket yields, of the answer to its join and of the ends of its
channels, which may go away at any time.
-/

namespace FerriteSfu

/-- What becomes of a join that was sent. -/
inductive Reply
  | pending
  /-- The media loop let go of the request. -/
  | dropped
  | answered (assigned : Option PeerId)
  deriving DecidableEq, Repr

/-- What the stream yields next, and whether a command or a message that is
sent now finds anyone to take it. -/
structure Item where
  incoming : Incoming
  /-- The media loop takes commands. -/
  up : Bool
  /-- The task that writes to the socket takes messages. -/
  writing : Bool
  deriving DecidableEq, Repr

/-- What a session does. -/
structure Transcript where
  /-- The commands it sends, in order. -/
  commands : List Command
  /-- The messages it sends to the browser, in order. -/
  out : List ServerMsg
  closed : Bool

/-- Applies one client frame. The command of a frame is sent even if no one is
there to take it, which ends the session. -/
def Codec.forwardTo (codec : Codec) (text : String) (peer : PeerId) (up writing : Bool) :
    Forwarded :=
  match codec.parse text with
  | none =>
      { command := none, replies := [.error "bad_message" "Unrecognised frame."],
        continues := true }
  | some (.answer sdp) => { command := some (.answer peer sdp), replies := [], continues := up }
  | some (.mute muted) => { command := some (.mute peer muted), replies := [], continues := up }
  | some (.screen active) =>
      { command := some (.screen peer active), replies := [], continues := up }
  | some .ping => { command := none, replies := [.pong], continues := writing }
  | some .leave => { command := none, replies := [], continues := false }
  | some (.join _ _) =>
      { command := none, replies := [.error "already_joined" "Already in a call."],
        continues := true }

theorem Codec.forwardTo_up (codec : Codec) (text : String) (peer : PeerId) (writing : Bool) :
    codec.forwardTo text peer true writing = codec.forward text peer writing := rfl

namespace Codec

/-- The loop over the frames of an admitted session, and the leave behind it. -/
def serve (codec : Codec) (peer : PeerId) : List Item → Transcript
  | [] => { commands := [], out := [], closed := false }
  | item :: items =>
      match item.incoming with
      | .text text =>
          let forwarded := codec.forwardTo text peer item.up item.writing
          if forwarded.continues then
            let served := codec.serve peer items
            { served with commands := forwarded.command.toList ++ served.commands
                          out := forwarded.replies ++ served.out }
          else
            { commands := forwarded.command.toList ++ [.leave peer], out := forwarded.replies,
              closed := true }
      | .other => codec.serve peer items
      | .close | .failed | .ended => { commands := [.leave peer], out := [], closed := true }

/-- `session::run`. There may be no first frame before the deadline; `up` says
whether the media loop takes the join. -/
def run (codec : Codec) (secret : String) (first : Option Incoming) (up : Bool) (reply : Reply)
    (items : List Item) : Transcript :=
  match codec.admitJoin secret first with
  | .error refusal => { commands := [], out := refusal, closed := true }
  | .ok request =>
      if !up then
        { commands := [.join request],
          out := [.error "unavailable" "The call service is restarting."], closed := true }
      else
        match reply with
        | .pending => { commands := [.join request], out := [], closed := false }
        | .dropped | .answered none => { commands := [.join request], out := [], closed := true }
        | .answered (some peer) =>
            let served := codec.serve peer items
            { served with commands := .join request :: served.commands }

end Codec

/-! ### What the protocol asks for -/

namespace Item

/-- The command of a well-formed frame. -/
def command (codec : Codec) (peer : PeerId) (item : Item) : Option Command :=
  match item.incoming with
  | .text text =>
      match codec.parse text with
      | some (.answer sdp) => some (.answer peer sdp)
      | some (.mute muted) => some (.mute peer muted)
      | some (.screen active) => some (.screen peer active)
      | some .ping | some .leave | some (.join _ _) | none => none
  | .close | .other | .failed | .ended => none

/-- What the browser is told of a frame. -/
def replies (codec : Codec) (item : Item) : List ServerMsg :=
  match item.incoming with
  | .text text =>
      match codec.parse text with
      | none => [.error "bad_message" "Unrecognised frame."]
      | some (.join _ _) => [.error "already_joined" "Already in a call."]
      | some .ping => [.pong]
      | some (.answer _) | some (.mute _) | some (.screen _) | some .leave => []
  | .close | .other | .failed | .ended => []

/-- A leave frame, the end of the socket in any form, or a send that failed. -/
def ends (codec : Codec) (item : Item) : Bool :=
  match item.incoming with
  | .text text =>
      match codec.parse text with
      | some .leave => true
      | some (.answer _) | some (.mute _) | some (.screen _) => !item.up
      | some .ping => !item.writing
      | some (.join _ _) | none => false
  | .close | .failed | .ended => true
  | .other => false

end Item

/-- The items up to the first that ends the session, and that one. -/
def handled (codec : Codec) : List Item → List Item
  | [] => []
  | item :: items => if item.ends codec then [item] else item :: handled codec items

namespace Codec

/-- One frame does what the protocol asks for. -/
theorem forwardTo_spec (codec : Codec) (peer : PeerId) {item : Item} {text : String}
    (h : item.incoming = .text text) :
    let forwarded := codec.forwardTo text peer item.up item.writing
    forwarded.command = item.command codec peer ∧ forwarded.replies = item.replies codec ∧
      forwarded.continues = !item.ends codec := by
  unfold forwardTo Item.command Item.replies Item.ends
  simp only [h]
  cases codec.parse text with
  | none => exact ⟨rfl, rfl, rfl⟩
  | some message => cases message <;> simp

/-- **The frames of an admitted session, and one leave in the end.** -/
theorem serve_spec (codec : Codec) (peer : PeerId) (items : List Item) :
    (codec.serve peer items).commands = (handled codec items).filterMap (·.command codec peer) ++
        (if items.any (·.ends codec) then [.leave peer] else []) ∧
      (codec.serve peer items).out = (handled codec items).flatMap (·.replies codec) ∧
      (codec.serve peer items).closed = items.any (·.ends codec) := by
  induction items with
  | nil => exact ⟨rfl, rfl, rfl⟩
  | cons item items ih =>
      obtain ⟨hcommands, hout, hclosed⟩ := ih
      cases hincoming : item.incoming with
      | text text =>
          obtain ⟨hcommand, hreplies, hcontinues⟩ := codec.forwardTo_spec peer hincoming
          simp only [serve, hincoming, handled]
          cases hends : item.ends codec with
          | true =>
              rw [hends] at hcontinues
              simp [hcontinues, hcommand, hreplies, hends, List.filterMap_cons_toList]
          | false =>
              rw [hends] at hcontinues
              simp [hcontinues, hcommand, hreplies, hends, hcommands, hout, hclosed,
                List.filterMap_cons_toList]
      | other =>
          have hends : item.ends codec = false := by simp [Item.ends, hincoming]
          have hcommand : item.command codec peer = none := by simp [Item.command, hincoming]
          have hreplies : item.replies codec = [] := by simp [Item.replies, hincoming]
          simp [serve, hincoming, handled, hends, hcommand, hreplies, hcommands, hout, hclosed]
      | close | failed | ended =>
          have hends : item.ends codec = true := by simp [Item.ends, hincoming]
          have hcommand : item.command codec peer = none := by simp [Item.command, hincoming]
          have hreplies : item.replies codec = [] := by simp [Item.replies, hincoming]
          simp [serve, hincoming, handled, hends, hcommand, hreplies]

theorem join_not_mem_serve (codec : Codec) (peer : PeerId) (items : List Item)
    (request : JoinRequest) : .join request ∉ (codec.serve peer items).commands := by
  rw [(codec.serve_spec peer items).1, List.mem_append]
  rintro (hmem | hmem)
  · obtain ⟨item, -, hcommand⟩ := List.mem_filterMap.mp hmem
    unfold Item.command at hcommand
    split at hcommand
    · split at hcommand <;> cases hcommand
    all_goals cases hcommand
  · split at hmem <;> simp at hmem

/-- The first frame is a join with a good token, and asks for this. -/
def Asks (codec : Codec) (secret : String) (first : Option Incoming) (request : JoinRequest) :
    Prop :=
  ∃ text token, first = some (.text text) ∧ codec.parse text = some (.join token request.sdp) ∧
    codec.verify token secret = .ok request.claims

/-- A join is sent for a first frame that asks for it with a good token, and for no
other. -/
theorem admitJoin_eq_ok {codec : Codec} {secret : String} {first : Option Incoming}
    {request : JoinRequest} :
    codec.admitJoin secret first = .ok request ↔ codec.Asks secret first request := by
  constructor
  · intro h
    unfold admitJoin at h
    split at h
    · rename_i text
      split at h
      · rename_i token sdp hparse
        split at h
        · rename_i claims hverify
          cases h
          exact ⟨text, token, rfl, hparse, hverify⟩
        · cases h
      · cases h
    all_goals cases h
  · rintro ⟨text, token, rfl, hparse, hverify⟩
    simp only [admitJoin, hparse, hverify]

/-- What a session says to the media loop and to its browser. -/
structure SpeaksProtocol (codec : Codec) (secret : String) (first : Option Incoming) (up : Bool)
    (reply : Reply) (items : List Item) (session : Transcript) : Prop where
  /-- Nothing, unless the first frame asks to join. -/
  refused : (∀ request, ¬codec.Asks secret first request) → session.commands = []
  /-- The join alone, where it is not granted. -/
  ungranted : ∀ request, codec.Asks secret first request →
    ¬(up = true ∧ ∃ peer, reply = .answered (some peer)) → session.commands = [.join request]
  /-- Otherwise the join, the commands of the frames, and one leave once the session
  ends. -/
  granted : ∀ request peer, codec.Asks secret first request → up = true →
    reply = .answered (some peer) →
      session.commands = .join request ::
        ((handled codec items).filterMap (·.command codec peer) ++
          if items.any (·.ends codec) then [.leave peer] else [])
  verified : ∀ request, .join request ∈ session.commands → codec.Asks secret first request
  /-- Every frame that is handled is answered as the protocol asks. -/
  replies : ∀ request peer, codec.Asks secret first request → up = true →
    reply = .answered (some peer) →
      session.out = (handled codec items).flatMap (·.replies codec) ∧
        session.closed = items.any (·.ends codec)
  /-- As long as the channel is open, no frame that is answered ends the session. -/
  carriesOn : ∀ item : Item, item.writing = true → item.replies codec ≠ [] →
    (item.replies codec).length = 1 ∧ item.ends codec = false

/-- **The session speaks the protocol for every sequence of frames.** -/
theorem run_speaksProtocol (codec : Codec) (secret : String) (first : Option Incoming) (up : Bool)
    (reply : Reply) (items : List Item) :
    SpeaksProtocol codec secret first up reply items
      (codec.run secret first up reply items) := by
  have hanswered : ∀ item : Item, item.writing = true → item.replies codec ≠ [] →
      (item.replies codec).length = 1 ∧ item.ends codec = false := by
    intro item hwriting hreplies
    unfold Item.replies Item.ends at *
    cases hincoming : item.incoming with
    | close | other | failed | ended => simp [hincoming] at hreplies
    | text text =>
        cases hparse : codec.parse text with
        | none => simp [hparse]
        | some message => cases message <;> simp_all
  cases hasks : codec.admitJoin secret first with
  | error refusal =>
      have hrun : codec.run secret first up reply items =
          { commands := [], out := refusal, closed := true } := by
        simp [run, hasks]
      rw [hrun]
      have hnone : ∀ request, ¬codec.Asks secret first request := fun request h => by
        have hok := admitJoin_eq_ok.mpr h
        rw [hasks] at hok
        cases hok
      exact ⟨fun _ => rfl, fun request h => absurd h (hnone request),
        fun request _ h => absurd h (hnone request), fun _ hmem => absurd hmem List.not_mem_nil,
        fun request _ h => absurd h (hnone request), hanswered⟩
  | ok request =>
      have hverified := admitJoin_eq_ok.mp hasks
      -- A frame asks for one join.
      have hunique : ∀ other, codec.Asks secret first other → other = request := fun other h =>
        Except.ok.inj ((admitJoin_eq_ok.mpr h).symm.trans hasks)
      by_cases hgranted : up = true ∧ ∃ peer, reply = .answered (some peer)
      · obtain ⟨rfl, peer, rfl⟩ := hgranted
        obtain ⟨hcommands, hout, hclosed⟩ := codec.serve_spec peer items
        have hrun : codec.run secret first true (.answered (some peer)) items =
            { codec.serve peer items with
              commands := .join request :: (codec.serve peer items).commands } := by
          simp [run, hasks]
        rw [hrun]
        refine ⟨fun hnone => absurd hverified (hnone request),
          fun _ _ hnot => absurd ⟨rfl, peer, rfl⟩ hnot, fun other peer' h _ hreply => ?_,
          fun other hmem => ?_, fun _ _ _ _ _ => ⟨hout, hclosed⟩, hanswered⟩
        · cases hreply
          rw [hunique other h, hcommands]
        -- The only join is the first command.
        rcases List.mem_cons.mp hmem with hfirst | hlater
        · cases hfirst
          exact hverified
        · exact absurd hlater (codec.join_not_mem_serve peer items other)
      · have hrun : (codec.run secret first up reply items).commands = [.join request] := by
          cases up with
          | false => simp [run, hasks]
          | true =>
              cases reply with
              | pending | dropped => simp [run, hasks]
              | answered assigned =>
                  cases assigned with
                  | none => simp [run, hasks]
                  | some peer => exact absurd ⟨rfl, peer, rfl⟩ hgranted
        refine ⟨fun hnone => absurd hverified (hnone request),
          fun other h _ => by rw [hunique other h, hrun],
          fun _ peer _ hup hreply => absurd ⟨hup, peer, hreply⟩ hgranted, fun other hmem => ?_,
          fun _ peer _ hup hreply => absurd ⟨hup, peer, hreply⟩ hgranted, hanswered⟩
        rw [hrun, List.mem_singleton] at hmem
        cases hmem
        exact hverified

end Codec

/-! ### The session as it is taken step by step -/

namespace Session

/-- The task reads what the stream yields, until it is over. -/
def readAll (codec : Codec) (secret : String) : List Incoming → Session → Session × List Command
  | [], session => (session, [])
  | incoming :: rest, session =>
      match session.read codec secret (some incoming) with
      | none => (session, [])
      | some (next, commands) =>
          let others := readAll codec secret rest next
          (others.1, commands ++ others.2)

theorem readAll_closed (codec : Codec) (secret : String) (stream : List Incoming)
    {session : Session} (h : session.phase = .closed) :
    session.readAll codec secret stream = (session, []) := by
  cases stream <;> simp [readAll, read, h]

/-- **With the media loop there, the steps of an admitted session are its
loop.** -/
theorem readAll_serve (codec : Codec) (secret : String) {peer : PeerId} (stream : List Incoming)
    {session : Session} (h : session.phase = .live peer) :
    let items := stream.map fun incoming =>
      { incoming := incoming, up := true, writing := session.writing }
    let served := codec.serve peer items
    session.readAll codec secret stream =
      ({ session with
          phase := if served.closed then .closed else .live peer
          out := session.out ++ served.out }, served.commands) := by
  induction stream generalizing session with
  | nil => simp [readAll, Codec.serve, ← h]
  | cons incoming stream ih =>
      cases incoming with
      | close | failed | ended =>
          simp [readAll, read, h, Codec.serve, readAll_closed]
      | other =>
          simp only [readAll, read, h, ih h, List.map_cons, Codec.serve]
          rfl
      | text text =>
          have hforward := codec.forwardTo_up text peer session.writing
          simp only [readAll, read, h, List.map_cons, Codec.serve, hforward]
          cases hcontinues : (codec.forward text peer session.writing).continues with
          | false => simp [readAll_closed]
          | true =>
              have hrest := @ih { session with
                phase := .live peer
                out := session.out ++ (codec.forward text peer session.writing).replies } rfl
              simp only [if_true]
              rw [hrest]
              simp

end Session

end FerriteSfu
