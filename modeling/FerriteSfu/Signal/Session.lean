import FerriteSfu.Sfu.Engine

/-!
`session.rs` and the check of a join token in `auth.rs`: one websocket session.

A session reads frames, sends commands to the media loop and messages to its own
browser. What a frame says is for a JSON library to tell, and what a token says
for a JWT library, so both come as parameters. A command that is sent is
received: the media loop is there as long as it is not shut down.
-/

namespace FerriteSfu

/-! ### `auth.rs` -/

/-- The characters of the property `White_Space`. -/
def isWhitespace (c : Char) : Bool :=
  let n := c.toNat
  (9 ≤ n && n ≤ 13) || n = 32 || n = 133 || n = 160 || n = 5760 || (8192 ≤ n && n ≤ 8202) ||
    n = 8232 || n = 8233 || n = 8239 || n = 8287 || n = 12288

def trim (text : String) : String :=
  String.ofList ((((text.toList.dropWhile isWhitespace).reverse).dropWhile isWhitespace).reverse)

inductive AuthError
  | invalid (kind : String)
  | incompleteClaims
  deriving DecidableEq, Repr

/-- What the libraries make of the texts a browser sends. -/
structure Codec where
  /-- `serde_json::from_str::<ClientMsg>`. -/
  parse : String → Option ClientMsg
  /-- `jsonwebtoken::decode::<JoinClaims>` of a token under a secret. -/
  decode : String → String → Except String JoinClaims

/-- Verifies a join token. -/
def Codec.verify (codec : Codec) (token secret : String) : Except AuthError JoinClaims :=
  match codec.decode (trim token) secret with
  | .error kind => .error (.invalid kind)
  | .ok claims =>
      if claims.sub.isEmpty || claims.room.isEmpty || claims.callId.isEmpty then
        .error .incompleteClaims
      else .ok claims

/-! ### Frames -/

/-- What `stream.next()` comes back with. -/
inductive Incoming
  | text (text : String)
  | close
  /-- A binary frame, a ping or a pong. -/
  | other
  | failed
  | ended
  deriving DecidableEq, Repr

/-- The join that the first frame asks for, or what the browser is told before
the socket is closed. There may be no first frame before the deadline. -/
def Codec.admitJoin (codec : Codec) (secret : String) :
    Option Incoming → Except (List ServerMsg) JoinRequest
  | some (.text text) =>
      match codec.parse text with
      | some (.join token sdp) =>
          match codec.verify token secret with
          | .ok claims => .ok { claims := claims, sdp := sdp }
          | .error _ => .error [.error "unauthorized" "Join token rejected."]
      | _ => .error [.error "expected_join" "First frame must be a join."]
  | some .close | some .other | some .failed | some .ended | none => .error []

/-- What one client frame does. -/
structure Forwarded where
  command : Option Command
  replies : List ServerMsg
  /-- Whether the session goes on reading. -/
  continues : Bool

/-- Applies one client frame. `writing` says whether the task that writes to the
socket is still there to take a reply. -/
def Codec.forward (codec : Codec) (text : String) (peer : PeerId) (writing : Bool) : Forwarded :=
  match codec.parse text with
  | none =>
      { command := none, replies := [.error "bad_message" "Unrecognised frame."],
        continues := true }
  | some (.answer sdp) => { command := some (.answer peer sdp), replies := [], continues := true }
  | some (.mute muted) => { command := some (.mute peer muted), replies := [], continues := true }
  | some (.screen active) =>
      { command := some (.screen peer active), replies := [], continues := true }
  | some .ping => { command := none, replies := [.pong], continues := writing }
  | some .leave => { command := none, replies := [], continues := false }
  | some (.join _ _) =>
      { command := none, replies := [.error "already_joined" "Already in a call."],
        continues := true }

/-! ### Sessions -/

/-- How far the task of a session has come. -/
inductive Phase
  /-- Waiting for the join frame. -/
  | joining
  /-- Waiting for the media loop to answer the join. -/
  | admitting
  /-- Forwarding frames. -/
  | live (peer : PeerId)
  | closed
  deriving DecidableEq, Repr

structure Session where
  phase : Phase
  /-- The answer to the join, from the moment the media loop gives it. -/
  assigned : Option (Option PeerId)
  /-- Whether the task that writes to the socket is still there. -/
  writing : Bool
  /-- What was pushed to the browser other than by its peer. -/
  out : List ServerMsg

namespace Session

def opened : Session where
  phase := .joining
  assigned := none
  writing := true
  out := []

/-- The task reads on: the session afterwards, and the commands it sends. The
task reads nothing while it waits for its assignment, or once it is over. -/
def read (codec : Codec) (secret : String) (incoming : Option Incoming) (session : Session) :
    Option (Session × List Command) :=
  match session.phase with
  | .joining =>
      match codec.admitJoin secret incoming with
      | .ok request => some ({ session with phase := .admitting }, [.join request])
      | .error refusal =>
          some ({ session with phase := .closed, out := session.out ++ refusal }, [])
  | .live peer =>
      match incoming with
      | none => none
      | some (.text text) =>
          let forwarded := codec.forward text peer session.writing
          let session := { session with out := session.out ++ forwarded.replies }
          if forwarded.continues then some (session, forwarded.command.toList)
          else some ({ session with phase := .closed }, forwarded.command.toList ++ [.leave peer])
      | some .other => some (session, [])
      | some .close | some .failed | some .ended =>
          some ({ session with phase := .closed }, [.leave peer])
  | .admitting | .closed => none

/-- The task takes the answer to its join. -/
def resume (session : Session) : Option Session :=
  match session.phase, session.assigned with
  | .admitting, some (some peer) => some { session with phase := .live peer }
  | .admitting, some none => some { session with phase := .closed }
  | _, _ => none

/-- The media loop answers the join. -/
def answered {S : Str0m} (outcome : JoinOutcome S) (session : Session) : Session :=
  { session with assigned := some outcome.assigned, out := session.out ++ outcome.refusal }

end Session

end FerriteSfu
