import FerriteSfu.Signal.Session
import FerriteSfu.Call.Simulation
import FerriteSfu.Scripted

/-!
What a join that is refused leaves behind, and what the browser sees of it.

The media loop and the session that asked run on threads of their own. The
session waits for the answer to its join and only then looks into its channel,
so what it writes depends on the order of the sends alone.
-/

namespace FerriteSfu

variable {S : Str0m}

/-! ### The sends of a join -/

namespace Engine

/-- What `handle_join` sends to the session that asked. -/
def joinSends (request : JoinRequest) (seed : S.Seed) (engine : Engine S) : List JoinSend :=
  (engine.handleJoin request seed).2.sends

/-- Why a join is refused. -/
inductive Refuses (request : JoinRequest) (seed : S.Seed) (engine : Engine S) : Prop
  | full (room : Room S) (hroom : engine.rooms.lookup request.claims.room = some room)
      (hfull : engine.config.maxRoomPeers ≤ room.peers.length)
  | malformed (reason : String) (hparse : S.offerFromSdpString request.sdp = .error reason)
  | rejected (offer : S.SdpOffer) (reason : String)
      (hparse : S.offerFromSdpString request.sdp = .ok offer)
      (haccept : (S.acceptOffer (S.build seed engine.config.iceLite) offer).1 = .error reason)

/-- A join is refused with one message, or enters the room. -/
theorem joinSends_cases (request : JoinRequest) (seed : S.Seed) (engine : Engine S) :
    let joined := engine.handleJoin request seed
    (engine.Refuses request seed ∧ (joined.1 = engine ∨
        joined.1 = { engine with nextPeer := engine.nextPeer + 1 }) ∧
      ∃ code text, joined.2 = { sends := [.out (.error code text), .assigned none]
                                replaced := [] }) ∨
    (¬engine.Refuses request seed ∧ ∃ offer answer,
      joined.1 = engine.entered request.claims
        (Call.admitted engine.config request seed offer ⟨engine.nextPeer⟩) answer ∧
      joined.2.refusal = [] ∧ joined.2.assigned = some ⟨engine.nextPeer⟩ ∧
      engine.joinSends request seed = [.out (.joined (PeerId.asString ⟨engine.nextPeer⟩)
        request.claims.callId answer ((engine.lobby request.claims).retire
          (Call.stale request.claims.sub (engine.lobby request.claims))).1.roster),
        .assigned (some ⟨engine.nextPeer⟩)]) := by
  unfold joinSends handleJoin Peer.acceptOffer
  dsimp only
  have hrtc : (Peer.new ⟨engine.nextPeer⟩ (S.build seed engine.config.iceLite)
      request.claims.sub request.claims.name request.claims.avatarUrl).rtc =
        S.build seed engine.config.iceLite := rfl
  have hfull : ((engine.rooms.lookup request.claims.room).map fun room =>
      decide (room.peers.length ≥ engine.config.maxRoomPeers)).getD false = true ↔
        ∃ room, engine.rooms.lookup request.claims.room = some room ∧
          engine.config.maxRoomPeers ≤ room.peers.length := by
    cases engine.rooms.lookup request.claims.room <;> simp
  simp only [hrtc, hfull]
  by_cases hroom : ∃ room, engine.rooms.lookup request.claims.room = some room ∧
      engine.config.maxRoomPeers ≤ room.peers.length
  · obtain ⟨room, hlookup, hsize⟩ := hroom
    rw [if_pos ⟨room, hlookup, hsize⟩]
    exact .inl ⟨.full room hlookup hsize, .inl rfl, _, _, rfl⟩
  · rw [if_neg hroom]
    cases hparse : S.offerFromSdpString request.sdp with
    | error reason => exact .inl ⟨.malformed reason hparse, .inl rfl, _, _, rfl⟩
    | ok offer =>
        dsimp only
        rcases haccept : S.acceptOffer (S.build seed engine.config.iceLite) offer with
          ⟨result, rtc⟩
        cases result with
        | error reason =>
            refine .inl ⟨.rejected offer reason hparse ?_, .inr rfl, _, _, rfl⟩
            rw [haccept]
        | ok answer =>
            refine .inr ⟨?_, offer, S.answerToSdpString answer, ?_, rfl, rfl, rfl⟩
            · rintro (⟨room, hlookup, hsize⟩ | ⟨reason, hbad⟩ | ⟨offer', reason, hoffer, hbad⟩)
              · exact hroom ⟨room, hlookup, hsize⟩
              · rw [hparse] at hbad
                cases hbad
              · rw [hparse] at hoffer
                cases hoffer
                rw [haccept] at hbad
                cases hbad
            · simp only [Call.admitted, haccept]
              rfl

end Engine

/-! ### The session that asked -/

/-- What a session writes to its socket. -/
inductive SocketFrame
  | text (message : ServerMsg)
  | close
  deriving DecidableEq, Repr

/-- The task of a session that has sent its join. -/
inductive JoinTask
  | waiting
  | refused
  | admitted (peer : PeerId)
  | closed
  deriving DecidableEq, Repr

/-- A join under way between the media loop and the session that asked. -/
structure Handover where
  /-- The sends the media loop has yet to make. -/
  sends : List JoinSend
  out : List ServerMsg
  assigned : Option (Option PeerId)
  task : JoinTask
  sink : List SocketFrame
  deriving DecidableEq, Repr

inductive Side
  | mediaLoop
  | session
  deriving DecidableEq, Repr

namespace Handover

/-- The join has reached the media loop, and the session waits. -/
def asked (sends : List JoinSend) : Handover where
  sends := sends
  out := []
  assigned := none
  task := .waiting
  sink := []

/-- The session takes its answer, and is admitted or empties its channel and
closes the socket. -/
def proceed (handover : Handover) : Option Handover :=
  match handover.task, handover.out with
  | .waiting, _ =>
      handover.assigned.map fun reply =>
        { handover with task := (reply.map JoinTask.admitted).getD .refused }
  | .refused, message :: out =>
      some { handover with out := out, sink := handover.sink ++ [.text message] }
  | .refused, [] => some { handover with task := .closed, sink := handover.sink ++ [.close] }
  | .admitted _, message :: out =>
      some { handover with out := out, sink := handover.sink ++ [.text message] }
  | .admitted _, [] | .closed, _ => none

def step (handover : Handover) : Side → Option Handover
  | .mediaLoop =>
      match handover.sends with
      | [] => none
      | .out message :: sends =>
          some { handover with sends := sends, out := handover.out ++ [message] }
      | .assigned id :: sends => some { handover with sends := sends, assigned := some id }
  | .session => handover.proceed

/-- The two sides, in any interleaving. -/
def machine (sends : List JoinSend) : Lib.Machine Handover Side where
  init handover := handover = asked sends
  step := step

/-- The course of a join that is refused with `error`. -/
def refusing (error : ServerMsg) : ℕ → Handover
  | 0 => asked [.out error, .assigned none]
  | 1 => { asked [.assigned none] with out := [error] }
  | 2 => { asked [] with out := [error], assigned := some none }
  | 3 => { asked [] with out := [error], assigned := some none, task := .refused }
  | 4 => { asked [] with assigned := some none, task := .refused, sink := [.text error] }
  | _ => { asked [] with assigned := some none, task := .closed, sink := [.text error, .close] }

/-- At each point of it only one side can go on. -/
theorem step_refusing {error : ServerMsg} {k : ℕ} {side : Side} {handover : Handover}
    (h : (refusing error k).step side = some handover) :
    k < 5 ∧ handover = refusing error (k + 1) := by
  match k, side with
  | 0, .mediaLoop | 1, .mediaLoop | 2, .session | 3, .session | 4, .session =>
      cases h
      exact ⟨by decide, rfl⟩
  | 0, .session | 1, .session | 2, .mediaLoop | 3, .mediaLoop | 4, .mediaLoop => cases h
  | _ + 5, .mediaLoop | _ + 5, .session => cases h

theorem run_refusing {sends : List JoinSend} {error : ServerMsg} {k : ℕ} (hk : k ≤ 5)
    {sides : List Side} {handover : Handover}
    (h : (machine sends).run (refusing error k) sides = some handover) :
    k + sides.length ≤ 5 ∧ handover = refusing error (k + sides.length) := by
  induction sides generalizing k with
  | nil =>
      cases h
      exact ⟨hk, rfl⟩
  | cons side sides ih =>
      obtain ⟨next, hstep, hrest⟩ := Option.bind_eq_some_iff.mp h
      obtain ⟨hlt, rfl⟩ := step_refusing hstep
      obtain ⟨hle, rfl⟩ := ih hlt hrest
      rw [List.length_cons]
      exact ⟨by omega, congrArg (refusing error) (by omega)⟩

theorem refusing_sink (error : ServerMsg) (k : ℕ) :
    (refusing error k).sink <+: [.text error, .close] := by
  match k with
  | 0 | 1 | 2 | 3 => exact List.nil_prefix
  | 4 => exact ⟨[.close], rfl⟩
  | _ + 5 => exact List.prefix_rfl

theorem refusing_stuck {error : ServerMsg} {k : ℕ}
    (h : ∀ side, (refusing error k).step side = none) :
    (refusing error k).sink = [.text error, .close] := by
  match k with
  | 0 | 1 => cases h .mediaLoop
  | 2 | 3 | 4 => cases h .session
  | _ + 5 => rfl

/-- Whatever the interleaving, the error is written before the socket is closed,
and that is all that is written. -/
structure Explains (error : ServerMsg) (sends : List JoinSend) : Prop where
  order : ∀ sides handover, (machine sends).run (asked sends) sides = some handover →
    handover.sink <+: [.text error, .close]
  /-- The two sides cannot go on for ever, and come to rest only in the end. -/
  ends : ∀ sides handover, (machine sends).run (asked sends) sides = some handover →
    sides.length ≤ 5 ∧ ((∀ side, handover.step side = none) →
      handover.sink = [.text error, .close])

theorem explains (error : ServerMsg) : Explains error [.out error, .assigned none] where
  order sides handover hrun := by
    obtain ⟨-, rfl⟩ := run_refusing (k := 0) (Nat.zero_le 5) hrun
    exact refusing_sink error _
  ends sides handover hrun := by
    obtain ⟨hle, rfl⟩ := run_refusing (k := 0) (Nat.zero_le 5) hrun
    exact ⟨by simpa using hle, refusing_stuck⟩

end Handover

/-! ### Joins, refused or not -/

theorem Room.subscribeToExisting_ids (joining : PeerId) (room : Room S) :
    (room.subscribeToExisting joining).ids = room.ids :=
  List.map_updateFirst fun _ _ _ => rfl

/-- Whoever is admitted is in the room. -/
theorem Room.mem_admitPeer (room : Room S) (peer : Peer S) (callId answer : String) :
    peer.id ∈ (room.admitPeer peer callId answer).ids := by
  unfold admitPeer
  rw [Room.subscribeToExisting_ids]
  simp [ids]

namespace Engine

/-- The media loop is as it was, but for an id that may have been used up, and
the browser learns of one error before its socket is closed. -/
structure RefusedJoin (request : JoinRequest) (seed : S.Seed) (engine : Engine S) : Prop where
  unchanged : (engine.handleJoin request seed).1 =
    { engine with nextPeer := (engine.handleJoin request seed).1.nextPeer }
  nextPeer : engine.nextPeer ≤ (engine.handleJoin request seed).1.nextPeer
  replaced : (engine.handleJoin request seed).2.replaced = []
  explained : ∃ code text,
    engine.joinSends request seed = [.out (.error code text), .assigned none] ∧
      (engine.handleJoin request seed).2.refusal = [.error code text] ∧
      (engine.handleJoin request seed).2.assigned = none ∧
      Handover.Explains (.error code text) (engine.joinSends request seed)

/-- The join is answered once, with the id of a peer that is in the room. -/
structure AdmittedJoin (request : JoinRequest) (seed : S.Seed) (engine : Engine S) : Prop where
  answered : ∃ id, (engine.joinSends request seed).filterMap JoinSend.reply = [some id] ∧
    (engine.handleJoin request seed).2.assigned = some id ∧
    (engine.handleJoin request seed).1.peerRooms.lookup id = some request.claims.room ∧
    ∃ room, (engine.handleJoin request seed).1.rooms.lookup request.claims.room = some room ∧
      id ∈ room.ids

/-- **A refused join is atomic and explained, and any other is answered with its
peer.** -/
theorem handleJoin_atomic (request : JoinRequest) (seed : S.Seed) (engine : Engine S) :
    (engine.Refuses request seed → engine.RefusedJoin request seed) ∧
      (¬engine.Refuses request seed → engine.AdmittedJoin request seed) := by
  rcases joinSends_cases request seed engine with
    ⟨hrefuses, hengine, code, text, houtcome⟩ |
    ⟨hadmits, offer, answer, hengine, -, hassigned, hsends⟩
  · have hsends : engine.joinSends request seed = [.out (.error code text), .assigned none] := by
      rw [joinSends, houtcome]
    refine ⟨fun _ => ⟨?unchanged, ?nextPeer, by rw [houtcome], code, text, hsends,
      by rw [houtcome]; simp, by rw [houtcome]; simp, hsends ▸ Handover.explains _⟩,
      fun hnot => absurd hrefuses hnot⟩
    case unchanged =>
      rcases hengine with heq | heq <;> rw [heq]
    case nextPeer =>
      rcases hengine with heq | heq <;> rw [heq]
      exact Nat.le_succ _
  · refine ⟨fun hrefuses => absurd hrefuses hadmits,
      fun _ => ⟨⟨engine.nextPeer⟩, by rw [hsends]; rfl, hassigned, ?indexed, ?present⟩⟩
    case indexed =>
      rw [hengine]
      exact AList.lookup_insert _
    case present =>
      rw [hengine]
      exact ⟨_, AList.lookup_insert _, Room.mem_admitPeer _ _ _ _⟩

/-- Ann is in the room, and tries to join it again. -/
theorem handleJoin_atomic_again :
    let request (sdp : String) : JoinRequest :=
      { claims := { sub := "ann", room := "red", callId := "call", name := "ann", avatarUrl := "" }
        sdp := sdp }
    ∃ engine, (machine scripted Puppet.config).run (start Puppet.config 0)
        [.command (Puppet.joins "ann" "red" "a").1 "a"] = some engine ∧
      engine.RefusedJoin (request "refused") "b" ∧ engine.AdmittedJoin (request "offer") "b" := by
  intro request
  obtain ⟨engine, hrun, hcheck⟩ := (Option.any_eq_true _ _).mp (by decide +kernel :
    ((machine scripted Puppet.config).run (start Puppet.config 0)
        [.command (Puppet.joins "ann" "red" "a").1 "a"]).any (fun engine =>
      (engine.rooms.lookup "red").any fun room =>
        decide (room.peers.length < engine.config.maxRoomPeers)) = true)
  obtain ⟨room, hroom, hlength⟩ := (Option.any_eq_true _ _).mp hcheck
  refine ⟨engine, hrun, (handleJoin_atomic (request "refused") "b" engine).1
    (.rejected "refused" "refused" rfl rfl),
    (handleJoin_atomic (request "offer") "b" engine).2 ?_⟩
  rintro (⟨room', hroom', hfull⟩ | ⟨reason, hbad⟩ | ⟨offer, reason, hoffer, hbad⟩)
  · obtain rfl := Option.some.inj (hroom.symm.trans hroom')
    exact absurd hfull (Nat.not_le.mpr (of_decide_eq_true hlength))
  · cases hbad
  · cases hoffer
    cases hbad

end Engine

end FerriteSfu
