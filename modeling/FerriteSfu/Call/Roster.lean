import FerriteSfu.Call.Rules

/-!
The roster a client rebuilds from its messages.

A client starts from the list in `Joined` and applies the deltas it is sent.
The room and every member's view move by the same delta in each step, so a view
is always the room without its owner.
-/

namespace FerriteSfu

variable {S : Str0m} {config : Config} {name : String}

/-- What a client does with a message once it has joined. -/
def ServerMsg.applyTo (roster : List PeerInfo) : ServerMsg → List PeerInfo
  | .peerJoined peer => roster ++ [peer]
  | .peerLeft peerId => roster.filter fun info => info.peerId ≠ peerId
  | .peerState peerId muted screen =>
      roster.map fun info =>
        if info.peerId = peerId then { info with muted := muted, screen := screen } else info
  | .joined _ _ _ _ | .offer _ _ | .speaking _ | .error _ _ | .pong => roster

/-- The roster of a client that was sent `out`. -/
def replayRoster : List ServerMsg → List PeerInfo
  | .joined _ _ _ peers :: messages => messages.foldl ServerMsg.applyTo peers
  | _ => []

/-- The first message is the answer to the join of the peer `peerId`. -/
def StartsJoined (peerId : String) (out : List ServerMsg) : Prop :=
  ∃ callId sdp peers, out.head? = some (.joined peerId callId sdp peers)

theorem StartsJoined.append {peerId : String} {out : List ServerMsg} (h : StartsJoined peerId out)
    (messages : List ServerMsg) : StartsJoined peerId (out ++ messages) := by
  obtain ⟨callId, sdp, peers, hfirst⟩ := h
  exact ⟨callId, sdp, peers, by rw [List.head?_append, hfirst]; rfl⟩

theorem StartsJoined.replayRoster_append {peerId : String} {out : List ServerMsg}
    (h : StartsJoined peerId out) (messages : List ServerMsg) :
    replayRoster (out ++ messages) = messages.foldl ServerMsg.applyTo (replayRoster out) := by
  obtain ⟨callId, sdp, peers, hfirst⟩ := h
  obtain ⟨rest, rfl⟩ := List.head?_eq_some_iff.mp hfirst
  simp [replayRoster]

theorem ServerMsg.applyTo_of_not_isRoster {message : ServerMsg} (h : message.isRoster = false)
    (roster : List PeerInfo) : message.applyTo roster = roster := by
  cases message <;> first | rfl | cases h

theorem foldl_applyTo_of_not_isRoster {messages : List ServerMsg}
    (h : ∀ message ∈ messages, message.isRoster = false) (roster : List PeerInfo) :
    messages.foldl ServerMsg.applyTo roster = roster := by
  induction messages with
  | nil => rfl
  | cons message messages ih =>
      rw [List.foldl_cons, ServerMsg.applyTo_of_not_isRoster (h message (by simp)),
        ih fun message' hmem => h message' (by simp [hmem])]

/-- A message that says nothing about the roster. -/
theorem replayRoster_push {message : ServerMsg} (h : message.isRoster = false)
    (out : List ServerMsg) : replayRoster (out ++ [message]) = replayRoster out := by
  cases out with
  | nil => cases message <;> first | rfl | cases h
  | cons first out =>
      cases first with
      | joined peerId callId sdp peers =>
          simp [replayRoster, ServerMsg.applyTo_of_not_isRoster h]
      | offer | peerJoined | peerLeft | peerState | speaking | error | pong => rfl

/-- The deltas a room broadcasts: they leave the entry of `own` to its owner. -/
def ServerMsg.IsDelta (own : String) : ServerMsg → Prop
  | .peerJoined peer => peer.peerId ≠ own
  | .peerLeft _ | .peerState _ _ _ => True
  | _ => False

theorem ServerMsg.applyTo_filter {own : String} {message : ServerMsg} (h : message.IsDelta own)
    (roster : List PeerInfo) :
    message.applyTo (roster.filter fun info => info.peerId ≠ own) =
      (message.applyTo roster).filter fun info => info.peerId ≠ own := by
  cases message with
  | peerJoined peer =>
      have hne : peer.peerId ≠ own := h
      simp [applyTo, List.filter_append, hne]
  | peerLeft peerId =>
      simp only [applyTo, List.filter_filter]
      exact List.filter_congr fun info _ => Bool.and_comm _ _
  | peerState peerId muted screen =>
      simp only [applyTo, List.filter_map]
      congr 1
      refine List.filter_congr fun info _ => ?_
      simp only [Function.comp_apply]
      split <;> rfl
  | joined | offer | speaking | error | pong => cases h

/-! ### The invariant -/

namespace Call

/-- What a member of a room with this roster was told. -/
structure Informed (roster : List PeerInfo) (peer : Peer S) : Prop where
  first : StartsJoined peer.id.asString peer.out
  view : replayRoster peer.out = roster.filter fun info => info.peerId ≠ peer.id.asString

theorem Informed.send {roster : List PeerInfo} {peer : Peer S} (h : Informed roster peer)
    {message : ServerMsg} (hdelta : message.IsDelta peer.id.asString) :
    Informed (message.applyTo roster) (peer.send message) where
  first := h.first.append _
  view := by
    rw [Peer.send_out, h.first.replayRoster_append, h.view]
    exact ServerMsg.applyTo_filter hdelta roster

theorem Informed.of_sameRoster {roster : List PeerInfo} {peer peer' : Peer S}
    (h : Informed roster peer) (hid : peer'.id = peer.id) (hout : SameRoster peer.out peer'.out) :
    Informed roster peer' := by
  obtain ⟨messages, heq, hmessages⟩ := hout
  refine ⟨by rw [heq, hid]; exact h.first.append _, ?_⟩
  rw [heq, h.first.replayRoster_append, foldl_applyTo_of_not_isRoster hmessages, h.view, hid]

def AllInformed (_next : ℕ) (peers : List (Peer S)) : Prop :=
  ∀ peer ∈ peers, Informed (peers.map Peer.info) peer

namespace AllInformed

variable {next : ℕ} {peers peers' : List (Peer S)}

/-- Steps that tell no one about the roster, and do not change it. -/
theorem of_forall₂ (h : AllInformed next peers)
    (hall : List.Forall₂ (fun peer peer' : Peer S => peer'.id = peer.id ∧
      peer'.info = peer.info ∧ SameRoster peer.out peer'.out) peers peers') :
    AllInformed next peers' := by
  have hroster : peers'.map Peer.info = peers.map Peer.info :=
    hall.map_eq fun _ _ hrel => hrel.2.1
  intro peer' hmem
  obtain ⟨peer, hpeer, hid, -, hout⟩ := hall.exists_left hmem
  rw [hroster]
  exact (h peer hpeer).of_sameRoster hid hout

theorem of_quiet (h : AllInformed next peers) (hall : List.Forall₂ Peer.Quiet peers peers') :
    AllInformed next peers' :=
  h.of_forall₂ (hall.imp fun _ _ hquiet =>
    ⟨Peer.id_eq_of_card hquiet.card, Peer.info_eq_of_card hquiet.card, hquiet.out⟩)

theorem leave (h : AllInformed next peers) (id : PeerId) :
    AllInformed next ((peers.filter fun peer => peer.id ≠ id).map
      (Peer.send (.peerLeft id.asString))) := by
  have hroster : ((peers.filter fun peer => peer.id ≠ id).map
      (Peer.send (.peerLeft id.asString))).map Peer.info =
      ServerMsg.applyTo (peers.map Peer.info) (.peerLeft id.asString) := by
    have hfilter : (peers.filter fun peer => peer.id ≠ id) = peers.filter
        ((fun info : PeerInfo => decide (info.peerId ≠ id.asString)) ∘ Peer.info) :=
      List.filter_congr fun peer _ => by simp [Peer.info]
    rw [ServerMsg.applyTo, List.filter_map, List.map_map, hfilter]
    rfl
  intro peer' hmem
  obtain ⟨peer, hpeer, rfl⟩ := List.mem_map.mp hmem
  rw [hroster]
  exact (h peer (List.mem_of_mem_filter hpeer)).send trivial

theorem setState (h : AllInformed next peers) (id : PeerId) (muted screen : Bool) :
    AllInformed next (peers.map fun peer => Peer.send (.peerState id.asString muted screen)
      (if peer.id = id then { peer with muted := muted, screen := screen } else peer)) := by
  have hroster : (peers.map fun peer => Peer.send (.peerState id.asString muted screen)
      (if peer.id = id then { peer with muted := muted, screen := screen } else peer)).map
        Peer.info =
      ServerMsg.applyTo (peers.map Peer.info) (.peerState id.asString muted screen) := by
    simp only [ServerMsg.applyTo, List.map_map]
    refine List.map_congr_left fun peer _ => ?_
    by_cases hid : peer.id = id <;> simp [Peer.info, Peer.send, hid]
  intro peer' hmem
  obtain ⟨peer, hpeer, rfl⟩ := List.mem_map.mp hmem
  rw [hroster]
  refine Informed.send ?_ trivial
  split
  · exact ⟨(h peer hpeer).first, (h peer hpeer).view⟩
  · exact h peer hpeer

theorem enter {room : Room S} (h : AllInformed next room.peers)
    (hnew : ∀ peer ∈ room.peers, peer.id.val < next) {peer : Peer S} (hid : peer.id = ⟨next⟩)
    (hout : peer.out = []) (callId answer : String) :
    AllInformed (next + 1) (room.peers.map (Peer.send (.peerJoined peer.info)) ++
      [room.welcome peer callId answer]) := by
  have hne : ∀ other ∈ room.peers, other.id ≠ peer.id := by
    intro other hmem he
    have hlt := hnew other hmem
    rw [he, hid] at hlt
    exact lt_irrefl _ hlt
  have hroster : (room.peers.map (Peer.send (.peerJoined peer.info)) ++
      [room.welcome peer callId answer]).map Peer.info =
      ServerMsg.applyTo (room.peers.map Peer.info) (.peerJoined peer.info) := by
    simp only [ServerMsg.applyTo, List.map_append, List.map_map, List.map_cons, List.map_nil]
    rfl
  intro peer' hmem
  rw [hroster]
  rcases List.mem_append.mp hmem with hmem | hmem
  · obtain ⟨other, hother, rfl⟩ := List.mem_map.mp hmem
    refine (h other hother).send ?_
    simpa [ServerMsg.IsDelta, Peer.info] using (hne other hother).symm
  · rw [List.mem_singleton.mp hmem]
    have hwelcome : (room.welcome peer callId answer).out =
        [.joined peer.id.asString callId answer room.roster] := by
      simp [Room.welcome, hout]
    refine ⟨⟨callId, answer, room.roster, by rw [hwelcome]; rfl⟩, ?_⟩
    have hothers : (room.peers.map Peer.info).filter (fun info =>
        info.peerId ≠ peer.id.asString) = room.peers.map Peer.info := by
      refine List.filter_eq_self.mpr fun info hinfo => ?_
      obtain ⟨other, hother, rfl⟩ := List.mem_map.mp hinfo
      simpa [Peer.info] using hne other hother
    have hown : [peer.info].filter (fun info => info.peerId ≠ peer.id.asString) = [] := by
      simp [Peer.info]
    have hid' : (room.welcome peer callId answer).id = peer.id := rfl
    rw [hwelcome, hid', ServerMsg.applyTo, List.filter_append, hothers, hown, List.append_nil]
    rfl

end AllInformed

theorem allInformed_invariant (config : Config) (ok : Call S → CallEvent S → Prop) :
    PeersInvariant config ok (AllInformed (S := S)) where
  empty _ := by simp [AllInformed]
  later _ _ h := h
  leave next peers id _ h := h.leave id
  enter room request seed offer next callId answer _ _ hnew h := h.enter hnew rfl rfl callId answer
  answer call id sdp answer _ _ _ h := by
    refine h.of_forall₂ (List.forall₂_map_right_iff.mpr (List.forall₂_same.mpr fun peer _ => ?_))
    split
    · obtain ⟨hcard, -, hout⟩ := Peer.acceptAnswer_frame answer peer
      exact ⟨Peer.id_eq_of_card hcard, Peer.info_eq_of_card hcard, hout ▸ .refl _⟩
    · exact ⟨rfl, rfl, .refl _⟩
  setState next peers id muted screen _ _ h := h.setState id muted screen
  poll room clock next polled hids _ h hpolled := by
    obtain ⟨opened, -, -, -, -, hall⟩ := Room.poll_pass hids hpolled
    exact h.of_forall₂ (hall.imp fun peer peer' hpassed =>
      ⟨Peer.id_eq_of_card hpassed.card, Peer.info_eq_of_card hpassed.card, hpassed.out⟩)
  markReported next peers h := by
    refine h.of_forall₂ (List.forall₂_map_right_iff.mpr (List.forall₂_same.mpr fun peer _ => ?_))
    split <;> exact ⟨rfl, rfl, .refl _⟩
  syncSpeaking next peers speakers h :=
    h.of_quiet (List.forall₂_map_right_iff.mpr
      (List.forall₂_same.mpr fun _ _ => ⟨rfl, rfl, rfl, .push _ rfl⟩))
  handleInput next peers input h :=
    h.of_quiet (List.forall₂_updateFirst (fun peer _ => .refl peer)
      fun peer _ _ => Peer.handleInput_quiet input peer)
  advanceTime next peers now h :=
    h.of_quiet (List.forall₂_map_right_iff.mpr
      (List.forall₂_same.mpr fun peer _ => Peer.handleInput_quiet _ peer))

/-- **Every peer of a call was told who else is in it.** -/
theorem reachable_informed {ok : Call S → CallEvent S → Prop} {call : Call S}
    (h : (machine S config name).ReachableVia ok call) :
    ∀ peer ∈ call.peers, Informed (call.peers.map Peer.info) peer :=
  (allInformed_invariant config ok).holds h

end Call

end FerriteSfu
