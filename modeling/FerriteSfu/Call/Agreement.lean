import FerriteSfu.Call.Rules
import FerriteSfu.Sfu.Outbox

/-!
The order in which the peers of a room hear its news.

What is broadcast reaches everyone in the room, and a newcomer is announced
before it hears anything itself. So the news of a peer are the end of the news
of whoever was there before it, from its own announcement on.
-/

namespace FerriteSfu

variable {S : Str0m} {config : Config} {name : String}

/-- The messages that go to a whole room. -/
def ServerMsg.isNews : ServerMsg → Bool
  | .peerJoined _ | .peerLeft _ | .peerState _ _ _ | .speaking _ => true
  | .joined _ _ _ _ | .offer _ _ | .error _ _ | .pong => false

namespace Peer

/-- The news this peer was told, in order. -/
def news (peer : Peer S) : List ServerMsg := peer.out.filter ServerMsg.isNews

/-- How the peer was announced when it came. -/
def entry (peer : Peer S) : PeerInfo := { peer.info with muted := false, screen := false }

@[simp] theorem send_entry (message : ServerMsg) (peer : Peer S) :
    (peer.send message).entry = peer.entry := rfl

theorem news_send {message : ServerMsg} (h : message.isNews = true) (peer : Peer S) :
    (peer.send message).news = peer.news ++ [message] := by
  simp [news, h]

/-- `peer'` is `peer` after calls that tell it no news. -/
structure NewsKept (peer peer' : Peer S) : Prop where
  entry : peer'.entry = peer.entry
  news : peer'.news = peer.news

theorem NewsKept.refl (peer : Peer S) : peer.NewsKept peer := ⟨rfl, rfl⟩

theorem NewsKept.trans {peer peer' peer'' : Peer S} (h : peer.NewsKept peer')
    (h' : peer'.NewsKept peer'') : peer.NewsKept peer'' :=
  ⟨h'.entry.trans h.entry, h'.news.trans h.news⟩

theorem entry_eq_of_card {peer peer' : Peer S} (h : peer'.card = peer.card) :
    peer'.entry = peer.entry := by
  rw [entry, info_eq_of_card h, entry]

theorem NewsKept.of_out {peer peer' : Peer S} (hcard : peer'.card = peer.card)
    (hout : peer'.out = peer.out) : peer.NewsKept peer' where
  entry := entry_eq_of_card hcard
  news := congrArg (List.filter ServerMsg.isNews) hout

theorem pollOutput_newsKept (heap : Heap) (now : Instant) (peer : Peer S) :
    peer.NewsKept (peer.pollOutput heap now).2.1 := by
  have hcard := (pollOutput_polled heap now peer).card
  rcases pollOutput_out heap now peer with ⟨hout, -⟩ | ⟨-, sdp, hout, -⟩
  · exact .of_out hcard hout
  · refine ⟨entry_eq_of_card hcard, ?_⟩
    rw [news, hout, List.filter_append, news]
    simp [ServerMsg.isNews]

theorem receive_newsKept (heap : Heap) (propagated : Propagated S) (peer : Peer S) :
    peer.NewsKept (peer.receive heap propagated) :=
  .of_out (receive_frame heap propagated peer).1 (receive_out heap propagated peer)

/-- The later peer was announced to the earlier one, and since then both were
told the same. -/
def InStep (earlier later : Peer S) : Prop :=
  ∃ before, earlier.news = before ++ .peerJoined later.entry :: later.news

theorem InStep.congr {earlier later earlier' later' : Peer S} (h : earlier.InStep later)
    (hearlier : earlier.NewsKept earlier') (hlater : later.NewsKept later') :
    earlier'.InStep later' := by
  obtain ⟨before, hbefore⟩ := h
  exact ⟨before, by rw [hearlier.news, hlater.entry, hlater.news, hbefore]⟩

theorem InStep.send {earlier later : Peer S} (h : earlier.InStep later) {message : ServerMsg}
    (hnews : message.isNews = true) : (earlier.send message).InStep (later.send message) := by
  obtain ⟨before, hbefore⟩ := h
  refine ⟨before, ?_⟩
  rw [news_send hnews, news_send hnews, hbefore, send_entry]
  simp

end Peer

/-- A pass relates every peer to what became of it, if polling and receiving do. -/
theorem Room.poll_forall₂ {R : Peer S → Peer S → Prop} (hrefl : ∀ peer, R peer peer)
    (htrans : ∀ peer peer' peer'', R peer peer' → R peer' peer'' → R peer peer'')
    (hpoll : ∀ heap now peer, R peer (peer.pollOutput heap now).2.1)
    (hreceive : ∀ heap propagated peer, R peer (peer.receive heap propagated))
    {clock : ℕ → List Instant} {heap : Heap} {timeout : Instant} {room : Room S}
    {next : PolledRoom S} (h : room.poll clock heap timeout = some next) :
    List.Forall₂ R room.peers next.room.peers := by
  have hdrains : ∀ {clock : List Instant} {heap : Heap} {peer : Peer S} {drained : Drained S},
      peer.drain clock heap = some drained → R peer drained.peer := by
    intro clock heap peer drained hdrain
    refine Peer.drain_rule (P := fun _ _ peer drained => R peer drained.peer)
      (fun _ _ peer _ => hrefl peer) ?asleep ?goesOn hdrain
    case asleep =>
      intro now _ heap heap' wake peer peer' _ hp
      have hnext := hpoll heap now peer
      rwa [hp] at hnext
    case goesOn =>
      intro now _ heap heap' propagated peer peer' rest _ _ hp _ ih
      have hnext := hpoll heap now peer
      rw [hp] at hnext
      exact htrans _ _ _ hnext ih
  have hall : ∀ {clock : ℕ → List Instant} {heap : Heap} {timeout : Instant}
      {peers : List (Peer S)} {drained : DrainedPeers S},
      drainPeers clock heap timeout peers = some drained → List.Forall₂ R peers drained.peers := by
    intro clock heap timeout peers drained hdrain
    induction peers generalizing clock heap timeout drained with
    | nil =>
        cases hdrain
        exact .nil
    | cons peer peers ih =>
        obtain ⟨first, rest, hfirst, hrest, rfl⟩ := drainPeers_cons hdrain
        exact .cons (hdrains hfirst) (ih hrest)
  have hfold : ∀ (heap : Heap) (queue : List (Propagated S)) (peer : Peer S),
      R peer (queue.foldl (fun peer propagated => peer.receive heap propagated) peer) := by
    intro heap queue
    induction queue with
    | nil => exact hrefl
    | cons propagated queue ih =>
        exact fun peer => htrans _ _ _ (hreceive heap propagated peer) (ih _)
  obtain ⟨drained, hdrained, rfl⟩ := Option.map_eq_some_iff.mp h
  simp only [propagateAll_eq, List.forall₂_map_right_iff]
  exact (hall hdrained).imp fun peer peer' hrel => htrans _ _ _ hrel (hfold _ _ _)

namespace Call

/-- Whoever came earlier was told what whoever came later was told. -/
def AllInStep (peers : List (Peer S)) : Prop := peers.Pairwise Peer.InStep

namespace AllInStep

variable {peers peers' : List (Peer S)}

theorem of_forall₂ (h : AllInStep peers) (hall : List.Forall₂ Peer.NewsKept peers peers') :
    AllInStep peers' := by
  induction hall with
  | nil => exact .nil
  | cons hhead hrest ih =>
      obtain ⟨hfirst, htail⟩ := List.pairwise_cons.mp h
      refine List.pairwise_cons.mpr ⟨fun later' hmem => ?_, ih htail⟩
      obtain ⟨later, hlater, hkept⟩ := hrest.exists_left hmem
      exact (hfirst later hlater).congr hhead hkept

theorem map (h : AllInStep peers) {f : Peer S → Peer S} (hf : ∀ peer, Peer.NewsKept peer (f peer)) :
    AllInStep (peers.map f) :=
  h.of_forall₂ (List.forall₂_map_right_iff.mpr (List.forall₂_same.mpr fun peer _ => hf peer))

theorem broadcast (h : AllInStep peers) {message : ServerMsg} (hnews : message.isNews = true) :
    AllInStep (peers.map (Peer.send message)) :=
  List.pairwise_map.mpr (h.imp fun hstep => hstep.send hnews)

end AllInStep

theorem inStep_invariant (config : Config) (ok : Call S → CallEvent S → Prop) :
    PeersInvariant config ok fun _ (peers : List (Peer S)) => AllInStep peers where
  empty _ := .nil
  later _ _ h := h
  leave next peers id _ h :=
    AllInStep.broadcast (List.Pairwise.sublist List.filter_sublist h) rfl
  enter room request seed offer next callId answer _ _ _ h := by
    intro newcomer
    have hnews : (room.welcome newcomer callId answer).news = [] := by
      rfl
    refine List.pairwise_append.mpr ⟨AllInStep.broadcast h rfl,
      List.pairwise_singleton _ _, fun earlier hearlier later hlater => ?_⟩
    obtain ⟨peer, -, rfl⟩ := List.mem_map.mp hearlier
    rw [List.mem_singleton.mp hlater]
    refine ⟨peer.news, ?_⟩
    rw [Peer.news_send rfl, hnews]
    rfl
  answer call id sdp answer _ _ _ h := AllInStep.map h fun peer => by
    split
    · obtain ⟨hcard, -, hout⟩ := Peer.acceptAnswer_frame answer peer
      exact .of_out hcard hout
    · exact .refl peer
  setState next peers id muted screen _ _ h := by
    have hkept : AllInStep (peers.map fun peer : Peer S =>
        if peer.id = id then { peer with muted := muted, screen := screen } else peer) :=
      AllInStep.map h fun peer => by split <;> exact ⟨rfl, rfl⟩
    have hnews : (ServerMsg.peerState id.asString muted screen).isNews = true := rfl
    simpa [List.map_map, Function.comp_def] using AllInStep.broadcast hkept hnews
  poll room clock next polled _ _ h hpolled :=
    AllInStep.of_forall₂ h (Room.poll_forall₂ Peer.NewsKept.refl
      (fun _ _ _ => Peer.NewsKept.trans) Peer.pollOutput_newsKept Peer.receive_newsKept hpolled)
  markReported next peers h := AllInStep.map h fun peer => by
    split <;> exact ⟨rfl, rfl⟩
  syncSpeaking next peers speakers h := AllInStep.broadcast h rfl
  handleInput next peers input h := AllInStep.of_forall₂ h
    (List.forall₂_updateFirst (fun peer _ => .refl peer) fun peer _ _ =>
      .of_out (Peer.handleInput_quiet input peer).card (Peer.handleInput_out input peer))
  advanceTime next peers now h := AllInStep.map h fun peer =>
    .of_out (Peer.handleInput_quiet _ peer).card (Peer.handleInput_out _ peer)

end Call

end FerriteSfu
