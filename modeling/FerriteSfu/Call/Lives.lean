import FerriteSfu.Call.Rules
import FerriteSfu.Sfu.Log
import FerriteSfu.Lib.Lives

/-!
The life of a peer: the iterations that poll it, and whatever happens to it in
between.

An iteration is kept with the reading of the clock and the peer it found. All
a peer remembers of its own media and its own connection is written in one of
them; the steps in between are calm.
-/

namespace FerriteSfu

variable {S : Str0m} {config : Config} {name : String}

open Lib (Lived)

/-- One iteration of the inner loop of `poll_rooms`. -/
structure Poll (S : Str0m) where
  now : Instant
  heap : Heap
  before : Peer S

namespace Poll

def after (poll : Poll S) : Peer S := (poll.before.pollOutput poll.heap poll.now).2.1

/-- The peer whose `Rtc` is asked for output, if there is nothing left to negotiate. -/
def asked (poll : Poll S) : Option (Peer S) :=
  if !S.isAlive poll.before.rtc then none
  else
    match poll.before.negotiateIfNeeded poll.heap with
    | (true, _) => none
    | (false, peer) => some peer

/-- What the `Rtc` returned. -/
def output (poll : Poll S) : Option S.Output :=
  poll.asked.bind fun peer => (S.pollOutput peer.rtc).1.toOption

/-- The `Rtc` after it returned. -/
def rtc (poll : Poll S) : S.Rtc :=
  (poll.asked.map fun peer => (S.pollOutput peer.rtc).2).getD poll.before.rtc

end Poll

/-- What the log of a peer says of its `Rtc`'s output. -/
def Op.output : Op S → Option S.Output
  | .polled output => some output
  | _ => none

/-- What a peer keeps of its own media and its own connection. -/
structure Memory where
  tracksIn : List TrackInEntry
  connected : Bool
  disconnectedSince : Option Instant
  speakingUntil : Option Instant

namespace Peer

/-- Everything the `Rtc` has put out, in order. -/
def outputs (peer : Peer S) : List S.Output := peer.ops.filterMap Op.output

def memory (peer : Peer S) : Memory where
  tracksIn := peer.tracksIn
  connected := peer.connected
  disconnectedSince := peer.disconnectedSince
  speakingUntil := peer.speakingUntil

/-- Nothing was put out, and what the peer keeps of it is as it was. -/
structure Calm (peer peer' : Peer S) : Prop where
  id : peer'.id = peer.id
  memory : peer'.memory = peer.memory
  outputs : peer'.outputs = peer.outputs

/-- The peer goes through these iterations. -/
abbrev Lives (polls : List (Poll S)) (peer peer' : Peer S) : Prop :=
  Lived Calm (fun (poll : Poll S) peer peer' => poll.before = peer ∧ poll.after = peer')
    polls peer peer'

/-- A peer of whom nothing has been heard. -/
structure Newborn (peer : Peer S) : Prop where
  memory : peer.memory = ⟨[], false, none, none⟩
  outputs : peer.outputs = []

/-- The iterations in which the peer is polled to the end. -/
def polls : List Instant → Heap → Peer S → List (Poll S)
  | [], _, _ => []
  | now :: clock, heap, peer =>
      if !S.isAlive peer.rtc then []
      else
        ⟨now, heap, peer⟩ ::
          match peer.pollOutput heap now with
          | (.timeout _, _, _) => []
          | (_, polled, heap) => polls clock heap polled

theorem Calm.refl (peer : Peer S) : Calm peer peer := ⟨rfl, rfl, rfl⟩

theorem Calm.trans {peer peer' peer'' : Peer S} (h : Calm peer peer') (h' : Calm peer' peer'') :
    Calm peer peer'' where
  id := h'.id.trans h.id
  memory := h'.memory.trans h.memory
  outputs := h'.outputs.trans h.outputs

theorem Calm.tracksIn {peer peer' : Peer S} (h : Calm peer peer') :
    peer'.tracksIn = peer.tracksIn := congrArg Memory.tracksIn h.memory

theorem Calm.connected {peer peer' : Peer S} (h : Calm peer peer') :
    peer'.connected = peer.connected := congrArg Memory.connected h.memory

theorem Calm.speakingUntil {peer peer' : Peer S} (h : Calm peer peer') :
    peer'.speakingUntil = peer.speakingUntil := congrArg Memory.speakingUntil h.memory

theorem Newborn.tracksIn {peer : Peer S} (h : peer.Newborn) : peer.tracksIn = [] :=
  congrArg Memory.tracksIn h.memory

theorem Calm.of_ops {peer peer' : Peer S} {ops : List (Op S)} (hid : peer'.id = peer.id)
    (hmemory : peer'.memory = peer.memory) (hops : peer'.ops = peer.ops ++ ops)
    (hquiet : ∀ op ∈ ops, op.output = none) : Calm peer peer' where
  id := hid
  memory := hmemory
  outputs := by
    show peer'.ops.filterMap Op.output = peer.ops.filterMap Op.output
    rw [hops, List.filterMap_append, List.filterMap_eq_nil_iff.mpr hquiet, List.append_nil]

/-! ### What is calm -/

theorem calm_send (message : ServerMsg) (peer : Peer S) : Calm peer (peer.send message) :=
  ⟨rfl, rfl, rfl⟩

theorem calm_handleInput (input : S.Input) (peer : Peer S) :
    Calm peer (peer.handleInput input) := by
  rw [handleInput_eq]
  exact ⟨rfl, rfl, rfl⟩

theorem calm_acceptAnswer (answer : S.SdpAnswer) (peer : Peer S) :
    Calm peer (peer.acceptAnswer answer).2 := by
  rcases acceptAnswer_cases answer peer with ⟨-, heq⟩ | ⟨_, -, -, heq⟩ | ⟨_, -, -, heq⟩ <;> rw [heq]
  all_goals exact ⟨rfl, rfl, rfl⟩

theorem calm_receive (heap : Heap) (propagated : Propagated S) (peer : Peer S) :
    Calm peer (peer.receive heap propagated) := by
  obtain ⟨ops, hops, hreceives⟩ := receive_ops heap propagated peer
  refine .of_ops (receive_id heap propagated peer) ?_ hops fun op hop => ?_
  · cases propagated with
    | noop | timeout | trackOpen => rfl
    | media origin data =>
        simp only [receive, forward]
        repeat' split
        all_goals rfl
    | keyframeRequest id request publisher midIn =>
        simp only [receive, serveKeyframeRequest]
        repeat' split
        all_goals rfl
  · cases hreceives op hop <;> rfl

theorem calm_receiveAll (heap : Heap) (queue : List (Propagated S)) (peer : Peer S) :
    Calm peer (peer.receiveAll heap queue) := by
  unfold receiveAll
  generalize peer.fromOthers queue = queue
  induction queue generalizing peer with
  | nil => exact .refl peer
  | cons propagated queue ih => exact (calm_receive heap propagated peer).trans (ih _)

/-- Calm, and nothing but negotiation went on. -/
structure Prepared (peer peer' : Peer S) : Prop extends Calm peer peer' where
  ops : ∃ ops, peer'.ops = peer.ops ++ ops ∧ ∀ op ∈ ops, op.IsNegotiation

theorem Prepared.refl (peer : Peer S) : Prepared peer peer :=
  ⟨.refl peer, [], (List.append_nil _).symm, by simp⟩

theorem prepared_negotiateIfNeeded (heap : Heap) (peer : Peer S) :
    Prepared peer (peer.negotiateIfNeeded heap).2 := by
  obtain ⟨ops, hops, hnegotiation⟩ := negotiateIfNeeded_ops heap peer
  refine ⟨.of_ops (id_eq_of_card (negotiateIfNeeded_quiet heap peer).card) ?_ hops
    fun op hop => ?_, ops, hops, hnegotiation⟩
  · rcases negotiateIfNeeded_cases heap peer with ⟨-, heq⟩ | ⟨-, -, heq⟩ | ⟨-, -, -, heq⟩ |
      ⟨-, -, _, _, -, heq⟩ <;> rw [heq] <;> rfl
  · cases hnegotiation op hop <;> rfl

theorem Prepared.setRtc {peer peer' : Peer S} (h : Prepared peer peer') (rtc : S.Rtc) :
    Prepared peer { peer' with rtc := rtc } :=
  ⟨h.toCalm.trans ⟨rfl, rfl, rfl⟩, h.ops⟩

theorem pollOutput_id (heap : Heap) (now : Instant) (peer : Peer S) :
    (peer.pollOutput heap now).2.1.id = peer.id :=
  id_eq_of_card (pollOutput_polled heap now peer).card

theorem Lives.id {polls : List (Poll S)} {peer peer' : Peer S} (h : Lives polls peer peer') :
    peer'.id = peer.id := by
  refine Lived.ofStart (P := fun _ other => other.id = peer.id)
    (fun _ _ _ hid hcalm => hcalm.id.trans hid) (fun _ _ _ poll hid hpoll => ?_) h rfl
  obtain ⟨rfl, rfl⟩ := hpoll
  exact (pollOutput_id _ _ _).trans hid

/-- `drain_rule`, along the iterations. -/
theorem polls_rule {P : List (Poll S) → Heap → Peer S → Drained S → Prop}
    (dead : ∀ heap (peer : Peer S), S.isAlive peer.rtc = false →
      P [] heap peer { queue := [], peer := peer, heap := heap, wake := none })
    (asleep : ∀ (poll : Poll S) wake heap, S.isAlive poll.before.rtc = true →
      poll.before.pollOutput poll.heap poll.now = (.timeout wake, poll.after, heap) →
      P [poll] poll.heap poll.before
        { queue := [], peer := poll.after, heap := heap, wake := some wake })
    (goesOn : ∀ (poll : Poll S) polls heap propagated rest, S.isAlive poll.before.rtc = true →
      (∀ wake, propagated ≠ .timeout wake) →
      poll.before.pollOutput poll.heap poll.now = (propagated, poll.after, heap) →
      P polls heap poll.after rest →
      P (poll :: polls) poll.heap poll.before { rest with queue := propagated :: rest.queue })
    {clock : List Instant} {heap : Heap} {peer : Peer S} {drained : Drained S}
    (h : peer.drain clock heap = some drained) : P (peer.polls clock heap) heap peer drained := by
  refine drain_rule (P := fun clock heap peer drained =>
    P (peer.polls clock heap) heap peer drained) ?dead ?asleep ?goesOn h
  case dead =>
    intro clock heap peer hdead
    have hnone : peer.polls clock heap = [] := by
      cases clock <;> simp [polls, hdead]
    exact hnone ▸ dead heap peer hdead
  case asleep =>
    intro now clock heap heap' wake peer peer' halive hp
    have hafter : peer' = (⟨now, heap, peer⟩ : Poll S).after := by rw [Poll.after, hp]
    have hpolls : peer.polls (now :: clock) heap = [⟨now, heap, peer⟩] := by
      simp [polls, halive, hp]
    rw [hpolls, hafter]
    exact asleep ⟨now, heap, peer⟩ wake heap' halive (hafter ▸ hp)
  case goesOn =>
    intro now clock heap heap' propagated peer peer' rest halive hwake hp _ ih
    have hafter : peer' = (⟨now, heap, peer⟩ : Poll S).after := by rw [Poll.after, hp]
    have hpolls :
        peer.polls (now :: clock) heap = ⟨now, heap, peer⟩ :: peer'.polls clock heap' := by
      rw [polls, hp]
      cases propagated with
      | timeout wake => exact absurd rfl (hwake wake)
      | noop | trackOpen | media | keyframeRequest => simp [halive]
    rw [hpolls]
    exact goesOn ⟨now, heap, peer⟩ _ heap' propagated rest halive hwake (hafter ▸ hp)
      (hafter ▸ ih)

/-- The iterations are those the peer goes through. -/
theorem lives_drain {clock : List Instant} {heap : Heap} {peer : Peer S} {drained : Drained S}
    (h : peer.drain clock heap = some drained) : Lives (peer.polls clock heap) peer drained.peer :=
  polls_rule (P := fun polls _ peer drained => Lives polls peer drained.peer)
    (fun _ peer _ => .refl peer) (fun _ _ _ _ _ => .of_entry ⟨rfl, rfl⟩)
    (fun _ _ _ _ _ _ _ _ ih => Lived.trans (.of_entry ⟨rfl, rfl⟩) ih) h

end Peer

/-- An iteration is over after the negotiation, or goes on with an output that is
handled. -/
theorem Poll.pollOutput_cases (poll : Poll S) :
    (poll.output = none ∧ ∃ peer, poll.before.Prepared peer ∧
      poll.before.pollOutput poll.heap poll.now = (.noop, peer, poll.heap)) ∨
    ∃ output asked, poll.asked = some asked ∧ poll.output = some output ∧
      poll.before.Prepared asked ∧ asked.refs = poll.before.refs ∧
      poll.before.pollOutput poll.heap poll.now =
        ({ asked with rtc := poll.rtc }.record (.polled output)).handleOutput poll.heap poll.now
          output := by
  have hneg := poll.before.prepared_negotiateIfNeeded poll.heap
  have hquiet := poll.before.negotiateIfNeeded_quiet poll.heap
  rw [Poll.output, Poll.rtc]
  rcases poll.before.pollOutput_cases poll.heap poll.now with ⟨hdead, heq⟩ | ⟨halive, hsent, heq⟩ |
    ⟨halive, hsent, output, rtc, hpoll, heq⟩ | ⟨halive, hsent, error, rtc, hpoll, heq⟩
  · refine .inl ⟨?_, _, .refl _, heq⟩
    simp [asked, hdead]
  · refine .inl ⟨?_, _, hneg, heq⟩
    simp only [asked, halive]
    cases hneg : poll.before.negotiateIfNeeded poll.heap with
    | mk sent peer =>
        obtain rfl : sent = true := by simpa [hneg] using hsent
        rfl
  all_goals
    have hasked : poll.asked = some (poll.before.negotiateIfNeeded poll.heap).2 := by
      simp only [asked, halive]
      cases hneg : poll.before.negotiateIfNeeded poll.heap with
      | mk sent peer =>
          obtain rfl : sent = false := by simpa [hneg] using hsent
          rfl
    rw [hasked, heq]
  · refine .inr ⟨output, (poll.before.negotiateIfNeeded poll.heap).2, rfl, ?_, hneg,
      hquiet.refs, ?_⟩
    · simp [hpoll, Except.toOption]
    · simp [hpoll]
  · refine .inl ⟨?_, _, hneg.setRtc _, rfl⟩
    simp [hpoll, Except.toOption]

theorem Poll.after_cases (poll : Poll S) :
    (poll.output = none ∧ poll.before.Prepared poll.after) ∨
    ∃ output peer, poll.output = some output ∧ poll.before.Prepared peer ∧ peer.rtc = poll.rtc ∧
      poll.after = ((peer.record (.polled output)).handleOutput poll.heap poll.now output).2.1 := by
  rcases poll.pollOutput_cases with ⟨hnone, peer, hprepared, heq⟩ |
    ⟨output, asked, -, hsome, hprepared, -, heq⟩
  · exact .inl ⟨hnone, by rwa [after, heq]⟩
  · exact .inr ⟨output, { asked with rtc := poll.rtc }, hsome, hprepared.setRtc _, rfl,
      by rw [after, heq]⟩

/-! ### A pass over a room -/

/-- The iterations that poll the peer `id` in a pass over the peers of its room. -/
def pollsOf (id : PeerId) : (ℕ → List Instant) → Heap → List (Peer S) → List (Poll S)
  | _, _, [] => []
  | clock, heap, peer :: peers =>
      if peer.id = id then peer.polls (clock 0) heap
      else
        ((peer.drain (clock 0) heap).map fun drained =>
          pollsOf id (fun i => clock (i + 1)) drained.heap peers).getD []

/-- Each peer of a room is polled to the end, from what the heap has grown to. -/
theorem drainPeers_polls {clock : ℕ → List Instant} {heap : Heap} {timeout : Instant}
    {peers : List (Peer S)} {drained : DrainedPeers S} (hids : (peers.map Peer.id).Nodup)
    (h : drainPeers clock heap timeout peers = some drained) :
    List.Forall₂ (fun peer peer' => ∃ clock' heap' first, peer.drain clock' heap' = some first ∧
      first.peer = peer' ∧ pollsOf peer.id clock heap peers = peer.polls clock' heap' ∧
      ∀ track ∈ heap, track ∈ heap') peers drained.peers := by
  induction peers generalizing clock heap timeout drained with
  | nil =>
      cases h
      exact .nil
  | cons peer peers ih =>
      obtain ⟨hnot, hnodup⟩ := List.nodup_cons.mp hids
      obtain ⟨first, rest, hfirst, hrest, rfl⟩ := drainPeers_cons h
      have hothers : ∀ other ∈ peers, peer.id ≠ other.id :=
        fun other hother he => hnot (he ▸ List.mem_map_of_mem hother)
      have hgrows : ∀ track ∈ heap, track ∈ first.heap := fun track hmem =>
        (Peer.drain_polled hfirst).heap ▸ List.mem_append_left _ hmem
      refine .cons ⟨_, heap, first, hfirst, rfl, by rw [pollsOf, if_pos rfl], fun _ hmem => hmem⟩
        (((List.forall₂_and_left _ _).mpr ⟨hothers, ih hnodup hrest⟩).imp ?_)
      rintro other other' ⟨hne, clock', heap', drained, hdrain, hpeer, hpolls, hheap⟩
      refine ⟨clock', heap', drained, hdrain, hpeer, ?_, fun track hmem => hheap _ (hgrows _ hmem)⟩
      rw [pollsOf, if_neg hne, hfirst]
      exact hpolls

theorem pollsOf_eq_nil {id : PeerId} {clock : ℕ → List Instant} {heap : Heap}
    {peers : List (Peer S)} (h : ∀ peer ∈ peers, peer.id ≠ id) :
    pollsOf id clock heap peers = [] := by
  induction peers generalizing clock heap with
  | nil => rfl
  | cons peer peers ih =>
      rw [pollsOf, if_neg (h peer (by simp))]
      cases peer.drain (clock 0) heap with
      | none => rfl
      | some drained => exact ih fun other hother => h other (by simp [hother])

theorem Room.poll_lives {clock : ℕ → List Instant} {heap : Heap} {timeout : Instant}
    {room : Room S} {polled : PolledRoom S} (hids : room.ids.Nodup)
    (h : room.poll clock heap timeout = some polled) :
    List.Forall₂ (fun peer peer' => Peer.Lives (pollsOf peer.id clock heap room.peers) peer peer')
      room.peers polled.room.peers := by
  obtain ⟨drained, hdrained, rfl⟩ := Option.map_eq_some_iff.mp h
  simp only [Room.propagateAll_eq, List.forall₂_map_right_iff]
  refine (drainPeers_polls hids hdrained).imp fun peer peer' hpolled => ?_
  obtain ⟨clock', heap', first, hdrain, rfl, hpolls, -⟩ := hpolled
  exact .quiet (hpolls ▸ Peer.lives_drain hdrain)
    (Peer.calm_receiveAll drained.heap drained.queue first.peer)

/-! ### The steps of a call -/

namespace Call

/-- The iterations that poll the peer `id` in a step. -/
def polls (id : PeerId) (call : Call S) : CallEvent S → List (Poll S)
  | .poll clock =>
      (call.room.map fun room => pollsOf id clock room.tracks room.peers).getD []
  | _ => []

theorem polls_eq_nil {id : PeerId} {call : Call S} (h : ∀ peer ∈ call.peers, peer.id ≠ id)
    (event : CallEvent S) : call.polls id event = [] := by
  cases event with
  | poll clock =>
      cases hroom : call.room with
      | none => simp [polls, hroom]
      | some room =>
          rw [peers_of_room hroom] at h
          simp [polls, hroom, pollsOf_eq_nil h]
  | join | elsewhere | answer | setState | leave | reportConnections | reap | syncSpeaking
  | handleInput | advanceTime => rfl

/-- The peer has not been there before. -/
def HasNewborn (call : Call S) (peer : Peer S) : Prop :=
  call.nextPeer ≤ peer.id.val ∧ peer.Newborn

/-- Only polling is not calm. -/
theorem calm_unpolled : Unpolled (fun _ _ => True) (Peer.Calm (S := S)) where
  refl := .refl
  trans _ _ _ h h' := h.trans h'
  send := Peer.calm_send
  flags _ _ _ _ := ⟨rfl, rfl, rfl⟩
  answer _ _ _ answer _ _ peer _ _ := Peer.calm_acceptAnswer answer peer
  handleInput := Peer.calm_handleInput

theorem Entrant.hasNewborn {call : Call S} {peer : Peer S} (h : call.Entrant config peer) :
    call.HasNewborn peer := by
  obtain ⟨room, request, seed, offer, callId, answer, rfl⟩ := h
  exact ⟨le_refl _, rfl, rfl⟩

/-- **A step takes a peer through the iterations that poll it, and a newcomer is
newborn.** -/
theorem step_lives {call call' : Call S} (hnum : call.Numbered) {event : CallEvent S}
    (hstep : call.step config name event = some call') :
    ∀ peer' ∈ call'.peers,
      (∃ peer ∈ call.peers, Peer.Lives (call.polls peer.id event) peer peer') ∨
        call.HasNewborn peer' := by
  by_cases hpolled : ∃ clock, event = .poll clock
  · obtain ⟨clock, rfl⟩ := hpolled
    simp only [Call.step, Call.poll] at hstep
    cases hroom : call.room with
    | none =>
        rw [hroom] at hstep
        cases hstep
        simp [peers_of_none hroom]
    | some room =>
        rw [hroom] at hstep
        obtain ⟨polled, hpass, rfl⟩ := Option.map_eq_some_iff.mp hstep
        have hids : room.ids.Nodup := by simpa [Room.ids, hroom] using hnum.ids
        intro peer' hpeer'
        obtain ⟨peer, hpeer, hlives⟩ := (Room.poll_lives hids hpass).exists_left hpeer'
        refine .inl ⟨peer, peers_of_room hroom ▸ hpeer, ?_⟩
        simpa [polls, hroom] using hlives
  · have hnone : ∀ id, call.polls id event = [] := by
      intro id
      cases event with
      | poll clock => exact absurd ⟨clock, rfl⟩ hpolled
      | join | elsewhere | answer | setState | leave | reportConnections | reap | syncSpeaking
      | handleInput | advanceTime => rfl
    intro peer' hpeer'
    rcases calm_unpolled.step hnum (fun clock he => hpolled ⟨clock, he⟩) trivial hstep peer' hpeer' with
      ⟨peer, hpeer, hcalm⟩ | hnew
    · exact .inl ⟨peer, hpeer, hnone peer.id ▸ .of_quiet hcalm⟩
    · exact .inr hnew.hasNewborn

end Call

end FerriteSfu
