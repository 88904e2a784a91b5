import FerriteSfu.Signal.Ownership
import FerriteSfu.Scripted

/-!
No peer outlives its session unnoticed, and no session reaches into the peer of
another.
-/

namespace FerriteSfu

variable {S : Str0m} {app : AppState}

namespace System

/-- Whose business the peers in the rooms are. -/
structure NoOrphans (app : AppState) (system : System S) : Prop where
  /-- A peer has one owner, which is forwarding its frames, or has not read yet
  that it was admitted, or has its leave under way. -/
  owner : ∀ name room, system.engine.rooms.lookup name = some room → ∀ peer ∈ room.peers,
    ∃ s, system.Owns s peer.id ∧ (∀ s', system.Owns s' peer.id → s' = s) ∧
      ((system.sessions s).phase = .live peer.id ∨
        (system.sessions s).phase = .admitting ∨ (s, .leave peer.id) ∈ system.queue)
  /-- Once it has joined, what a session asks for leaves every peer it does not
  own in its room and in its place, with nothing new but messages. -/
  others : ∀ s seed command rest system', system.sent s = command :: rest →
    (∀ request, command ≠ .join request) → system.step app (.deliver s seed) = some system' →
      ∀ name, List.Forall₂ Peer.Overhears
        ((system.engine.call name).peers.filter fun peer => ¬system.Owns s peer.id)
        ((system'.engine.call name).peers.filter fun peer => ¬system.Owns s peer.id)

theorem Accounted.owner {system : System S} (h : system.Accounted) {name : String}
    {room : Room S} (hroom : system.engine.rooms.lookup name = some room) {peer : Peer S}
    (hpeer : peer ∈ room.peers) :
    ∃ s, system.Owns s peer.id ∧ (∀ s', system.Owns s' peer.id → s' = s) ∧
      ((system.sessions s).phase = .live peer.id ∨
        (system.sessions s).phase = .admitting ∨ (s, .leave peer.id) ∈ system.queue) := by
  have hpresent : system.engine.Present peer.id :=
    ⟨name, List.mem_map_of_mem (by rwa [Engine.call_peers hroom])⟩
  obtain ⟨s, howns⟩ := h.owned peer.id hpresent
  refine ⟨s, howns, fun s' howns' => h.once s' s peer.id howns' howns, ?_⟩
  have hbooks := h.books s
  have hdeparted := h.departed s peer.id howns
  unfold Owns at howns
  rw [howns] at hbooks
  generalize (system.sessions s).phase = phase at hbooks hdeparted ⊢
  generalize hsent : system.sent s = sent at hbooks hdeparted
  cases hbooks with
  | answered reply => exact .inr (.inl rfl)
  | live peer' _ hall => exact .inl rfl
  | refused reply hnone => cases hnone
  | left peer' _ hall =>
      rw [← hsent] at hdeparted
      exact .inr (.inr (Lib.Mailbox.mem_sentBy.mp (hdeparted rfl hpresent)))

theorem Accounted.others {system system' : System S} (h : system.Accounted) {s : ℕ}
    {seed : S.Seed} {command : Command} {rest : List Command}
    (hsent : system.sent s = command :: rest) (hjoin : ∀ request, command ≠ .join request)
    (hdeliver : system.deliver s seed = some system') (name : String) :
    List.Forall₂ Peer.Overhears
      ((system.engine.call name).peers.filter fun peer => ¬system.Owns s peer.id)
      ((system'.engine.call name).peers.filter fun peer => ¬system.Owns s peer.id) := by
  obtain ⟨command', rest', hsent', hengine, -, -⟩ := deliver_eq_some hdeliver
  cases hsent.symm.trans hsent'
  rcases h.sent_cons hsent with ⟨-, -, ⟨request, rfl⟩, -⟩ | ⟨peer, howns, htarget, -⟩
  · exact absurd rfl (hjoin request)
  · have hown : (fun other : Peer S => decide ¬system.Owns s other.id) =
        fun other : Peer S => decide (other.id ≠ peer) := by
      funext other
      unfold Owns at howns ⊢
      simp [howns, eq_comm]
    rw [hown, hengine]
    exact h.sound.apply_bystanders htarget seed name

/-- **Every peer is the business of one session, and of no other.** -/
theorem reachable_noOrphans {system : System S} (h : (machine S app).Reachable system) :
    system.NoOrphans app where
  owner _ _ hroom _ hpeer := (reachable_accounted h).owner hroom hpeer
  others _ _ _ _ _ hsent hjoin hstep := (reachable_accounted h).others hsent hjoin hstep

end System

namespace Puppet

/-- Browsers that say who joins by their token, and are all given the red room. -/
def state : AppState where
  codec :=
    { parse := fun text => some (.join text "offer")
      decode := fun token _ => .ok { sub := token, room := "red", callId := "call", name := token,
                                     avatarUrl := "" } }
  sharedSecret := "secret"
  config := config

/-- Ann joins and closes her socket, Bob joins and has not been told. -/
def visits : List (SystemEvent scripted) :=
  [.read 0 (some (.text "ann")), .deliver 0 "a", .resume 0, .read 1 (some (.text "bob")),
    .deliver 1 "b", .read 0 (some .close)]

end Puppet

theorem System.reachable_noOrphans_visits :
    ∃ system room, (machine scripted Puppet.state).Reachable system ∧
      system.engine.rooms.lookup "red" = some room ∧ room.peers.length = 2 ∧
      system.NoOrphans Puppet.state := by
  obtain ⟨system, hrun, hcheck⟩ := (Option.any_eq_true _ _).mp (by decide +kernel :
    ((machine scripted Puppet.state).run (start Puppet.config 0) Puppet.visits).any (fun system =>
      (system.engine.rooms.lookup "red").any fun room => room.peers.length == 2) = true)
  obtain ⟨room, hroom, hlength⟩ := (Option.any_eq_true _ _).mp hcheck
  have hreach : (machine scripted Puppet.state).Reachable system := .of_run (.init ⟨0, rfl⟩) hrun
  exact ⟨system, room, hreach, hroom, by simpa using hlength, reachable_noOrphans hreach⟩

end FerriteSfu
