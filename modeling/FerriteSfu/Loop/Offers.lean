import FerriteSfu.Call.Simulation
import FerriteSfu.Call.Negotiation
import FerriteSfu.Scripted

/-!
Offers that are outstanding, in every room of the media loop.

A subscription in flight waits for the answer to an offer. The answer str0m
rejects uses the offer up and settles nothing, so the two go apart exactly when
such an answer is applied.
-/

namespace FerriteSfu

variable {S : Str0m} {config : Config}

namespace Puppet

/-- Whether an event is anything but an answer that puppets reject. -/
def behaves : Event scripted → Bool
  | .command (.answer _ sdp) _ => sdp ≠ "rejected"
  | _ => true

end Puppet

namespace Engine

/-- Of every live peer, something is in flight exactly when an offer is out. -/
def OffersOutstanding (engine : Engine S) : Prop :=
  ∀ name room, engine.rooms.lookup name = some room → ∀ peer ∈ room.peers,
    peer.isAlive = true →
      ((∃ track ∈ peer.tracksOut, track.inFlight = true) ↔ peer.pending.isSome = true)

/-- Every answer that is applied to an outstanding offer is accepted. -/
def AnswersAccepted (engine : Engine S) : Event S → Prop
  | .command (.answer id sdp) _ => ∀ name room, engine.rooms.lookup name = some room →
      ∀ peer ∈ room.peers, peer.id = id → ∀ answer pending,
        S.answerFromSdpString sdp = .ok answer → peer.pending = some pending →
          (S.acceptAnswer peer.rtc pending answer).1.isOk = true
  | _ => True

theorem answersAccepted_call {engine : Engine S} {event : Event S} {ev : CallEvent S}
    {name : String} (h : engine.AnswersAccepted event)
    (hev : engine.callEvent name event = some ev) : (engine.call name).AnswersAccepted ev := by
  cases event with
  | command command seed =>
      cases command with
      | answer id sdp =>
          cases hev
          intro peer hpeer hid answer pending hparse hpending
          cases hroom : engine.rooms.lookup name with
          | none => simp [Call.peers, hroom] at hpeer
          | some room =>
              rw [call_peers hroom] at hpeer
              exact h name room hroom peer hpeer hid answer pending hparse hpending
      | join request =>
          simp only [callEvent] at hev
          repeat' split at hev
          all_goals cases hev
          all_goals trivial
      | shutdown => cases hev
      | mute | screen | leave =>
          cases hev
          trivial
  | tickSpeaking | readOnce =>
      simp only [callEvent] at hev
      split at hev <;> cases hev
      trivial
  | pollRooms | reportConnections | reap | advanceTime =>
      cases hev
      trivial

/-- **While answers are accepted, nothing is in flight without an offer.** -/
theorem reachable_offersOutstanding (hlaw : S.OffersChanges) {engine : Engine S}
    (h : (machine S config).ReachableVia AnswersAccepted engine) : engine.OffersOutstanding := by
  intro name room hroom peer hpeer _
  have hcall : (Call.machine S config name).ReachableVia Call.AnswersAccepted
      (engine.call name) :=
    reachable_call (fun _ _ _ _ _ hok hev => answersAccepted_call hok hev) h
  have hsettled := Call.reachable_settled hlaw hcall peer
  rw [call_peers hroom] at hsettled
  have heq : peer.tracksOut.any TrackOut.inFlight = peer.pending.isSome := hsettled hpeer
  rw [← heq, List.any_eq_true]

theorem behaves_answersAccepted {engine : Engine scripted} {event : Event scripted}
    (h : Puppet.behaves event = true) : engine.AnswersAccepted event := by
  cases event with
  | command command seed =>
      cases command with
      | answer id sdp =>
          have hsdp : sdp ≠ "rejected" := by simpa [Puppet.behaves] using h
          intro name room _ peer _ _ answer pending hparse _
          simp only [scripted] at hparse
          split at hparse
          · cases hparse
          · cases hparse
            simp [hsdp, Except.isOk, Except.toBool]
      | join | mute | screen | leave | shutdown => trivial
  | pollRooms | reportConnections | reap | tickSpeaking | readOnce | advanceTime => trivial

theorem reachable_offersOutstanding_talk :
    ∃ engine, (machine scripted Puppet.config).ReachableVia AnswersAccepted engine ∧
      engine.OffersOutstanding := by
  obtain ⟨engine, hrun⟩ := Option.isSome_iff_exists.mp (by decide +kernel :
    ((machine scripted Puppet.config).runIf (fun _ event => Puppet.behaves event)
      (start Puppet.config 0) (Puppet.talk.flatMap Turn.events)).isSome)
  have hreach : (machine scripted Puppet.config).ReachableVia AnswersAccepted engine :=
    .of_runIf (fun _ _ h => behaves_answersAccepted h) (.init ⟨0, rfl⟩) hrun
  exact ⟨engine, hreach, reachable_offersOutstanding scripted_offersChanges hreach⟩

/-- Bob's browser answers an offer with what str0m rejects. -/
def rejection : List (Turn scripted) :=
  Puppet.meeting ++ [Puppet.turn [(.answer ⟨2⟩ "rejected", "")] ["red"] none]

/-- After a rejected answer a subscription is in flight with no offer out. -/
theorem offersOutstanding_fails :
    ∃ engine, (loop scripted Puppet.config).run (start Puppet.config 0) rejection = some engine ∧
      ¬engine.OffersOutstanding := by
  obtain ⟨engine, hrun, hcheck⟩ := (Option.any_eq_true _ _).mp (by decide +kernel :
    ((loop scripted Puppet.config).run (start Puppet.config 0) rejection).any (fun engine =>
      (engine.rooms.lookup "red").any fun room => room.peers.any fun peer =>
        peer.isAlive && peer.pending.isNone && peer.tracksOut.any TrackOut.inFlight) = true)
  obtain ⟨room, hroom, hany⟩ := (Option.any_eq_true _ _).mp hcheck
  obtain ⟨peer, hpeer, hstuck⟩ := List.any_eq_true.mp hany
  simp only [Bool.and_eq_true, List.any_eq_true] at hstuck
  obtain ⟨⟨halive, hnone⟩, hflight⟩ := hstuck
  refine ⟨engine, hrun, fun hall => ?_⟩
  have hsome := (hall "red" room hroom peer hpeer halive).mp hflight
  rw [Option.isNone_iff_eq_none.mp hnone] at hsome
  cases hsome

end Engine

end FerriteSfu
