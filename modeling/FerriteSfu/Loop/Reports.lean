import FerriteSfu.Call.Simulation
import FerriteSfu.Call.HostView
import FerriteSfu.Scripted

/-!
What the host application concludes about a room of the media loop.

Departures are told of peers, and the host counts identities. A peer that
replaces another of its identity starts unreported and without a screen share,
so what the host knew of the first one is never taken back: both views are right
in the runs where nobody leaves who is known under an identity alone.
-/

namespace FerriteSfu

variable {S : Str0m} {config : Config}

namespace Engine

/-- The participants of the room `name` as the host application counts them. -/
def hostPresent (name : String) (engine : Engine S) : Finset String :=
  presentAfter (engine.reports.filter fun event => event.room.name = name)

/-- The screen shares of the room `name` as the host application counts them. -/
def hostSharing (name : String) (engine : Engine S) : Finset String :=
  sharingAfter (engine.reports.filter fun event => event.room.name = name)

/-- Whether an event makes the peer leave: its own departure, or a reap. -/
def goes (event : Event S) (peer : Peer S) : Bool :=
  match event with
  | .command (.leave id) _ => decide (peer.id = id)
  | .reap now _ => isDead now peer
  | _ => false

/-- Whether an event is a join that replaces the peer of the room `name`. -/
def replaced (name : String) (engine : Engine S) (event : Event S) (peer : Peer S) : Bool :=
  match event with
  | .command (.join request) seed =>
      decide (request.claims.room = name) &&
        (engine.call name).admits engine.config request seed &&
        decide (peer.userId = request.claims.sub)
  | _ => false

/-! ### From the engine to the ledger of a room -/

/-- What the ledger of a room sees of an event of the engine. -/
theorem Sound.ledgerEvent_cases {engine : Engine S} (h : engine.Sound) {name : String}
    {event : Event S} {ev : CallEvent S} (hev : engine.callEvent name event = some ev)
    {lev : LedgerEvent} (hlev : (engine.call name).ledgerEvent engine.config ev = some lev) :
    (∃ gone, lev = .leave gone ∧
      ∀ peer ∈ (engine.call name).peers, gone peer.id = goes event peer) ∨
    (∃ userId fullName avatarUrl, lev = .join userId fullName avatarUrl ∧
      ∀ peer : Peer S, replaced name engine event peer = decide (peer.userId = userId)) ∨
    (lev = .elsewhere ∨ (∃ id muted screen, lev = .setState id muted screen) ∨
      ∃ arrived, lev = .arrive arrived) := by
  cases event with
  | command command seed =>
      cases command with
      | join request =>
          simp only [callEvent] at hev
          split at hev
          · rename_i hname
            cases hev
            simp only [Call.ledgerEvent] at hlev
            split at hlev
            · rename_i hadmits
              cases hlev
              refine .inr (.inl ⟨_, _, _, rfl, fun peer => ?_⟩)
              simp [replaced, hname, hadmits]
            · split at hlev <;> cases hlev
              exact .inr (.inr (.inl rfl))
          · split at hev <;> cases hev
            cases hlev
            exact .inr (.inr (.inl rfl))
      | leave id =>
          cases hev
          cases hlev
          exact .inl ⟨_, rfl, fun _ _ => rfl⟩
      | mute | screen =>
          cases hev
          cases hlev
          exact .inr (.inr (.inr (.inl ⟨_, _, _, rfl⟩)))
      | answer =>
          cases hev
          cases hlev
      | shutdown => cases hev
  | reap now order =>
      cases hev
      cases hlev
      -- The ledger sees the ids a reap takes, the engine the state that condemns a peer.
      refine .inl ⟨_, rfl, fun peer hpeer => ?_⟩
      simp [goes, Call.mem_dead_iff (h.numbered name).ids hpeer]
  | reportConnections order =>
      cases hev
      cases hlev
      exact .inr (.inr (.inr (.inr ⟨_, rfl⟩)))
  | pollRooms | advanceTime =>
      cases hev
      cases hlev
  | tickSpeaking | readOnce =>
      simp only [callEvent] at hev
      split at hev <;> cases hev
      cases hlev

theorem staying_eq_nil {call : Call S} {gone : PeerId → Bool} :
    call.ledger.staying gone = [] ↔ ∀ peer ∈ call.peers, gone peer.id = true := by
  simp [Ledger.staying]

theorem forall_leaving {call : Call S} {gone : PeerId → Bool} {P : Card → Prop} :
    (∀ card ∈ call.ledger.leaving gone, P card) ↔
      ∀ peer ∈ call.peers, gone peer.id = true → P peer.card := by
  simp [Ledger.leaving]

/-! ### Participants -/

/-- Every participant the host counts in a room is the user of a peer there. -/
def NoGhosts (name : String) (engine : Engine S) : Prop :=
  ∀ user ∈ engine.hostPresent name,
    ∃ room ∈ engine.rooms.lookup name, ∃ peer ∈ room.peers, peer.userId = user

/-- Whoever leaves others behind in the room was reported, or is not counted. The host
counts someone who was not reported when it took the place of one of the same name who
was: the peer of another tab, before its transport is up. -/
def DeparturesTold (name : String) (engine : Engine S) (event : Event S) : Prop :=
  ∀ room ∈ engine.rooms.lookup name, (∀ peer ∈ room.peers, goes event peer = true) ∨
    ∀ peer ∈ room.peers, goes event peer = true →
      peer.reported = true ∨ peer.userId ∉ engine.hostPresent name

theorem Sound.departuresTold {engine : Engine S} (h : engine.Sound) {name : String}
    {event : Event S} (hok : engine.DeparturesTold name event) {ev : CallEvent S}
    (hev : engine.callEvent name event = some ev) :
    Call.Guarded engine.config Ledger.DeparturesTold (engine.call name) ev := by
  intro lev hlev
  rcases h.ledgerEvent_cases hev hlev with ⟨gone, rfl, hgone⟩ | ⟨_, _, _, rfl, -⟩ | rfl |
    ⟨_, _, _, rfl⟩ | ⟨_, rfl⟩
  · rw [Ledger.DeparturesTold, staying_eq_nil, forall_leaving]
    cases hroom : engine.rooms.lookup name with
    | none => simp [Call.peers, hroom]
    | some room =>
        have hpeers := call_peers hroom
        rw [hpeers] at hgone ⊢
        refine (hok room (by simp [hroom])).imp (fun hall peer hpeer => ?_)
          fun htold peer hpeer hgoes => ?_
        · exact (hgone peer hpeer).trans (hall peer hpeer)
        · exact htold peer hpeer ((hgone peer hpeer).symm.trans hgoes)
  all_goals trivial

/-- **The host counts no one who is not in the room.** -/
theorem reachable_noGhosts {name : String} {engine : Engine S}
    (h : (machine S config).ReachableVia (DeparturesTold name) engine) :
    engine.NoGhosts name := by
  have hcall : (Call.machine S config name).ReachableVia
      (Call.Guarded config Ledger.DeparturesTold) (engine.call name) :=
    reachable_call (fun _ _ _ hsound hconfig hok hev => hconfig ▸ hsound.departuresTold hok hev) h
  have hghosts := Ledger.noGhosts_holds ((Call.refines_ledger config name _).reachable hcall)
  intro user huser
  obtain ⟨card, hcard, rfl⟩ := hghosts user huser
  obtain ⟨peer, hpeer, rfl⟩ := List.mem_map.mp hcard
  cases hroom : engine.rooms.lookup name with
  | none => simp [Call.peers, hroom] at hpeer
  | some room =>
      rw [call_peers hroom] at hpeer
      exact ⟨room, rfl, peer, hpeer, rfl⟩

instance (name : String) (engine : Engine S) (event : Event S) :
    Decidable (engine.DeparturesTold name event) :=
  inferInstanceAs (Decidable (∀ room ∈ engine.rooms.lookup name,
    (∀ peer ∈ room.peers, goes event peer = true) ∨
      ∀ peer ∈ room.peers, goes event peer = true →
        peer.reported = true ∨ peer.userId ∉ engine.hostPresent name))

/-- Ann is connected, and comes back from another tab. -/
def reconnect : List (Turn scripted) :=
  [Puppet.turn [Puppet.joins "ann" "red" "a", Puppet.joins "bob" "red" "b"] ["red"]
      (some ⟨"a", [.iceConnectionStateChange .connected]⟩),
    Puppet.turn [] ["red"] none, Puppet.turn [Puppet.joins "ann" "red" "c"] ["red"] none]

theorem reachable_noGhosts_reconnect :
    ∃ engine, (machine scripted Puppet.config).ReachableVia (DeparturesTold "red") engine ∧
      engine.hostPresent "red" ≠ ∅ ∧ engine.NoGhosts "red" := by
  obtain ⟨engine, hrun, hpresent⟩ := (Option.any_eq_true _ _).mp (by decide +kernel :
    ((machine scripted Puppet.config).runIf (fun engine event =>
      decide (engine.DeparturesTold "red" event)) (start Puppet.config 0)
        (reconnect.flatMap Turn.events)).any (fun engine =>
          decide (engine.hostPresent "red" ≠ ∅)) = true)
  have hreach : (machine scripted Puppet.config).ReachableVia (DeparturesTold "red") engine :=
    .of_runIf (fun _ _ h => of_decide_eq_true h) (.init ⟨0, rfl⟩) hrun
  exact ⟨engine, hreach, of_decide_eq_true hpresent, reachable_noGhosts hreach⟩

/-- Ann leaves again before the new tab has connected. -/
def ghost : List (Turn scripted) :=
  reconnect ++ [Puppet.turn [(.leave ⟨3⟩, "")] ["red"] none]

/-- The host keeps counting Ann, who has left Bob alone. -/
theorem noGhosts_fails :
    ∃ engine, (loop scripted Puppet.config).run (start Puppet.config 0) ghost = some engine ∧
      ¬engine.NoGhosts "red" := by
  obtain ⟨engine, hrun, hcheck⟩ := (Option.any_eq_true _ _).mp (by decide +kernel :
    ((loop scripted Puppet.config).run (start Puppet.config 0) ghost).any (fun engine =>
      decide ("ann" ∈ engine.hostPresent "red") &&
        (engine.rooms.lookup "red").all fun room =>
          room.peers.all fun peer => peer.userId ≠ "ann") = true)
  simp only [Bool.and_eq_true, decide_eq_true_eq] at hcheck
  obtain ⟨hcounted, hgone⟩ := hcheck
  refine ⟨engine, hrun, fun hall => ?_⟩
  obtain ⟨room, hroom, peer, hpeer, huser⟩ := hall "ann" hcounted
  rw [Option.mem_def.mp hroom, Option.all_some, List.all_eq_true] at hgone
  exact of_decide_eq_true (hgone peer hpeer) huser

/-! ### Screen shares -/

/-- The screen shares the host counts in a room are the users who share there. -/
def SharingExact (name : String) (engine : Engine S) : Prop :=
  ∀ user, user ∈ engine.hostSharing name ↔
    ∃ room ∈ engine.rooms.lookup name, ∃ peer ∈ room.peers,
      peer.userId = user ∧ peer.screen = true

/-- Nobody who shares a screen is replaced, and whoever shares one and leaves
others behind in the room was reported. -/
def SharersTold (name : String) (engine : Engine S) (event : Event S) : Prop :=
  ∀ room ∈ engine.rooms.lookup name,
    (∀ peer ∈ room.peers, replaced name engine event peer = true → peer.screen = false) ∧
    ((∀ peer ∈ room.peers, goes event peer = true) ∨
      ∀ peer ∈ room.peers, goes event peer = true →
        peer.reported = true ∨ peer.screen = false)

theorem Sound.sharersTold {engine : Engine S} (h : engine.Sound) {name : String}
    {event : Event S} (hok : engine.SharersTold name event) {ev : CallEvent S}
    (hev : engine.callEvent name event = some ev) :
    Call.Guarded engine.config Ledger.SharersTold (engine.call name) ev := by
  intro lev hlev
  have hpeers : ∀ room ∈ engine.rooms.lookup name, (engine.call name).peers = room.peers :=
    fun room hroom => call_peers hroom
  rcases h.ledgerEvent_cases hev hlev with ⟨gone, rfl, hgone⟩ | ⟨user, _, _, rfl, hreplaced⟩ |
    rfl | ⟨_, _, _, rfl⟩ | ⟨_, rfl⟩
  · rw [Ledger.SharersTold, staying_eq_nil, forall_leaving]
    cases hroom : engine.rooms.lookup name with
    | none => simp [Call.peers, hroom]
    | some room =>
        rw [hpeers room hroom] at hgone ⊢
        refine (hok room hroom).2.imp (fun hall peer hpeer => ?_) fun htold peer hpeer hgoes => ?_
        · exact (hgone peer hpeer).trans (hall peer hpeer)
        · exact htold peer hpeer ((hgone peer hpeer).symm.trans hgoes)
  · intro card hcard huser
    obtain ⟨peer, hpeer, rfl⟩ := List.mem_map.mp hcard
    cases hroom : engine.rooms.lookup name with
    | none => simp [Call.peers, hroom] at hpeer
    | some room =>
        rw [hpeers room hroom] at hpeer
        exact (hok room hroom).1 peer hpeer ((hreplaced peer).trans (decide_eq_true huser))
  all_goals trivial

/-- **The host counts exactly the screen shares there are.** -/
theorem reachable_sharingExact {name : String} {engine : Engine S}
    (h : (machine S config).ReachableVia (SharersTold name) engine) :
    engine.SharingExact name := by
  have hcall : (Call.machine S config name).ReachableVia
      (Call.Guarded config Ledger.SharersTold) (engine.call name) :=
    reachable_call (fun _ _ _ hsound hconfig hok hev => hconfig ▸ hsound.sharersTold hok hev) h
  have hexact := Ledger.sharingExact_holds
    ((Call.refines_ledger config name _).reachable hcall)
  intro user
  refine (hexact user).trans ?_
  cases hroom : engine.rooms.lookup name with
  | none => simp [Call.peers, hroom]
  | some room => simp [call_peers hroom, Peer.card]

instance (name : String) (engine : Engine S) (event : Event S) :
    Decidable (engine.SharersTold name event) :=
  inferInstanceAs (Decidable (∀ room ∈ engine.rooms.lookup name,
    (∀ peer ∈ room.peers, replaced name engine event peer = true → peer.screen = false) ∧
    ((∀ peer ∈ room.peers, goes event peer = true) ∨
      ∀ peer ∈ room.peers, goes event peer = true →
        peer.reported = true ∨ peer.screen = false)))

/-- Ann, who is connected to the red room, shares her screen. -/
def share : List (Turn scripted) :=
  [Puppet.turn [Puppet.joins "ann" "red" "a", Puppet.joins "bob" "red" "b"] ["red"]
      (some ⟨"a", [.iceConnectionStateChange .connected]⟩),
    Puppet.turn [] ["red"] none, Puppet.turn [(.screen ⟨1⟩ true, "")] ["red"] none]

theorem reachable_sharingExact_share :
    ∃ engine, (machine scripted Puppet.config).ReachableVia (SharersTold "red") engine ∧
      engine.hostSharing "red" ≠ ∅ ∧ engine.SharingExact "red" := by
  obtain ⟨engine, hrun, hsharing⟩ := (Option.any_eq_true _ _).mp (by decide +kernel :
    ((machine scripted Puppet.config).runIf (fun engine event =>
      decide (engine.SharersTold "red" event)) (start Puppet.config 0)
        (share.flatMap Turn.events)).any (fun engine =>
          decide (engine.hostSharing "red" ≠ ∅)) = true)
  have hreach : (machine scripted Puppet.config).ReachableVia (SharersTold "red") engine :=
    .of_runIf (fun _ _ h => of_decide_eq_true h) (.init ⟨0, rfl⟩) hrun
  exact ⟨engine, hreach, of_decide_eq_true hsharing, reachable_sharingExact hreach⟩

/-- Ann comes back from another tab, which shares nothing. -/
def secondTab : List (Turn scripted) :=
  share ++ [Puppet.turn [Puppet.joins "ann" "red" "c"] ["red"] none]

/-- The host keeps counting a screen share that is over. -/
theorem sharingExact_fails :
    ∃ engine, (loop scripted Puppet.config).run (start Puppet.config 0) secondTab = some engine ∧
      ¬engine.SharingExact "red" := by
  obtain ⟨engine, hrun, hcheck⟩ := (Option.any_eq_true _ _).mp (by decide +kernel :
    ((loop scripted Puppet.config).run (start Puppet.config 0) secondTab).any (fun engine =>
      decide ("ann" ∈ engine.hostSharing "red") &&
        (engine.rooms.lookup "red").all fun room =>
          room.peers.all fun peer => !peer.screen) = true)
  simp only [Bool.and_eq_true, decide_eq_true_eq] at hcheck
  obtain ⟨hcounted, hover⟩ := hcheck
  refine ⟨engine, hrun, fun hall => ?_⟩
  obtain ⟨room, hroom, peer, hpeer, -, hscreen⟩ := (hall "ann").mp hcounted
  rw [Option.mem_def.mp hroom, Option.all_some, List.all_eq_true] at hover
  have hnot := hover peer hpeer
  rw [hscreen] at hnot
  cases hnot

end Engine

end FerriteSfu
