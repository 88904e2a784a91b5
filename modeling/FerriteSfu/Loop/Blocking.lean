import FerriteSfu.Call.Simulation
import FerriteSfu.Call.Quiet
import FerriteSfu.Scripted
import Mathlib.Order.MinMax

/-!
What is left to do when the loop blocks.

Between the pass and the read the loop only reports, reaps and ticks, none of
which touches an `Rtc`. So a live peer has something to send while the loop
sleeps exactly if somebody else of its room put out work for it, and if not the
wait is no longer than what the peer asked for, unless it asked to be woken
sooner than the loop ever wakes.
-/

namespace FerriteSfu

variable {S : Str0m} {config : Config}

/-! ### What the steps after a pass leave alone -/

namespace Peer

/-- `peer'` is `peer` as far as its `Rtc`, its log and its fate go. -/
structure Untouched (peer peer' : Peer S) : Prop where
  id : peer'.id = peer.id
  rtc : peer'.rtc = peer.rtc
  ops : peer'.ops = peer.ops
  disconnectedSince : peer'.disconnectedSince = peer.disconnectedSince

theorem Untouched.refl (peer : Peer S) : peer.Untouched peer := ⟨rfl, rfl, rfl, rfl⟩

theorem Untouched.trans {peer peer' peer'' : Peer S} (h : peer.Untouched peer')
    (h' : peer'.Untouched peer'') : peer.Untouched peer'' :=
  ⟨h'.id.trans h.id, h'.rtc.trans h.rtc, h'.ops.trans h.ops,
    h'.disconnectedSince.trans h.disconnectedSince⟩

theorem Untouched.isDead {peer peer' : Peer S} (h : peer.Untouched peer') (now : Instant) :
    Engine.isDead now peer' = Engine.isDead now peer := by
  simp only [Engine.isDead, isAlive, isAbandoned, h.rtc, h.disconnectedSince]

theorem Untouched.isAlive {peer peer' : Peer S} (h : peer.Untouched peer') :
    peer'.isAlive = peer.isAlive := by
  simp only [Peer.isAlive, h.rtc]

theorem Untouched.polledOut {peer peer' : Peer S} (h : peer.Untouched peer') :
    peer'.PolledOut ↔ peer.PolledOut := by
  simp only [PolledOut, h.ops]

end Peer

/-- The peers that are kept, and nobody else, are there afterwards, untouched. -/
structure Survive (keeps : Peer S → Bool) (peers peers' : List (Peer S)) : Prop where
  from_kept : ∀ peer' ∈ peers', ∃ peer ∈ peers, keeps peer = true ∧ peer.Untouched peer'
  to_kept : ∀ peer ∈ peers, keeps peer = true → ∃ peer' ∈ peers', peer.Untouched peer'

theorem Survive.map (keeps : Peer S → Bool) {f : Peer S → Peer S} (peers : List (Peer S))
    (hf : ∀ peer : Peer S, peer.Untouched (f peer)) :
    Survive keeps peers ((peers.filter keeps).map f) where
  from_kept peer' hmem := by
    obtain ⟨peer, hpeer, rfl⟩ := List.mem_map.mp hmem
    obtain ⟨hpeer, hkept⟩ := List.mem_filter.mp hpeer
    exact ⟨peer, hpeer, hkept, hf peer⟩
  to_kept peer hpeer hkept :=
    ⟨f peer, List.mem_map_of_mem (List.mem_filter.mpr ⟨hpeer, hkept⟩), hf peer⟩

theorem Survive.trans {keeps keeps' keeps'' : Peer S → Bool} {peers peers' peers'' : List (Peer S)}
    (h : Survive keeps peers peers') (h' : Survive keeps' peers' peers'')
    (hkeeps : ∀ peer ∈ peers, ∀ peer', peer.Untouched peer' →
      keeps'' peer = (keeps peer && keeps' peer')) : Survive keeps'' peers peers'' where
  from_kept peer'' hmem := by
    obtain ⟨peer', hpeer', hkept', huntouched'⟩ := h'.from_kept peer'' hmem
    obtain ⟨peer, hpeer, hkept, huntouched⟩ := h.from_kept peer' hpeer'
    exact ⟨peer, hpeer, by rw [hkeeps peer hpeer peer' huntouched, hkept, hkept']; rfl,
      huntouched.trans huntouched'⟩
  to_kept peer hpeer hkept := by
    have hboth : ∀ peer', peer.Untouched peer' → keeps peer = true ∧ keeps' peer' = true :=
      fun peer' huntouched => by
        simpa [hkeeps peer hpeer peer' huntouched] using hkept
    obtain ⟨peer', hpeer', huntouched⟩ := h.to_kept peer hpeer (hboth peer (.refl peer)).1
    obtain ⟨peer'', hpeer'', huntouched'⟩ := h'.to_kept peer' hpeer' (hboth peer' huntouched).2
    exact ⟨peer'', hpeer'', huntouched.trans huntouched'⟩

/-- Everyone survives what leaves everyone untouched. -/
theorem Survive.all {f : Peer S → Peer S} (peers : List (Peer S))
    (hf : ∀ peer : Peer S, peer.Untouched (f peer)) :
    Survive (fun _ => true) peers (peers.map f) := by
  have h := Survive.map (fun _ => true) peers hf
  rwa [List.filter_true] at h

namespace Call

theorem leave_survive {call : Call S} (hids : (call.peers.map Peer.id).Nodup) (name : String)
    (id : PeerId) :
    Survive (fun peer => decide (peer.id ≠ id)) call.peers (call.leave name id).peers := by
  have hsend : ∀ peer : Peer S, peer.Untouched (peer.send (.peerLeft id.asString)) :=
    fun _ => ⟨rfl, rfl, rfl, rfl⟩
  rcases leave_peers hids name id with ⟨heq, hne⟩ | hpeers
  · rw [heq]
    exact ⟨fun peer hpeer => ⟨peer, hpeer, by simpa using hne peer hpeer, .refl peer⟩,
      fun peer hpeer _ => ⟨peer, hpeer, .refl peer⟩⟩
  · rw [hpeers]
    exact Survive.map (fun peer => decide (peer.id ≠ id)) call.peers hsend

theorem foldl_leave_survive {call : Call S} (hids : (call.peers.map Peer.id).Nodup)
    (name : String) (ids : List PeerId) :
    Survive (fun peer => decide (peer.id ∉ ids)) call.peers
      (ids.foldl (fun call id => call.leave name id) call).peers := by
  induction ids generalizing call with
  | nil => simpa using Survive.all (f := id) call.peers Peer.Untouched.refl
  | cons id ids ih =>
      have hrest : ((call.leave name id).peers.map Peer.id).Nodup := leave_ids_nodup hids id
      refine (leave_survive hids name id).trans (ih hrest) ?_
      intro peer _ peer' huntouched
      rw [huntouched.id]
      by_cases hid : peer.id = id <;> by_cases hmem : peer.id ∈ ids <;> simp [hid, hmem]

/-- Whoever is not dead survives a reap. -/
theorem reap_survive {call : Call S} (hids : (call.peers.map Peer.id).Nodup) (name : String)
    (now : Instant) :
    Survive (fun peer => !Engine.isDead now peer) call.peers (call.reap name now).peers := by
  have h := foldl_leave_survive hids name (call.dead now)
  have hkeeps : ∀ peer ∈ call.peers,
      decide (peer.id ∉ call.dead now) = !Engine.isDead now peer := by
    intro peer hpeer
    simp [mem_dead_iff hids hpeer]
  refine ⟨fun peer' hmem => ?_, fun peer hpeer hkept => ?_⟩
  · obtain ⟨peer, hpeer, hkept, huntouched⟩ := h.from_kept peer' hmem
    exact ⟨peer, hpeer, (hkeeps peer hpeer).symm.trans hkept, huntouched⟩
  · exact h.to_kept peer hpeer ((hkeeps peer hpeer).trans hkept)

theorem syncSpeaking_survive (now : Instant) (call : Call S) :
    Survive (fun _ => true) call.peers
      (peers { call with room := call.room.map (Room.syncSpeaking now) }) := by
  have hsame := Survive.all (f := id) call.peers Peer.Untouched.refl
  rw [List.map_id] at hsame
  cases hroom : call.room with
  | none =>
      rw [peers_of_none hroom] at hsame ⊢
      exact hsame
  | some room =>
      rw [peers_of_room hroom] at hsame ⊢
      change Survive _ _ (room.syncSpeaking now).peers
      rcases Room.syncSpeaking_cases now room with ⟨-, heq⟩ | ⟨-, heq⟩ <;> rw [heq]
      · exact hsame
      · exact .all _ fun _ => ⟨rfl, rfl, rfl, rfl⟩

end Call

namespace Engine

/-- The steps between polling and blocking let those who are not dead survive. -/
theorem Sound.settle_survive {engine blocked : Engine S} (h : engine.Sound) {turn : Turn S}
    (hrun : (machine S config).run engine turn.settle = some blocked) (name : String) :
    Survive (fun peer => !isDead turn.reapNow peer) (engine.call name).peers
      (blocked.call name).peers := by
  obtain ⟨reported, hreport, hrest⟩ := Option.bind_eq_some_iff.mp hrun
  obtain ⟨reaped, hreap, hrest⟩ := Option.bind_eq_some_iff.mp hrest
  obtain ⟨ticked, htick, hrest⟩ := Option.bind_eq_some_iff.mp hrest
  cases hrest
  have hsound := h.step hreport
  have hreported : Survive (fun _ => true) (engine.call name).peers
      (reported.call name).peers := by
    have hcall := (h.step_calls hreport).2.2 name
    simp only [CallStep, callEvent, Call.step, Option.some.injEq] at hcall
    rw [← hcall]
    have hpeers : ((engine.call name).reportConnections name).peers =
        (engine.call name).peers.map fun peer =>
          if peer.isArriving then { peer with reported := true } else peer := by
      cases hroom : engine.rooms.lookup name <;>
        simp [Call.peers, Call.reportConnections, hroom, Room.markReported]
    rw [hpeers]
    refine .all _ fun peer => ?_
    split <;> exact ⟨rfl, rfl, rfl, rfl⟩
  -- Only the reaping takes anybody out of the room.
  have hreaped : Survive (fun peer => !isDead turn.reapNow peer) (reported.call name).peers
      (reaped.call name).peers := by
    have hcall := (hsound.step_calls hreap).2.2 name
    simp only [CallStep, callEvent, Call.step, Option.some.injEq] at hcall
    rw [← hcall]
    exact Call.reap_survive (hsound.numbered name).ids name turn.reapNow
  have hticked : Survive (fun _ => true) (reaped.call name).peers (blocked.call name).peers := by
    have hcall := ((hsound.step hreap).step_calls htick).2.2 name
    simp only [CallStep, callEvent] at hcall
    by_cases hdue : turn.tickNow - reaped.lastSpeaking < speakingTick
    · rw [if_pos hdue] at hcall
      rw [hcall]
      simpa using Survive.all (f := id) (reaped.call name).peers Peer.Untouched.refl
    · rw [if_neg hdue] at hcall
      simp only [Call.step, Option.some.injEq] at hcall
      rw [← hcall]
      exact Call.syncSpeaking_survive turn.tickNow (reaped.call name)
  have hboth : Survive (fun peer => !isDead turn.reapNow peer) (engine.call name).peers
      (reaped.call name).peers :=
    hreported.trans hreaped fun peer _ peer' huntouched => by
      simp [huntouched.isDead turn.reapNow]
  exact hboth.trans hticked fun _ _ _ _ => by simp

/-! ### The pass before blocking -/

/-- Where a room ends up in a sweep of `poll_rooms`, and what its peers asked for. -/
theorem Sound.foldlM_pollRoom_room {engine engine' : Engine S} {timeout timeout' : Instant}
    (h : engine.Sound) {clock : String → ℕ → List Instant} {order : List String}
    (horder : order.Nodup)
    (hpoll : order.foldlM (Engine.pollRoom clock) (engine, timeout) = some (engine', timeout')) :
    timeout' ≤ timeout ∧ ∀ name ∈ order, ∀ room, engine.rooms.lookup name = some room →
      ∃ t next, room.poll (clock name) room.tracks t = some next ∧
        engine'.rooms.lookup name = some next.room ∧ timeout' ≤ next.timeout := by
  induction order generalizing engine timeout with
  | nil =>
      cases hpoll
      exact ⟨le_refl _, by simp⟩
  | cons first order ih =>
      obtain ⟨hnot, horder⟩ := List.nodup_cons.mp horder
      rw [List.foldlM_cons] at hpoll
      obtain ⟨⟨engine₁, timeout₁⟩, hfirst, hrest⟩ := Option.bind_eq_some_iff.mp hpoll
      obtain ⟨hsound₁, -, -, hothers⟩ := h.pollRoom hfirst
      obtain ⟨hle, hrooms⟩ := ih hsound₁ horder hrest
      obtain ⟨-, -, hcalls⟩ := hsound₁.foldlM_pollRoom horder hrest
      -- No room is visited twice, so the rest of the sweep leaves the first one alone.
      have hkept : engine'.rooms.lookup first = engine₁.rooms.lookup first := by
        have hcall := hcalls first
        rw [if_neg hnot] at hcall
        exact congrArg Call.room hcall
      unfold Engine.pollRoom at hfirst
      cases hlookup : engine.rooms.lookup first with
      | none =>
          rw [hlookup] at hfirst
          cases hfirst
          refine ⟨hle, fun name hmem room hroom => ?_⟩
          rcases List.mem_cons.mp hmem with rfl | hmem
          · cases hlookup.symm.trans hroom
          · exact hrooms name hmem room hroom
      | some room₁ =>
          rw [hlookup] at hfirst
          obtain ⟨next, hnext, heq⟩ := Option.map_eq_some_iff.mp hfirst
          cases heq
          refine ⟨hle.trans (Room.poll_timeout_le hnext), fun name hmem room hroom => ?_⟩
          rcases List.mem_cons.mp hmem with rfl | hmem
          · cases hlookup.symm.trans hroom
            obtain ⟨next', hnext', hsame, hlater⟩ := Room.poll_congr timeout (h.ids hlookup)
              (fun peer hpeer => h.agrees hlookup hpeer) hnext
            exact ⟨timeout, next', hnext', by rw [hkept, hsame]; simp,
              hle.trans (hlater le_rfl)⟩
          · have hne : name ≠ first := fun he => hnot (he ▸ hmem)
            refine hrooms name hmem room ?_
            rw [← hroom]
            exact congrArg Call.room (hothers name hne)

theorem isDead_false {now : Instant} {peer : Peer S} (h : (!isDead now peer) = true) :
    peer.isAlive = true := by
  simp only [isDead, Bool.not_or, Bool.not_not, Bool.and_eq_true] at h
  exact h.1

/-- Everyone who is in a room after a pass was polled in it. -/
theorem Sound.pollRooms_lookup {engine polled : Engine S} {timeout : Instant} (h : engine.Sound)
    {turn : Turn S} (hvisits : engine.visits turn.pollOrder = true)
    (hpoll : engine.pollRooms turn.pollNow turn.pollOrder turn.clock = some (polled, timeout))
    {name : String} {peer : Peer S} (hpeer : peer ∈ (polled.call name).peers) :
    ∃ room t next, engine.rooms.lookup name = some room ∧
      room.poll (turn.clock name) room.tracks t = some next ∧ peer ∈ next.room.peers ∧
      timeout ≤ next.timeout := by
  have horder : turn.pollOrder.Perm engine.rooms.keys := of_decide_eq_true hvisits
  have hnodup := horder.nodup_iff.mpr engine.rooms.nodupKeys
  cases hroom : engine.rooms.lookup name with
  | none =>
      have hcall := (h.pollRooms horder hpoll).2.2 name
      simp only [Call.poll, call_room, hroom, Option.some.injEq] at hcall
      rw [← hcall, Call.peers_of_none (by simpa using hroom)] at hpeer
      cases hpeer
  | some room =>
      have hmem : name ∈ turn.pollOrder :=
        horder.mem_iff.mpr (AList.mem_keys.mp (AList.lookup_isSome.mp (by simp [hroom])))
      obtain ⟨t, next, hnext, hlookup, hle⟩ :=
        (h.foldlM_pollRoom_room hnodup hpoll).2 name hmem room hroom
      exact ⟨room, t, next, rfl, hnext, call_peers hlookup ▸ hpeer, hle⟩

/-! ### Blocking -/

/-- Every live peer was polled to the end after all its work, and none of them
would now ask to be woken before the wait is over. -/
structure NothingLeft (blocked : Engine S) (now : Instant) (wait : Duration) : Prop where
  polledOut : ∀ name room, blocked.rooms.lookup name = some room → ∀ peer ∈ room.peers,
    peer.isAlive = true → peer.PolledOut
  wait : ∀ name room, blocked.rooms.lookup name = some room → ∀ peer ∈ room.peers,
    peer.isAlive = true → ∃ wake, (S.pollOutput peer.rtc).1 = .ok (.timeout wake) ∧
      wait ≤ wake - now

/-- No peer that is there when the loop blocks was given work by the pass or asked to be
woken at once. -/
def Quiet (turn : Turn S) (engine blocked : Engine S) : Prop :=
  ∀ name room, blocked.rooms.lookup name = some room → ∀ peer ∈ room.peers,
    ∀ room' ∈ engine.rooms.lookup name,
      room'.Spares (turn.waitNow + minWait) (turn.clock name) peer.id

instance (turn : Turn S) (engine blocked : Engine S) : Decidable (Quiet turn engine blocked) :=
  decidable_of_iff (∀ entry ∈ blocked.rooms.entries, ∀ peer ∈ entry.2.peers,
      ∀ room' ∈ engine.rooms.lookup entry.1,
        room'.Spares (turn.waitNow + minWait) (turn.clock entry.1) peer.id) <| by
    constructor
    · exact fun hall name room hroom => hall ⟨name, room⟩ (AList.mem_lookup_iff.mp hroom)
    · exact fun hall entry hmem => hall entry.1 entry.2 (AList.mem_lookup_iff.mpr hmem)

/-- A wake-up that the shortest wait does not miss. -/
theorem minWait_le_sub_iff {wake now : Instant} : minWait ≤ wake - now ↔ now + minWait ≤ wake := by
  have hpositive : ∀ floor now wake : ℕ, 0 < floor →
      (floor ≤ wake - now ↔ now + floor ≤ wake) := by
    omega
  exact hpositive minWait now wake (by decide)

/-- What a peer that is there when the loop blocks has left to do, and asks for. -/
theorem Sound.block_peer (hstable : S.StableTimeout) (hmute : S.DeadIsMute)
    {engine polled blocked : Engine S} {timeout : Instant} (h : engine.Sound) {turn : Turn S}
    (hvisits : engine.visits turn.pollOrder = true)
    (hpoll : engine.pollRooms turn.pollNow turn.pollOrder turn.clock = some (polled, timeout))
    (hsettle : (machine S config).run polled turn.settle = some blocked) (soon : Instant)
    {name : String} {room : Room S} (hroom : blocked.rooms.lookup name = some room)
    {peer : Peer S} (hpeer : peer ∈ room.peers) :
    ∃ wake, timeout ≤ wake ∧ peer.isAlive = true ∧
      (peer.PolledOut → (S.pollOutput peer.rtc).1 = .ok (.timeout wake)) ∧
      ((∀ room' ∈ engine.rooms.lookup name, room'.Spares soon (turn.clock name) peer.id) ↔
        soon ≤ wake ∧ peer.PolledOut) := by
  have hsound := h.step (step_pollRooms hvisits hpoll)
  obtain ⟨old, hold, hkept, huntouched⟩ :=
    (hsound.settle_survive hsettle name).from_kept peer (mem_call_peers.mpr ⟨room, hroom, hpeer⟩)
  obtain ⟨before, t, next, hbefore, hnext, hmem, hle⟩ := h.pollRooms_lookup hvisits hpoll hold
  have hlinked := Call.reachable_subscribed (h.calls name)
  rw [call_peers hbefore] at hlinked
  obtain ⟨wake, hwake, hasks, hspares⟩ := Room.poll_spares hstable hmute (h.ids hbefore) hlinked
    hnext soon old hmem (isDead_false hkept)
  refine ⟨wake, hle.trans hwake, huntouched.isAlive.trans (isDead_false hkept), ?_, ?_⟩
  · rwa [huntouched.polledOut, huntouched.rtc]
  · rw [huntouched.polledOut, huntouched.id, ← hspares, hbefore]
    simp

/-- **Nothing is left when the loop blocks exactly if the pass was quiet.** -/
theorem block_nothingLeft (hstable : S.StableTimeout) (hmute : S.DeadIsMute)
    {engine blocked : Engine S} (h : (loop S config).Reachable engine) {turn : Turn S}
    {wait : Duration} (hblock : engine.block config turn = some (blocked, wait)) :
    blocked.NothingLeft turn.waitNow wait ↔
      ∃ drained, (machine S config).run engine turn.drainCommands = some drained ∧
        Quiet turn drained blocked := by
  obtain ⟨drained, polled, timeout, hdrained, hvisits, hpolled, hsettled, rfl⟩ :=
    block_eq_some hblock
  have hsound := (reachable_sound ((loop_reachable h).of_run hdrained)).1
  have hquiet : (∃ drained, (machine S config).run engine turn.drainCommands = some drained ∧
      Quiet turn drained blocked) ↔ Quiet turn drained blocked := by
    simp [hdrained]
  rw [hquiet]
  constructor
  · intro hleft name room hroom peer hpeer
    obtain ⟨wake, -, halive, hasks, hspares⟩ := hsound.block_peer hstable hmute hvisits hpolled
      hsettled (turn.waitNow + minWait) hroom hpeer
    have hout := hleft.polledOut name room hroom peer hpeer halive
    obtain ⟨wake', hasks', hle⟩ := hleft.wait name room hroom peer hpeer halive
    cases (hasks hout).symm.trans hasks'
    exact hspares.mpr ⟨minWait_le_sub_iff.mp ((le_max_right _ _).trans hle), hout⟩
  · intro hquiet
    have hrest : ∀ name room, blocked.rooms.lookup name = some room → ∀ peer ∈ room.peers,
        peer.PolledOut ∧ ∃ wake, (S.pollOutput peer.rtc).1 = .ok (.timeout wake) ∧
          max (timeout - turn.waitNow) minWait ≤ wake - turn.waitNow := by
      intro name room hroom peer hpeer
      obtain ⟨wake, hle, -, hasks, hspares⟩ := hsound.block_peer hstable hmute hvisits hpolled
        hsettled (turn.waitNow + minWait) hroom hpeer
      obtain ⟨hsoon, hout⟩ := hspares.mp (hquiet name room hroom peer hpeer)
      exact ⟨hout, wake, hasks hout,
        max_le (Nat.sub_le_sub_right hle _) (minWait_le_sub_iff.mpr hsoon)⟩
    exact ⟨fun name room hroom peer hpeer _ => (hrest name room hroom peer hpeer).1,
      fun name room hroom peer hpeer _ => (hrest name room hroom peer hpeer).2⟩

/-- In a turn of the talk where nobody says anything, nothing is left. -/
theorem block_nothingLeft_silence :
    ∃ engine turn blocked wait, (loop scripted Puppet.config).Reachable engine ∧
      engine.block Puppet.config turn = some (blocked, wait) ∧
      (∃ room, blocked.rooms.lookup "red" = some room ∧ room.peers ≠ []) ∧
      blocked.NothingLeft turn.waitNow wait := by
  obtain ⟨engine, hrun, hcheck⟩ := (Option.any_eq_true _ _).mp (by decide +kernel :
    ((loop scripted Puppet.config).run (start Puppet.config 0) Puppet.talk).any (fun engine =>
      (engine.block Puppet.config (Puppet.turn [] ["red"] none)).any fun blocked =>
        ((blocked.1.rooms.lookup "red").any fun room => !room.peers.isEmpty) &&
          decide (Quiet (Puppet.turn [] ["red"] none) engine blocked.1)) = true)
  obtain ⟨⟨blocked, wait⟩, hblock, hboth⟩ := (Option.any_eq_true _ _).mp hcheck
  rw [Bool.and_eq_true, decide_eq_true_eq] at hboth
  obtain ⟨room, hroom, hpeers⟩ := (Option.any_eq_true _ _).mp hboth.1
  have hreach : (loop scripted Puppet.config).Reachable engine := .of_run (.init ⟨0, rfl⟩) hrun
  exact ⟨engine, _, blocked, wait, hreach, hblock, ⟨room, hroom, by simpa using hpeers⟩,
    (block_nothingLeft scripted_stableTimeout scripted_deadIsMute hreach hblock).mpr
      ⟨engine, rfl, hboth.2⟩⟩

/-- Ann says something, and nothing else happens. -/
def remark : List (Turn scripted) :=
  Puppet.meeting ++ [Puppet.turn [(.answer ⟨2⟩ "answer", "")] ["red"]
    (some ⟨"a", [Puppet.packet "0"]⟩)]

/-- The loop blocks while what Ann said waits in Bob's `Rtc`. -/
theorem nothingLeft_fails :
    ∃ engine blocked wait,
      (loop scripted Puppet.config).run (start Puppet.config 0) remark = some engine ∧
      engine.block Puppet.config (Puppet.turn [] ["red"] none) = some (blocked, wait) ∧
      ¬blocked.NothingLeft 0 wait := by
  obtain ⟨engine, hrun, hcheck⟩ := (Option.any_eq_true _ _).mp (by decide +kernel :
    ((loop scripted Puppet.config).run (start Puppet.config 0) remark).any (fun engine =>
      (engine.block Puppet.config (Puppet.turn [] ["red"] none)).any fun blocked =>
        (blocked.1.rooms.lookup "red").any fun room => room.peers.any fun peer =>
          peer.isAlive && peer.ops.getLast?.any Op.isWrote) = true)
  obtain ⟨⟨blocked, wait⟩, hblock, hany⟩ := (Option.any_eq_true _ _).mp hcheck
  obtain ⟨room, hroom, hany⟩ := (Option.any_eq_true _ _).mp hany
  obtain ⟨peer, hpeer, hboth⟩ := List.any_eq_true.mp hany
  obtain ⟨halive, hwrote⟩ := Bool.and_eq_true_iff.mp hboth
  obtain ⟨op, hlast, hop⟩ := (Option.any_eq_true _ _).mp hwrote
  refine ⟨engine, blocked, wait, hrun, hblock, fun hleft => ?_⟩
  have hidle := (hleft.polledOut "red" room hroom peer hpeer halive).getLast? hlast
  cases op <;> simp_all [Op.isWork, Op.isWrote]

end Engine

end FerriteSfu
