import FerriteSfu.Call.Simulation
import FerriteSfu.Call.Subscriptions
import FerriteSfu.Call.History
import FerriteSfu.Call.Roster
import FerriteSfu.Call.Attribution
import FerriteSfu.Call.Delivery
import FerriteSfu.Scripted
import Mathlib.Algebra.Group.Nat.Defs

/-!
What holds in every room of the media loop, whatever it reacts to.

Each result is read off the call the room is: the loop is a run of calls, and
what ties the calls together is `Indexed`.
-/

namespace FerriteSfu

variable {S : Str0m} {config : Config}

namespace Engine

/-! ### The maps -/

/-- What the maps and lists of the engine have to do with one another. -/
structure Structured (engine : Engine S) : Prop where
  index : ∀ id name, engine.peerRooms.lookup id = some name ↔
    ∃ room, engine.rooms.lookup name = some room ∧ id ∈ room.ids
  /-- No id occurs twice, in one room or in two. -/
  once : ∀ name room, engine.rooms.lookup name = some room → room.ids.Nodup
  apart : ∀ name name' room room' id, engine.rooms.lookup name = some room →
    engine.rooms.lookup name' = some room' → id ∈ room.ids → id ∈ room'.ids → name = name'
  fresh : ∀ name room, engine.rooms.lookup name = some room →
    ∀ id ∈ room.ids, id.val < engine.nextPeer
  nonempty : ∀ name room, engine.rooms.lookup name = some room → room.isEmpty = false
  users : ∀ name room, engine.rooms.lookup name = some room →
    (room.peers.map (·.userId)).Nodup
  capacity : ∀ name room, engine.rooms.lookup name = some room →
    room.peers.length ≤ engine.config.maxRoomPeers
  /-- A peer that is looked up is found, so nothing is returned early. -/
  found : ∀ id name, engine.peerRooms.lookup id = some name →
    ∃ room peer rest, engine.rooms.lookup name = some room ∧
      room.peers.find? (fun peer => peer.id = id) = some peer ∧
      room.remove id = some (peer, rest)

theorem Sound.structured {engine : Engine S} (h : engine.Sound)
    (hcapacity : 1 ≤ engine.config.maxRoomPeers) : engine.Structured where
  index := h.indexed.index
  once _ _ hroom := h.ids hroom
  apart _ _ _ _ _ hroom hroom' hid hid' := (h.indexed.room_unique hroom hid hroom' hid').symm
  fresh _ _ hroom id hid := by
    obtain ⟨peer, hpeer, rfl⟩ := Room.mem_ids.mp hid
    exact h.fresh hroom peer hpeer
  nonempty name room hroom := by
    simpa [Room.isEmpty] using h.indexed.nonempty name room hroom
  users name room hroom := by
    have hledger := (Call.reachable_wellFormed (h.calls name)).users
    simp only [Call.ledger_members, call_peers hroom, List.map_map] at hledger
    exact hledger
  capacity name room hroom := by
    have hledger := (Call.reachable_wellFormed (h.calls name)).size
    rw [max_eq_left hcapacity] at hledger
    simpa [call_peers hroom] using hledger
  found id name hlookup := by
    obtain ⟨room, peer, hroom, -, -, hfind⟩ := h.lookup_find hlookup
    exact ⟨room, peer, _, hroom, hfind, by rw [Room.remove, hfind]; rfl⟩

/-- Whether an event asks for an id. -/
def isJoin : Event S → Bool
  | .command (.join _) _ => true
  | _ => false

theorem hands_length_le (engine : Engine S) (event : Event S) :
    (engine.hands event).length ≤ if isJoin event then 1 else 0 := by
  unfold hands
  split
  · simp only [isJoin]
    split <;> simp
  · exact Nat.zero_le _

/-- The counter is ahead of the joins by one at most, so fewer than `2 ^ 64` of
them are given ids that fit their `u64`. -/
theorem Sound.run_nextPeer {engine engine' : Engine S} (h : engine.Sound) {events : List (Event S)}
    (hrun : (machine S config).run engine events = some engine') :
    engine'.Sound ∧ engine'.config = engine.config ∧
      engine'.nextPeer ≤ engine.nextPeer + events.countP isJoin := by
  induction events generalizing engine with
  | nil =>
      cases hrun
      exact ⟨h, rfl, le_rfl⟩
  | cons event events ih =>
      obtain ⟨next, hstep, hrest⟩ := Option.bind_eq_some_iff.mp hrun
      obtain ⟨hsound, hconfig, hnext⟩ := ih (h.step hstep) hrest
      refine ⟨hsound, hconfig.trans (h.step_calls hstep).2.1, hnext.trans ?_⟩
      rw [List.countP_cons]
      have htaken := h.step_nextPeer hstep
      have hbound := hands_length_le engine event
      omega

/-- **The structure of the engine in every run.** -/
theorem run_structured (hcapacity : 1 ≤ config.maxRoomPeers) {now : Instant}
    {events : List (Event S)} (hjoins : events.countP isJoin < 2 ^ 64) {engine : Engine S}
    (hrun : (machine S config).run (start config now) events = some engine) :
    engine.Structured ∧ engine.nextPeer ≤ 2 ^ 64 := by
  obtain ⟨hsound, hconfig, hnext⟩ := Sound.run_nextPeer (.start config now) hrun
  refine ⟨hsound.structured (by rw [hconfig]; exact hcapacity), hnext.trans ?_⟩
  simp only [start]
  omega

theorem run_structured_joins :
    let events := [Event.command (Puppet.joins "ann" "red" "a").1 "a",
      Event.command (Puppet.joins "bob" "blue" "b").1 "b"]
    ∃ engine, (machine scripted Puppet.config).run (start Puppet.config 0) events = some engine ∧
      engine.Structured ∧ engine.nextPeer ≤ 2 ^ 64 := by
  intro events
  obtain ⟨engine, hrun⟩ := Option.isSome_iff_exists.mp (by decide +kernel :
    ((machine scripted Puppet.config).run (start Puppet.config 0) events).isSome)
  exact ⟨engine, hrun, run_structured (by decide) (by decide) hrun⟩

/-! ### Subscriptions -/

/-- Everyone in the room is subscribed to everyone else, once, and what a
subscription finds alive is in the room. -/
structure Connected (heap : Heap) (room : Room S) : Prop where
  complete : ∀ pub ∈ room.peers, ∀ sub ∈ room.peers, pub ≠ sub → ∀ track ∈ pub.tracks,
    sub.refs.count track = 1
  sound : ∀ sub ∈ room.peers, ∀ track ∈ sub.refs, (heap.upgrade track).isSome →
    (∃ pub ∈ room.peers, pub ≠ sub ∧ track ∈ pub.tracks) ∧ sub.refs.count track = 1

/-- The subscriptions to the tracks of one publisher, among all of them. -/
theorem count_refs {sub : Peer S} {track : TrackIn} {tracks : List TrackIn} {id : PeerId}
    (h : (sub.refs.filter fun track => track.origin = id) = tracks) (horigin : track.origin = id) :
    sub.refs.count track = tracks.count track := by
  rw [← h, List.count_filter (by simpa using horigin)]

theorem Sound.connected {engine : Engine S} (h : engine.Sound) (hlaw : S.AnnouncesOnce)
    {name : String} {room : Room S} (hroom : engine.rooms.lookup name = some room) :
    Connected engine.heap room := by
  have hsub := h.subscribed hroom
  have hlogged : ∀ peer ∈ room.peers, peer.Logged := by
    simpa [call_peers hroom] using Call.reachable_logged (h.calls name)
  have hcomplete : ∀ pub ∈ room.peers, ∀ sub ∈ room.peers, pub ≠ sub → ∀ track ∈ pub.tracks,
      sub.refs.count track = 1 := by
    intro pub hpub sub hsub' hne track htrack
    have hids : pub.id ≠ sub.id := fun he => hne (List.eq_of_map_eq (h.ids hroom) hpub hsub' he)
    have hrefs := hsub.complete sub hsub' pub hpub
    rw [if_neg hids] at hrefs
    rw [count_refs hrefs (hsub.origin pub hpub track htrack)]
    exact List.count_eq_one_of_mem ((hlogged pub hpub).tracks_nodup hlaw) htrack
  refine ⟨hcomplete, fun sub hsub' track htrack halive => ?_⟩
  have hlive : track ∈ engine.heap := by
    obtain ⟨found, hfound⟩ := Option.isSome_iff_exists.mp halive
    exact (Heap.upgrade_eq_some.mp hfound).1
  have hroomtrack := (h.agrees hroom hsub' track htrack).mp hlive
  obtain ⟨pub, hpub, hpubtrack⟩ := Room.mem_tracks.mp hroomtrack
  have hne : pub ≠ sub := by
    rintro rfl
    exact hsub.origin_ne hsub' htrack (hsub.origin pub hpub track hpubtrack)
  exact ⟨⟨pub, hpub, hne, hpubtrack⟩, hcomplete pub hpub sub hsub' hne track hpubtrack⟩

/-- **Subscriptions are complete, unique and confined to their room.** -/
theorem reachable_connected (hlaw : S.AnnouncesOnce) {engine : Engine S}
    (h : (machine S config).Reachable engine) {name : String} {room : Room S}
    (hroom : engine.rooms.lookup name = some room) : Connected engine.heap room :=
  (reachable_sound h).1.connected hlaw hroom

theorem reachable_connected_meeting :
    ∃ engine room, (machine scripted Puppet.config).Reachable engine ∧
      engine.rooms.lookup "red" = some room ∧ (∃ sub ∈ room.peers, sub.refs ≠ []) ∧
      Connected engine.heap room := by
  obtain ⟨engine, room, hreach, hroom, hrefs⟩ := Puppet.stages Puppet.meeting "red"
    (fun room => room.peers.any fun peer => !peer.refs.isEmpty) (by decide +kernel)
  refine ⟨engine, room, hreach, hroom, ?_, reachable_connected scripted_announcesOnce hreach hroom⟩
  simpa using hrefs

/-! ### Rosters -/

/-- **Every peer was told who else is in its room, and nobody else.** -/
theorem reachable_roster {engine : Engine S} (h : (machine S config).Reachable engine)
    {name : String} {room : Room S} (hroom : engine.rooms.lookup name = some room)
    {peer : Peer S} (hpeer : peer ∈ room.peers) :
    StartsJoined peer.id.asString peer.out ∧
      replayRoster peer.out =
        (room.peers.filter fun other => other.id ≠ peer.id).map fun other =>
          { peerId := toString other.id.val
            userId := other.userId
            name := other.name
            avatarUrl := other.avatarUrl
            muted := other.muted
            screen := other.screen } := by
  have hinformed := Call.reachable_informed ((reachable_sound h).1.calls name) peer
  rw [call_peers hroom] at hinformed
  obtain ⟨hfirst, hview⟩ := hinformed hpeer
  refine ⟨hfirst, hview.trans ?_⟩
  rw [List.filter_map]
  have hothers : room.peers.filter ((fun info => decide (info.peerId ≠ peer.id.asString)) ∘
      Peer.info) = room.peers.filter fun other => other.id ≠ peer.id :=
    List.filter_congr fun other _ => by simp [Peer.info]
  rw [hothers]
  rfl

theorem reachable_roster_meeting :
    ∃ engine room peer, (machine scripted Puppet.config).Reachable engine ∧
      engine.rooms.lookup "red" = some room ∧ peer ∈ room.peers ∧
      StartsJoined peer.id.asString peer.out ∧
      replayRoster peer.out =
        (room.peers.filter fun other => other.id ≠ peer.id).map fun other =>
          { peerId := toString other.id.val
            userId := other.userId
            name := other.name
            avatarUrl := other.avatarUrl
            muted := other.muted
            screen := other.screen } := by
  obtain ⟨engine, room, hreach, hroom, hcheck⟩ := Puppet.stages Puppet.meeting "red"
    (fun room => !room.peers.isEmpty) (by decide +kernel)
  obtain ⟨peer, hpeer⟩ := List.exists_mem_of_ne_nil room.peers (by simpa using hcheck)
  exact ⟨engine, room, peer, hreach, hroom, hpeer, reachable_roster hreach hroom hpeer⟩

/-! ### Attribution -/

end Engine

/-- What the m-lines of a subscriber say about whose media they carry. -/
structure Peer.Attributes (room : Room S) (sub : Peer S) : Prop where
  /-- A packet on an m-line is of the track it was created for, and the
  publisher of that track has received it. -/
  packets : ∀ mid origin data delivered, .wrote mid origin data delivered ∈ sub.ops →
    ∃ track, (∀ created, .addedMedia mid created ∈ sub.ops ↔ created = track) ∧
      track.origin = origin ∧ track.mid = data.mid ∧
      ∀ pub ∈ room.peers, pub.id = origin → .polled (.event (.mediaData data)) ∈ pub.ops
  /-- The first offer after an m-line was created lists it. -/
  introduced : ∀ before after mid track, sub.ops = before ++ .addedMedia mid track :: after →
    ∃ tracks, after.findSome? Op.offeredTracks = some tracks ∧ listing mid track ∈ tracks
  /-- No offer lists it as anything else. -/
  listed : ∀ sdp tracks, .offer sdp tracks ∈ sub.out → ∀ entry ∈ tracks, ∀ mid track,
    .addedMedia mid track ∈ sub.ops → entry.mid = mid.name → entry = listing mid track
  /-- The offers of the log are the ones that were sent. -/
  offers : sub.out.filterMap ServerMsg.offerTracks = sub.ops.filterMap Op.offeredTracks

namespace Engine

/-- **Media is attributed to whoever produced it.** -/
theorem reachable_attributes (hfresh : S.FreshMids) (hoffers : S.OffersMedia)
    {engine : Engine S} (h : (machine S config).Reachable engine) {name : String} {room : Room S}
    (hroom : engine.rooms.lookup name = some room) {sub : Peer S} (hsub : sub ∈ room.peers) :
    sub.Attributes room := by
  have hcall := (reachable_sound h).1.calls name
  have hattributed := Call.reachable_attributed hoffers hcall sub
  have hlogged := Call.reachable_logged hcall sub
  have hdelivered := Call.reachable_delivered hcall
  rw [call_peers hroom] at hattributed hlogged hdelivered
  have hmids := hfresh _ _ (hlogged hsub).history
  have hattr := hattributed hsub
  refine ⟨fun mid origin data delivered hwrote => ?_,
    fun before after mid track heq => hattr.introduced.after heq,
    fun sdp tracks hoffer entry hentry mid track hadded hmid => ?_, hattr.sent⟩
  · obtain ⟨track, hadded, horigin, hin⟩ := hattr.wrote mid origin data delivered hwrote
    refine ⟨track, fun created => ⟨fun hcreated => createdFor_unique hmids hadded hcreated, ?_⟩,
      horigin, hin, ?_⟩
    · rintro rfl
      exact hadded
    · rintro pub hpub rfl
      exact hdelivered.reported sub hsub pub hpub mid data delivered hwrote
  · have hsent : tracks ∈ sub.ops.filterMap Op.offeredTracks := by
      rw [← hattr.sent]
      exact List.mem_filterMap.mpr ⟨_, hoffer, rfl⟩
    obtain ⟨op, hop, heq⟩ := List.mem_filterMap.mp hsent
    cases op <;> cases heq
    obtain ⟨mid', track', hadded', rfl⟩ := hattr.listed _ _ hop entry hentry
    have hsame : mid' = mid := Mid.toString_injective hmid
    subst hsame
    rw [createdFor_unique hmids hadded hadded']

theorem reachable_attributes_talk :
    ∃ engine room sub, (machine scripted Puppet.config).Reachable engine ∧
      engine.rooms.lookup "red" = some room ∧ sub ∈ room.peers ∧
      (∃ mid origin data delivered, .wrote mid origin data delivered ∈ sub.ops) ∧
      sub.Attributes room := by
  obtain ⟨engine, room, hreach, hroom, hcheck⟩ := Puppet.stages Puppet.talk "red"
    (fun room => room.peers.any fun sub => sub.ops.any Op.isWrote) (by decide +kernel)
  obtain ⟨sub, hsub, hany⟩ := List.any_eq_true.mp hcheck
  obtain ⟨op, hop, hwrote⟩ := List.any_eq_true.mp hany
  refine ⟨engine, room, sub, hreach, hroom, hsub, ?_,
    reachable_attributes scripted_freshMids scripted_offersChanges.offersMedia hreach hroom hsub⟩
  cases op with
  | wrote mid origin data delivered => exact ⟨mid, origin, data, delivered, hop⟩
  | polled | addedMedia | requestedKeyframe | offered | queuedOpen => cases hwrote

end Engine

end FerriteSfu
