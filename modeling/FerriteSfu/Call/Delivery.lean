import FerriteSfu.Call.Rules
import FerriteSfu.Sfu.Log

/-!
Where forwarded packets come from.

What a subscriber was made to write in the name of a publisher, that publisher's
own `Rtc` has reported. The invariant compares the logs of two peers of a call;
a pass is the only step that adds to either.
-/

namespace FerriteSfu

variable {S : Str0m} {config : Config} {name : String}

/-! ### The log of a pass -/

/-- `peer'` is `peer` after it was polled. -/
def Peer.LogPolled (peer peer' : Peer S) : Prop :=
  peer'.id = peer.id ∧ ∃ ops, peer'.ops = peer.ops ++ ops ∧ ∀ op ∈ ops, op.IsPoll

theorem drainPeers_ops {clock : ℕ → List Instant} {heap : Heap} {timeout : Instant}
    {peers : List (Peer S)} {drained : DrainedPeers S}
    (h : drainPeers clock heap timeout peers = some drained) :
    List.Forall₂ Peer.LogPolled peers drained.peers ∧
      ∀ id data, .media id data ∈ drained.queue → ∃ peer ∈ drained.peers, peer.id = id ∧
        .polled (.event (.mediaData data)) ∈ peer.ops := by
  induction peers generalizing clock heap timeout drained with
  | nil =>
      cases h
      exact ⟨.nil, by simp⟩
  | cons peer peers ih =>
      obtain ⟨first, rest, hfirst, hrest, rfl⟩ := drainPeers_cons h
      have hid := Peer.id_eq_of_card (Peer.drain_polled hfirst).card
      obtain ⟨hops, hmedia⟩ := Peer.drain_ops hfirst
      obtain ⟨hall, hothers⟩ := ih hrest
      refine ⟨.cons ⟨hid, hops⟩ hall, fun id data hmem => ?_⟩
      rcases List.mem_append.mp hmem with hmem | hmem
      · obtain ⟨heq, hreported⟩ := hmedia id data hmem
        exact ⟨first.peer, by simp, hid.trans heq.symm, hreported⟩
      · obtain ⟨other, hother, hrest⟩ := hothers id data hmem
        exact ⟨other, List.mem_cons_of_mem _ hother, hrest⟩

namespace Call

structure Delivered (next : ℕ) (peers : List (Peer S)) : Prop where
  fresh : ∀ sub ∈ peers, ∀ mid origin data delivered,
    .wrote mid origin data delivered ∈ sub.ops → origin.val < next
  reported : ∀ sub ∈ peers, ∀ pub ∈ peers, ∀ mid data delivered,
    .wrote mid pub.id data delivered ∈ sub.ops → .polled (.event (.mediaData data)) ∈ pub.ops

namespace Delivered

variable {next : ℕ} {peers peers' : List (Peer S)}

theorem of_mem (h : Delivered next peers)
    (hpeers : ∀ peer' ∈ peers', ∃ peer ∈ peers, peer.id = peer'.id ∧ peer.ops = peer'.ops) :
    Delivered next peers' where
  fresh sub hsub mid origin data delivered hmem := by
    obtain ⟨sub', hsub', -, hops⟩ := hpeers sub hsub
    exact h.fresh sub' hsub' mid origin data delivered (hops ▸ hmem)
  reported sub hsub pub hpub mid data delivered hmem := by
    obtain ⟨sub', hsub', -, hsubops⟩ := hpeers sub hsub
    obtain ⟨pub', hpub', hid, hpubops⟩ := hpeers pub hpub
    rw [← hpubops]
    exact h.reported sub' hsub' pub' hpub' mid data delivered (by rwa [hid, hsubops])

theorem map (h : Delivered next peers) {f : Peer S → Peer S}
    (hf : ∀ peer, (f peer).id = peer.id ∧ (f peer).ops = peer.ops) :
    Delivered next (peers.map f) := by
  refine h.of_mem fun peer' hmem => ?_
  obtain ⟨peer, hpeer, rfl⟩ := List.mem_map.mp hmem
  exact ⟨peer, hpeer, (hf peer).1.symm, (hf peer).2.symm⟩

theorem later (h : Delivered next peers) : Delivered (next + 1) peers :=
  ⟨fun sub hsub mid origin data delivered hmem =>
    (h.fresh sub hsub mid origin data delivered hmem).trans (Nat.lt_succ_self _), h.reported⟩

/-- A newcomer has written nothing, and nobody has written in its name. -/
theorem enter (h : Delivered next peers) {newcomer : Peer S} (hid : newcomer.id = ⟨next⟩)
    (hops : newcomer.ops = []) : Delivered (next + 1) (peers ++ [newcomer]) where
  fresh sub hsub mid origin data delivered hmem := by
    rcases List.mem_append.mp hsub with hsub | hsub
    · exact h.later.fresh sub hsub mid origin data delivered hmem
    · rw [List.mem_singleton.mp hsub, hops] at hmem
      cases hmem
  reported sub hsub pub hpub mid data delivered hmem := by
    rcases List.mem_append.mp hsub with hsub | hsub
    · rcases List.mem_append.mp hpub with hpub | hpub
      · exact h.reported sub hsub pub hpub mid data delivered hmem
      · rw [List.mem_singleton.mp hpub, hid] at hmem
        exact absurd (h.fresh sub hsub _ _ _ _ hmem) (lt_irrefl _)
    · rw [List.mem_singleton.mp hsub, hops] at hmem
      cases hmem

/-- A peer's log at the end of a pass: what it held, and what it was made to write. -/
theorem receiveAll_log {heap : Heap} {queue : List (Propagated S)} {old peer : Peer S}
    (hpolled : old.LogPolled peer) :
    (∀ op ∈ peer.ops, op ∈ (peer.receiveAll heap queue).ops) ∧
      ∀ mid origin data delivered,
        .wrote mid origin data delivered ∈ (peer.receiveAll heap queue).ops →
          .wrote mid origin data delivered ∈ old.ops ∨ .media origin data ∈ queue := by
  obtain ⟨-, polls, hpolls, hispoll⟩ := hpolled
  obtain ⟨received, hreceived, hreceives⟩ := Peer.foldl_receive_ops heap
    (queue.filter fun propagated => propagated.source ≠ some peer.id) peer
  have hops : (peer.receiveAll heap queue).ops = peer.ops ++ received := hreceived
  rw [hops]
  refine ⟨fun op hop => List.mem_append_left _ hop, fun mid origin data delivered hop => ?_⟩
  rcases List.mem_append.mp hop with hop | hop
  · rw [hpolls] at hop
    exact .inl ((List.mem_append.mp hop).resolve_right fun hpoll =>
      Op.IsPoll.not_wrote (hispoll _ hpoll))
  · obtain ⟨propagated, hqueue, hreceive⟩ := hreceives _ hop
    cases hreceive with
    | wrote _ _ _ _ heq => exact .inr (heq ▸ List.mem_of_mem_filter hqueue)

theorem receiveAll_id (heap : Heap) (queue : List (Propagated S)) (peer : Peer S) :
    (peer.receiveAll heap queue).id = peer.id :=
  Peer.id_eq_of_card (Peer.foldl_receive_frame heap _ peer).1

theorem poll {room : Room S} (h : Delivered next room.peers) (hids : room.ids.Nodup)
    (hfresh : ∀ peer ∈ room.peers, peer.id.val < next) {clock : ℕ → List Instant} {heap : Heap}
    {timeout : Instant} {polled : PolledRoom S}
    (hpolled : room.poll clock heap timeout = some polled) :
    Delivered next polled.room.peers := by
  obtain ⟨drained, hdrained, rfl⟩ := Option.map_eq_some_iff.mp hpolled
  obtain ⟨hall, hmedia⟩ := drainPeers_ops hdrained
  have hids' : (drained.peers.map Peer.id).Nodup := by
    rw [hall.map_eq fun _ _ hrel => hrel.1]
    exact hids
  simp only [Room.propagateAll_eq]
  refine ⟨fun sub' hsub' mid origin data delivered hmem => ?_,
    fun sub' hsub' pub' hpub' mid data delivered hmem => ?_⟩
  · obtain ⟨sub, hsub, rfl⟩ := List.mem_map.mp hsub'
    obtain ⟨old, hold, hlog⟩ := hall.exists_left hsub
    rcases (receiveAll_log hlog).2 _ _ _ _ hmem with hmem | hqueue
    · exact h.fresh old hold _ _ _ _ hmem
    · obtain ⟨pub, hpub, rfl, -⟩ := hmedia origin data hqueue
      obtain ⟨before, hbefore, hid, -⟩ := hall.exists_left hpub
      exact hid ▸ hfresh before hbefore
  · obtain ⟨sub, hsub, rfl⟩ := List.mem_map.mp hsub'
    obtain ⟨pub, hpub, rfl⟩ := List.mem_map.mp hpub'
    obtain ⟨old, hold, hlog⟩ := hall.exists_left hsub
    obtain ⟨before, hbefore, hpublog⟩ := hall.exists_left hpub
    rw [receiveAll_id] at hmem
    refine (receiveAll_log hpublog).1 _ ?_
    rcases (receiveAll_log hlog).2 _ _ _ _ hmem with hmem | hqueue
    · obtain ⟨hid, polls, hpolls, -⟩ := hpublog
      rw [hpolls]
      exact List.mem_append_left _
        (h.reported old hold before hbefore mid data delivered (hid ▸ hmem))
    · obtain ⟨reporter, hreporter, hid, hreported⟩ := hmedia pub.id data hqueue
      exact List.eq_of_map_eq hids' hreporter hpub hid ▸ hreported

end Delivered

theorem delivered_invariant (config : Config) (ok : Call S → CallEvent S → Prop) :
    PeersInvariant config ok (Delivered (S := S)) where
  empty _ := ⟨by simp, by simp⟩
  later _ _ h := h.later
  leave next peers id _ h := by
    refine h.of_mem fun peer' hmem => ?_
    obtain ⟨peer, hpeer, rfl⟩ := List.mem_map.mp hmem
    exact ⟨peer, List.mem_of_mem_filter hpeer, rfl, rfl⟩
  enter room request seed offer next callId answer _ _ _ h :=
    (h.map (f := Peer.send _) fun _ => ⟨rfl, rfl⟩).enter rfl rfl
  answer call id sdp answer _ _ _ h := by
    refine h.map fun peer => ?_
    split
    · exact ⟨Peer.id_eq_of_card (Peer.acceptAnswer_frame answer peer).1,
        Peer.acceptAnswer_ops answer peer⟩
    · exact ⟨rfl, rfl⟩
  setState next peers id muted screen _ _ h := h.map fun peer => by split <;> exact ⟨rfl, rfl⟩
  poll room clock next polled hids hfresh h hpolled := h.poll hids hfresh hpolled
  markReported next peers h := h.map fun peer => by split <;> exact ⟨rfl, rfl⟩
  syncSpeaking next peers speakers h := h.map fun _ => ⟨rfl, rfl⟩
  handleInput next peers input h := by
    have hall : List.Forall₂ (fun peer peer' : Peer S => peer.id = peer'.id ∧ peer.ops = peer'.ops)
        peers (peers.updateFirst (Peer.accepts input) (Peer.handleInput input)) :=
      List.forall₂_updateFirst (fun _ _ => ⟨rfl, rfl⟩) fun peer _ _ =>
        ⟨(Peer.handleInput_id input peer).symm, (Peer.handleInput_ops input peer).symm⟩
    exact h.of_mem fun peer' hmem => hall.exists_left hmem
  advanceTime next peers now h := h.map fun peer =>
    ⟨Peer.handleInput_id _ peer, Peer.handleInput_ops _ peer⟩

/-- **Whatever a peer wrote in the name of another, that one had received.** -/
theorem reachable_delivered {ok : Call S → CallEvent S → Prop} {call : Call S}
    (h : (machine S config name).ReachableVia ok call) :
    Delivered call.nextPeer call.peers :=
  (delivered_invariant config ok).holds h

end Call

end FerriteSfu
