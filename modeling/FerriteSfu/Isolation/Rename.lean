import FerriteSfu.Sfu.Room
import Mathlib.Logic.Embedding.Basic

/-!
Renumbering peers.

Peer ids are handed out under one counter, so what happens in one room decides
how the peers of another are numbered. They show in the state of a room in three
ways: as ids, as strings in messages, and as the stream and track labels of the
m-lines that are offered. `Relabel` says what it takes of str0m that the labels
make no difference but their own.
-/

namespace FerriteSfu

variable {S : Str0m}

/-! ### Ids as text -/

/-- Renames the id that a text stands for, if it stands for one. -/
def renameText (ρ : PeerId ↪ PeerId) (text : String) : String :=
  match text.toNat? with
  | some n => if PeerId.asString ⟨n⟩ = text then (ρ ⟨n⟩).asString else text
  | none => text

theorem renameText_asString (ρ : PeerId ↪ PeerId) (id : PeerId) :
    renameText ρ id.asString = (ρ id).asString := by
  have hnat : id.asString.toNat? = some id.val := by
    simp [PeerId.asString, Nat.toString_eq_repr]
  simp [renameText, hnat]

theorem renameText_cases (ρ : PeerId ↪ PeerId) (text : String) :
    (∃ id : PeerId, text = id.asString) ∨
      (∀ id : PeerId, text ≠ id.asString) ∧ renameText ρ text = text := by
  by_cases h : ∃ id : PeerId, text = id.asString
  · exact .inl h
  · have hnot : ∀ id : PeerId, text ≠ id.asString := fun id he => h ⟨id, he⟩
    refine .inr ⟨hnot, ?_⟩
    unfold renameText
    split
    · exact if_neg fun he => hnot _ he.symm
    · rfl

theorem renameText_injective (ρ : PeerId ↪ PeerId) : Function.Injective (renameText ρ) := by
  intro a b h
  rcases renameText_cases ρ a with ⟨id, rfl⟩ | ⟨hnot, hsame⟩
  · rw [renameText_asString] at h
    rcases renameText_cases ρ b with ⟨id', rfl⟩ | ⟨hnot', hsame'⟩
    · rw [renameText_asString, PeerId.asString_inj] at h
      rw [ρ.injective h]
    · exact absurd (hsame'.symm.trans h.symm) (hnot' _)
  · rw [hsame] at h
    rcases renameText_cases ρ b with ⟨id', rfl⟩ | ⟨-, hsame'⟩
    · rw [renameText_asString] at h
      exact absurd h (hnot _)
    · exact h.trans hsame'

/-! ### Labels of m-lines -/

/-- How str0m's values change when the labels of m-lines do: the changes commute
with every call, no call lets them show in a result except in the text of an
offer, and an instance that has just accepted its first offer has no labels. -/
structure Str0m.Relabel (S : Str0m) (ρ : PeerId ↪ PeerId) where
  onRtc : S.Rtc → S.Rtc
  onChange : S.SdpApi → S.SdpApi
  onWriter : S.Writer → S.Writer
  onOffer : S.SdpOffer → S.SdpOffer
  onPending : S.SdpPendingOffer → S.SdpPendingOffer
  onSdp : String → String
  offerToSdpString (offer : S.SdpOffer) :
    S.offerToSdpString (onOffer offer) = onSdp (S.offerToSdpString offer)
  acceptOffer (seed : S.Seed) (iceLite : Bool) (offer : S.SdpOffer) :
    onRtc (S.acceptOffer (S.build seed iceLite) offer).2 =
      (S.acceptOffer (S.build seed iceLite) offer).2
  isAlive (rtc : S.Rtc) : S.isAlive (onRtc rtc) = S.isAlive rtc
  disconnect (rtc : S.Rtc) : S.disconnect (onRtc rtc) = onRtc (S.disconnect rtc)
  accepts (rtc : S.Rtc) (input : S.Input) : S.accepts (onRtc rtc) input = S.accepts rtc input
  handleInput (rtc : S.Rtc) (input : S.Input) :
    S.handleInput (onRtc rtc) input = (S.handleInput rtc input).map id onRtc
  pollOutput (rtc : S.Rtc) : S.pollOutput (onRtc rtc) = (S.pollOutput rtc).map id onRtc
  acceptAnswer (rtc : S.Rtc) (pending : S.SdpPendingOffer) (answer : S.SdpAnswer) :
    S.acceptAnswer (onRtc rtc) (onPending pending) answer =
      (S.acceptAnswer rtc pending answer).map id onRtc
  sdpApi (rtc : S.Rtc) : S.sdpApi (onRtc rtc) = onChange (S.sdpApi rtc)
  addMedia (change : S.SdpApi) (kind : MediaKind) (origin : PeerId) :
    S.addMedia (onChange change) kind (ρ origin).asString
        ((ρ origin).asString ++ "-" ++ kindLabel kind) =
      (S.addMedia change kind origin.asString
        (origin.asString ++ "-" ++ kindLabel kind)).map id onChange
  stopMedia (change : S.SdpApi) (mid : Mid) :
    S.stopMedia (onChange change) mid = onChange (S.stopMedia change mid)
  hasChanges (change : S.SdpApi) : S.hasChanges (onChange change) = S.hasChanges change
  apply (change : S.SdpApi) : S.apply (onChange change) =
    (S.apply change).map (Option.map (Prod.map onOffer onPending)) onRtc
  release (change : S.SdpApi) : S.release (onChange change) = onRtc (S.release change)
  writer (rtc : S.Rtc) (mid : Mid) : S.writer (onRtc rtc) mid = (S.writer rtc mid).map onWriter
  matchParams (writer : S.Writer) (params : S.PayloadParams) :
    S.matchParams (onWriter writer) params = S.matchParams writer params
  audioLevel (writer : S.Writer) (level : ℤ) (voiced : Bool) :
    S.audioLevel (onWriter writer) level voiced = onWriter (S.audioLevel writer level voiced)
  write (writer : S.Writer) (pt : S.Pt) (networkTime : Instant) (time : S.MediaTime)
    (data : List UInt8) : S.write (onWriter writer) pt networkTime time data =
      (S.write writer pt networkTime time data).map id onRtc
  requestKeyframe (writer : S.Writer) (rid : Option String) (kind : KeyframeRequestKind) :
    S.requestKeyframe (onWriter writer) rid kind =
      (S.requestKeyframe writer rid kind).map id onRtc

/-- str0m makes nothing of the labels it is given: this is what other labels change. -/
abbrev Str0m.Relabeling (S : Str0m) : Type := ∀ ρ : PeerId ↪ PeerId, S.Relabel ρ

/-! ### The state of a room -/

variable (ρ : PeerId ↪ PeerId)

def TrackIn.rename (track : TrackIn) : TrackIn := { track with origin := ρ track.origin }

def TrackInEntry.rename (entry : TrackInEntry) : TrackInEntry :=
  { entry with id := entry.id.rename ρ }

def TrackOut.rename (track : TrackOut) : TrackOut :=
  { track with trackIn := track.trackIn.rename ρ }

def TrackMap.rename (entry : TrackMap) : TrackMap :=
  { entry with peerId := renameText ρ entry.peerId }

def PeerInfo.rename (info : PeerInfo) : PeerInfo :=
  { info with peerId := renameText ρ info.peerId }

def Heap.rename (heap : Heap) : Heap := heap.map (TrackIn.rename ρ)

variable {ρ} (L : S.Relabel ρ)

/-- The message about the renamed peers. Who is speaking is a set, which the
media loop puts in the order of the new names. -/
def ServerMsg.rename : ServerMsg → ServerMsg
  | .joined peerId callId sdp peers =>
      .joined (renameText ρ peerId) callId sdp (peers.map (PeerInfo.rename ρ))
  | .offer sdp tracks => .offer (L.onSdp sdp) (tracks.map (TrackMap.rename ρ))
  | .peerJoined peer => .peerJoined (peer.rename ρ)
  | .peerLeft peerId => .peerLeft (renameText ρ peerId)
  | .peerState peerId muted screen => .peerState (renameText ρ peerId) muted screen
  | .speaking peerIds => .speaking ((peerIds.map (renameText ρ)).insertionSort (· ≤ ·))
  | .error code message => .error code message
  | .pong => .pong

def Op.rename : Op S → Op S
  | .polled output => .polled output
  | .addedMedia mid track => .addedMedia mid (track.rename ρ)
  | .wrote mid origin data delivered => .wrote mid (ρ origin) data delivered
  | .requestedKeyframe mid kind => .requestedKeyframe mid kind
  | .offered sdp tracks => .offered (L.onSdp sdp) (tracks.map (TrackMap.rename ρ))
  | .queuedOpen track offering => .queuedOpen (track.rename ρ) offering

def Propagated.rename (ρ : PeerId ↪ PeerId) : Propagated S → Propagated S
  | .noop => .noop
  | .timeout wake => .timeout wake
  | .trackOpen id trackIn => .trackOpen (ρ id) (trackIn.rename ρ)
  | .media id data => .media (ρ id) data
  | .keyframeRequest id request publisher midIn =>
      .keyframeRequest (ρ id) request (ρ publisher) midIn

def Peer.rename (peer : Peer S) : Peer S :=
  { peer with
    id := ρ peer.id
    rtc := L.onRtc peer.rtc
    pending := peer.pending.map L.onPending
    out := peer.out.map (ServerMsg.rename L)
    tracksIn := peer.tracksIn.map (TrackInEntry.rename ρ)
    tracksOut := peer.tracksOut.map (TrackOut.rename ρ)
    ops := peer.ops.map (Op.rename L) }

def Room.rename (room : Room S) : Room S where
  callId := room.callId
  peers := room.peers.map (Peer.rename L)
  speaking := (room.speaking.map (renameText ρ)).insertionSort (· ≤ ·)

/-! ### What a name does not change -/

theorem TrackIn.rename_injective (ρ : PeerId ↪ PeerId) : Function.Injective (TrackIn.rename ρ) := by
  rintro ⟨origin, mid, kind⟩ ⟨origin', mid', kind'⟩ h
  simp only [TrackIn.rename, TrackIn.mk.injEq, ρ.injective.eq_iff] at h ⊢
  exact h

theorem Heap.rename_upgrade (heap : Heap) (track : Weak) :
    Heap.upgrade (heap.rename ρ) (track.rename ρ) =
      (heap.upgrade track).map (TrackIn.rename ρ) := by
  simp only [Heap.upgrade, Heap.rename, List.mem_map_of_injective (TrackIn.rename_injective ρ)]
  split <;> rfl

@[simp] theorem TrackOut.rename_state (track : TrackOut) :
    (track.rename ρ).state = track.state := rfl

@[simp] theorem TrackOut.rename_trackIn (track : TrackOut) :
    (track.rename ρ).trackIn = track.trackIn.rename ρ := rfl

@[simp] theorem TrackOut.rename_mid (track : TrackOut) : (track.rename ρ).mid = track.mid := rfl

namespace Peer

@[simp] theorem rename_id (peer : Peer S) : (peer.rename L).id = ρ peer.id := rfl

@[simp] theorem rename_userId (peer : Peer S) : (peer.rename L).userId = peer.userId := rfl

@[simp] theorem rename_muted (peer : Peer S) : (peer.rename L).muted = peer.muted := rfl

@[simp] theorem rename_screen (peer : Peer S) : (peer.rename L).screen = peer.screen := rfl

@[simp] theorem rename_reported (peer : Peer S) : (peer.rename L).reported = peer.reported := rfl

@[simp] theorem rename_rtc (peer : Peer S) : (peer.rename L).rtc = L.onRtc peer.rtc := rfl

@[simp] theorem rename_isAlive (peer : Peer S) : (peer.rename L).isAlive = peer.isAlive :=
  L.isAlive peer.rtc

@[simp] theorem rename_isSpeaking (now : Instant) (peer : Peer S) :
    (peer.rename L).isSpeaking now = peer.isSpeaking now := rfl

@[simp] theorem rename_isAbandoned (now : Instant) (peer : Peer S) :
    (peer.rename L).isAbandoned now = peer.isAbandoned now := rfl

theorem rename_info (peer : Peer S) : (peer.rename L).info = peer.info.rename ρ := by
  simp only [info, PeerInfo.rename, rename_id, renameText_asString]
  rfl

theorem rename_tracks (peer : Peer S) :
    (peer.rename L).tracks = peer.tracks.map (TrackIn.rename ρ) := by
  simp [tracks, Peer.rename, TrackInEntry.rename, Function.comp_def]

theorem rename_send (message : ServerMsg) (peer : Peer S) :
    (peer.send message).rename L = (peer.rename L).send (message.rename L) := by
  simp [send, Peer.rename]

end Peer

end FerriteSfu
