import FerriteSfu.Sfu.Loop

/-!
A str0m whose peers are puppets: a datagram carries the address of the instance
it is for and the events that instance is going to report. It keeps the laws
that are asked of the real one, so results that assume them can be run.

An instance announces an m-line once, hands out m-lines under a counter, queues
what is written to it until it is polled, and accepts every offer and answer but
the ones that say they are malformed, refused or rejected.
-/

namespace FerriteSfu

structure Puppet where
  ufrag : String
  alive : Bool
  /-- What it has been told to report. -/
  inbox : List (RtcEvent Unit Unit)
  /-- How many packets wait to be sent. -/
  outbox : ℕ
  announced : List Mid
  nextMid : ℕ

/-- Where a datagram goes, and what it makes the instance report. -/
structure Cue where
  ufrag : String
  events : List (RtcEvent Unit Unit)

namespace Puppet

def new (ufrag : String) : Puppet where
  ufrag := ufrag
  alive := true
  inbox := []
  outbox := 0
  announced := []
  nextMid := 0

/-- Reports the next event; an m-line announced before is no news. -/
def report (event : RtcEvent Unit Unit) (puppet : Puppet) : RtcEvent Unit Unit × Puppet :=
  match event with
  | .mediaAdded added =>
      if added.mid ∈ puppet.announced then (.other, puppet)
      else (.mediaAdded added, { puppet with announced := puppet.announced ++ [added.mid] })
  | event => (event, puppet)

def poll (puppet : Puppet) : Except String (RtcOutput Unit Unit) × Puppet :=
  match puppet.outbox, puppet.inbox with
  | outbox + 1, _ => (.ok .transmit, { puppet with outbox := outbox })
  | 0, [] => (.ok (.timeout (Duration.fromSecs 3600)), puppet)
  | 0, event :: inbox =>
      let reported := { puppet with inbox := inbox }.report event
      (.ok (.event reported.1), reported.2)

def input (input : RtcInput Cue) (puppet : Puppet) : Puppet :=
  match input with
  | .timeout _ => puppet
  | .receive _ cue => { puppet with inbox := puppet.inbox ++ cue.events }

def accepts (input : RtcInput Cue) (puppet : Puppet) : Bool :=
  match input with
  | .timeout _ => true
  | .receive _ cue => cue.ufrag = puppet.ufrag

/-- The mid `Rtc::sdp_api` gives the `n`-th m-line it adds. -/
def mid (n : ℕ) : Mid := ⟨"s" ++ toString n⟩

end Puppet

/-- The str0m of puppets. -/
@[reducible] def scripted : Str0m where
  Rtc := Puppet
  SdpApi := Puppet × Bool
  Writer := Puppet
  SdpOffer := String
  SdpAnswer := String
  SdpPendingOffer := Unit
  PayloadParams := Unit
  Pt := Unit
  MediaTime := Unit
  Datagram := Cue
  Seed := String
  offerFromSdpString sdp := if sdp = "malformed" then .error sdp else .ok sdp
  answerFromSdpString sdp := if sdp = "malformed" then .error sdp else .ok sdp
  offerToSdpString sdp := sdp
  answerToSdpString sdp := sdp
  build ufrag _ := Puppet.new ufrag
  isAlive puppet := puppet.alive
  disconnect puppet := { puppet with alive := false }
  accepts puppet input := puppet.accepts input
  handleInput puppet input := (.ok (), puppet.input input)
  pollOutput puppet := puppet.poll
  acceptOffer puppet sdp := (if sdp = "refused" then .error sdp else .ok "answer", puppet)
  acceptAnswer puppet _ sdp := (if sdp = "rejected" then .error sdp else .ok (), puppet)
  sdpApi puppet := (puppet, false)
  addMedia change _ _ _ :=
    (Puppet.mid change.1.nextMid, ({ change.1 with nextMid := change.1.nextMid + 1 }, true))
  stopMedia change _ := (change.1, true)
  hasChanges change := change.2
  apply change := (if change.2 then some ("offer", ()) else none, change.1)
  release change := change.1
  writer puppet _ := if puppet.alive then some puppet else none
  matchParams _ _ := some ()
  audioLevel puppet _ _ := puppet
  write puppet _ _ _ _ := (.ok (), { puppet with outbox := puppet.outbox + 1 })
  requestKeyframe puppet _ _ := (.ok (), { puppet with outbox := puppet.outbox + 1 })

namespace Puppet

/-- What a log says about the puppet it led to. -/
structure Logged (ops : List (Op scripted)) (puppet : Puppet) : Prop where
  announced : ops.filterMap Op.announcedMid = puppet.announced
  once : puppet.announced.Nodup
  created : (ops.filterMap Op.createdFor).map Prod.fst = (List.range puppet.nextMid).map mid

/-- A call that reports and creates nothing keeps the account. -/
theorem Logged.congr {ops : List (Op scripted)} {puppet puppet' : Puppet}
    (h : Logged ops puppet) (hannounced : puppet'.announced = puppet.announced)
    (hnext : puppet'.nextMid = puppet.nextMid) : Logged ops puppet' :=
  ⟨h.announced.trans hannounced.symm, hannounced ▸ h.once, hnext ▸ h.created⟩

theorem Logged.log {ops : List (Op scripted)} {puppet : Puppet} (h : Logged ops puppet)
    (op : Op scripted) (hannounced : op.announcedMid = none) (hcreated : op.createdFor = none) :
    Logged (ops ++ [op]) puppet :=
  ⟨by simp [h.announced, hannounced], h.once, by simpa [hcreated] using h.created⟩

theorem Logged.report {ops : List (Op scripted)} {puppet : Puppet} (h : Logged ops puppet)
    (event : RtcEvent Unit Unit) :
    Logged (ops ++ [.polled (.event (puppet.report event).1)]) (puppet.report event).2 := by
  cases event with
  | mediaAdded added =>
      simp only [Puppet.report]
      split
      · exact h.log _ rfl rfl
      · rename_i hnew
        refine ⟨by simp [h.announced, Op.announcedMid], ?_, ?_⟩
        · refine List.nodup_append.mpr ⟨h.once, by simp, fun mid hmid mid' hmid' he => hnew ?_⟩
          rwa [← List.mem_singleton.mp hmid', ← he]
        · rw [List.filterMap_append, List.map_append, h.created]
          exact List.append_nil _
  | iceConnectionStateChange state => exact h.log _ rfl rfl
  | mediaData data => exact h.log _ rfl rfl
  | keyframeRequest request => exact h.log _ rfl rfl
  | other => exact h.log _ rfl rfl

theorem Logged.poll {ops : List (Op scripted)} {puppet puppet' : Puppet} (h : Logged ops puppet)
    {output : RtcOutput Unit Unit} (hpoll : puppet.poll = (.ok output, puppet')) :
    Logged (ops ++ [.polled output]) puppet' := by
  obtain ⟨ufrag, alive, inbox, outbox, announced, nextMid⟩ := puppet
  cases outbox with
  | succ outbox =>
      cases hpoll
      have hsent : Logged ops ⟨ufrag, alive, inbox, outbox, announced, nextMid⟩ := h.congr rfl rfl
      exact hsent.log _ rfl rfl
  | zero =>
      cases inbox with
      | nil =>
          cases hpoll
          exact h.log _ rfl rfl
      | cons event inbox =>
          cases hpoll
          have hread : Logged ops ⟨ufrag, alive, inbox, 0, announced, nextMid⟩ := h.congr rfl rfl
          exact hread.report event

theorem writer_eq {puppet writer : Puppet} {mid : Mid}
    (h : scripted.writer puppet mid = some writer) : writer = puppet := by
  simp only [scripted] at h
  split at h
  · exact (Option.some.inj h).symm
  · cases h

theorem poll_isOk (puppet : Puppet) (error : String) (puppet' : Puppet) :
    puppet.poll ≠ (.error error, puppet') := by
  unfold Puppet.poll
  split <;> exact fun he => by cases he

/-- **The log of a puppet accounts for what it announced and created.** -/
theorem logged {state : scripted.Rtc ⊕ scripted.SdpApi} {ops : List (Op scripted)}
    (h : scripted.History state ops) :
    Logged ops (Sum.elim (fun puppet : Puppet => puppet) Prod.fst state) := by
  induction h with
  | build ufrag iceLite => exact ⟨rfl, .nil, rfl⟩
  | disconnect _ ih => exact ih.congr rfl rfl
  | handleInput _ input ih =>
      cases input with
      | timeout now => exact ih
      | receive now cue => exact ih.congr rfl rfl
  | polled _ hpoll ih => exact ih.poll hpoll
  | pollFailed _ hpoll ih => exact absurd hpoll (poll_isOk _ _ _)
  | acceptOffer _ offer ih => exact ih
  | acceptAnswer _ pending answer ih => exact ih
  | sdpApi _ ih => exact ih
  | @addMedia change _ _ track streamId trackId ih =>
      refine ⟨?_, ih.once, ?_⟩
      · rw [List.filterMap_append, ih.announced]
        exact List.append_nil _
      · have hrange := congrArg (List.map mid) (List.range_succ (n := change.1.nextMid))
        rw [List.map_append] at hrange
        rw [List.filterMap_append, List.map_append, ih.created]
        exact hrange.symm
  | stopMedia _ mid ih => exact ih
  | apply _ ih => exact ih
  | release _ ih => exact ih
  | @write rtc _ writer writer' _ mid _ hwriter hlevel origin data delivered ih =>
      have hsame : writer' = rtc := by
        rw [← writer_eq hwriter]
        exact hlevel.elim id fun ⟨_, _, he⟩ => he
      subst hsame
      exact Logged.congr (ih.log (.wrote mid origin data delivered) rfl rfl) rfl rfl
  | @requestKeyframe _ _ _ mid _ hwriter rid kind ih =>
      rw [writer_eq hwriter]
      exact Logged.congr (ih.log (.requestedKeyframe mid kind) rfl rfl) rfl rfl
  | offered _ sdp tracks ih => exact ih.log _ rfl rfl
  | queuedOpen _ track offering ih => exact ih.log _ rfl rfl

theorem mid_injective : Function.Injective mid := by
  intro n m h
  have hname : "s" ++ toString n = "s" ++ toString m := congrArg Mid.name h
  have hnat : (toString n).toNat? = (toString m).toNat? :=
    congrArg String.toNat? (String.append_right_inj "s" |>.mp hname)
  simpa only [Nat.toString_eq_repr, Nat.toNat?_repr, Option.some.injEq] using hnat

end Puppet

/-! ### The laws it keeps -/

theorem scripted_announcesOnce : scripted.AnnouncesOnce := fun _ _ h => by
  have hlogged := Puppet.logged h
  rw [hlogged.announced]
  exact hlogged.once

theorem scripted_freshMids : scripted.FreshMids := fun _ _ h => by
  rw [(Puppet.logged h).created]
  exact List.nodup_range.map Puppet.mid_injective

theorem scripted_offersChanges : scripted.OffersChanges where
  sdpApi _ := rfl
  addMedia _ _ _ _ := rfl
  stopMedia _ _ := rfl
  apply change h := by
    simp only [scripted] at h ⊢
    simp [h]

theorem scripted_deadIsMute : scripted.DeadIsMute := fun rtc mid h => by
  simp only [scripted] at h ⊢
  simp [h]

theorem scripted_dropsChanges : scripted.DropsChanges := fun _ => rfl

theorem scripted_answersKeepAlive : scripted.AnswersKeepAlive := fun _ _ _ h _ => h

theorem scripted_stableTimeout : scripted.StableTimeout := by
  rintro ⟨ufrag, alive, inbox, outbox, announced, nextMid⟩ rtc' wake hpoll
  cases outbox with
  | succ outbox => cases hpoll
  | zero =>
      cases inbox with
      | nil =>
          cases hpoll
          rfl
      | cons event inbox => cases hpoll

/-! ### Scripts for the loop -/

namespace Puppet

/-- `user` joins `room` with an instance at `ufrag`. -/
def joins (user room ufrag : String) : Command × String :=
  (.join { claims := { sub := user, room := room, callId := "call", name := user,
                       avatarUrl := "" },
           sdp := "offer" }, ufrag)

/-- The m-line `name` of a browser is announced. -/
def announces (name : String) (kind : MediaKind) : RtcEvent Unit Unit :=
  .mediaAdded { mid := ⟨name⟩, kind := kind }

/-- A packet of the m-line `name` arrives. -/
def packet (name : String) : RtcEvent Unit Unit :=
  .mediaData { mid := ⟨name⟩, contiguous := true, params := (),
               extVals := { audioLevel := none, voiceActivity := none },
               networkTime := 0, time := (), data := [1, 2, 3] }

/-- A packet of the m-line `name` with someone's voice in it arrives. -/
def voice (name : String) : RtcEvent Unit Unit :=
  .mediaData { mid := ⟨name⟩, contiguous := true, params := (),
               extVals := { audioLevel := some (-30), voiceActivity := some true },
               networkTime := 0, time := (), data := [1, 2, 3] }

/-- One turn of the loop, with time enough to poll every peer of the rooms `order`. -/
def turn (commands : List (Command × String)) (order : List String) (heard : Option Cue) :
    Turn scripted where
  commands := commands
  pollNow := 0
  pollOrder := order
  clock _ _ := List.replicate 8 0
  reportOrder := order
  reapNow := 0
  reapOrder := order
  tickNow := 0
  tickOrder := order
  waitNow := 0
  heard := heard.map fun cue => (0, cue, order)
  endNow := 0
  endOrder := order

def config : Config where
  iceLite := true
  maxRoomPeers := 4

/-- Ann and Bob come to the red room, and Ann's voice is announced. -/
def meeting : List (Turn scripted) :=
  [turn [joins "ann" "red" "a", joins "bob" "red" "b"] ["red"]
      (some ⟨"a", [announces "0" .audio]⟩),
    turn [] ["red"] none, turn [] ["red"] none]

/-- Bob answers the offer, and hears Ann. -/
def talk : List (Turn scripted) :=
  meeting ++ [turn [(.answer ⟨2⟩ "answer", "")] ["red"] (some ⟨"a", [packet "0"]⟩),
    turn [] ["red"] none]

/-- A script that leads to an engine where `check` holds. -/
theorem plays (script : List (Turn scripted)) (check : Engine scripted → Bool)
    (h : ((Engine.loop scripted config).run (Engine.start config 0) script).any check = true) :
    ∃ engine, (Engine.loop scripted config).Reachable engine ∧ check engine = true := by
  obtain ⟨engine, hrun, hcheck⟩ := (Option.any_eq_true _ _).mp h
  exact ⟨engine, .of_run (.init ⟨0, rfl⟩) hrun, hcheck⟩

/-- A script that leads to the room `name`, in a state where `check` holds. -/
theorem stages (script : List (Turn scripted)) (name : String)
    (check : Room scripted → Bool)
    (h : ((Engine.loop scripted config).run (Engine.start config 0) script).any (fun engine =>
      (engine.rooms.lookup name).any check) = true) :
    ∃ engine room, (Engine.machine scripted config).Reachable engine ∧
      engine.rooms.lookup name = some room ∧ check room = true := by
  obtain ⟨engine, hreach, hany⟩ := plays script _ h
  obtain ⟨room, hroom, hcheck⟩ := (Option.any_eq_true _ _).mp hany
  exact ⟨engine, room, Engine.loop_reachable hreach, hroom, hcheck⟩

end Puppet

end FerriteSfu
