import FerriteSfu.Main.Boot
import FerriteSfu.Loop.Rooms

/-!
The settings of a server, read from the environment once, and what they promise
about the server that runs under them.

A setting that must be there and is not, or that does not parse, keeps the server
from starting. A flag or a number that does not parse does not: it falls back, and
the number is kept within its bounds. So whatever the environment says, a server
that starts has a secret that its tokens are checked against, and room for at
least two and at most 64 in a call.
-/

namespace FerriteSfu

variable {S : Str0m}

/-! ### Texts -/

def toAsciiLowercase (text : String) : String := String.ofList (text.toList.map Char.toLower)

/-- The value of decimal digits that follow on `value`. -/
def digitsValue (value : ℕ) : List Char → Option ℕ
  | [] => some value
  | c :: rest =>
      if c.isDigit then digitsValue (10 * value + (c.toNat - '0'.toNat)) rest else none

/-- `str::parse::<usize>`: digits, perhaps after a plus sign, that make a value of
64 bits. -/
def parseUsize (text : String) : Option ℕ :=
  let digits := match text.toList with
    | '+' :: rest => rest
    | chars => chars
  if digits.isEmpty then none else (digitsValue 0 digits).filter fun value => value < 2 ^ 64

/-! ### The environment -/

/-- `env::var`, where it is no error. -/
abbrev Env := String → Option String

/-- The addresses of the machine. -/
structure Net where
  SocketAddr : Type
  IpAddr : Type
  parseSocketAddr : String → Option SocketAddr
  parseIpAddr : String → Option IpAddr
  /-- `guess_local_ip`: what the system picks. -/
  guessLocalIp : IpAddr

inductive ConfigError
  | missing (key : String)
  | invalid (value kind : String)
  deriving DecidableEq, Repr

/-- Everything the SFU reads from the environment, resolved once at boot. -/
structure Settings (net : Net) extends Config where
  httpBind : net.SocketAddr
  udpBind : net.SocketAddr
  publicIp : net.IpAddr
  sharedSecret : String
  webhookUrl : Option String
  webhookSecret : String

namespace Env

variable (env : Env)

def required (key : String) : Except ConfigError String :=
  match env key with
  | some value => if trim value ≠ "" then .ok (trim value) else .error (.missing key)
  | none => .error (.missing key)

def parseAddr (net : Net) (key fallback : String) : Except ConfigError net.SocketAddr :=
  let raw := (env key).getD fallback
  match net.parseSocketAddr (trim raw) with
  | some addr => .ok addr
  | none => .error (.invalid raw "socket address")

def flag (key : String) (fallback : Bool) : Bool :=
  match env key with
  | some value => toAsciiLowercase (trim value) ∈ ["1", "true", "yes"]
  | none => fallback

def number (key : String) (fallback min max : ℕ) : ℕ :=
  (((env key).bind fun value => parseUsize (trim value)).filter fun value =>
    decide (value ≥ min) && decide (value ≤ max)).getD fallback

/-- A text that may be left out. -/
def optional (key : String) : Option String :=
  ((env key).map trim).filter fun value => value ≠ ""

def publicIp (net : Net) : Except ConfigError net.IpAddr :=
  match env "SFU_PUBLIC_IP" with
  | some value =>
      if trim value ≠ "" then
        match net.parseIpAddr (trim value) with
        | some ip => .ok ip
        | none => .error (.invalid value "IP address")
      else .ok net.guessLocalIp
  | none => .ok net.guessLocalIp

end Env

/-- `Config::from_env`. -/
def Settings.fromEnv (net : Net) (env : Env) : Except ConfigError (Settings net) := do
  let httpBind ← env.parseAddr net "SFU_BIND_HTTP" "0.0.0.0:7898"
  let udpBind ← env.parseAddr net "SFU_BIND_UDP" "0.0.0.0:7899"
  let sharedSecret ← env.required "SFU_SHARED_SECRET"
  let publicIp ← env.publicIp net
  return {
    httpBind := httpBind
    udpBind := udpBind
    publicIp := publicIp
    sharedSecret := sharedSecret
    webhookUrl := env.optional "SFU_WEBHOOK_URL"
    webhookSecret := (env.optional "SFU_WEBHOOK_SECRET").getD sharedSecret
    iceLite := env.flag "SFU_ICE_LITE" false
    maxRoomPeers := env.number "SFU_MAX_ROOM_PEERS" 16 2 64 }

/-- What the sessions and the media loop get of the settings. -/
def Settings.state {net : Net} (settings : Settings net) (codec : Codec) : AppState where
  codec := codec
  sharedSecret := settings.sharedSecret
  config := settings.toConfig

/-! ### What holds of the settings -/

theorem exists_of_bind_eq_ok {ε α β : Type} {x : Except ε α} {f : α → Except ε β} {b : β}
    (h : (x >>= f) = .ok b) : ∃ a, x = .ok a ∧ f a = .ok b := by
  cases x with
  | error e => cases h
  | ok a => exact ⟨a, rfl, h⟩

namespace Env

variable {env : Env}

/-- The environment sets a number that is within its bounds. -/
def Sets (env : Env) (key : String) (min max value : ℕ) : Prop :=
  (∃ text, env key = some text ∧ parseUsize (trim text) = some value) ∧ min ≤ value ∧ value ≤ max

/-- A number is as it was set, and falls back where it was not. -/
theorem number_eq (env : Env) (key : String) (fallback min max : ℕ) :
    (∀ value, env.Sets key min max value → env.number key fallback min max = value) ∧
      ((∀ value, ¬env.Sets key min max value) → env.number key fallback min max = fallback) := by
  have hfilter : ∀ value, (((env key).bind fun text => parseUsize (trim text)).filter fun value =>
      decide (value ≥ min) && decide (value ≤ max)) = some value ↔ env.Sets key min max value := by
    intro value
    simp [Option.filter_eq_some_iff, Option.bind_eq_some_iff, Sets]
  refine ⟨fun value hset => ?_, fun hnone => ?_⟩
  · rw [number, (hfilter value).mpr hset]
    rfl
  · rw [number, Option.eq_none_iff_forall_ne_some.mpr fun value hsome =>
      hnone value ((hfilter value).mp hsome)]
    rfl

theorem required_eq_ok {key value : String} (h : env.required key = .ok value) :
    value ≠ "" ∧ ∃ raw, env key = some raw ∧ value = trim raw := by
  unfold required at h
  split at h
  · split at h <;> cases h
    rename_i raw hraw hblank
    exact ⟨hblank, raw, hraw, rfl⟩
  · cases h

theorem optional_ne {key value : String} (h : env.optional key = some value) : value ≠ "" :=
  of_decide_eq_true (Option.filter_eq_some_iff.mp h).2

end Env

/-- Settings that a server can run under. -/
structure Settings.Sound {net : Net} (env : Env) (settings : Settings net) : Prop where
  secret : ∃ raw, env "SFU_SHARED_SECRET" = some raw ∧ settings.sharedSecret = trim raw
  nonblank : settings.sharedSecret ≠ ""
  webhookUrl : settings.webhookUrl ≠ some ""
  webhookSecret : settings.webhookSecret ≠ ""
  set : ∀ limit, env.Sets "SFU_MAX_ROOM_PEERS" 2 64 limit → settings.maxRoomPeers = limit
  unset : (∀ limit, ¬env.Sets "SFU_MAX_ROOM_PEERS" 2 64 limit) → settings.maxRoomPeers = 16

theorem Settings.Sound.peers {net : Net} {env : Env} {settings : Settings net}
    (h : settings.Sound env) : 2 ≤ settings.maxRoomPeers ∧ settings.maxRoomPeers ≤ 64 := by
  by_cases hset : ∃ limit, env.Sets "SFU_MAX_ROOM_PEERS" 2 64 limit
  · obtain ⟨limit, hlimit⟩ := hset
    rw [h.set limit hlimit]
    exact hlimit.2
  · rw [h.unset (not_exists.mp hset)]
    decide

theorem Settings.fromEnv_sound {net : Net} {env : Env} {settings : Settings net}
    (h : Settings.fromEnv net env = .ok settings) : settings.Sound env := by
  obtain ⟨httpBind, -, h⟩ := exists_of_bind_eq_ok h
  obtain ⟨udpBind, -, h⟩ := exists_of_bind_eq_ok h
  obtain ⟨sharedSecret, hsecret, h⟩ := exists_of_bind_eq_ok h
  obtain ⟨publicIp, -, h⟩ := exists_of_bind_eq_ok h
  cases h
  obtain ⟨hnonblank, hread⟩ := Env.required_eq_ok hsecret
  refine ⟨hread, hnonblank, fun h => Env.optional_ne h rfl, ?_,
    (Env.number_eq env "SFU_MAX_ROOM_PEERS" 16 2 64).1,
    (Env.number_eq env "SFU_MAX_ROOM_PEERS" 16 2 64).2⟩
  show (env.optional "SFU_WEBHOOK_SECRET").getD sharedSecret ≠ ""
  cases hwebhook : env.optional "SFU_WEBHOOK_SECRET" with
  | none => exact hnonblank
  | some value => exact Env.optional_ne hwebhook

/-! ### A server under its settings -/

/-- What the environment promises about the rooms of a server. -/
structure Process.Configured (env : Env) (codec : Codec) (events : List (ProcessEvent S))
    (process : Process S) : Prop where
  /-- No call is larger than was set. -/
  set : ∀ limit, env.Sets "SFU_MAX_ROOM_PEERS" 2 64 limit →
    ∀ name room, process.engine.rooms.lookup name = some room → room.peers.length ≤ limit
  /-- None is larger than 16 where nothing was set that will do. -/
  unset : (∀ limit, ¬env.Sets "SFU_MAX_ROOM_PEERS" 2 64 limit) →
    ∀ name room, process.engine.rooms.lookup name = some room → room.peers.length ≤ 16
  /-- Everybody was let in by the first frame of a session, with a token under the secret
  that was set, which is not blank. -/
  admitted : ∀ name room, process.engine.rooms.lookup name = some room → ∀ peer ∈ room.peers,
    ∃ s before text after token sdp secret claims,
      (process.sessions s).assigned = some (some peer.id) ∧
      events = before ++ .read s (some (.text text)) :: after ∧
      (∀ incoming, .read s incoming ∉ before) ∧
      codec.parse text = some (.join token sdp) ∧
      env "SFU_SHARED_SECRET" = some secret ∧ trim secret ≠ "" ∧
      codec.decode (trim token) (trim secret) = .ok claims ∧ claims.Names name peer

/-- The first frame of a session, found among the events of a run. -/
theorem Process.frames_find {events : List (ProcessEvent S)} {s : ℕ} {incoming : Option Incoming}
    (h : (events.flatMap frames).find? (fun entry => entry.1 = s) = some (s, incoming)) :
    ∃ before after, events = before ++ .read s incoming :: after ∧
      ∀ incoming', .read s incoming' ∉ before := by
  rw [List.find?_flatMap, List.findSome?_eq_some_iff] at h
  obtain ⟨before, event, after, rfl, hfound, hbefore⟩ := h
  refine ⟨before, after, ?_, ?_⟩
  · cases event with
    | read s' incoming' =>
        simp only [frames, List.find?_singleton] at hfound
        split at hfound <;> cases hfound
        rfl
    | announce | serve | accept | resume | stopWriting | interrupt | finish | giveUp | returns |
        exit | receive | loop | fail => cases hfound
  · intro incoming' hmem
    simpa [frames] using hbefore _ hmem

/-- **A server that starts keeps to its settings.** -/
theorem Process.run_configured {net : Net} {env : Env} {settings : Settings net}
    (hsettings : Settings.fromEnv net env = .ok settings) {codec : Codec} {now : Instant}
    {events : List (ProcessEvent S)} {process : Process S}
    (hrun : (machine S (settings.state codec)).run (start settings.toConfig now) events =
      some process) : process.Configured env codec events := by
  have hsound := Settings.fromEnv_sound hsettings
  have hreach : (machine S (settings.state codec)).Reachable process :=
    .of_run (.init ⟨now, rfl⟩) hrun
  have hsize : ∀ name room, process.engine.rooms.lookup name = some room →
      room.peers.length ≤ settings.maxRoomPeers := by
    intro name room hroom
    obtain ⟨hengine, hconfig⟩ := Engine.reachable_sound (reachable_engine hreach)
    have hpeers : process.engine.config.maxRoomPeers = settings.maxRoomPeers := by
      rw [hconfig]
      rfl
    have hroomy : 1 ≤ process.engine.config.maxRoomPeers := by
      rw [hpeers]
      exact Nat.le_of_succ_le hsound.peers.1
    rw [← hpeers]
    exact (hengine.structured hroomy).capacity name room hroom
  constructor
  case set => exact fun limit hlimit => hsound.set limit hlimit ▸ hsize
  case unset => exact fun hnone => hsound.unset hnone ▸ hsize
  case admitted =>
    intro name room hroom peer hpeer
    obtain ⟨steps, system, hruns⟩ := run_system hrun
    rw [hruns.engine] at hroom
    obtain ⟨s, request, howns, ⟨incoming, hfirst, hadmits⟩, hnames⟩ :=
      (System.run_authentic hruns.run).admitted name peer
        (Engine.mem_call_peers.mpr ⟨room, hroom, hpeer⟩)
    obtain ⟨text, token, rfl, hparse, hverify⟩ := Codec.admitJoin_eq_ok.mp hadmits
    obtain ⟨hdecode, -⟩ := Codec.verify_eq_ok hverify
    obtain ⟨more, hmore⟩ := hruns.frames
    have hfound : (events.flatMap frames).find? (fun entry => entry.1 = s) =
        some (s, some (.text text)) := by
      rw [← hmore, List.find?_append, hfirst, Option.some_or]
    obtain ⟨before, after, hevents, hbefore⟩ := frames_find hfound
    obtain ⟨secret, hsecret, heq⟩ := hsound.secret
    have hnonblank := hsound.nonblank
    rw [heq] at hnonblank
    exact ⟨s, before, text, after, token, request.sdp, secret, request.claims,
      (hruns.assigned s).trans howns, hevents, hbefore, hparse, hsecret, hnonblank,
      heq ▸ hdecode, hnames⟩

namespace Puppet

/-- A machine without a network. -/
def lan : Net where
  SocketAddr := ℕ × ℕ
  IpAddr := ℕ
  parseSocketAddr text :=
    if text = "0.0.0.0:7898" then some (0, 7898)
    else if text = "0.0.0.0:7899" then some (0, 7899) else none
  parseIpAddr _ := none
  guessLocalIp := 2130706433

def environment : Env := fun key =>
  if key = "SFU_SHARED_SECRET" then some "secret\n"
  else if key = "SFU_MAX_ROOM_PEERS" then some " +04" else none

def settings : Settings lan where
  iceLite := false
  maxRoomPeers := 4
  httpBind := (0, 7898)
  udpBind := (0, 7899)
  publicIp := (2130706433 : ℕ)
  sharedSecret := "secret"
  webhookUrl := none
  webhookSecret := "secret"

end Puppet

theorem Process.run_configured_opens :
    Settings.fromEnv Puppet.lan Puppet.environment = .ok Puppet.settings ∧
    ∃ process room, (machine scripted (Puppet.settings.state Puppet.state.codec)).run
        (start Puppet.settings.toConfig 0) (Puppet.opens.take 7) = some process ∧
      process.engine.rooms.lookup "red" = some room ∧ room.peers ≠ [] ∧
      process.Configured Puppet.environment Puppet.state.codec (Puppet.opens.take 7) := by
  have hsettings : Settings.fromEnv Puppet.lan Puppet.environment = .ok Puppet.settings := by
    rfl
  obtain ⟨process, hrun, hcheck⟩ := (Option.any_eq_true _ _).mp (by decide +kernel :
    ((machine scripted (Puppet.settings.state Puppet.state.codec)).run
      (start Puppet.settings.toConfig 0) (Puppet.opens.take 7)).any (fun process =>
        (process.engine.rooms.lookup "red").any fun room => !room.peers.isEmpty) = true)
  obtain ⟨room, hroom, hpeers⟩ := (Option.any_eq_true _ _).mp hcheck
  exact ⟨hsettings, process, room, hrun, hroom, by simpa using hpeers,
    run_configured hsettings hrun⟩

end FerriteSfu
