import FerriteSfu.Proto
import FerriteSfu.Lib.Retry
import Mathlib.Data.List.Forall2
import Mathlib.Data.List.Nodup
import Mathlib.Data.Option.Basic

/-!
`report::run`: the task that posts the reports to the host application.

Whether a post reaches the host and whether the task learns of it is for the
network to decide, attempt by attempt, so the network is an oracle. The
libraries that write JSON and sign bytes are parameters.
-/

namespace FerriteSfu

/-- A report as it is posted, with the id the host tells copies by. -/
structure Report where
  id : String
  event : ReportEvent
  deriving DecidableEq, Repr

abbrev Bytes := List UInt8

/-- What the libraries are called for. -/
structure Webhook where
  /-- `serde_json::to_vec`. -/
  toVec : Report → Option Bytes
  /-- HMAC-SHA256 of a message under a key. -/
  hmac : Bytes → Bytes → Bytes
  base64 : Bytes → String

/-- Base64 HMAC-SHA256 of the raw request body, keyed by the webhook secret. -/
def Webhook.sign (webhook : Webhook) (body : Bytes) (secret : String) : String :=
  webhook.base64 (webhook.hmac secret.toUTF8.toList body)

/-- One request. -/
structure Post where
  url : String
  contentType : String
  signature : String
  body : Bytes
  deriving DecidableEq, Repr

def Webhook.post (webhook : Webhook) (url secret : String) (body : Bytes) : Post where
  url := url
  contentType := "application/json"
  signature := webhook.sign body secret
  body := body

/-- What becomes of one attempt. A success status comes from the host, so
whatever is confirmed was received. -/
inductive Outcome
  | lost
  /-- The host has the body, but the task sees an error, a rejection or nothing. -/
  | unconfirmed
  | confirmed
  deriving DecidableEq, Repr

def Outcome.isConfirmed (outcome : Outcome) : Bool := outcome = .confirmed

def Outcome.isReceived (outcome : Outcome) : Bool := outcome ≠ .lost

/-- What the task does. -/
inductive Action
  | posted (post : Post) (outcome : Outcome)
  | slept (time : Duration)
  /-- The log has a report that did not go through. -/
  | dropped (event : ReportName) (room : String)
  deriving DecidableEq, Repr

namespace Report

/-- The boot announcement is the one report that must not be lost. -/
def attempts (report : Report) : ℕ := if report.event.event = .sfuStarted then 12 else 3

/-- The loop over the attempts from `attempt` on, with `rest` of them to go, and
whether the report was delivered. -/
def deliver (post : Post) (network : ℕ → Outcome) : ℕ → ℕ → List Action × Bool
  | _, 0 => ([], false)
  | attempt, rest + 1 =>
      match network attempt with
      | .confirmed => ([.posted post .confirmed], true)
      | outcome =>
          let backoff := min (250 * (attempt + 1)) 5000
          let others := deliver post network (attempt + 1) rest
          (.posted post outcome :: .slept (Duration.fromMillis backoff) :: others.1, others.2)

/-- `run` on the reports of its queue, the first of which is the `n`-th the
network is asked about. -/
def run (webhook : Webhook) (url secret : String) (network : ℕ → ℕ → Outcome) :
    ℕ → List Report → List Action
  | _, [] => []
  | n, report :: reports =>
      match webhook.toVec report with
      | none => run webhook url secret network (n + 1) reports
      | some body =>
          let delivered := deliver (webhook.post url secret body) (network n) 0 report.attempts
          delivered.1 ++
            (if delivered.2 then [] else [.dropped report.event.event report.event.room.name]) ++
            run webhook url secret network (n + 1) reports

end Report

/-! ### The exchanges with the host -/

/-- The request and its outcome, if the action is one. -/
def Action.exchange : Action → Option (Post × Outcome)
  | .posted post outcome => some (post, outcome)
  | .slept _ | .dropped _ _ => none

/-- The requests made, in order, with what became of them. -/
def exchanges (actions : List Action) : List (Post × Outcome) := actions.filterMap Action.exchange

/-- The bodies the host receives, in order. -/
def received (exchanges : List (Post × Outcome)) : List Bytes :=
  (exchanges.filter fun exchange => exchange.2.isReceived).map fun exchange => exchange.1.body

/-- Every report can be written as JSON. -/
def Webhook.Serializes (webhook : Webhook) (reports : List Report) : Prop :=
  ∀ report ∈ reports, (webhook.toVec report).isSome

/-- The host finds the id of a report in its body. -/
def Webhook.Identifies (webhook : Webhook) (readId : Bytes → Option String)
    (reports : List Report) : Prop :=
  ∀ report ∈ reports, ∀ body, webhook.toVec report = some body → readId body = some report.id

namespace Report

variable {webhook : Webhook} {url secret : String}

theorem deliver_exchanges (post : Post) (network : ℕ → Outcome) (attempt rest : ℕ) :
    exchanges (deliver post network attempt rest).1 =
      (Lib.tries Outcome.isConfirmed network attempt rest).map fun outcome => (post, outcome) := by
  induction rest generalizing attempt with
  | zero => rfl
  | succ rest ih =>
      rw [deliver, Lib.tries]
      cases houtcome : network attempt with
      | confirmed => rfl
      | lost | unconfirmed =>
          rw [if_neg (by simp [Outcome.isConfirmed]), List.map_cons, ← ih]
          rfl

/-- The attempts for one report: the same request every time, within bounds, and
no more once it is confirmed. -/
structure Round (webhook : Webhook) (url secret : String) (network : ℕ → Outcome) (report : Report)
    (round : List (Post × Outcome)) : Prop where
  same : ∃ body, webhook.toVec report = some body ∧
    ∀ exchange ∈ round, exchange.1 = webhook.post url secret body
  /-- What became of each attempt was for the network to decide. -/
  decided : ∀ attempt exchange, round[attempt]? = some exchange → exchange.2 = network attempt
  tried : 1 ≤ round.length
  bounded : round.length ≤ if report.event.event = .sfuStarted then 12 else 3
  stops : ∀ before exchange after, round = before ++ exchange :: after →
    exchange.2 = .confirmed → after = []
  /-- It is only given up when nothing is left to try. -/
  exhausts : (∀ exchange ∈ round, exchange.2 ≠ .confirmed) →
    round.length = if report.event.event = .sfuStarted then 12 else 3

theorem deliver_round {report : Report} {body : Bytes} (hbody : webhook.toVec report = some body)
    (network : ℕ → Outcome) :
    Round webhook url secret network report
      (exchanges (deliver (webhook.post url secret body) network 0 report.attempts).1) := by
  rw [deliver_exchanges]
  refine ⟨⟨body, hbody, ?same⟩, ?decided, ?tried, ?bounded, ?stops, ?exhausts⟩
  case same =>
    intro exchange hexchange
    obtain ⟨outcome, -, rfl⟩ := List.mem_map.mp hexchange
    rfl
  case decided =>
    intro attempt exchange hexchange
    rw [List.getElem?_map] at hexchange
    obtain ⟨outcome, houtcome, rfl⟩ := Option.map_eq_some_iff.mp hexchange
    simpa using Lib.eq_of_tries_getElem? houtcome
  case tried =>
    have hsome : ∃ n, report.attempts = n + 1 := by
      unfold attempts
      split
      · exact ⟨11, rfl⟩
      · exact ⟨2, rfl⟩
    obtain ⟨n, hn⟩ := hsome
    rw [List.length_map, hn]
    exact List.length_pos_of_ne_nil (Lib.tries_ne_nil 0 n)
  case bounded =>
    rw [List.length_map]
    exact Lib.tries_length_le 0 report.attempts
  case stops =>
    intro before exchange after hsplit hconfirmed
    obtain ⟨before', rest, htries, rfl, hrest⟩ := List.map_eq_append_iff.mp hsplit
    obtain ⟨outcome, after', rfl, rfl, rfl⟩ := List.map_eq_cons_iff.mp hrest
    rw [Lib.tries_stop htries (by simpa [Outcome.isConfirmed] using hconfirmed)]
    rfl
  case exhausts =>
    intro hnone
    rw [List.length_map]
    refine Lib.tries_exhaust fun outcome houtcome => ?_
    simpa [Outcome.isConfirmed] using hnone _ (List.mem_map_of_mem houtcome)

/-- **All attempts for a report come before any attempt for a later one.** -/
theorem run_rounds {reports : List Report} (h : webhook.Serializes reports)
    (network : ℕ → ℕ → Outcome) (n : ℕ) :
    ∃ rounds, List.Forall₂ (fun entry => Round webhook url secret (network entry.2) entry.1)
        (reports.zipIdx n) rounds ∧
      exchanges (run webhook url secret network n reports) = rounds.flatten := by
  induction reports generalizing n with
  | nil => exact ⟨[], .nil, rfl⟩
  | cons report reports ih =>
      obtain ⟨body, hbody⟩ := Option.isSome_iff_exists.mp (h report (List.mem_cons_self ..))
      obtain ⟨rounds, hrounds, hrest⟩ :=
        ih (fun other hother => h other (List.mem_cons_of_mem _ hother)) (n + 1)
      refine ⟨_, .cons (deliver_round hbody (network n)) hrounds, ?_⟩
      rw [List.flatten_cons, ← hrest, run, hbody]
      simp only [exchanges, List.filterMap_append]
      split <;> simp [Action.exchange]

/-! ### What the host makes of it -/

theorem received_flatten (rounds : List (List (Post × Outcome))) :
    received rounds.flatten = rounds.flatMap received := by
  induction rounds with
  | nil => rfl
  | cons round rounds ih =>
      rw [List.flatMap_cons, ← ih]
      simp [received]

/-- How the reports reach a host that tells copies by their ids. -/
structure InOrder (webhook : Webhook) (url secret : String) (readId : Bytes → Option String)
    (network : ℕ → ℕ → Outcome) (reports : List Report) : Prop where
  /-- There is one round for each report, one after the other. -/
  rounds : ∃ rounds, List.Forall₂
      (fun entry => Round webhook url secret (network entry.2) entry.1) reports.zipIdx rounds ∧
    exchanges (run webhook url secret network 0 reports) = rounds.flatten ∧
    -- The host keeps one body of each round of which any reached it.
    Lib.firsts readId (received (exchanges (run webhook url secret network 0 reports))) =
      ((reports.zip rounds).filter fun entry =>
        entry.2.any fun exchange => exchange.2.isReceived).filterMap fun entry =>
          webhook.toVec entry.1
  order :
    (Lib.firsts readId (received (exchanges (run webhook url secret network 0 reports)))).Sublist
      (reports.filterMap webhook.toVec)

/-- The host's view of some rounds. -/
theorem firsts_rounds {readId : Bytes → Option String} {reports : List Report}
    (hids : (reports.map Report.id).Nodup) (hreads : webhook.Identifies readId reports)
    {rounds : List (List (Post × Outcome))}
    (hrounds : List.Forall₂ (fun report round => ∃ network,
      Round webhook url secret network report round) reports rounds) :
    Lib.firsts readId (received rounds.flatten) =
      ((reports.zip rounds).filter fun entry =>
        entry.2.any fun exchange => exchange.2.isReceived).filterMap fun entry =>
          webhook.toVec entry.1 := by
  have hlength := hrounds.length_eq
  have hsnd : rounds = (reports.zip rounds).map Prod.snd :=
    (List.map_snd_zip (Nat.le_of_eq hlength.symm)).symm
  have hfst : reports = (reports.zip rounds).map Prod.fst :=
    (List.map_fst_zip (Nat.le_of_eq hlength)).symm
  let body (entry : Report × List (Post × Outcome)) : Bytes := (webhook.toVec entry.1).getD []
  have hbody : ∀ entry ∈ reports.zip rounds, webhook.toVec entry.1 = some (body entry) ∧
      readId (body entry) = some entry.1.id ∧
      ∀ exchange ∈ entry.2, exchange.1.body = body entry := by
    intro entry hentry
    obtain ⟨network, hround⟩ := List.forall₂_zip hrounds (a := entry.1) (b := entry.2) hentry
    obtain ⟨bytes, hbytes, hsame⟩ := hround.same
    have heq : body entry = bytes := by simp [body, hbytes]
    rw [heq]
    exact ⟨hbytes, hreads _ (List.of_mem_zip hentry).1 bytes hbytes,
      fun exchange hexchange => congrArg Post.body (hsame exchange hexchange)⟩
  have hkeys : ((reports.zip rounds).map fun entry => readId (body entry)).Nodup := by
    have hmap : ((reports.zip rounds).map fun entry => readId (body entry)) =
        (reports.map Report.id).map some := by
      conv_rhs => rw [hfst, List.map_map, List.map_map]
      exact List.map_congr_left fun entry hentry => (hbody entry hentry).2.1
    rw [hmap]
    exact hids.map (Option.some_injective _)
  have hcopies : ∀ entry ∈ reports.zip rounds, ∀ bytes ∈ received entry.2,
      bytes = body entry := by
    intro entry hentry bytes hbytes
    obtain ⟨exchange, hexchange, rfl⟩ := List.mem_map.mp hbytes
    exact (hbody entry hentry).2.2 exchange (List.mem_of_mem_filter hexchange)
  have hblocks : received rounds.flatten =
      (reports.zip rounds).flatMap fun entry => received entry.2 := by
    rw [received_flatten]
    conv_lhs => rw [hsnd, List.flatMap_map]
  have hsome : ((reports.zip rounds).filter fun entry => !(received entry.2).isEmpty) =
      (reports.zip rounds).filter fun entry =>
        entry.2.any fun exchange => exchange.2.isReceived := by
    refine List.filter_congr fun entry _ => ?_
    rw [Bool.eq_iff_iff]
    simp [received]
  rw [hblocks, Lib.firsts_flatMap readId hcopies hkeys, hsome, ← List.filterMap_eq_map]
  refine List.filterMap_congr fun entry hentry => ?_
  exact ((hbody entry (List.mem_of_mem_filter hentry)).1).symm

/-- **Reports reach the host in order, whatever is repeated on the way.** -/
theorem run_inOrder {readId : Bytes → Option String} {reports : List Report}
    (hids : (reports.map Report.id).Nodup) (hwrites : webhook.Serializes reports)
    (hreads : webhook.Identifies readId reports) (network : ℕ → ℕ → Outcome) :
    InOrder webhook url secret readId network reports := by
  obtain ⟨rounds, hrounds, hflat⟩ := @run_rounds webhook url secret reports hwrites network 0
  have hsame : List.Forall₂ (fun report round => ∃ network,
      Round webhook url secret network report round) reports rounds := by
    rw [← List.zipIdx_map_fst 0 reports, List.forall₂_map_left_iff]
    exact hrounds.imp fun entry round hround => ⟨network entry.2, hround⟩
  have hhost := firsts_rounds hids hreads hsame
  rw [← hflat] at hhost
  refine ⟨⟨rounds, hrounds, hflat, hhost⟩, ?_⟩
  have hfst : (reports.zip rounds).map Prod.fst = reports :=
    List.map_fst_zip (Nat.le_of_eq hsame.length_eq)
  have hemitted : reports.filterMap webhook.toVec =
      (reports.zip rounds).filterMap fun entry => webhook.toVec entry.1 := by
    conv_lhs => rw [← hfst, List.filterMap_map]
    rfl
  rw [hhost, hemitted]
  exact List.filter_sublist.filterMap _

/-! ### A boot and an arrival -/

/-- A report as JSON, when its texts need no escapes. -/
def json (report : Report) : String :=
  "\x7b\"id\":\"" ++ report.id ++ "\",\"event\":\"" ++ report.event.event.text ++
    "\",\"room\":\x7b\"name\":\"" ++ report.event.room.name ++ "\"\x7d" ++
    (report.event.participant.map fun participant =>
      ",\"participant\":\x7b\"identity\":\"" ++ participant.identity ++ "\"\x7d").getD "" ++
    (report.event.track.map fun track =>
      ",\"track\":\x7b\"source\":\"" ++ track.source ++ "\"\x7d").getD "" ++ "\x7d"

def ascii (text : String) : Bytes := text.toList.map fun c => c.toNat.toUInt8

def boot : Report where
  id := "1f"
  event := .new .sfuStarted ""

def arrival : Report where
  id := "2e"
  event := (ReportEvent.new .participantJoined "red").identity "ann"

/-- The MACs of the two bodies under the key `secret`, and their base64. -/
def plain : Webhook where
  toVec report := some (ascii report.json)
  hmac _ message :=
    if message = ascii boot.json then
      [46, 183, 106, 19, 237, 252, 240, 229, 235, 185, 164, 194, 44, 37, 24, 79,
        121, 88, 82, 92, 55, 140, 208, 54, 188, 235, 114, 213, 255, 213, 140, 100]
    else
      [97, 4, 83, 69, 226, 174, 181, 31, 51, 219, 69, 184, 72, 19, 227, 157,
        231, 167, 66, 108, 71, 144, 131, 6, 223, 178, 71, 13, 230, 146, 133, 62]
  base64 bytes :=
    if bytes.head? = some 46 then "LrdqE+388OXruaTCLCUYT3lYUlw3jNA2vOty1f/VjGQ="
    else "YQRTReKutR8z20W4SBPjneenQmxHkIMG37JHDeaShT4="

/-- The text of the first field of a JSON object. -/
def firstField (body : Bytes) : Option String :=
  some (String.ofList (((body.drop 7).takeWhile (· ≠ 34)).map fun byte => Char.ofNat byte.toNat))

/-- The boot is confirmed the second time it is received, the arrival is
received once in three attempts. -/
def flaky (n attempt : ℕ) : Outcome :=
  if n = 0 then if attempt = 0 then .unconfirmed else .confirmed
  else if attempt = 1 then .unconfirmed else .lost

theorem run_inOrder_boot :
    (exchanges (run plain "host" "secret" flaky 0 [boot, arrival])).map Prod.snd =
        [.unconfirmed, .confirmed, .lost, .unconfirmed, .lost] ∧
      InOrder plain "host" "secret" firstField flaky [boot, arrival] := by
  refine ⟨by rfl, run_inOrder (by decide) (fun _ _ => rfl) ?_ flaky⟩
  intro report hreport body hbody
  obtain rfl : ascii report.json = body := Option.some.inj hbody
  rcases List.mem_pair.mp hreport with rfl | rfl <;> rfl

end Report

end FerriteSfu
