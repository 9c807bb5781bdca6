import TacPac.App.Server

/-!
# When the server calls back

Every operation of `TacPacServer`, on every outcome of its request. Each is supposed to
call its completion once; what keeps it from that is a transport error (for `login` the
app traps on it), a success that `signup` keeps to itself, and a response that is not what
a force unwrap or a forced cast takes it for (`settled`). The export screen waits for the
completion before it takes its spinner away.
-/

namespace TacPac.App.TacPacServer

open TacPac.Lib

/-- Where the app keeps the server's token. -/
structure Client where
  token : Option Utf16
  keychain : Option Utf16

/-- What the app runs on: the outcome of its request, and whether the Keychain can be
written. -/
structure Surroundings where
  outcome : Outcome
  keychain : Bool

/-- What an operation has come to: what it has sent, and what its completion was called with. -/
structure Progress (α : Type) where
  client : Client
  requests : List URLRequest
  completions : List α

/-- A call, of an app in these surroundings. -/
def perform {α : Type} (env : Surroundings) : Exec (Call α) Call.Res Crash (Progress α)
  | .dataTask request, w => (.ok env.outcome, { w with requests := w.requests ++ [request] })
  | .token, w => (.ok w.client.token, w)
  | .setToken token, w => (.ok (), { w with client := { w.client with token := some token } })
  | .setKeychain token, w =>
      if env.keychain then
        (.ok true, { w with client := { w.client with keychain := some token } })
      else (.ok false, w)
  | .completion arguments, w => (.ok (), { w with completions := w.completions ++ [arguments] })

/-- An operation, to its end or its trap. -/
def run {α : Type} (env : Surroundings) (client : Client) (op : Operation α Unit) :
    Except Crash Unit × Progress α :=
  Proc.run (perform env) op ⟨client, [], []⟩

/-- From here on, the operation calls its completion exactly once, and does not trap. -/
def OnceFrom {α : Type} (env : Surroundings) (w : Progress α) (op : Operation α Unit) : Prop :=
  (Proc.run (perform env) op w).1 = .ok ()
    ∧ (Proc.run (perform env) op w).2.completions.length = w.completions.length + 1

/-- The operation calls its completion exactly once, and does not trap. -/
def CallsBackOnce {α : Type} (env : Surroundings) (client : Client) (op : Operation α Unit) :
    Prop :=
  (run env client op).1 = .ok () ∧ (run env client op).2.completions.length = 1

section Once

variable {α β : Type} {env : Surroundings} {w : Progress α}

theorem onceFrom_completion (env : Surroundings) (w : Progress α) (arguments : α) :
    OnceFrom env w (completion arguments) :=
  ⟨rfl, List.length_append⟩

theorem not_onceFrom_ret : ¬ OnceFrom env w (.ret ()) := by
  rintro ⟨-, hlen⟩
  change w.completions.length = w.completions.length + 1 at hlen
  omega

theorem not_onceFrom_raise {e : Crash} : ¬ OnceFrom env w (.raise e) := by
  rintro ⟨hok, -⟩
  cases hok

/-- A force unwrap or a forced cast, and what follows it. -/
theorem onceFrom_orRaise {e : Crash} {x : Option β} {k : β → Operation α Unit} :
    OnceFrom env w (Proc.orRaise e x >>= k) ↔ ∃ a, x = some a ∧ OnceFrom env w (k a) := by
  cases x with
  | none => exact ⟨fun h => absurd h not_onceFrom_raise, fun ⟨a, ha, _⟩ => by cases ha⟩
  | some a => exact ⟨fun h => ⟨a, rfl, h⟩, fun ⟨b, hb, h⟩ => by cases hb; exact h⟩

theorem onceFrom_ite {c : Prop} [Decidable c] {p q : Operation α Unit} :
    OnceFrom env w (if c then p else q)
      ↔ (c → OnceFrom env w p) ∧ (¬ c → OnceFrom env w q) := by
  by_cases hc : c
  · simp [hc]
  · simp [hc]

theorem onceFrom_dataTask {request : URLRequest} {k : Outcome → Operation α Unit} :
    OnceFrom env w (dataTask request >>= k)
      ↔ OnceFrom env { w with requests := w.requests ++ [request] } (k env.outcome) := Iff.rfl

theorem onceFrom_token {k : Option Utf16 → Operation α Unit} :
    OnceFrom env w (Proc.ask Call.token >>= k) ↔ OnceFrom env w (k w.client.token) := Iff.rfl

/-- The token is stored, as far as the Keychain lets it, and the completion called. -/
theorem onceFrom_stored (token : Utf16) (arguments : α) :
    OnceFrom env w (do
      setToken token
      let _stored ← setKeychain token
      completion arguments) := by
  obtain ⟨outcome, _ | _⟩ := env
  · exact onceFrom_completion ⟨outcome, false⟩
      { w with client := { w.client with token := some token } } arguments
  · exact onceFrom_completion ⟨outcome, true⟩
      { w with client := ⟨some token, some token⟩ } arguments

end Once

/-- The response has arrived, and it is as said. -/
def Arrived (p : Int → Data → Prop) : Outcome → Prop
  | .failed => False
  | .responded statusCode data => p statusCode data

/-- The token that a response carries. -/
def accessToken (f : Foundation) (data : Data) : Option Utf16 :=
  ((f.jsonObject data).bind Json.asObject).bind fun json =>
    (json.lookup (utf16 "access_token")).bind Json.asString

/-- The measurement that an item of a response is. -/
def measured (f : Foundation) (item : Json) : Option TacMeasurement :=
  ((item.member "concentration").bind f.asDouble).bind fun concentration =>
    ((item.member "time").bind Json.asString).bind fun time =>
      ((item.member "id").bind f.asInt).map fun id => ⟨some id, concentration, time⟩

section Operations

variable {f : Foundation} {env : Surroundings} {client : Client}

theorem login_once (username password : Utf16) :
    CallsBackOnce env client (login f username password)
      ↔ Arrived (fun statusCode data => statusCode = 200 → (accessToken f data).isSome)
          env.outcome := by
  refine onceFrom_dataTask.trans ?_
  cases env.outcome with
  | failed => exact iff_of_false not_onceFrom_raise id
  | responded statusCode data =>
      show _ ↔ (statusCode = 200 → (accessToken f data).isSome)
      by_cases hok : statusCode = 200
      · simp only [hok, ne_eq, not_true_eq_false, if_false, true_implies, accessToken]
        cases f.jsonObject data with
        | none => exact iff_of_false not_onceFrom_ret Bool.false_ne_true
        | some json =>
            refine onceFrom_orRaise.trans ?_
            rw [Option.bind_some]
            cases json.asObject with
            | none => simp
            | some members =>
                simp only [Option.some.injEq, exists_eq_left', Option.bind_some]
                refine onceFrom_orRaise.trans ?_
                rw [Option.isSome_iff_exists]
                exact exists_congr fun token => and_iff_left (onceFrom_stored token none)
      · simp only [ne_eq, hok, not_false_eq_true, if_true, false_implies, iff_true]
        exact onceFrom_completion _ _ _

theorem signup_once (username password firstName lastName birthday : Utf16) :
    CallsBackOnce env client (signup f username password firstName lastName birthday)
      ↔ Arrived (fun statusCode data => statusCode ≠ 200 ∧ (f.utf8 data).isSome) env.outcome := by
  refine onceFrom_dataTask.trans ?_
  cases env.outcome with
  | failed => exact iff_of_false not_onceFrom_ret id
  | responded statusCode data =>
      show _ ↔ statusCode ≠ 200 ∧ (f.utf8 data).isSome
      by_cases hok : statusCode = 200
      · simp only [hok, ne_eq, not_true_eq_false, if_false, false_and, iff_false]
        exact not_onceFrom_ret
      · simp only [ne_eq, hok, not_false_eq_true, if_true, true_and]
        refine onceFrom_orRaise.trans ?_
        rw [Option.isSome_iff_exists]
        exact exists_congr fun Emsg => and_iff_left (onceFrom_completion _ _ _)

/-- **A request with the token**: its completion is called if a response arrives. -/
theorem postRequest_once {α : Type} {token : Utf16} (htoken : client.token = some token)
    (place body : Utf16) (done : Int → Data → Operation α Unit) :
    CallsBackOnce env client (POSTrequest place body done)
      ↔ Arrived (fun statusCode data => OnceFrom env
          ⟨client, [authorized token place body], []⟩ (done statusCode data)) env.outcome := by
  refine onceFrom_token.trans (onceFrom_orRaise.trans ?_)
  simp only [htoken, Option.some.injEq, exists_eq_left']
  refine onceFrom_dataTask.trans ?_
  cases env.outcome with
  | failed => exact iff_of_false not_onceFrom_ret id
  | responded statusCode data => exact Iff.rfl

theorem uploadMeasurement_once {token : Utf16} (htoken : client.token = some token)
    (measurement : TacMeasurement) :
    CallsBackOnce env client (uploadMeasurement f measurement)
      ↔ (measurement.toJSON f).isSome ∧ Arrived (fun _ _ => True) env.outcome := by
  refine onceFrom_orRaise.trans ?_
  rw [Option.isSome_iff_exists, ← exists_and_right]
  refine exists_congr fun body => and_congr_right fun _ => ?_
  refine (postRequest_once htoken _ body _).trans ?_
  simp only [onceFrom_completion]

theorem export_once {token : Utf16} (htoken : client.token = some token) (email : Utf16) :
    CallsBackOnce env client (TacPacServer.export email)
      ↔ Arrived (fun _ _ => True) env.outcome := by
  refine (postRequest_once htoken _ _ _).trans ?_
  simp only [onceFrom_ite, onceFrom_completion, implies_true, and_self]

theorem checkToken_once {token : Utf16} (htoken : client.token = some token) :
    CallsBackOnce env client (checkToken f)
      ↔ Arrived (fun statusCode data => statusCode = 200 → (f.utf8 data).isSome) env.outcome := by
  refine (postRequest_once htoken _ _ _).trans ?_
  simp only [onceFrom_ite, onceFrom_completion, implies_true, and_true, unwrap, onceFrom_orRaise,
    and_self, Option.isSome_iff_exists]

/-- The items are cast one by one, up to the first that is no measurement. -/
theorem measure_eq {α : Type} (item : Json) :
    measure f item = (cast (measured f item) : Operation α TacMeasurement) := by
  unfold measure measured
  cases (item.member "concentration").bind f.asDouble with
  | none => rfl
  | some concentration =>
      cases (item.member "time").bind Json.asString with
      | none => rfl
      | some time =>
          cases (item.member "id").bind f.asInt with
          | none => rfl
          | some id => rfl

theorem measureAll_eq {α : Type} (items : List Json) (mArray : List TacMeasurement) :
    items.foldlM (fun mArray item => do
      let measure ← measure f item
      return mArray ++ [measure]) mArray
    = (cast ((items.mapM (measured f)).map (mArray ++ ·)) : Operation α (List TacMeasurement)) := by
  simp only [measure_eq]
  exact Proc.foldlM_orRaise Crash.badCast (measured f) items mArray

theorem getMeasurements_once {token : Utf16} (htoken : client.token = some token) (amount : Int) :
    CallsBackOnce env client (getMeasurements f amount)
      ↔ Arrived (fun statusCode data => statusCode = 200 → ∀ json, f.jsonObject data = some json →
          ∃ items, json.asArray = some items ∧ ∀ item ∈ items, (measured f item).isSome)
          env.outcome := by
  refine (postRequest_once htoken _ _ _).trans ?_
  cases env.outcome with
  | failed => exact Iff.rfl
  | responded statusCode data =>
      show OnceFrom env _ (if statusCode = 200 then _ else _) ↔ (statusCode = 200 → _)
      rw [onceFrom_ite]
      refine (and_iff_left fun _ => onceFrom_completion _ _ _).trans (imp_congr_right fun _ => ?_)
      cases f.jsonObject data with
      | none => exact iff_of_true (onceFrom_completion _ _ _) fun json hjson => by cases hjson
      | some json =>
          simp only [Option.some.injEq, forall_eq']
          refine onceFrom_orRaise.trans (exists_congr fun items => and_congr_right fun _ => ?_)
          rw [measureAll_eq]
          refine onceFrom_orRaise.trans ?_
          simp only [onceFrom_completion, and_true, ← Option.isSome_iff_exists, Option.isSome_map]
          exact isSome_mapM_iff

end Operations

/-! ## The export screen -/

/-- `ExportViewController`, as far as `sendPressed` changes it. -/
structure ExportScreen where
  /-- The spinner is up. -/
  animating : Bool
  emailText : Utf16
  /-- The keyboard is up. -/
  editing : Bool
  alert : Option Utf16
  popped : Bool

/-- The completion of its request. -/
def ExportScreen.completed (screen : ExportScreen) (err : Option Utf16) : ExportScreen :=
  match err with
  | some e =>
      { screen with animating := false, emailText := [], editing := true, alert := some e }
  | none => { screen with animating := false, emailText := [], popped := true }

/-- `ExportViewController.sendPressed`, and all that comes of it. -/
def ExportScreen.sendPressed (env : Surroundings) (client : Client) (screen : ExportScreen) :
    ExportScreen :=
  (run env client (TacPacServer.export screen.emailText)).2.completions.foldl
    ExportScreen.completed { screen with animating := true, editing := false }

theorem sendPressed_animating {env : Surroundings} {client : Client} {token : Utf16}
    (htoken : client.token = some token) (screen : ExportScreen) :
    (screen.sendPressed env client).animating = false ↔ Arrived (fun _ _ => True) env.outcome := by
  have honce : CallsBackOnce env client (TacPacServer.export screen.emailText) ↔ _ :=
    export_once htoken _
  unfold ExportScreen.sendPressed
  obtain ⟨outcome, keychain⟩ := env
  cases outcome with
  | failed =>
      obtain ⟨token', entry⟩ := client
      obtain rfl : token' = some token := htoken
      -- no completion: the spinner is left as it is
      show true = false ↔ False
      simp
  | responded statusCode data =>
      obtain ⟨-, hlen⟩ := honce.mpr trivial
      obtain ⟨err, herr⟩ := List.length_eq_one_iff.mp hlen
      rw [herr]
      refine iff_of_true ?_ trivial
      cases err with
      | none => rfl
      | some e => rfl

/-! ## All of them -/

/-- When the six operations call back once, and when the spinner goes. -/
structure Settled (f : Foundation) (env : Surroundings) (client : Client) : Prop where
  login : ∀ username password, CallsBackOnce env client (login f username password)
    ↔ Arrived (fun statusCode data => statusCode = 200 → (accessToken f data).isSome) env.outcome
  signup : ∀ username password firstName lastName birthday,
    CallsBackOnce env client (signup f username password firstName lastName birthday)
      ↔ Arrived (fun statusCode data => statusCode ≠ 200 ∧ (f.utf8 data).isSome) env.outcome
  uploadMeasurement : ∀ measurement, CallsBackOnce env client (uploadMeasurement f measurement)
    ↔ (measurement.toJSON f).isSome ∧ Arrived (fun _ _ => True) env.outcome
  getMeasurements : ∀ amount, CallsBackOnce env client (getMeasurements f amount)
    ↔ Arrived (fun statusCode data => statusCode = 200 → ∀ json, f.jsonObject data = some json →
        ∃ items, json.asArray = some items ∧ ∀ item ∈ items, (measured f item).isSome) env.outcome
  exportTo : ∀ email, CallsBackOnce env client (TacPacServer.export email)
    ↔ Arrived (fun _ _ => True) env.outcome
  checkToken : CallsBackOnce env client (checkToken f)
    ↔ Arrived (fun statusCode data => statusCode = 200 → (f.utf8 data).isSome) env.outcome
  /-- The export screen's spinner. -/
  sendPressed : ∀ screen : ExportScreen, (screen.sendPressed env client).animating = false
    ↔ Arrived (fun _ _ => True) env.outcome

/-- **When the server calls back.** -/
theorem settled (f : Foundation) (env : Surroundings) {client : Client} {token : Utf16}
    (htoken : client.token = some token) : Settled f env client where
  login := login_once
  signup := signup_once
  uploadMeasurement := uploadMeasurement_once htoken
  getMeasurements := getMeasurements_once htoken
  exportTo := export_once htoken
  checkToken := checkToken_once htoken
  sendPressed := sendPressed_animating htoken

/-- Foundation, where the response is empty. -/
def onEmpty : Foundation where
  jsonObject _ := none
  isValidJSONObject _ := true
  data _ := none
  utf8 _ := some []
  contains s value := s.contains value
  asInt _ := none
  asDouble _ := none
  ofInt _ := none
  ofDouble _ := none

/-- An app with a token. -/
def signedIn : Client := ⟨some (utf16 "t0k"), some (utf16 "t0k")⟩

theorem settled_serverError :
    Settled onEmpty ⟨.responded 500 [], true⟩ signedIn
      ∧ CallsBackOnce ⟨.responded 500 [], true⟩ signedIn (checkToken onEmpty) := by
  have h : Settled onEmpty ⟨.responded 500 [], true⟩ signedIn := settled _ _ rfl
  exact ⟨h, h.checkToken.mpr fun hok => by cases hok⟩

/-- An export without a connection: the spinner stays. -/
theorem settled_offline :
    ¬ ∀ (f : Foundation) (env : Surroundings) (client : Client) (token : Utf16),
      client.token = some token →
      (∀ username password, CallsBackOnce env client (login f username password))
      ∧ (∀ username password firstName lastName birthday,
          CallsBackOnce env client (signup f username password firstName lastName birthday))
      ∧ (∀ measurement, CallsBackOnce env client (uploadMeasurement f measurement))
      ∧ (∀ amount, CallsBackOnce env client (getMeasurements f amount))
      ∧ (∀ email, CallsBackOnce env client (TacPacServer.export email))
      ∧ CallsBackOnce env client (checkToken f)
      ∧ ∀ screen : ExportScreen, (screen.sendPressed env client).animating = false := by
  intro h
  obtain ⟨-, -, -, -, -, -, hspinner⟩ := h onEmpty ⟨.failed, true⟩ signedIn _ rfl
  exact (sendPressed_animating rfl ⟨false, utf16 "ann@jhu.edu", true, none, false⟩).mp
    (hspinner _)

end TacPac.App.TacPacServer
