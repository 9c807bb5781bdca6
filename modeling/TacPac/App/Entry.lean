import TacPac.App.Bodies
import TacPac.App.Login
import TacPac.App.Wire
import TacPac.Web.Passwords

/-!
# Getting in from the app

`login` of `TacPacServer`, and the request that it makes, as the web application serves it
among any others. What comes of it is decided by what the server reads of it at one place in
the order of things, and what is read is what has been typed if forms keep that (`login_run`).
-/

namespace TacPac.App.TacPacServer

open TacPac.Lib

open TacPac.Web (Accounts Endpoint Exn Grant Response Times Visit Visits WebApp acts
  accessTokenExpireTimeSpan directoryAt tokenEndpoint validateClientAuthentication)

/-- What the app and the web application make of each other's messages. -/
structure Gate where
  foundation : Foundation
  web : WebApp
  /-- The forms of the token endpoint. -/
  owin : Form.Decoder
  /-- The value of a name in a form. -/
  value : Form.Fields → Utf16 → Option Utf16
  /-- The body of a token response, with the parameters that are added to it. -/
  tokenResponse : Utf16 → List (Utf16 × Option Utf16) → Data
  errorResponse : Utf16 → Utf16 → Data
  error : Exn → Data

namespace Gate

variable (g : Gate)

/-- What is sent is what is read. -/
structure Lawful : Prop where
  value : ∀ (fields : Form.Fields) name v,
    fields.filter (fun f => f.1 = name) = [(name, v)] → g.value fields name = some v
  token : ∀ token parameters,
    accessToken g.foundation (g.tokenResponse token parameters) = some token

/-- The grant that is asked for. The client gives no id. -/
def grant (fields : Form.Fields) : Option Endpoint :=
  if validateClientAuthentication none
      ∧ g.value fields (utf16 "grant_type") = some (utf16 "password") then
    (g.value fields (utf16 "username")).bind fun userName =>
      (g.value fields (utf16 "password")).map fun password => .token userName password
  else none

/-- A request for a token. Two slashes in an address are as good as one. -/
def serve (request : URLRequest) : Option Endpoint :=
  if request.url = urlBase ++ utf16 "/token" then g.grant (g.owin.decode request.body) else none

/-- The request of an operation, as the server gets it. -/
def served {α : Type} (client : Client) (op : Operation α Unit) : Option Endpoint :=
  (run ⟨.failed, true⟩ client op).2.requests.head?.bind g.serve

/-- The response of the token endpoint at this time. -/
def granted (utcNow : Nat) : Grant → Outcome
  | .validated ticket identity =>
      match g.web.issue utcNow (.token (.validated ticket identity)) with
      | some token => .responded 200 (g.tokenResponse token (tokenEndpoint ticket))
      | none => .responded 500 (g.error .nullReference)
  | .error error description => .responded 400 (g.errorResponse error description)

/-- The account that a request is served as. -/
def servedAs (utcNow : Nat) (request : URLRequest) : Option Utf16 :=
  (request.authorization.bind Wire.bearerToken).bind (g.web.servedAs utcNow)

end Gate

section Login

variable (g : Gate) (env : Surroundings) (client : Client) (username password : Utf16)

/-- `login` tells its caller that he is in, and what the app sends with the token is served as
the account for as long as tokens live, and not any longer. -/
def GetsIn (issuedUtc id : Nat) : Prop :=
  ∃ token, run env client (login g.foundation username password)
      = (.ok (), ⟨client.loggedIn env token, [loginRequest username password], [none]⟩)
    ∧ ∀ utcNow place body, g.servedAs utcNow (authorized token place body)
      = if utcNow ≤ issuedUtc + accessTokenExpireTimeSpan then
          some (g.web.manager.userIdText id) else none

/-- `login` tells its caller that he is not, and the app has the token that it had. -/
def TurnedDown : Prop :=
  run env client (login g.foundation username password)
    = (.ok (), ⟨client, [loginRequest username password],
        [some (utf16 "Invalid username or password!")]⟩)

variable {g env client username password}

theorem decode_login {owin : Form.Decoder} (husername : owin.Keeps username)
    (hpassword : owin.Keeps password) :
    owin.decode (loginBody username password) = loginFields username password := by
  have hgrant : owin.Keeps (utf16 "password") :=
    ⟨by decide +kernel, by decide +kernel, owin.unescape_plain _ (by decide +kernel)⟩
  rw [loginBody_eq, Form.decode_joined owin (by simp [loginFields]) (loginFields_plain _ _)]
  simp [loginFields, hgrant, husername, hpassword]

/-- The server reads the two texts that have been typed. -/
theorem grant_login (hg : g.Lawful) :
    g.grant (loginFields username password) = some (.token username password) := by
  have hgrant : g.value (loginFields username password) (utf16 "grant_type")
      = some (utf16 "password") := hg.value _ _ _ rfl
  have husername : g.value (loginFields username password) (utf16 "username")
      = some username := hg.value _ _ _ rfl
  have hpassword : g.value (loginFields username password) (utf16 "password")
      = some password := hg.value _ _ _ rfl
  rw [Gate.grant, if_pos ⟨rfl, hgrant⟩, husername, hpassword]
  rfl

theorem served_login : g.served client (login g.foundation username password)
    = g.grant (g.owin.decode (loginBody username password)) := by
  show g.serve (loginRequest username password) = _
  exact if_pos rfl

/-- A login is served by the token endpoint, with what is read of it. -/
theorem served_login_cases (hg : g.Lawful) {r : Endpoint}
    (hserved : g.served client (login g.foundation username password) = some r) :
    ∃ userName word, r = .token userName word
      ∧ (g.owin.Keeps username → g.owin.Keeps password →
        userName = username ∧ word = password) := by
  rw [served_login] at hserved
  obtain ⟨-, hgrant⟩ := Option.ite_none_right_eq_some.mp hserved
  obtain ⟨userName, -, hword⟩ := Option.bind_eq_some_iff.mp hgrant
  obtain ⟨word, -, rfl⟩ := Option.map_eq_some_iff.mp hword
  refine ⟨userName, word, rfl, fun husername hpassword => ?_⟩
  rw [decode_login husername hpassword, grant_login hg] at hserved
  cases hserved
  exact ⟨rfl, rfl⟩

/-- A token that is granted is the one that `login` keeps. -/
theorem getsIn_of_granted (hg : g.Lawful) (hm : g.web.manager.Identifies)
    {user : Web.ApplicationUser} {issuedUtc : Nat}
    (henv : env.outcome = g.granted issuedUtc (Web.granted g.web.manager user)) :
    GetsIn g env client username password issuedUtc user.id := by
  obtain ⟨outcome, keychain⟩ := env
  obtain ⟨token, htoken⟩ : ∃ token,
      g.web.issue issuedUtc (.token (Web.granted g.web.manager user)) = some token :=
    ⟨_, Web.issue_granted g.web issuedUtc user⟩
  have houtcome : g.granted issuedUtc (Web.granted g.web.manager user) = .responded 200
      (g.tokenResponse token (Web.createProperties user.userName)) := by
    unfold Gate.granted Web.granted
    unfold Web.granted at htoken
    simp only [htoken]
    rfl
  obtain rfl : outcome = _ := henv.trans houtcome
  refine ⟨token, ?_, fun utcNow place body => ?_⟩
  · exact login_token g.foundation client keychain username password rfl (hg.token token _)
  · show ((some (utf16 "Bearer " ++ token)).bind Wire.bearerToken).bind _ = _
    rw [Option.bind_some, bearerToken_scheme, Option.bind_some]
    exact Web.servedAs_granted hm user htoken utcNow

theorem turnedDown_of_error {issuedUtc : Nat} {error description : Utf16}
    (henv : env.outcome = g.granted issuedUtc (.error error description)) :
    TurnedDown g env client username password := by
  obtain ⟨outcome, keychain⟩ := env
  obtain rfl : outcome = .responded 400 (g.errorResponse error description) := henv
  exact login_refused g.foundation client keychain username password (by decide) _

end Login

/-- The server has looked for an account with the name and the password that it has read, at
some place among all that is done. If there was one the caller gets in, and otherwise he is
turned down. -/
def Decided (g : Gate) (a : Accounts) (rs : List (Endpoint × List Bool)) (t : Times)
    (sched : List Nat) (i : Nat) (env : Surroundings) (client : Client)
    (username password userName word : Utf16) : Prop :=
  ∃ n who, (acts g.web a rs sched)[n]?
      = some (i, .enter (some (g.web.manager.upper userName)) word who)
    ∧ (∀ id, (directoryAt g.web a rs sched n).Opens
        (some (g.web.manager.upper userName)) word id →
          GetsIn g env client username password (t.answered i) id)
    ∧ ((∀ id, ¬ (directoryAt g.web a rs sched n).Opens
        (some (g.web.manager.upper userName)) word id) →
          TurnedDown g env client username password)

section Runs

variable {g : Gate} {a : Accounts} {rs : List (Endpoint × List Bool)} {t : Times}
  {sched : List Nat}

/-- A login that has been answered, by the place at which the server has looked. -/
theorem login_answered (hg : g.Lawful) (hm : g.web.manager.Identifies)
    (hrun : Web.Accessed g.web a rs sched) {i : Nat} {th : Visit} {grant : Grant}
    {username password userName word : Utf16} {client : Client} {env : Surroundings}
    (hi : (Visits.after g.web a rs sched).threads[i]? = some th)
    (htag : th.tag = .token userName word) (hleft : th.left = .ret (.token grant))
    (henv : env.outcome = g.granted (t.answered i) grant) :
    Decided g a rs t sched i env client username password userName word := by
  obtain ⟨n, who, hn, hwho, hanswer⟩ := Web.token_answered hrun hi htag hleft
  refine ⟨n, who, hn, fun id hopens => ?_, fun hnone => ?_⟩
  · have hid := (hwho id).mpr hopens
    rcases hanswer with ⟨user, huser, hgrant⟩ | ⟨hnobody, -⟩
    · cases hgrant
      obtain rfl : user.id = id := Option.some.inj (huser.symm.trans hid)
      exact getsIn_of_granted hg hm henv
    · rw [hnobody] at hid
      cases hid
  · rcases hanswer with ⟨user, huser, -⟩ | ⟨-, hgrant⟩
    · exact absurd ((hwho user.id).mp huser) (hnone user.id)
    · cases hgrant
      exact turnedDown_of_error henv

end Runs

/-- Bob has an account, and signs in after a day. -/
def bobUser : Web.ApplicationUser :=
  ⟨1, some (utf16 "bob@jhu.edu"), some (utf16 "bob@jhu.edu"), some (utf16 "Bob"),
    some (utf16 "Jones"), some (utf16 "01/02/1990")⟩

/-- What his token holds. -/
def bobTicket : Web.AuthenticationTicket :=
  ⟨some (Web.plainManager.createIdentityAsync bobUser Web.bearer),
    some (86400 + accessTokenExpireTimeSpan), Web.createProperties bobUser.userName⟩

/-- His has a short name, and any other is a number. -/
def bobFormat : Web.SecureDataFormat where
  protect ticket :=
    if ticket = bobTicket then utf16 "bob" else List.replicate (Encodable.encode ticket) 0
  unprotect text := if text = utf16 "bob" then some bobTicket else Encodable.decode text.length
  unprotect_protect ticket := by
    by_cases h : ticket = bobTicket
    · rw [if_pos h, if_pos rfl, h]
    · have hother : List.replicate (Encodable.encode ticket) 0 ≠ utf16 "bob" := by
        intro heq
        have hmem : (98 : UInt16) ∈ List.replicate (Encodable.encode ticket) 0 := by
          rw [heq]
          exact List.mem_cons_self
        exact absurd (List.eq_of_mem_replicate hmem) (by decide)
      rw [if_neg h, if_neg hother, List.length_replicate, Encodable.encodek]

/-- What an answer that carries this token says. -/
def plainGrant (token : Utf16) : Json :=
  .object [(utf16 "access_token", .string token), (utf16 "token_type", .string (utf16 "bearer")),
    (utf16 "expires_in", .number (utf16 "1209599"))]

/-- What the server answers him. -/
def bobAnswer : Data := ascii
  "\x7b\"access_token\":\"bob\",\"token_type\":\"bearer\",\"expires_in\":1209599\x7d"

/-- The values of a name, joined by commas. -/
def plainValue (fields : Form.Fields) (name : Utf16) : Option Utf16 :=
  match (fields.filter (fun f => f.1 = name)).map Prod.snd with
  | [] => none
  | v :: vs => some (vs.foldl (fun text v => text ++ utf16 "," ++ v) v)

/-- An application without a resolver, and what the app makes of its tokens. -/
def plainGate : Gate where
  foundation := { plainFoundation with
    jsonObject := fun data =>
      if data = bobAnswer then some (plainGrant (utf16 "bob"))
      else (Encodable.decode data.length).map plainGrant }
  web := { Web.plainApp with accessTokenFormat := bobFormat, resolves := false }
  owin := Form.percentDecoder
  value := plainValue
  tokenResponse token _ :=
    if token = utf16 "bob" then bobAnswer else List.replicate (Encodable.encode token) 0
  errorResponse error description := ascii "\x7b\"error\":\"" ++ error.map UInt16.toUInt8
    ++ ascii "\",\"error_description\":\"" ++ description.map UInt16.toUInt8 ++ ascii "\"\x7d"
  error _ := ascii "\x7b\"Message\":\"An error has occurred.\"\x7d"

theorem plainValue_single {fields : Form.Fields} {name v : Utf16}
    (h : fields.filter (fun f => f.1 = name) = [(name, v)]) :
    plainValue fields name = some v := by
  rw [plainValue, h]
  rfl

theorem plainGate_lawful : plainGate.Lawful := by
  refine ⟨fun _ _ _ h => plainValue_single h, ?_⟩
  · intro token parameters
    have hgrant : ∀ token, ((some (plainGrant token)).bind Json.asObject).bind
        (fun json => (json.lookup (utf16 "access_token")).bind Json.asString) = some token :=
      fun token => rfl
    show ((plainGate.foundation.jsonObject (if token = utf16 "bob" then bobAnswer else _)).bind
      Json.asObject).bind _ = _
    by_cases hbob : token = utf16 "bob"
    · rw [if_pos hbob, hbob]
      exact hgrant _
    · have hother : List.replicate (Encodable.encode token) 0 ≠ bobAnswer := by
        intro heq
        have hmem : (98 : UInt8) ∈ List.replicate (Encodable.encode token) 0 := by
          rw [heq]
          decide +kernel
        exact absurd (List.eq_of_mem_replicate hmem) (by decide)
      rw [if_neg hbob]
      have hread : plainGate.foundation.jsonObject (List.replicate (Encodable.encode token) 0)
          = some (plainGrant token) := by
        refine (if_neg hother).trans ?_
        rw [List.length_replicate, Encodable.encodek]
        rfl
      rw [hread]
      exact hgrant token

/-- What Bob types is kept. -/
theorem keeps_bob : plainGate.owin.Keeps (utf16 "bob@jhu.edu")
    ∧ plainGate.owin.Keeps (utf16 "Secret1!") :=
  ⟨⟨by decide +kernel, by decide +kernel, by decide +kernel⟩,
    ⟨by decide +kernel, by decide +kernel, by decide +kernel⟩⟩

/-- Bob has an account, and has measured once. -/
def bobAccounts : Accounts :=
  ⟨⟨[bobUser], [], [⟨1⟩], [⟨1, ⟨1, 0x4014000000000000, some (utf16 "10:30")⟩⟩], 2, 2⟩,
    fun id => if id = 1 then some (utf16 "Secret1!") else none⟩

theorem intact_bob : bobAccounts.Intact plainGate.web.manager := by
  refine ⟨List.nodup_singleton _, List.nodup_nil, by simp [bobAccounts], fun id hid => ?_⟩
  by_cases h : id = 1
  · exact ⟨bobUser, List.mem_cons_self, h.symm⟩
  · exact absurd (if_neg h) hid

theorem sound_bob : (bobAccounts.directory plainGate.web.manager).Sound := by
  have hbob : ∀ {id h}, (bobAccounts.directory plainGate.web.manager).holder id = some h →
      id = 1 := by
    intro id h hh
    obtain ⟨u, hu, rfl, rfl⟩ := (Web.holder_eq_some intact_bob).mp hh
    rw [List.mem_singleton.mp hu]
    rfl
  refine ⟨fun id h hh => ?_, fun id id' h h' hh hh' _ => ?_⟩
  · rw [hbob hh]
    exact Nat.one_lt_two
  · rw [hbob hh, hbob hh']

/-- He measures on one phone while he signs in on another. -/
def bobEntry : List (Endpoint × List Bool) :=
  [(.patient (.add 1 (some ⟨0, 0x4014000000000000, some (utf16 "10:45")⟩)), []),
    (.token (utf16 "bob@jhu.edu") (utf16 "Secret1!"), [])]

/-- Two days, in seconds. -/
def bobTimes : Times := ⟨fun i => i * 86400, fun i => i * 86400⟩

end TacPac.App.TacPacServer
