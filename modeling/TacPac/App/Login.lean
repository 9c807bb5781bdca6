import TacPac.App.Completions

/-!
# What `login` tells its caller

`nil` for no error and logged in, or a message. Only a 400 has a message: every other
refusal is reported as a success, and nobody asks whether the Keychain has taken the token
(`login_truthful`).
-/

namespace TacPac.App.TacPacServer

open TacPac.Lib

/-! ## What it does with an outcome -/

/-- The request of `login`. -/
def loginRequest (username password : Utf16) : URLRequest :=
  ⟨urlBase ++ utf16 "/token", none, none, loginBody username password⟩

/-- The app, once a response has brought `token`. -/
def Client.loggedIn (client : Client) (env : Surroundings) (token : Utf16) : Client :=
  ⟨some token, if env.keychain then some token else client.keychain⟩

section Outcomes

variable (f : Foundation) (client : Client) (keychain : Bool) (username password : Utf16)

/-- Without a response the app traps on the cast of the error. -/
theorem login_failed :
    run ⟨.failed, keychain⟩ client (login f username password)
      = (.error .badCast, ⟨client, [loginRequest username password], []⟩) := rfl

theorem login_refused {statusCode : Int} (h : statusCode ≠ 200) (data : Data) :
    run ⟨.responded statusCode data, keychain⟩ client (login f username password)
      = (.ok (), ⟨client, [loginRequest username password],
          [if statusCode = 400 then some (utf16 "Invalid username or password!") else none]⟩) := by
  show Proc.run _ (if statusCode ≠ 200 then _ else _) _ = _
  rw [if_pos h]
  rfl

theorem login_token {statusCode : Int} (hok : statusCode = 200) {data : Data} {token : Utf16}
    (h : accessToken f data = some token) :
    run ⟨.responded statusCode data, keychain⟩ client (login f username password)
      = (.ok (), ⟨client.loggedIn ⟨.responded statusCode data, keychain⟩ token,
          [loginRequest username password], [none]⟩) := by
  obtain ⟨members, hmembers, hlookup⟩ := Option.bind_eq_some_iff.mp h
  obtain ⟨json, hjson, hobject⟩ := Option.bind_eq_some_iff.mp hmembers
  show Proc.run _ (if statusCode ≠ 200 then _ else _) _ = _
  rw [if_neg (not_not_intro hok), hjson]
  show Proc.run _ (cast json.asObject >>= _) _ = _
  rw [hobject]
  show Proc.run _ (cast ((members.lookup (utf16 "access_token")).bind Json.asString) >>= _) _ = _
  rw [hlookup]
  cases keychain with
  | false => rfl
  | true => rfl

/-- Nothing is stored and nobody is told, whether or not the app traps. -/
theorem login_noToken {statusCode : Int} (hok : statusCode = 200) {data : Data}
    (h : accessToken f data = none) :
    (run ⟨.responded statusCode data, keychain⟩ client (login f username password)).2
      = ⟨client, [loginRequest username password], []⟩ := by
  show (Proc.run _ (if statusCode ≠ 200 then _ else _) _).2 = _
  rw [if_neg (not_not_intro hok)]
  unfold accessToken at h
  cases hjson : f.jsonObject data with
  | none => rfl
  | some json =>
      rw [hjson, Option.bind_some] at h
      show (Proc.run _ (cast json.asObject >>= _) _).2 = _
      cases hobject : json.asObject with
      | none => rfl
      | some members =>
          rw [hobject, Option.bind_some] at h
          show (Proc.run _ (cast ((members.lookup (utf16 "access_token")).bind Json.asString)
            >>= _) _).2 = _
          rw [h]
          rfl

end Outcomes

/-! ## Whether that is the truth -/

/-- The response was a 200 with a token, and `after` has it in both places. -/
def LoggedIn (f : Foundation) (outcome : Outcome) (after : Client) : Prop :=
  Arrived (fun statusCode data => statusCode = 200 ∧ ∃ token, accessToken f data = some token
    ∧ after.token = some token ∧ after.keychain = some token) outcome

/-- What the completion of `login` is for. -/
structure Truthful (f : Foundation) (env : Surroundings) (client : Client)
    (after : Progress (Option Utf16)) : Prop where
  /-- No error is a login. -/
  success : none ∈ after.completions ↔ LoggedIn f env.outcome after.client
  /-- Anything else is an error, and the token stays what it was. -/
  failure : ¬ LoggedIn f env.outcome after.client →
    (∃ message, some message ∈ after.completions) ∧ after.client = client

/-- A refusal that has a message, or a token that both places have or can take. -/
def Reportable (f : Foundation) (env : Surroundings) (client : Client) : Prop :=
  Arrived (fun statusCode data => statusCode = 400 ∨ statusCode = 200
    ∧ ∃ token, accessToken f data = some token
      ∧ (env.keychain = true ∨ client.keychain = some token)) env.outcome

section Truthful

variable {f : Foundation} {client after : Client} {keychain : Bool} {request : URLRequest}

theorem not_loggedIn {statusCode : Int} {data : Data}
    (h : statusCode = 200 → accessToken f data = none) :
    ¬ LoggedIn f (.responded statusCode data) after := by
  rintro ⟨hok, token, htoken, -⟩
  rw [h hok] at htoken
  cases htoken

theorem loggedIn_iff {data : Data} {token : Utf16} (h : accessToken f data = some token) :
    LoggedIn f (.responded 200 data) (client.loggedIn ⟨.responded 200 data, keychain⟩ token)
      ↔ keychain = true ∨ client.keychain = some token := by
  constructor
  · rintro ⟨-, t, ht, htoken, hkeychain⟩
    obtain rfl := Option.some.inj (h.symm.trans ht)
    cases keychain with
    | true => exact Or.inl rfl
    | false => exact Or.inr hkeychain
  · intro hstored
    refine ⟨rfl, token, h, rfl, ?_⟩
    cases keychain with
    | true => rfl
    | false => exact hstored.resolve_left Bool.false_ne_true

/-- Nobody is told. -/
theorem not_truthful_silent {env : Surroundings} (h : ¬ LoggedIn f env.outcome after) :
    ¬ Truthful f env client ⟨after, [request], []⟩ := by
  intro ht
  obtain ⟨⟨message, hmem⟩, -⟩ := ht.failure h
  cases hmem

variable (f client keychain)
variable (username password : Utf16)

theorem truthful_refused {statusCode : Int} (hok : statusCode ≠ 200) (data : Data) :
    Truthful f ⟨.responded statusCode data, keychain⟩ client
        (run ⟨.responded statusCode data, keychain⟩ client (login f username password)).2
      ↔ statusCode = 400 := by
  rw [login_refused f client keychain username password hok]
  have hout : ¬ LoggedIn f (.responded statusCode data) client :=
    not_loggedIn fun h => absurd h hok
  by_cases hbad : statusCode = 400
  · rw [if_pos hbad]
    refine iff_of_true ⟨iff_of_false ?_ hout, fun _ => ⟨⟨_, List.mem_cons_self⟩, rfl⟩⟩ hbad
    intro hmem
    cases List.mem_singleton.mp hmem
  · rw [if_neg hbad]
    exact iff_of_false (fun ht => hout (ht.success.mp List.mem_cons_self)) hbad

theorem truthful_token {data : Data} {token : Utf16} (h : accessToken f data = some token) :
    Truthful f ⟨.responded 200 data, keychain⟩ client
        (run ⟨.responded 200 data, keychain⟩ client (login f username password)).2
      ↔ keychain = true ∨ client.keychain = some token := by
  rw [login_token f client keychain username password rfl h]
  constructor
  · -- it has been told of a login
    intro ht
    exact (loggedIn_iff h).mp (ht.success.mp List.mem_cons_self)
  · intro hstored
    have hin : LoggedIn f _ (client.loggedIn ⟨.responded 200 data, keychain⟩ token) :=
      (loggedIn_iff h).mpr hstored
    exact ⟨iff_of_true List.mem_cons_self hin, fun hout => absurd hin hout⟩

end Truthful

/-- **What `login` tells its caller** is true exactly of these outcomes. -/
theorem login_truthful (f : Foundation) (env : Surroundings) (client : Client)
    (username password : Utf16) :
    Truthful f env client (run env client (login f username password)).2
      ↔ Reportable f env client := by
  obtain ⟨outcome, keychain⟩ := env
  cases outcome with
  | failed =>
      rw [login_failed]
      exact iff_of_false (not_truthful_silent id) id
  | responded statusCode data =>
      by_cases hok : statusCode = 200
      · subst hok
        cases htoken : accessToken f data with
        | none =>
            rw [login_noToken f client keychain username password rfl htoken]
            refine iff_of_false (not_truthful_silent (not_loggedIn fun _ => htoken)) ?_
            rintro (hcode | ⟨-, token, ht, -⟩)
            · exact absurd hcode (by decide)
            · cases htoken.symm.trans ht
        | some token =>
            refine (truthful_token f client keychain username password htoken).trans ?_
            constructor
            · exact fun hstored => Or.inr ⟨rfl, token, htoken, hstored⟩
            · rintro (hcode | ⟨-, t, ht, hstored⟩)
              · exact absurd hcode (by decide)
              · obtain rfl := Option.some.inj (htoken.symm.trans ht)
                exact hstored
      · refine (truthful_refused f client keychain username password hok data).trans ?_
        exact (or_iff_left fun h => hok h.1).symm

/-- A server that has broken down: no error. -/
theorem login_broken :
    ¬ ∀ (f : Foundation) (env : Surroundings) (client : Client) (username password : Utf16),
      Truthful f env client (run env client (login f username password)).2 := by
  intro h
  have ht := h onEmpty ⟨.responded 500 [], true⟩ ⟨none, none⟩ (utf16 "ann@jhu.edu") (utf16 "x")
  obtain ⟨hcode, -⟩ := ht.success.mp List.mem_cons_self
  exact absurd hcode (by decide)

end TacPac.App.TacPacServer
