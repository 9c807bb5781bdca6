import TacPac.App.Entry
import TacPac.Web.Journal
import TacPac.Web.Mail

/-!
# Exporting from the app

The export screen, the request that it makes, and what `sendEmail` does with it while the web
application serves others. The screen goes back only if one mail has been sent, with what the
account had uploaded by one moment, and it complains only if none has; and what is read of the
mail is what it was made from as long as no time has markup in it (`export_run`).
-/

namespace TacPac.App.TacPacServer

open TacPac.Lib

open TacPac.Web (Accounts Endpoint Host MailClient Measurement NumberFormat Reads Response Visit
  Visits entries filed filings rowsOf tableMail)

/-- A web application that mails. -/
structure Office extends Gate where
  /-- The reader of a body that is a JSON string. -/
  reader : JsonString.Reader
  /-- The body of a `string`. -/
  text : Utf16 → Data

namespace Office

variable (o : Office)

/-- The request is one for `sendEmail`, served as somebody; a body that is no JSON string is
bound to null. -/
def Serves (utcNow : Nat) (request : URLRequest) (r : Endpoint) : Prop :=
  request.url = urlBase ++ utf16 "api/Tacpac/sendEmail"
    ∧ ∃ me, o.servedAs utcNow request = some (o.web.manager.userIdText me)
      ∧ r = .sendEmail me (o.reader.read request.body)

/-- What comes back of a request for `sendEmail` that has got this far. -/
def outcome : Web.ManagerHandler Response → Outcome
  | .ret (.sendEmail text) => .responded 200 (o.text text)
  | .raise e => .responded 500 (o.error e)
  | _ => .failed

end Office

/-- The request of an export. -/
def exportRequest (token email : Utf16) : URLRequest :=
  authorized token (utf16 "api/Tacpac/sendEmail") (exportBody email)

/-! ## The screen -/

/-- The spinner is up. -/
def ExportScreen.waiting (screen : ExportScreen) : ExportScreen :=
  { screen with animating := true, editing := false }

theorem requests_export {client : Client} {token : Utf16} (htoken : client.token = some token)
    (email : Utf16) : (run ⟨.failed, true⟩ client (TacPacServer.export email)).2.requests
      = [exportRequest token email] := by
  unfold TacPacServer.export
  rw [run_post htoken]
  rfl

theorem sendPressed_eq {env : Surroundings} {client : Client} {token : Utf16}
    (htoken : client.token = some token) (screen : ExportScreen) :
    screen.sendPressed env client = match env.outcome with
      | .failed => screen.waiting
      | .responded statusCode _ => screen.waiting.completed
          (if statusCode = 200 then none else some (utf16 "Error Occured")) := by
  unfold ExportScreen.sendPressed TacPacServer.export
  rw [run_post htoken]
  cases env.outcome with
  | failed => rfl
  | responded statusCode data =>
      by_cases hok : statusCode = 200
      · simp only [if_pos hok]
        rfl
      · simp only [if_neg hok]
        rfl

/-! ## Runs -/

/-- What the screen looks like when its request has got this far, and what has been mailed. -/
inductive Exported (o : Office) (a : Accounts) (rs : List (Endpoint × List Bool))
    (sched : List Nat) (i : Nat) (th : Visit) (me : Nat) (reads : MailClient)
    (screen : ExportScreen) : ExportScreen → Prop
  /-- No answer has come. -/
  | waiting : Exported o a rs sched i th me reads screen screen.waiting
  /-- An error: nothing has been mailed. -/
  | failed : th.own.sent = [] → Exported o a rs sched i th me reads screen
      (screen.waiting.completed (some (utf16 "Error Occured")))
  /-- What the account had uploaded by some turn of the request, neither its first nor after
  its answer, has been mailed, and if that is what has been typed, to whom it was typed. -/
  | sent (address : Utf16) (pre rest : List Nat) (list : List Measurement) :
      (o.reader.Keeps screen.emailText → address = screen.emailText) →
      o.web.manager.toHost.mailAddresses address = true →
      sched = pre ++ i :: rest → i ∈ pre → ¬ (Visits.after o.web a rs pre).Answered i →
      list = rowsOf (a.store.measurements
        ++ filed a.store.nextMeasurement (filings (entries o.web a rs pre))) me →
      th.own.sent = [tableMail o.web.manager.toHost address list] →
      (Reads o.web.manager.toHost reads list
        ↔ ∀ m ∈ list, reads.markup.Inert (m.time.getD [])) →
      Exported o a rs sched i th me reads screen (screen.waiting.completed none)

section Runs

variable {o : Office} {a : Accounts} {rs : List (Endpoint × List Bool)} {sched : List Nat}

/-- An export that has been answered. -/
theorem exported_of_answer (hnum : NumberFormat o.web.manager.toHost) {i me : Nat} {th : Visit}
    {x : Response} {screen : ExportScreen} (reads : MailClient)
    (hi : (Visits.after o.web a rs sched).threads[i]? = some th)
    (htag : th.tag = .sendEmail me (o.reader.read (exportBody screen.emailText)))
    (hleft : th.left = .ret x) :
    Exported o a rs sched i th me reads screen (screen.waiting.completed none) := by
  obtain ⟨address, hread, haddress, pre, rest, hsched, hmem, hpending, hsent⟩ :=
    Web.sendEmail_answered hi htag hleft
  rw [Web.measurements_after] at hsent
  refine .sent address pre rest _ (fun hkeeps => ?_) haddress hsched hmem hpending rfl hsent
    (Web.reads_iff hnum reads _)
  rw [exportBody_eq, (JsonString.read_quoted _).mpr hkeeps] at hread
  exact (Option.some.inj hread).symm

end Runs

/-- Anything may stand in a string, and follow it. -/
def bobOffice : Office where
  toGate := { plainGate with
    web := { plainGate.web with
      manager := { Web.plainManager with doubleText := Web.fiveText } } }
  reader := ⟨fun _ => true, fun _ => true, fun _ _ => rfl, rfl⟩
  text text := ascii "\"" ++ text.map UInt16.toUInt8 ++ ascii "\""

theorem bobOffice_format : NumberFormat bobOffice.web.manager.toHost :=
  ⟨Web.fiveHost_format.injective, Web.fiveHost_format.ordinary⟩

/-- He measures again while he exports. -/
def bobExport : List (Endpoint × List Bool) :=
  [(.sendEmail 1 (some (utf16 "bob@jhu.edu")), []),
    (.patient (.add 1 (some ⟨0, 0x4014000000000000, some (utf16 "10:45")⟩)), [])]

/-- He has typed his own address. -/
def bobScreen : ExportScreen := ⟨false, utf16 "bob@jhu.edu", true, none, false⟩

/-- What he has mailed has both. -/
def bobVisit : Visit :=
  ⟨.sendEmail 1 (some (utf16 "bob@jhu.edu")), .ret (.sendEmail []),
    ⟨[tableMail bobOffice.web.manager.toHost (utf16 "bob@jhu.edu")
      [⟨1, 0x4014000000000000, some (utf16 "10:30")⟩,
        ⟨2, 0x4014000000000000, some (utf16 "10:45")⟩]], []⟩⟩

end TacPac.App.TacPacServer
