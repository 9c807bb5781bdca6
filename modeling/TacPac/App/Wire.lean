import Mathlib.Logic.Equiv.List
import TacPac.App.Completions
import TacPac.Web.Measurements

/-!
# The app and the web application

`uploadMeasurement` and `getMeasurements` of any number of apps, and the requests that they
make, as `TacpacController` serves them while they overlap. Between the two is what either
side makes of the other's JSON (`Wire`). What an app gets back is what the apps of the same
account have uploaded (`delivered_run`).
-/

namespace TacPac.App.TacPacServer

open TacPac.Lib

open TacPac.Web (Host Store Measurement MeasurementRow PatientRequest PatientAnswer Handler Commit
  Exn Filed IsPatient LastOf received commits filed rowsOf)

/-! ## What is sent -/

/-- What either side knows of the other. -/
structure Wire where
  foundation : Foundation
  /-- The account that a bearer token is served as. -/
  account : Utf16 → Option Nat
  /-- The server's reading of a body; a measurement it cannot read is null. -/
  readMeasurement : Utf16 → Option Measurement
  readInt32 : Utf16 → Option Int32
  /-- The bodies of its answers. -/
  measurements : List Measurement → Data
  text : Utf16 → Data
  error : Exn → Data
  /-- A `double` of a body, as the app parses it. -/
  double : UInt64 → Json
  /-- Either side reads this double from what the other writes for it. -/
  exact : UInt64 → Prop

namespace Wire

variable (w : Wire)

/-- A measurement in the body of an answer. -/
def item (m : Measurement) : Json :=
  .object [(utf16 "id", .number (utf16 (toString m.id.toInt))),
    (utf16 "concentration", w.double m.concentration),
    (utf16 "time", match m.time with
      | none => .null
      | some time => .string time)]

/-- The two sides keep to JSON. -/
structure Lawful : Prop where
  reads : ∀ (m : TacMeasurement) body, (∀ id ∈ m.id, -2 ^ 31 ≤ id ∧ id < 2 ^ 31) →
    w.exact m.concentration → m.toJSON w.foundation = some body →
      ∃ id, w.readMeasurement body = some ⟨id, m.concentration, some m.time⟩
  readsInt : ∀ amount : Int32, w.readInt32 (utf16 (toString amount.toInt)) = some amount
  writes : ∀ list, w.foundation.jsonObject (w.measurements list)
    = some (.array (list.map w.item))
  int : ∀ n : Int32, w.foundation.asInt (.number (utf16 (toString n.toInt))) = some n.toInt
  double : ∀ c, w.exact c → w.foundation.asDouble (w.double c) = some c

/-- What stands before the token. -/
def scheme : Utf16 := utf16 "Bearer "

/-- The token of an `Authorization` header. -/
def bearerToken (authorization : Utf16) : Option Utf16 :=
  if scheme.isPrefixOf authorization then some (authorization.drop scheme.length) else none

/-- What is asked of `TacpacController`; what is no `int` is bound to its default. -/
def action (request : URLRequest) (me : Nat) : Option PatientRequest :=
  if request.url = urlBase ++ utf16 "api/Tacpac/addMeasurement" then
    some (.add me (w.readMeasurement request.body))
  else if request.url = urlBase ++ utf16 "api/Tacpac/getPastMeasurement" then
    some (.getPast me ((w.readInt32 request.body).getD 0))
  else none

/-- The request, if its token is anybody's. -/
def route (request : URLRequest) : Option PatientRequest :=
  ((request.authorization.bind bearerToken).bind w.account).bind (w.action request)

/-- What comes back of a request that has got this far. -/
def outcome : Handler PatientAnswer → Outcome
  | .ret (.saved text) => .responded 200 (w.text text)
  | .ret (.past list) => .responded 200 (w.measurements list)
  | .raise e => .responded 500 (w.error e)
  | .call _ _ => .failed

end Wire

/-- One of the two operations. -/
inductive Remote where
  | upload (measurement : TacMeasurement)
  | past (amount : Int)

/-- An operation of an app, and which calls of its request will fail. -/
structure RemoteCall where
  token : Utf16
  remote : Remote
  faults : List Bool

namespace RemoteCall

variable (w : Wire) (call : RemoteCall)

/-- The app, with what it has in the Keychain. -/
def client (keychain : Option Utf16) : Client := ⟨some call.token, keychain⟩

/-- The requests of the operation. -/
def requests (env : Surroundings) (keychain : Option Utf16) : List URLRequest :=
  match call.remote with
  | .upload m => (run env (call.client keychain) (uploadMeasurement w.foundation m)).2.requests
  | .past amount =>
      (run env (call.client keychain) (getMeasurements w.foundation amount)).2.requests

/-- The request as the server gets it; there is none if the app traps before. -/
def served : Option (PatientRequest × List Bool) :=
  (call.requests w ⟨.failed, true⟩ none).head?.bind fun request =>
    (w.route request).map (·, call.faults)

/-- What the call has uploaded to the account `me`: a concentration, and a time. -/
def uploaded (me : Nat) : Option (UInt64 × Option Utf16) :=
  match call.remote with
  | .upload m =>
      if w.account call.token = some me then some (m.concentration, some m.time) else none
  | .past _ => none

/-- What is uploaded can be told. -/
def Told : Prop :=
  match call.remote with
  | .upload m => (∀ id ∈ m.id, -2 ^ 31 ≤ id ∧ id < 2 ^ 31) ∧ w.exact m.concentration
  | .past _ => True

end RemoteCall

/-! ### The requests of the operations -/

section Requests

variable (w : Wire)

theorem bearerToken_scheme (token : Utf16) :
    Wire.bearerToken (utf16 "Bearer " ++ token) = some token := by
  have hprefix : Wire.scheme.isPrefixOf (utf16 "Bearer " ++ token) = true :=
    List.isPrefixOf_iff_prefix.mpr (List.prefix_append _ _)
  rw [Wire.bearerToken, if_pos hprefix]
  exact congrArg some (@List.drop_left _ (utf16 "Bearer ") token)

theorem route_authorized (token place body : Utf16) :
    w.route (authorized token place body)
      = (w.account token).bind (w.action (authorized token place body)) := by
  have htoken : (authorized token place body).authorization.bind Wire.bearerToken = some token :=
    bearerToken_scheme token
  rw [Wire.route, htoken, Option.bind_some]

theorem action_addMeasurement (token body : Utf16) (me : Nat) :
    w.action (authorized token (utf16 "api/Tacpac/addMeasurement") body) me
      = some (.add me (w.readMeasurement body)) := if_pos rfl

theorem action_getPastMeasurement (token body : Utf16) (me : Nat) :
    w.action (authorized token (utf16 "api/Tacpac/getPastMeasurement") body) me
      = some (.getPast me ((w.readInt32 body).getD 0)) := by
  have hother : ¬ urlBase ++ utf16 "api/Tacpac/getPastMeasurement"
      = urlBase ++ utf16 "api/Tacpac/addMeasurement" := by
    rw [List.append_right_inj]
    decide
  exact (if_neg hother).trans (if_pos rfl)

/-- An operation that posts, as it runs. -/
theorem run_post {α : Type} {env : Surroundings} {client : Client} {token : Utf16}
    (htoken : client.token = some token) (place body : Utf16)
    (done : Int → Data → Operation α Unit) :
    run env client (POSTrequest place body done)
      = match env.outcome with
        | .failed => (.ok (), ⟨client, [authorized token place body], []⟩)
        | .responded statusCode data =>
            Proc.run (perform env) (done statusCode data)
              ⟨client, [authorized token place body], []⟩ := by
  obtain ⟨outcome, keychain⟩ := env
  obtain ⟨clientToken, stored⟩ := client
  cases htoken
  cases outcome <;> rfl

variable {w} {call : RemoteCall} {r : PatientRequest × List Bool}

/-- An upload is served as the account of its token. -/
theorem served_upload {m : TacMeasurement} (hcall : call.remote = .upload m)
    (h : call.served w = some r) :
    ∃ me body, w.account call.token = some me ∧ m.toJSON w.foundation = some body
      ∧ r = (.add me (w.readMeasurement body), call.faults) := by
  unfold RemoteCall.served RemoteCall.requests at h
  rw [hcall] at h
  simp only [uploadMeasurement] at h
  cases hbody : m.toJSON w.foundation with
  | none =>
      rw [hbody] at h
      cases h
  | some body =>
      rw [hbody, unwrap, Proc.orRaise, Proc.ret_bind, run_post rfl, List.head?_cons,
        Option.bind_some, route_authorized] at h
      cases hme : w.account call.token with
      | none =>
          rw [hme] at h
          cases h
      | some me =>
          rw [hme, Option.bind_some, action_addMeasurement] at h
          exact ⟨me, body, rfl, rfl, (Option.some.inj h).symm⟩

theorem served_past {amount : Int} (hcall : call.remote = .past amount)
    (h : call.served w = some r) :
    ∃ me, w.account call.token = some me
      ∧ r = (.getPast me ((w.readInt32 (utf16 (toString amount))).getD 0), call.faults) := by
  unfold RemoteCall.served RemoteCall.requests at h
  rw [hcall] at h
  simp only [getMeasurements] at h
  rw [run_post rfl, List.head?_cons, Option.bind_some, route_authorized] at h
  cases hme : w.account call.token with
  | none =>
      rw [hme] at h
      cases h
  | some me =>
      rw [hme, Option.bind_some, action_getPastMeasurement] at h
      exact ⟨me, rfl, (Option.some.inj h).symm⟩

end Requests

/-! ## What comes back -/

/-- What a measurement says: a concentration, and a time. -/
def reading (m : Measurement) : UInt64 × Option Utf16 := (m.concentration, m.time)

/-- What has been uploaded to the account `me`, of the measurements that were committed. -/
def uploads (w : Wire) (calls : List RemoteCall) (me : Nat) (cs : List Commit) :
    List (UInt64 × Option Utf16) :=
  cs.filterMap fun c => (calls[c.request]?).bind (·.uploaded w me)

section Answers

variable {w : Wire}

/-- A row that an app can read. -/
def Readable (w : Wire) (m : Measurement) : Prop := m.time.isSome ∧ w.exact m.concentration

/-- What the app makes of a row. -/
def delivered (m : Measurement) : TacMeasurement :=
  ⟨some m.id.toInt, m.concentration, m.time.getD []⟩

theorem measured_item (hw : w.Lawful) {m : Measurement} (hm : Readable w m) :
    measured w.foundation (w.item m) = some (delivered m) := by
  obtain ⟨id, concentration, time⟩ := m
  obtain ⟨htime, hexact⟩ := hm
  obtain ⟨time, rfl⟩ := Option.isSome_iff_exists.mp htime
  have hconcentration : (w.item ⟨id, concentration, some time⟩).member "concentration"
      = some (w.double concentration) := rfl
  have htime : (w.item ⟨id, concentration, some time⟩).member "time" = some (.string time) := rfl
  have hid : (w.item ⟨id, concentration, some time⟩).member "id"
      = some (.number (utf16 (toString id.toInt))) := rfl
  unfold measured
  rw [hconcentration, htime, hid, Option.bind_some, hw.double _ hexact, Option.bind_some,
    Option.bind_some, Option.bind_some, hw.int]
  rfl

/-- **Rows that can be read** are what `getMeasurements` completes with. -/
theorem run_getMeasurements (hw : w.Lawful) {list : List Measurement}
    (hlist : ∀ m ∈ list, Readable w m) (client : Client) {token : Utf16}
    (htoken : client.token = some token) (stored : Bool) (amount : Int) :
    (run ⟨.responded 200 (w.measurements list), stored⟩ client
        (getMeasurements w.foundation amount)).1 = .ok ()
    ∧ (run ⟨.responded 200 (w.measurements list), stored⟩ client
        (getMeasurements w.foundation amount)).2.completions
      = [(some (list.map delivered), none)] := by
  have hall : (list.map w.item).mapM (measured w.foundation) = some (list.map delivered) := by
    rw [mapM_eq_some_iff, List.map_map, List.map_map]
    exact List.map_congr_left fun m hm => measured_item hw (hlist m hm)
  unfold getMeasurements
  rw [run_post htoken]
  simp only [if_true, hw.writes, Json.asArray, cast, Proc.orRaise, Proc.ret_bind]
  rw [measureAll_eq, hall]
  exact ⟨rfl, rfl⟩

theorem readings_filed (me : Nat) (cs : List Commit) : ∀ key,
    (rowsOf (filed key cs) me).map reading
      = (cs.filter (fun c => c.patient = me)).map (fun c => reading c.measurement) := by
  induction cs with
  | nil => exact fun _ => rfl
  | cons c cs ih =>
      intro key
      have hrest := ih (key + 1)
      unfold rowsOf at hrest ⊢
      rw [filed, List.filter_cons, List.filter_cons]
      show (List.map _ (if decide (c.patient = me) = true then _ else _)).map reading = _
      by_cases hme : c.patient = me
      · rw [if_pos (decide_eq_true hme), if_pos (decide_eq_true hme), List.map_cons, List.map_cons,
          List.map_cons, hrest]
        rfl
      · rw [if_neg (by simpa using hme), if_neg (by simpa using hme), hrest]

end Answers

/-! ## Runs -/

/-- What a run of requests has come to for the apps that have made them. -/
structure Delivered (w : Wire) (host : Host) (s : Store) (calls : List RemoteCall)
    (reqs : List (PatientRequest × List Bool)) (sched : List Nat) : Prop where
  /-- The measurements are those there at the start and then, in order, what was committed. -/
  rows : ((received host s reqs).run (Web.exec host) sched).shared.measurements
    = s.measurements ++ filed s.nextMeasurement (commits host (received host s reqs) sched)
  /-- An upload that is told 200 is stored by its own request, under the account of its token
  and with what was measured, -/
  stored : ∀ i call m keychain env th, calls[i]? = some call → call.remote = .upload m →
    ((received host s reqs).run (Web.exec host) sched).threads[i]? = some th →
    env.outcome = w.outcome th.left →
    (run env (call.client keychain) (uploadMeasurement w.foundation m)).2.completions = [200] →
      ∃ me, w.account call.token = some me
        ∧ (∃ c ∈ commits host (received host s reqs) sched, c.request = i ∧ c.patient = me
          ∧ reading c.measurement = (m.concentration, some m.time))
        ∧ (m.concentration, some m.time) ∈ (rowsOf
          ((received host s reqs).run (Web.exec host) sched).shared.measurements me).map reading
  /-- and no upload is stored twice. -/
  once : ((commits host (received host s reqs) sched).map Commit.request).Nodup
  /-- A query that is answered completes once, and does not trap, with the last of what its
  account had uploaded before its third turn. -/
  measured : ∀ i call (amount : Int32) keychain env th answer, calls[i]? = some call →
    call.remote = .past amount.toInt → 0 ≤ amount.toInt →
    ((received host s reqs).run (Web.exec host) sched).threads[i]? = some th →
    th.left = .ret answer → env.outcome = w.outcome th.left →
    ∃ me pre rest list all, w.account call.token = some me
      ∧ sched = pre ++ i :: rest ∧ pre.count i = 2
      ∧ (run env (call.client keychain) (getMeasurements w.foundation amount.toInt)).1 = .ok ()
      ∧ (run env (call.client keychain)
          (getMeasurements w.foundation amount.toInt)).2.completions = [(some list, none)]
      ∧ all = (rowsOf s.measurements me).map reading
          ++ uploads w calls me (commits host (received host s reqs) pre)
      ∧ list.map (fun m => (m.concentration, some m.time))
          = all.drop (all.length - amount.toInt.toNat)
      ∧ list.Pairwise fun m m' => ∀ id ∈ m.id, ∀ id' ∈ m'.id, id < id'

section Run

variable {w : Wire} {host : Host} {s : Store} {calls : List RemoteCall}
  {reqs : List (PatientRequest × List Bool)}

theorem served_getElem (hreqs : calls.mapM (RemoteCall.served w) = some reqs) {i : Nat}
    {call : RemoteCall} (hi : calls[i]? = some call) :
    ∃ r, reqs[i]? = some r ∧ call.served w = some r := by
  have hmap := congrArg (fun l => l[i]?) (mapM_eq_some_iff.mp hreqs)
  simp only [List.getElem?_map, hi, Option.map_some] at hmap
  obtain ⟨r, hr, heq⟩ := Option.map_eq_some_iff.mp hmap.symm
  exact ⟨r, hr, heq.symm⟩

theorem call_of_request (hreqs : calls.mapM (RemoteCall.served w) = some reqs) {i : Nat}
    {r : PatientRequest × List Bool} (hi : reqs[i]? = some r) :
    ∃ call, calls[i]? = some call ∧ call.served w = some r := by
  have hmap := congrArg (fun l => l[i]?) (mapM_eq_some_iff.mp hreqs)
  simp only [List.getElem?_map, hi, Option.map_some] at hmap
  exact Option.map_eq_some_iff.mp hmap

/-- **A commit is an upload**, and says what was uploaded. -/
theorem uploaded_commit (hw : w.Lawful) (hreqs : calls.mapM (RemoteCall.served w) = some reqs)
    (htold : ∀ call ∈ calls, call.Told w) {sched : List Nat} {c : Commit}
    (hc : c ∈ commits host (received host s reqs) sched) (me : Nat) :
    (calls[c.request]?).bind (·.uploaded w me)
        = (if c.patient = me then some (reading c.measurement) else none)
    ∧ Readable w c.measurement := by
  have hsent := Web.commits_request hc
  rw [List.getElem?_map, Option.map_eq_some_iff] at hsent
  obtain ⟨⟨r, faults⟩, hr, rfl : r = _⟩ := hsent
  obtain ⟨call, hcall, hserved⟩ := call_of_request hreqs hr
  have htold := htold call (List.mem_of_getElem? hcall)
  rw [hcall, Option.bind_some]
  unfold RemoteCall.Told at htold
  unfold RemoteCall.uploaded
  cases hremote : call.remote with
  | past amount =>
      obtain ⟨me', -, heq⟩ := served_past hremote hserved
      cases heq
  | upload m =>
      rw [hremote] at htold
      obtain ⟨me', body, haccount, hbody, heq⟩ := served_upload hremote hserved
      obtain ⟨id, hread⟩ := hw.reads m body htold.1 htold.2 hbody
      rw [hread] at heq
      injection heq with heq
      injection heq with hpatient hmeasurement
      rw [haccount, hpatient, Option.some.inj hmeasurement]
      simp only [Option.some.injEq]
      exact ⟨rfl, rfl, htold.2⟩

/-- The commit of a call is what it has uploaded. -/
theorem commit_of_upload (hw : w.Lawful)
    (hreqs : calls.mapM (RemoteCall.served w) = some reqs)
    (htold : ∀ call ∈ calls, call.Told w) {sched : List Nat} {c : Commit}
    (hc : c ∈ commits host (received host s reqs) sched) {call : RemoteCall} {m : TacMeasurement}
    {me : Nat} (hcall : calls[c.request]? = some call) (hremote : call.remote = .upload m)
    (haccount : w.account call.token = some me) :
    c.patient = me ∧ reading c.measurement = (m.concentration, some m.time) := by
  have huploaded := (uploaded_commit hw hreqs htold hc me).1
  have hsent : call.uploaded w me = some (m.concentration, some m.time) := by
    unfold RemoteCall.uploaded
    rw [hremote]
    exact if_pos haccount
  rw [hcall, Option.bind_some, hsent] at huploaded
  split at huploaded
  · next hpatient => exact ⟨hpatient, (Option.some.inj huploaded).symm⟩
  · cases huploaded

/-- A commit has its row. -/
theorem reading_mem_filed {cs : List Commit} {c : Commit} (hc : c ∈ cs) (key : Nat) :
    reading c.measurement ∈ (rowsOf (filed key cs) c.patient).map reading := by
  rw [readings_filed]
  exact List.mem_map.mpr ⟨c, List.mem_filter.mpr ⟨hc, decide_eq_true rfl⟩, rfl⟩

/-- What an account had uploaded is what its new rows say. -/
theorem uploads_eq (hw : w.Lawful) (hreqs : calls.mapM (RemoteCall.served w) = some reqs)
    (htold : ∀ call ∈ calls, call.Told w) (sched : List Nat) (me key : Nat) :
    uploads w calls me (commits host (received host s reqs) sched)
      = (rowsOf (filed key (commits host (received host s reqs) sched)) me).map reading := by
  rw [readings_filed, uploads, ← List.filterMap_eq_map, List.filterMap_filter]
  refine List.filterMap_congr fun c hc => ?_
  rw [(uploaded_commit hw hreqs htold hc me).1]
  simp

theorem readable_filed {cs : List Commit} (h : ∀ c ∈ cs, Readable w c.measurement) : ∀ key,
    ∀ r ∈ filed key cs, Readable w r.measurement := by
  induction cs with
  | nil => simp [filed]
  | cons c cs ih =>
      intro key r hr
      obtain ⟨hc, hcs⟩ := List.forall_mem_cons.mp h
      rcases List.mem_cons.mp hr with rfl | hr
      · exact hc
      · exact ih hcs (key + 1) r hr

theorem rowsOf_append (rows rows' : List MeasurementRow) (me : Nat) :
    rowsOf (rows ++ rows') me = rowsOf rows me ++ rowsOf rows' me := by
  rw [rowsOf, List.filter_append, List.map_append]
  rfl

/-- The window of a list, of what its elements say. -/
theorem map_lastOf {list answer : List Measurement} {amount : Int32}
    (h : LastOf list amount answer) :
    answer.map reading
      = (list.map reading).drop ((list.map reading).length - amount.toInt.toNat) := by
  have hdrop := List.suffix_iff_eq_drop.mp h.suffix
  have hcount := h.count
  rw [hdrop, List.map_drop, List.length_map]
  congr 1
  omega

/-- An upload's request answers that it has saved. -/
theorem saved_of_upload {i : Nat} {sched : List Nat} {me : Nat} {m : Option Measurement}
    {faults : List Bool} (hi : reqs[i]? = some (.add me m, faults)) {answer : PatientAnswer}
    {th : Thread Web.Op Web.Op.Res Exn PatientAnswer PatientRequest Web.Session}
    (hth : ((received host s reqs).run (Web.exec host) sched).threads[i]? = some th)
    (hleft : th.left = .ret answer) : ∃ text, answer = .saved text := by
  have hprogram : Proc.Yields (fun answer => ∃ text, answer = .saved text)
      ((PatientRequest.add me m).program host) :=
    Proc.yields_bind fun text => ⟨text, rfl⟩
  have harrived : Proc.Yields (fun answer => ∃ text, answer = .saved text)
      (Web.arrived host (.add me m, faults)).left := hprogram
  have hyields := Pool.yields_follow (Web.exec host)
    (Pool.seen (Web.exec host) i (received host s reqs) sched) harrived
  rw [← Option.some.inj (hth.symm.trans (Web.request_thread hi sched)), hleft] at hyields
  exact hyields

/-- The code that an upload completes with is that of the response. -/
theorem outcome_of_completions {f : Foundation} {env : Surroundings} {client : Client}
    {token : Utf16} (htoken : client.token = some token) {m : TacMeasurement} {code : Int}
    (h : (run env client (uploadMeasurement f m)).2.completions = [code]) :
    ∃ data, env.outcome = .responded code data := by
  unfold uploadMeasurement at h
  cases hbody : m.toJSON f with
  | none =>
      rw [hbody] at h
      cases h
  | some body =>
      rw [hbody, unwrap, Proc.orRaise, Proc.ret_bind, run_post htoken] at h
      cases houtcome : env.outcome with
      | failed =>
          rw [houtcome] at h
          cases h
      | responded statusCode data =>
          rw [houtcome] at h
          cases h
          exact ⟨data, rfl⟩

theorem ret_of_outcome {left : Handler PatientAnswer} {data : Data}
    (h : w.outcome left = .responded 200 data) : ∃ answer, left = .ret answer := by
  cases left with
  | ret answer => exact ⟨answer, rfl⟩
  | raise e =>
      have hcode : (500 : Int) = 200 := by
        injection h
      omega
  | call o k => cases h

/-- A query that has been answered, and from which rows. -/
theorem past_of_answer (hs : Filed s) (hpatients : ∀ r ∈ reqs, IsPatient s r.1.me) {i me : Nat}
    {amount : Int32} {faults : List Bool} {sched : List Nat} {answer : PatientAnswer}
    {th : Thread Web.Op Web.Op.Res Exn PatientAnswer PatientRequest Web.Session}
    (hi : reqs[i]? = some (.getPast me amount, faults)) (hamount : 0 ≤ amount.toInt)
    (hth : ((received host s reqs).run (Web.exec host) sched).threads[i]? = some th)
    (hleft : th.left = .ret answer) :
    ∃ pre rest list, answer = .past list ∧ sched = pre ++ i :: rest ∧ pre.count i = 2
      ∧ LastOf (rowsOf (s.measurements
          ++ filed s.nextMeasurement (commits host (received host s reqs) pre)) me)
        amount list := by
  have hme : IsPatient s me := hpatients _ (List.mem_of_getElem? hi)
  obtain ⟨list, rfl⟩ : ∃ list, answer = .past list := by
    by_cases hturns : 3 ≤ sched.count i
    · obtain ⟨th', hth', ⟨list, hlist⟩ | ⟨hraise, -⟩⟩ :=
        Web.past_answers host hpatients hi hturns
      · rw [Option.some.inj (hth.symm.trans hth'), hlist] at hleft
        cases hleft
        exact ⟨list, rfl⟩
      · rw [Option.some.inj (hth.symm.trans hth'), hraise] at hleft
        cases hleft
    · obtain rfl := Option.some.inj (hth.symm.trans (Web.request_thread hi sched))
      refine absurd hleft (Web.follow_getPast_early
        (Web.isPatient_seen host i hpatients hme sched) ?_ amount faults _)
      rw [Pool.seen_length]
      omega
  obtain ⟨pre, rest, hsched, hpre, hlast⟩ :=
    Web.past_answered hs hpatients hi hamount hth hleft
  exact ⟨pre, rest, list, rfl, hsched, hpre, hlast⟩

end Run

/-- **What the apps get is what they have sent**, however their requests overlap. -/
theorem delivered_run (w : Wire) (hw : w.Lawful) (host : Host) (s : Store) (hs : Filed s)
    (hrows : ∀ r ∈ s.measurements, Readable w r.measurement) (calls : List RemoteCall)
    (htold : ∀ call ∈ calls, call.Told w) (reqs : List (PatientRequest × List Bool))
    (hreqs : calls.mapM (RemoteCall.served w) = some reqs)
    (hpatients : ∀ r ∈ reqs, IsPatient s r.1.me) (sched : List Nat) :
    Delivered w host s calls reqs sched := by
  have hstored := @Web.run_measurements host s reqs hpatients sched
  refine ⟨hstored, ?_, Web.commits_nodup host hpatients sched, ?_⟩
  · intro i call m keychain env th hi hremote hth houtcome hcode
    obtain ⟨r, hr, hserved⟩ := served_getElem hreqs hi
    obtain ⟨me, body, haccount, -, rfl⟩ := served_upload hremote hserved
    obtain ⟨data, hdata⟩ := outcome_of_completions rfl hcode
    obtain ⟨answer, hleft⟩ := ret_of_outcome (houtcome.symm.trans hdata)
    obtain ⟨text, rfl⟩ := saved_of_upload hr hth hleft
    obtain ⟨c, hc, rfl⟩ := List.mem_map.mp (Web.saved_committed hpatients hth hleft)
    obtain ⟨hpatient, hreading⟩ := commit_of_upload hw hreqs htold hc hi hremote haccount
    refine ⟨me, haccount, ⟨c, hc, rfl, hpatient, hreading⟩, ?_⟩
    rw [hstored, rowsOf_append, List.map_append, ← hreading, ← hpatient]
    exact List.mem_append_right _ (reading_mem_filed hc _)
  · intro i call amount keychain env th answer hi hremote hamount hth hleft houtcome
    obtain ⟨r, hr, hserved⟩ := served_getElem hreqs hi
    obtain ⟨me, haccount, rfl⟩ := served_past hremote hserved
    rw [hw.readsInt, Option.getD_some] at hr
    obtain ⟨pre, rest, list, rfl, hsched, hpre, hlast⟩ :=
      past_of_answer hs hpatients hr hamount hth hleft
    -- every row is one that an app can read
    have hreadable : ∀ m ∈ list, Readable w m := by
      intro m hm
      obtain ⟨r, hr, rfl⟩ := List.mem_map.mp (hlast.suffix.subset hm)
      rcases List.mem_append.mp (List.mem_filter.mp hr).1 with hold | hnew
      · exact hrows r hold
      · exact readable_filed (fun c hc => (uploaded_commit hw hreqs htold hc me).2) _ r hnew
    obtain ⟨outcome, stored⟩ := env
    rw [hleft] at houtcome
    obtain rfl : outcome = .responded 200 (w.measurements list) := houtcome
    obtain ⟨hend, hcompletions⟩ := run_getMeasurements hw hreadable (call.client keychain)
      (rfl : (call.client keychain).token = some call.token) stored amount.toInt
    refine ⟨me, pre, rest, list.map delivered, _, haccount, hsched, hpre, hend, hcompletions,
      rfl, ?_, ?_⟩
    · rw [uploads_eq hw hreqs htold pre me s.nextMeasurement, ← List.map_append, ← rowsOf_append,
        ← map_lastOf hlast, List.map_map]
      refine List.map_congr_left fun m hm => ?_
      obtain ⟨time, htime⟩ := Option.isSome_iff_exists.mp (hreadable m hm).1
      show (m.concentration, some (m.time.getD [])) = (m.concentration, m.time)
      rw [htime]
      rfl
    · rw [List.pairwise_map]
      refine hlast.increasing.imp fun hlt id hid id' hid' => ?_
      cases hid
      cases hid'
      exact hlt

/-! ### A connection to run -/

/-- The bit pattern of `0.5`. -/
def half : UInt64 := 0x3FE0000000000000

/-- The bytes of a text. -/
def ascii (s : String) : Data := (utf16 s).map UInt16.toUInt8

/-- What Ann measures. -/
def annMeasurement : TacMeasurement := ⟨none, half, utf16 "noon"⟩

/-- How it is stored. -/
def annRow : Measurement := ⟨1, half, some (utf16 "noon")⟩

/-- The JSON she sends. -/
def annBody : Utf16 := utf16 "\x7b\"concentration\":0.5,\"time\":\"noon\"\x7d"

/-- The JSON she gets. -/
def annAnswer : Data := ascii "[\x7b\"id\":1,\"concentration\":0.5,\"time\":\"noon\"\x7d]"

/-- Digits, as a number. -/
def plainNat (digits : List Char) : Option Nat :=
  if digits ≠ [] ∧ digits.all Char.isDigit then some (Nat.ofDigitChars 10 digits 0) else none

/-- Digits, with a sign or none. -/
def plainSigned (text : List Char) : Option Int :=
  if text.head? = some '-' then (plainNat text.tail).map fun n : Nat => -(n : Int)
  else (plainNat text).map fun n : Nat => (n : Int)

/-- A number as text. -/
def plainInt (text : Utf16) : Option Int := plainSigned (text.map fun u => Char.ofNat u.toNat)

/-- The one number that is written. -/
def plainDouble (c : UInt64) : Json := if c = half then .number (utf16 "0.5") else .null

/-- A measurement as numbers, which a list of bytes can be as long as. -/
def plainKey (m : Measurement) : Int × Nat × Option (List Nat) :=
  (m.id.toInt, m.concentration.toNat, m.time.map (List.map UInt16.toNat))

/-- The JSON of such numbers. -/
def plainItem (key : Int × Nat × Option (List Nat)) : Json :=
  .object [(utf16 "id", .number (utf16 (toString key.1))),
    (utf16 "concentration", plainDouble (UInt64.ofNat key.2.1)),
    (utf16 "time", match key.2.2 with
      | none => .null
      | some time => .string (time.map UInt16.ofNat))]

/-- Ann's measurement is read and written as JSON. -/
def plainFoundation : Foundation where
  jsonObject data :=
    if data = annAnswer then some (.array [plainItem (plainKey annRow)])
    else (Encodable.decode data.length).map
      fun keys : List (Int × Nat × Option (List Nat)) => .array (keys.map plainItem)
  isValidJSONObject _ := true
  data
    | .object [(_, .number _), (_, .string time)] =>
        if time = utf16 "noon" then some (annBody.map UInt16.toUInt8) else none
    | _ => none
  utf8 data := some (data.map UInt8.toUInt16)
  contains s value := s.contains value
  asInt
    | .number literal => plainInt literal
    | _ => none
  asDouble
    | .number literal => if literal = utf16 "0.5" then some half else none
    | _ => none
  ofInt id := id.map fun n => .number (utf16 (toString n))
  ofDouble c := if c = half then some (.number (utf16 "0.5")) else none

/-- Either side, as the other knows it. -/
def plainWire : Wire where
  foundation := plainFoundation
  account token := if token = utf16 "t0k" then some 0 else none
  readMeasurement body := if body = annBody then some ⟨0, half, some (utf16 "noon")⟩ else none
  readInt32 text := ((plainInt text).filter fun n => -2 ^ 31 ≤ n ∧ n < 2 ^ 31).map Int32.ofInt
  measurements list :=
    if list = [annRow] then annAnswer
    else List.replicate (Encodable.encode (list.map plainKey)) 0
  text s := ascii "\"" ++ s.map UInt16.toUInt8 ++ ascii "\""
  error _ := ascii "\x7b\"Message\":\"An error has occurred.\"\x7d"
  double := plainDouble
  exact c := c = half

theorem plainNat_repr (n : Nat) : plainNat n.repr.toList = some n := by
  have hall : (Nat.toDigits 10 n).all Char.isDigit = true :=
    List.all_eq_true.mpr fun c hc => Nat.isDigit_of_mem_toDigits (by decide) (by decide) hc
  rw [Nat.toList_repr, plainNat, if_pos ⟨Nat.toDigits_ne_nil, hall⟩,
    Nat.ofDigitChars_ten_toDigits]

theorem plainInt_toString (n : Int) : plainInt (utf16 (toString n)) = some n := by
  have hsmall : ∀ c ∈ (toString n).toList, c.toNat < 0x10000 := by
    intro c hc
    have hrange := toString_int_range c hc
    omega
  rw [plainInt, utf16_chars hsmall, Int.toString_eq_repr, Int.repr_eq_if]
  split
  · next hpos =>
    -- a digit is no sign
    have hhead : n.toNat.repr.toList.head? ≠ some '-' := by
      intro h
      rw [Nat.toList_repr] at h
      have hdigit := Nat.isDigit_of_mem_toDigits (by decide) (by decide) (List.mem_of_head? h)
      revert hdigit
      decide
    rw [plainSigned, if_neg hhead, plainNat_repr, Option.map_some, Int.toNat_of_nonneg hpos]
  · next hneg =>
    have hminus : ("-" ++ (-n).toNat.repr).toList = '-' :: (-n).toNat.repr.toList := by
      rw [String.toList_append]
      rfl
    rw [hminus, plainSigned, List.head?_cons, if_pos rfl, List.tail_cons, plainNat_repr,
      Option.map_some]
    congr 1
    omega

theorem plainItem_key (m : Measurement) : plainItem (plainKey m) = plainWire.item m := by
  obtain ⟨id, concentration, time⟩ := m
  have hconcentration : UInt64.ofNat concentration.toNat = concentration := by simp
  cases time with
  | none =>
      unfold plainItem plainKey Wire.item
      simp only [hconcentration, Option.map_none]
      rfl
  | some time =>
      have htime : (time.map UInt16.toNat).map UInt16.ofNat = time := by
        rw [List.map_map]
        exact (List.map_congr_left fun u _ => UInt16.ofNat_toNat).trans (List.map_id time)
      unfold plainItem plainKey Wire.item
      simp only [hconcentration, Option.map_some, htime]
      rfl

theorem plainWire_lawful : plainWire.Lawful := by
  refine ⟨?_, ?_, ?_, ?_, ?_⟩
  · intro m body _ hexact hbody
    obtain ⟨id, concentration, time⟩ := m
    obtain rfl : concentration = half := hexact
    cases id with
    | none =>
        have htext : TacMeasurement.toJSON plainWire.foundation ⟨none, half, time⟩
            = (if time = utf16 "noon" then some (annBody.map UInt16.toUInt8) else none).bind
              fun data => some (data.map UInt8.toUInt16) := rfl
        rw [htext] at hbody
        split at hbody
        · next htime =>
            have hread : (annBody.map UInt16.toUInt8).map UInt8.toUInt16 = annBody := by
              decide +kernel
            rw [Option.bind_some, hread] at hbody
            obtain rfl := Option.some.inj hbody
            have hann : plainWire.readMeasurement annBody
                = if annBody = annBody then some ⟨0, half, some (utf16 "noon")⟩ else none := rfl
            exact ⟨0, by rw [hann, if_pos rfl, htime]⟩
        · cases hbody
    | some id => cases hbody
  · intro amount
    have hmin : -2 ^ 31 ≤ amount.toInt := amount.le_toInt
    have hmax : amount.toInt < 2 ^ 31 := amount.toInt_lt
    show ((plainInt (utf16 (toString amount.toInt))).filter _).map Int32.ofInt = _
    rw [plainInt_toString, Option.filter_some, if_pos (decide_eq_true ⟨hmin, hmax⟩),
      Option.map_some, Int32.ofInt_toInt]
  · intro list
    have hitems : (list.map plainKey).map plainItem = list.map plainWire.item := by
      rw [List.map_map]
      exact List.map_congr_left fun m _ => plainItem_key m
    show plainFoundation.jsonObject (if list = [annRow] then annAnswer else _) = _
    by_cases hlist : list = [annRow]
    · rw [if_pos hlist, ← hitems, hlist]
      simp only [plainFoundation, if_true, List.map_cons, List.map_nil]
    · have hother : List.replicate (Encodable.encode (list.map plainKey)) 0 ≠ annAnswer := by
        intro heq
        have hmem : (91 : UInt8) ∈ List.replicate (Encodable.encode (list.map plainKey)) 0 := by
          rw [heq]
          decide +kernel
        exact absurd (List.eq_of_mem_replicate hmem) (by decide)
      rw [if_neg hlist]
      refine (if_neg hother).trans ?_
      rw [List.length_replicate, Encodable.encodek, Option.map_some, hitems]
  · exact fun n => plainInt_toString n.toInt
  · intro c hc
    obtain rfl : c = half := hc
    rfl

/-- Ann uploads a measurement, and looks at her last one. -/
def annCalls : List RemoteCall :=
  [⟨utf16 "t0k", .upload annMeasurement, []⟩, ⟨utf16 "t0k", .past 1, []⟩]

theorem delivered_run_ann : Delivered plainWire Web.plainHost Web.twoPatients annCalls
    [(.add 0 (some ⟨0, half, some (utf16 "noon")⟩), []), (.getPast 0 1, [])]
    [0, 0, 1, 0, 1, 0, 1] := by
  have hann : IsPatient Web.twoPatients 0 :=
    ⟨Web.annUser, ⟨0⟩, rfl, by decide, by decide⟩
  refine delivered_run plainWire plainWire_lawful Web.plainHost Web.twoPatients
    ⟨List.Pairwise.nil, by simp [Web.twoPatients], by decide, by decide⟩
    (by simp [Web.twoPatients]) annCalls ?_ _ ?_ ?_ _
  · intro call hcall
    rcases List.mem_pair.mp hcall with rfl | rfl
    · exact ⟨by simp [annMeasurement], rfl⟩
    · trivial
  · rfl
  · intro r hr
    rcases List.mem_pair.mp hr with rfl | rfl
    · exact hann
    · exact hann

end TacPac.App.TacPacServer
