import TacPac.Lib.Proc
import TacPac.Lib.Utf16

/-!
# `TacPacServer`

The client of the web application. An operation makes one request; what it does with the
outcome is written as the program it is (`Operation`), so that both what it calls and how
often it calls back can be read off it. Foundation's own functions are the fields of
`Foundation`.
-/

namespace TacPac.App

open TacPac.Lib

/-- `Data` -/
abbrev Data : Type := List UInt8

/-- What `JSONSerialization` makes of a text. -/
inductive Json where
  | null
  | bool (value : Bool)
  | number (literal : Utf16)
  | string (value : Utf16)
  | array (items : List Json)
  | object (members : List (Utf16 × Json))

/-- `as! String`, where it succeeds. -/
def Json.asString : Json → Option Utf16
  | .string value => some value
  | _ => none

/-- `as! [AnyObject]` -/
def Json.asArray : Json → Option (List Json)
  | .array items => some items
  | _ => none

/-- `as! [String: AnyObject]` -/
def Json.asObject : Json → Option (List (Utf16 × Json))
  | .object members => some members
  | _ => none

/-- `item[key]` of an `AnyObject`: nothing, where the item has no such subscript. -/
def Json.member (key : String) : Json → Option Json
  | .object members => members.lookup (utf16 key)
  | _ => none

/-- A measurement, as the client has it. The concentration is the bit pattern. -/
structure TacMeasurement where
  id : Option Int
  concentration : UInt64
  time : Utf16

/-- The library functions the client uses. -/
structure Foundation where
  /-- `JSONSerialization.jsonObject(with:)`; `none` is an error. -/
  jsonObject : Data → Option Json
  /-- `JSONSerialization.isValidJSONObject` -/
  isValidJSONObject : Json → Bool
  /-- `JSONSerialization.data(withJSONObject:)` -/
  data : Json → Option Data
  /-- `String(data:encoding: .utf8)` -/
  utf8 : Data → Option Utf16
  /-- `String.contains` -/
  contains : Utf16 → Utf16 → Bool
  /-- `as! Int` -/
  asInt : Json → Option Int
  /-- `as! Double` -/
  asDouble : Json → Option UInt64
  /-- `as NSObject`, of an optional integer. -/
  ofInt : Option Int → Option Json
  /-- `as NSObject`, of a `Double`. -/
  ofDouble : UInt64 → Option Json

/-- `JSONSerializable.JSONRepresentation`: the properties that are objects. -/
def TacMeasurement.representation (f : Foundation) (m : TacMeasurement) : Json :=
  .object (((f.ofInt m.id).map (Prod.mk (utf16 "id"))).toList
    ++ ((f.ofDouble m.concentration).map (Prod.mk (utf16 "concentration"))).toList
    ++ [(utf16 "time", .string m.time)])

/-- `JSONSerializable.toJSON` -/
def TacMeasurement.toJSON (f : Foundation) (m : TacMeasurement) : Option Utf16 :=
  if f.isValidJSONObject (m.representation f) then
    (f.data (m.representation f)).bind f.utf8
  else none

/-- `URLRequest`, as the client makes it. -/
structure URLRequest where
  url : Utf16
  authorization : Option Utf16
  contentType : Option Utf16
  /-- The text that is sent, in UTF-8. -/
  body : Utf16

/-- What a data task completes with: an error, or an `HTTPURLResponse` and its data. -/
inductive Outcome where
  | failed
  | responded (statusCode : Int) (data : Data)

/-- What an operation can trap on. -/
inductive Crash where
  /-- An optional that was `nil` is force unwrapped. -/
  | unwrapped
  /-- A forced cast fails. -/
  | badCast
  deriving DecidableEq

namespace TacPacServer

/-- What an operation does, besides computing; `α` is what its completion gets. -/
inductive Call (α : Type) where
  | dataTask (request : URLRequest)
  /-- `self.token` -/
  | token
  | setToken (token : Utf16)
  /-- `KeychainWrapper.standard.set`, which answers whether it could. -/
  | setKeychain (token : Utf16)
  | completion (arguments : α)

/-- What a call returns. -/
def Call.Res {α : Type} : Call α → Type
  | .dataTask _ => Outcome
  | .token => Option Utf16
  | .setToken _ => Unit
  | .setKeychain _ => Bool
  | .completion _ => Unit

/-- An operation of the client. -/
abbrev Operation (α β : Type) : Type := Proc (Call α) Call.Res Crash β

section Calls

variable {α β : Type}

/-- `URLSession.shared.dataTask` -/
def dataTask (request : URLRequest) : Operation α Outcome := .ask (Call.dataTask request)

/-- `self.token = token` -/
def setToken (token : Utf16) : Operation α Unit := .ask (Call.setToken token)

/-- `KeychainWrapper.standard.set(token, forKey:)` -/
def setKeychain (token : Utf16) : Operation α Bool := .ask (Call.setKeychain token)

/-- The completion handler is called. -/
def completion (arguments : α) : Operation α Unit := .ask (Call.completion arguments)

/-- `x!` -/
def unwrap (x : Option β) : Operation α β := .orRaise .unwrapped x

/-- `x as! β` -/
def cast (x : Option β) : Operation α β := .orRaise .badCast x

end Calls

/-- `TacPacServer.urlBase` -/
def urlBase : Utf16 := utf16 "http://custom-env.fz4bnsa2mh.us-west-2.elasticbeanstalk.com/"

/-! ## The operations -/

/-- The body of `login`: the values are interpolated as they are. -/
def loginBody (username password : Utf16) : Utf16 :=
  utf16 "grant_type=password&username=" ++ username ++ utf16 "&password=" ++ password

/-- `TacPacServer.login` -/
def login (f : Foundation) (username password : Utf16) : Operation (Option Utf16) Unit := do
  match ← dataTask ⟨urlBase ++ utf16 "/token", none, none, loginBody username password⟩ with
  | .failed =>
      -- `error as! String?`, of an error
      cast none
  | .responded statusCode data =>
      if statusCode ≠ 200 then
        completion (if statusCode = 400 then some (utf16 "Invalid username or password!") else none)
      else
        match f.jsonObject data with
        | none => return ()
        | some json => do
            let json ← cast json.asObject
            let token ← cast ((json.lookup (utf16 "access_token")).bind Json.asString)
            setToken token
            let _stored ← setKeychain token
            completion none

/-- The body of `signup`. -/
def signupBody (username password firstName lastName birthday : Utf16) : Utf16 :=
  utf16 "Email=" ++ username ++ utf16 "&Password=" ++ password ++ utf16 "&FirstName=" ++ firstName
    ++ utf16 "&LastName=" ++ lastName ++ utf16 "&Birthday=" ++ birthday

/-- `TacPacServer.signup` -/
def signup (f : Foundation) (username password firstName lastName birthday : Utf16) :
    Operation (Int × Utf16) Unit := do
  match ← dataTask ⟨urlBase ++ utf16 "/api/Account/Register", none, none,
    signupBody username password firstName lastName birthday⟩ with
  | .failed => return ()
  | .responded statusCode data =>
      if statusCode ≠ 200 then do
        let Emsg ← unwrap (f.utf8 data)
        completion (statusCode, Emsg)
      else return ()

/-- A request with the token in its header. -/
def authorized (token place body : Utf16) : URLRequest :=
  ⟨urlBase ++ place, some (utf16 "Bearer " ++ token),
    some (utf16 "application/json; charset=utf-8"), body⟩

/-- `TacPacServer.POSTrequest`, with what its completion goes on to do. -/
def POSTrequest {α : Type} (place body : Utf16) (done : Int → Data → Operation α Unit) :
    Operation α Unit := do
  let token ← Proc.ask Call.token
  let token ← unwrap token
  match ← dataTask (authorized token place body) with
  | .failed => return ()
  | .responded statusCode data => done statusCode data

/-- `TacPacServer.uploadMeasurement` -/
def uploadMeasurement (f : Foundation) (measurement : TacMeasurement) : Operation Int Unit := do
  let body ← unwrap (measurement.toJSON f)
  POSTrequest (utf16 "api/Tacpac/addMeasurement") body fun httpCode _ => completion httpCode

/-- One item of the response of `getMeasurements`. -/
def measure {α : Type} (f : Foundation) (item : Json) : Operation α TacMeasurement := do
  let concentration ← cast ((item.member "concentration").bind f.asDouble)
  let time ← cast ((item.member "time").bind Json.asString)
  let id ← cast ((item.member "id").bind f.asInt)
  return ⟨some id, concentration, time⟩

/-- `TacPacServer.getMeasurements` -/
def getMeasurements (f : Foundation) (amount : Int) :
    Operation (Option (List TacMeasurement) × Option Utf16) Unit :=
  POSTrequest (utf16 "api/Tacpac/getPastMeasurement") (utf16 (toString amount))
    fun httpCode data => do
      if httpCode = 200 then
        match f.jsonObject data with
        | none => completion (none, some (utf16 "Error with Json"))
        | some json => do
            let json ← cast json.asArray
            let mArray ← json.foldlM (fun mArray item => do
              let measure ← measure f item
              return mArray ++ [measure]) []
            completion (some mArray, none)
      else completion (none, f.utf8 data)

/-- The body of `export`: the address between quotes. -/
def exportBody (email : Utf16) : Utf16 := utf16 "\"" ++ email ++ utf16 "\""

/-- `TacPacServer.export` -/
def «export» (email : Utf16) : Operation (Option Utf16) Unit :=
  POSTrequest (utf16 "api/Tacpac/sendEmail") (exportBody email) fun httpCode _ =>
    if httpCode = 200 then completion none else completion (some (utf16 "Error Occured"))

/-- `TacPacServer.checkToken` -/
def checkToken (f : Foundation) : Operation Bool Unit :=
  POSTrequest (utf16 "api/Account/checkToken") [] fun httpCode data => do
    if httpCode = 200 then
      let msg ← unwrap (f.utf8 data)
      if f.contains msg (utf16 "denied") then completion false else completion true
    else completion false

end TacPacServer

end TacPac.App
