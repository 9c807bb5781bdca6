import TacPac.Lib.Proc
import TacPac.Lib.Registry
import TacPac.Lib.Utf16

/-!
# The web application's store

`Models/IdentityModels.cs` and `Models/TacPacModels.cs`, the statements that the controllers
and ASP.NET Identity send to the database, and what each of them does. Every one that writes
is a transaction of its own; a call of ASP.NET Identity that sends several (`Users.lean`) is
not one.

A password hash is kept with the user manager (`Identity.lean`), and so it is only passed on
here. Other library functions that the controllers use are the fields of `Host`.
-/

namespace TacPac.Web

open TacPac.Lib

/-- `ApplicationUser`. The GUID of the identity user is a counter. -/
structure ApplicationUser where
  id : Nat
  userName : Option Utf16
  email : Option Utf16
  firstName : Option Utf16
  lastName : Option Utf16
  birthday : Option Utf16
  deriving DecidableEq

/-- `UserLoginInfo`: an external login. -/
structure UserLoginInfo where
  loginProvider : Utf16
  providerKey : Utf16
  deriving DecidableEq

/-- A row of the logins table. Its key is all of it. -/
structure IdentityUserLogin where
  userId : Nat
  login : UserLoginInfo
  deriving DecidableEq

/-- `Patient`, less its collections: a measurement names its patient. -/
structure Patient where
  userId : Nat
  deriving DecidableEq

/-- `Measurement`. The concentration is the bit pattern of the `double`. -/
structure Measurement where
  id : Int32
  concentration : UInt64
  time : Option Utf16
  deriving DecidableEq

/-- A row of the measurements table, with its foreign key. -/
structure MeasurementRow where
  patient : Nat
  measurement : Measurement
  deriving DecidableEq

/-- What `sendEmail` hands to the SMTP server. -/
structure MailMessage where
  sender : Utf16
  recipients : Utf16
  subject : Utf16
  body : Utf16
  deriving DecidableEq

/-- The tables, and the keys that come next. -/
structure Store where
  users : List ApplicationUser
  logins : List IdentityUserLogin
  patients : List Patient
  measurements : List MeasurementRow
  nextGuid : Nat
  /-- The next key of the measurements table, an `int` column. -/
  nextMeasurement : Nat

/-- The database of a new installation. -/
def Store.empty : Store := ⟨[], [], [], [], 0, 1⟩

/-- The row a measurement is stored as. -/
def Measurement.row (patient : Nat) (m : Measurement) (key : Nat) : MeasurementRow :=
  ⟨patient, { m with id := Int32.ofNat key }⟩

/-- An insert into the measurements table. -/
def Store.withMeasurement (s : Store) (patient : Nat) (m : Measurement) : Store :=
  { s with
    measurements := s.measurements ++ [m.row patient s.nextMeasurement]
    nextMeasurement := s.nextMeasurement + 1 }

/-- The library code the controllers run on. -/
structure Host where
  /-- A text as the database compares it, which ignores case. -/
  upper : Utf16 → Utf16
  /-- Whether `new MailAddress` accepts its argument. -/
  isMailAddress : Utf16 → Bool
  /-- Whether `MailAddressCollection.Add` accepts its argument. -/
  mailAddresses : Utf16 → Bool
  /-- A `double`, concatenated to a string. -/
  doubleText : UInt64 → Utf16

/-- A column has this text, to the database. -/
def Host.equals (host : Host) (column : Option Utf16) (text : Utf16) : Bool :=
  column.map host.upper = some (host.upper text)

/-- A login as the database compares it. -/
def Host.loginKey (host : Host) (login : UserLoginInfo) : UserLoginInfo :=
  ⟨host.upper login.loginProvider, host.upper login.providerKey⟩

/-- What a call of ASP.NET Identity comes to. -/
inductive IdentityResult where
  | success
  | failed (errors : List Utf16)
  deriving DecidableEq

/-- The exceptions the code can run into. -/
inductive Exn where
  | nullReference
  | argument
  | invalidOperation
  /-- A store call or the SMTP server failed. -/
  | infrastructure
  deriving DecidableEq

/-- What an update does to the logins of its user. -/
abbrev LoginChange : Type := Registry.Change UserLoginInfo

/-- What a request asks of the database, or of the SMTP server. -/
inductive Op where
  /-- `new ApplicationUser()` -/
  | newGuid
  /-- `UserStore.FindByNameAsync` -/
  | findByName (userName : Utf16)
  /-- `UserStore.FindByEmailAsync` -/
  | findByEmail (email : Utf16)
  /-- `UserStore.CreateAsync`, with the hash of a password or without. -/
  | insertUser (user : ApplicationUser) (passwordHash : Option Utf16)
  /-- `UserStore.FindByIdAsync` -/
  | findById (userId : Nat)
  /-- `UserStore.FindAsync`: the user of the first row that has the login. -/
  | findLogin (login : UserLoginInfo)
  /-- `UserStore.UpdateAsync`: the row of the user is written as the request has it, and a
  login of his that it has added or removed goes with it. -/
  | updateUser (userId : Nat) (passwordHash : Option Utf16) (change : LoginChange)
  /-- `db.Patients.Add(p); db.SaveChanges();` -/
  | savePatient (p : Patient)
  /-- `db.Patients.Find` -/
  | findPatient (userId : Nat)
  /-- `m.measurements` -/
  | measurements (p : Patient)
  /-- `m.measurements.Add(measurement); db.SaveChanges();` -/
  | saveMeasurement (p : Patient) (measurement : Measurement)
  /-- `smtpServer.Send(mail)` -/
  | send (mail : MailMessage)

/-- What it is answered with. -/
def Op.Res : Op → Type
  | .newGuid => Nat
  | .findByName _ => Option ApplicationUser
  | .findByEmail _ => Option ApplicationUser
  | .insertUser _ _ => Unit
  | .findById _ => Option ApplicationUser
  | .findLogin _ => Option ApplicationUser
  | .updateUser _ _ _ => Unit
  | .savePatient _ => Unit
  | .findPatient _ => Option Patient
  | .measurements _ => List Measurement
  | .saveMeasurement _ _ => Unit
  | .send _ => Unit

/-- Code that runs on these calls. -/
abbrev Handler (α : Type) : Type := Proc Op Op.Res Exn α

/-- One request's own state: what it has mailed, and which of its next calls fail. -/
structure Session where
  sent : List MailMessage
  faults : List Bool

/-- A request that has done nothing yet. -/
def Session.start (faults : List Bool) : Session := ⟨[], faults⟩

/-- The store that all requests share, and what a request has of its own. -/
abbrev World : Type := Store × Session

/-! ## What the database lets in -/

/-- The columns take the user: a name is required, and it and the e-mail have a length. -/
def ApplicationUser.fits (user : ApplicationUser) : Bool :=
  user.userName.any (·.length ≤ 256) && user.email.all (·.length ≤ 256)

/-- The columns take the login. -/
def UserLoginInfo.fits (login : UserLoginInfo) : Bool :=
  login.loginProvider.length ≤ 128 && login.providerKey.length ≤ 128

namespace Store

variable (host : Host) (s : Store)

/-- Nobody has the id of the user, nor his name: it has a unique index. -/
def takes (user : ApplicationUser) : Bool :=
  user.fits && s.users.all fun u =>
    u.id ≠ user.id && u.userName.map host.upper ≠ user.userName.map host.upper

/-- This row of a login has the key that a login of the user would have. -/
def isLogin (userId : Nat) (login : UserLoginInfo) (l : IdentityUserLogin) : Bool :=
  l.userId = userId && host.loginKey l.login = host.loginKey login

/-- The logins after an update, unless it violates their key or misses the row it deletes. -/
def changed (userId : Nat) : LoginChange → Option (List IdentityUserLogin)
  | .keep => some s.logins
  | .add login =>
      if login.fits && !s.logins.any (isLogin host userId login) then
        some (s.logins ++ [⟨userId, login⟩])
      else none
  | .remove login =>
      if s.logins.any (isLogin host userId login) then
        some (s.logins.filter fun l => !isLogin host userId login l)
      else none

/-- The store after an update, if it works. -/
def updated (userId : Nat) (change : LoginChange) : Option Store :=
  if s.users.any (fun u => u.id = userId) then
    (s.changed host userId change).map fun logins => { s with logins := logins }
  else none

end Store

/-- A call that is not interrupted. -/
def perform (host : Host) : (o : Op) → World → Except Exn o.Res × World
  | .newGuid, (s, l) => (.ok s.nextGuid, ({ s with nextGuid := s.nextGuid + 1 }, l))
  | .findByName userName, (s, l) =>
      (.ok (s.users.find? fun u => host.equals u.userName userName), (s, l))
  | .findByEmail email, (s, l) =>
      (.ok (s.users.find? fun u => host.equals u.email email), (s, l))
  | .insertUser user _, (s, l) =>
      if s.takes host user then (.ok (), ({ s with users := s.users ++ [user] }, l))
      else (.error .infrastructure, (s, l))
  | .findById userId, (s, l) => (.ok (s.users.find? (fun u => u.id = userId)), (s, l))
  | .findLogin login, (s, l) =>
      (.ok ((s.logins.find? fun row => host.loginKey row.login = host.loginKey login).bind
        fun row => s.users.find? (fun u => u.id = row.userId)), (s, l))
  | .updateUser userId _ change, (s, l) =>
      match s.updated host userId change with
      | some s' => (.ok (), (s', l))
      | none => (.error .infrastructure, (s, l))
  | .savePatient p, (s, l) =>
      -- the key is taken: the insert violates the primary key
      if p ∈ s.patients then (.error .infrastructure, (s, l))
      else (.ok (), ({ s with patients := s.patients ++ [p] }, l))
  | .findPatient userId, (s, l) => (.ok (s.patients.find? (fun p => p.userId = userId)), (s, l))
  | .measurements p, (s, l) =>
      (.ok ((s.measurements.filter (fun r => r.patient = p.userId)).map (·.measurement)), (s, l))
  | .saveMeasurement p m, (s, l) =>
      -- the key is the database's, whatever id was sent; there is an end to them
      if s.nextMeasurement < 2 ^ 31 then (.ok (), (s.withMeasurement p.userId m, l))
      else (.error .infrastructure, (s, l))
  | .send mail, (s, l) => (.ok (), (s, { l with sent := l.sent ++ [mail] }))

section Perform

variable {host : Host} {s : Store}

theorem takes_iff {user : ApplicationUser} : s.takes host user = true ↔ user.fits = true
    ∧ ∀ u ∈ s.users, u.id ≠ user.id
      ∧ u.userName.map host.upper ≠ user.userName.map host.upper := by
  simp [Store.takes]

theorem isLogin_iff {userId : Nat} {login : UserLoginInfo} {l : IdentityUserLogin} :
    Store.isLogin host userId login l = true
      ↔ l.userId = userId ∧ host.loginKey l.login = host.loginKey login := by
  simp [Store.isLogin]

/-- An update that works is of somebody who is there, and changes the logins alone. -/
theorem updated_eq_some {userId : Nat} {change : LoginChange} {s' : Store} :
    s.updated host userId change = some s' ↔ (∃ u ∈ s.users, u.id = userId)
      ∧ ∃ logins, s.changed host userId change = some logins
        ∧ s' = { s with logins := logins } := by
  rw [Store.updated, Option.ite_none_right_eq_some, Option.map_eq_some_iff, List.any_eq_true]
  simp [eq_comm]

/-- A login that is added is not there yet. -/
theorem changed_add {userId : Nat} {login : UserLoginInfo} {logins : List IdentityUserLogin} :
    s.changed host userId (.add login) = some logins
      ↔ (login.fits = true ∧ ∀ l ∈ s.logins, Store.isLogin host userId login l = false)
        ∧ logins = s.logins ++ [⟨userId, login⟩] := by
  rw [Store.changed, Option.ite_none_right_eq_some, Bool.and_eq_true, Bool.not_eq_true',
    List.any_eq_false, Option.some_inj]
  simp only [Bool.not_eq_true, eq_comm (a := logins)]

/-- A login that is removed is there. -/
theorem changed_remove {userId : Nat} {login : UserLoginInfo} {logins : List IdentityUserLogin} :
    s.changed host userId (.remove login) = some logins
      ↔ (∃ l ∈ s.logins, Store.isLogin host userId login l = true)
        ∧ logins = s.logins.filter fun l => !Store.isLogin host userId login l := by
  rw [Store.changed, Option.ite_none_right_eq_some, List.any_eq_true, Option.some_inj]
  simp only [eq_comm (a := logins)]

variable (host s) (l : Session)

theorem perform_insertUser (user : ApplicationUser) (passwordHash : Option Utf16) :
    perform host (.insertUser user passwordHash) (s, l) =
      if s.takes host user then (.ok (), ({ s with users := s.users ++ [user] }, l))
      else (.error .infrastructure, (s, l)) := rfl

/-- An update, with what comes of it. -/
theorem perform_updateUser (userId : Nat) (passwordHash : Option Utf16) (change : LoginChange) :
    perform host (.updateUser userId passwordHash change) (s, l) =
      match s.updated host userId change with
      | some s' => (.ok (), (s', l))
      | none => (.error .infrastructure, (s, l)) := rfl

theorem perform_savePatient (p : Patient) :
    perform host (.savePatient p) (s, l) =
      if p ∈ s.patients then (.error .infrastructure, (s, l))
      else (.ok (), ({ s with patients := s.patients ++ [p] }, l)) := rfl

theorem perform_saveMeasurement (p : Patient) (m : Measurement) :
    perform host (.saveMeasurement p m) (s, l) =
      if s.nextMeasurement < 2 ^ 31 then (.ok (), (s.withMeasurement p.userId m, l))
      else (.error .infrastructure, (s, l)) := rfl

end Perform

/-- A call, with its fault: it fails and has no effect. That one goes through and its
acknowledgement is lost is not modelled. -/
def exec (host : Host) : Exec Op Op.Res Exn World := fun o w =>
  match w.2.faults with
  | [] => perform host o w
  | false :: fs => perform host o (w.1, { w.2 with faults := fs })
  | true :: fs => (.error .infrastructure, (w.1, { w.2 with faults := fs }))

/-- A call works or does nothing. -/
theorem exec_cases (host : Host) (o : Op) (s : Store) (l : Session) :
    (∃ fs, exec host o (s, l) = perform host o (s, { l with faults := fs }))
    ∨ (∃ fs, exec host o (s, l) = (.error .infrastructure, (s, { l with faults := fs }))) := by
  unfold exec
  rcases hf : l.faults with _ | ⟨f, fs⟩
  · exact Or.inl ⟨[], by simp only [← hf]⟩
  · cases f with
    | false => exact Or.inl ⟨fs, rfl⟩
    | true => exact Or.inr ⟨fs, rfl⟩

/-! ## A request on its own -/

/-- Nobody else uses the store meanwhile. -/
def alone (host : Host) : Setting Op Op.Res Exn World := ⟨exec host, Eq, fun _ _ => True⟩

@[simp] theorem alone_exec (host : Host) : (alone host).exec = exec host := rfl

/-- A call works or fails. -/
theorem wp_ask {host : Host} {o : Op} {Q : o.Res → World → Prop} {E : Exn → World → Prop}
    {s : Store} {l : Session}
    (hok : ∀ l', match perform host o (s, l') with
      | (.ok x, w) => Q x w
      | (.error e, w) => E e w)
    (herr : ∀ l', E .infrastructure (s, l')) :
    Proc.wp (alone host) (Proc.ask o) Q E (s, l) := by
  intro w hw
  obtain rfl : (s, l) = w := hw
  refine ⟨trivial, ?_⟩
  rw [alone_exec]
  rcases exec_cases host o s l with ⟨fs, hx⟩ | ⟨fs, hx⟩
  · have h := hok { l with faults := fs }
    rw [hx]
    rcases hp : perform host o (s, { l with faults := fs }) with ⟨x | x, w⟩
    · rw [hp] at h; exact h
    · rw [hp] at h; exact h
  · rw [hx]; exact herr _

end TacPac.Web
