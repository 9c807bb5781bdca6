import TacPac.Web.Tacpac

/-!
# The user manager

`ApplicationUserManager`, as `AccountController` and `ApplicationOAuthProvider` use it: the
calls on an account's password and external logins. Every one that changes an account loads
it, validates it and writes it back, each with a statement of its own. There is no
concurrency token, so of two that overlap the later one writes over the other.

A handler of `Account.lean` runs here as it is (`embed`), and leaves the same store.
-/

namespace TacPac.Web

open TacPac.Lib

/-! ## Identities -/

/-- The claim types that the code looks for, and any other. -/
inductive ClaimType where
  | nameIdentifier
  | name
  | other (uri : Utf16)
  deriving DecidableEq

/-- `Claim`, less what nobody reads of it. -/
structure Claim where
  type : ClaimType
  value : Utf16
  issuer : Utf16
  deriving DecidableEq

/-- `ClaimsIdentity.DefaultIssuer` -/
def defaultIssuer : Utf16 := utf16 "LOCAL AUTHORITY"

/-- `new Claim(type, value, null, issuer)` -/
def Claim.new (type : ClaimType) (value issuer : Utf16) : Claim :=
  ⟨type, value, if issuer = [] then defaultIssuer else issuer⟩

/-- `ClaimsIdentity` -/
structure ClaimsIdentity where
  authenticationType : Utf16
  claims : List Claim
  deriving DecidableEq

namespace ClaimsIdentity

/-- `IsAuthenticated` -/
def isAuthenticated (identity : ClaimsIdentity) : Bool := identity.authenticationType ≠ []

/-- `FindFirst` -/
def findFirst (identity : ClaimsIdentity) (type : ClaimType) : Option Claim :=
  identity.claims.find? (fun c => c.type = type)

/-- `FindFirstValue` -/
def findFirstValue (identity : ClaimsIdentity) (type : ClaimType) : Option Utf16 :=
  (identity.findFirst type).map (·.value)

end ClaimsIdentity

/-- What a token holds: the identity, when it expires, and its other properties. -/
structure AuthenticationTicket where
  identity : Option ClaimsIdentity
  expiresUtc : Option Nat
  properties : List (Utf16 × Option Utf16)
  deriving DecidableEq

/-- `ISecureDataFormat<AuthenticationTicket>`: what is protected can be read again. -/
structure SecureDataFormat where
  protect : AuthenticationTicket → Utf16
  unprotect : Utf16 → Option AuthenticationTicket
  unprotect_protect : ∀ ticket, unprotect (protect ticket) = some ticket

/-! ## Accounts -/

/-- The library code of the user manager, next to what the controllers use. -/
structure ApplicationUserManager extends Host where
  /-- The GUID of an account as text. -/
  userIdText : Nat → Utf16
  /-- `CreateIdentityAsync`, for an authentication type. -/
  createIdentityAsync : ApplicationUser → Utf16 → ClaimsIdentity

/-- What `CreateIdentityAsync` puts into an identity: the id of the account, and nothing that
another issuer would vouch for. -/
structure ApplicationUserManager.Identifies (m : ApplicationUserManager) : Prop where
  typed : ∀ user type, (m.createIdentityAsync user type).authenticationType = type
  subject : ∀ user type, (m.createIdentityAsync user type).findFirst .nameIdentifier
    = some ⟨.nameIdentifier, m.userIdText user.id, defaultIssuer⟩
  issuers : ∀ user type, ∀ c ∈ (m.createIdentityAsync user type).claims, c.issuer = defaultIssuer
  guids : ∀ id id', m.userIdText id = m.userIdText id' → id = id'

/-- The store, with the column of it that `Store` leaves out. -/
structure Accounts where
  store : Store
  /-- The password whose hash the account with this id has. -/
  passwordHash : Nat → Option Utf16

/-- The row of the account with this id. -/
structure LoadedUser (userId : Nat) where
  user : ApplicationUser
  key : user.id = userId
  passwordHash : Option Utf16

/-- The account with this id, as it is loaded. -/
structure IdentityUser (userId : Nat) extends LoadedUser userId where
  logins : List UserLoginInfo

namespace Accounts

variable (a : Accounts)

/-- The user with this id. -/
def findUser (userId : Nat) : Option ApplicationUser := a.store.users.find? (fun u => u.id = userId)

theorem id_of_findUser {a : Accounts} {userId : Nat} {user : ApplicationUser}
    (h : a.findUser userId = some user) : user.id = userId := by simpa using List.find?_some h

/-- His row. -/
def loadUser (userId : Nat) : Option (LoadedUser userId) :=
  match h : a.findUser userId with
  | some user => some ⟨user, id_of_findUser h, a.passwordHash userId⟩
  | none => none

theorem loadUser_of_findUser {userId : Nat} {user : ApplicationUser}
    (h : a.findUser userId = some user) :
    a.loadUser userId = some ⟨user, id_of_findUser h, a.passwordHash userId⟩ := by
  unfold loadUser
  split
  · next user' h' =>
      obtain rfl : user' = user := Option.some.inj (h'.symm.trans h)
      rfl
  · next h' =>
      rw [h] at h'
      cases h'

theorem of_loadUser {userId : Nat} {loaded : LoadedUser userId}
    (h : a.loadUser userId = some loaded) :
    a.findUser userId = some loaded.user ∧ loaded.passwordHash = a.passwordHash userId := by
  unfold loadUser at h
  split at h
  · next user hfound =>
      cases h
      exact ⟨hfound, rfl⟩
  · cases h

/-- His external logins. -/
def loginsOf (userId : Nat) : List UserLoginInfo :=
  (a.store.logins.filter (fun l => l.userId = userId)).map (·.login)

/-- A hash is written. -/
def setPasswordHash (userId : Nat) (hash : Option Utf16) : Accounts :=
  { a with passwordHash := fun id => if id = userId then hash else a.passwordHash id }

end Accounts

/-! ## Calls -/

/-- What a request asks of the database, the hashes of passwords included. -/
inductive ManagerOp where
  | store (o : Op)
  /-- The row of an account, by its id. -/
  | loadUser (userId : Nat)
  /-- Its logins, which are loaded with it by a statement of their own. -/
  | loadLogins (userId : Nat)
  /-- `FindAsync(userName, password)`: the row of an account by its name, whose hash is verified
  then. -/
  | findAsync (userName password : Utf16)

/-- What it is answered with. -/
def ManagerOp.Res : ManagerOp → Type
  | .store o => o.Res
  | .loadUser userId => Option (LoadedUser userId)
  | .loadLogins _ => List UserLoginInfo
  | .findAsync _ _ => Option ApplicationUser

/-- Code that runs on these calls. -/
abbrev ManagerHandler (α : Type) : Type := Proc ManagerOp ManagerOp.Res Exn α

/-- The accounts that all requests share, and what a request has of its own. -/
abbrev ManagerWorld : Type := Accounts × Session

section Manager

variable (m : ApplicationUserManager)

/-- The hash that a statement of the store writes when it works. -/
def Accounts.written (a : Accounts) (s : Store) (l : Session) :
    (o : Op) → Except Exn o.Res → ManagerWorld
  | .insertUser user passwordHash, .ok _ =>
      ({ a.setPasswordHash user.id passwordHash with store := s }, l)
  | .updateUser userId passwordHash _, .ok _ =>
      ({ a.setPasswordHash userId passwordHash with store := s }, l)
  | _, _ => ({ a with store := s }, l)

/-- A call that is not interrupted. -/
def manage : (o : ManagerOp) → ManagerWorld → Except Exn o.Res × ManagerWorld
  | .store o, (a, l) =>
      ((perform m.toHost o (a.store, l)).1,
        a.written (perform m.toHost o (a.store, l)).2.1 (perform m.toHost o (a.store, l)).2.2 o
          (perform m.toHost o (a.store, l)).1)
  | .loadUser userId, (a, l) => (.ok (a.loadUser userId), (a, l))
  | .loadLogins userId, (a, l) => (.ok (a.loginsOf userId), (a, l))
  | .findAsync userName password, (a, l) =>
      (.ok ((a.store.users.find? (fun u => m.equals u.userName userName)).filter
        (fun u => a.passwordHash u.id = some password)), (a, l))

/-- A call, with its fault: it fails and has no effect. -/
def manageExec : Exec ManagerOp ManagerOp.Res Exn ManagerWorld := fun o w =>
  match w.2.faults with
  | [] => manage m o w
  | false :: fs => manage m o (w.1, { w.2 with faults := fs })
  | true :: fs => (.error .infrastructure, (w.1, { w.2 with faults := fs }))

/-- A call works or does nothing. -/
theorem manageExec_cases (o : ManagerOp) (a : Accounts) (l : Session) :
    (∃ fs, manageExec m o (a, l) = manage m o (a, { l with faults := fs }))
    ∨ (∃ fs, manageExec m o (a, l) = (.error .infrastructure, (a, { l with faults := fs }))) := by
  unfold manageExec
  rcases hf : l.faults with _ | ⟨f, fs⟩
  · exact Or.inl ⟨[], by simp only [← hf]⟩
  · cases f with
    | false => exact Or.inl ⟨fs, rfl⟩
    | true => exact Or.inr ⟨fs, rfl⟩

end Manager

/-! ## Handlers of the store -/

/-- A handler of `Account.lean` or `Tacpac.lean`, over the calls of the user manager. -/
def embed {α : Type} : Handler α → ManagerHandler α
  | .ret a => .ret a
  | .raise e => .raise e
  | .call o k => .call (.store o) (fun r => embed (k r))

@[simp] theorem written_store (a : Accounts) (s : Store) (l : Session) (o : Op)
    (r : Except Exn o.Res) : (a.written s l o r).1.store = s ∧ (a.written s l o r).2 = l := by
  unfold Accounts.written
  split <;> exact ⟨rfl, rfl⟩

/-- A call of the store is the same call here. -/
theorem manageExec_store (m : ApplicationUserManager) (o : Op) (a : Accounts) (l : Session) :
    (manageExec m (.store o) (a, l)).1 = (exec m.toHost o (a.store, l)).1
    ∧ (manageExec m (.store o) (a, l)).2.1.store = (exec m.toHost o (a.store, l)).2.1
    ∧ (manageExec m (.store o) (a, l)).2.2 = (exec m.toHost o (a.store, l)).2.2 := by
  unfold manageExec exec
  rcases l.faults with _ | ⟨f, fs⟩
  · exact ⟨rfl, written_store _ _ _ _ _⟩
  · cases f with
    | false => exact ⟨rfl, written_store _ _ _ _ _⟩
    | true => exact ⟨rfl, rfl, rfl⟩

/-- **An embedded handler** answers as it does on the store, and leaves it as it does. -/
theorem run_embed (m : ApplicationUserManager) {α : Type} (p : Handler α) :
    ∀ (a : Accounts) (l : Session),
      ((embed p).run (manageExec m) (a, l)).1 = (p.run (exec m.toHost) (a.store, l)).1
      ∧ ((embed p).run (manageExec m) (a, l)).2.1.store = (p.run (exec m.toHost) (a.store, l)).2.1
      ∧ ((embed p).run (manageExec m) (a, l)).2.2 = (p.run (exec m.toHost) (a.store, l)).2.2 := by
  induction p with
  | ret x => exact fun _ _ => ⟨rfl, rfl, rfl⟩
  | raise e => exact fun _ _ => ⟨rfl, rfl, rfl⟩
  | call o k ih =>
      intro a l
      obtain ⟨hres, hstore, hl⟩ := manageExec_store m o a l
      -- the call fails on both sides, or gets one answer on both
      rcases hq : exec m.toHost o (a.store, l) with ⟨e | r, s', l'⟩
      · rcases hq' : manageExec m (.store o) (a, l) with ⟨e' | r', a', l''⟩
        · rw [hq, hq'] at hres hstore hl
          rw [Proc.run_call_error hq, embed, Proc.run_call_error hq']
          exact ⟨by rw [Except.error.inj hres], hstore, hl⟩
        · rw [hq, hq'] at hres
          cases hres
      · rcases hq' : manageExec m (.store o) (a, l) with ⟨e' | r', a', l''⟩
        · rw [hq, hq'] at hres
          cases hres
        · rw [hq, hq'] at hres hstore hl
          rw [Proc.run_call_ok hq, embed, Proc.run_call_ok hq']
          have hr : r' = r := Except.ok.inj hres
          have hs : a'.store = s' := hstore
          have hl' : l'' = l' := hl
          rw [hr, hl', ← hs]
          exact ih r a' l'

/-! ## `UserManager` -/

namespace ApplicationUserManager

variable (m : ApplicationUserManager) {userId : Nat}

/-- `FindByIdAsync` -/
def findByIdAsync (userId : Nat) : ManagerHandler (Option (IdentityUser userId)) := do
  let loaded ← .ask (ManagerOp.loadUser userId)
  match loaded with
  | none => return none
  | some loaded =>
      let logins ← .ask (ManagerOp.loadLogins userId)
      return some { loaded with logins := logins }

/-- What every call on an account begins with. -/
def loadAsync (userId : Nat) : ManagerHandler (IdentityUser userId) := do
  let user ← findByIdAsync userId
  Proc.orRaise .invalidOperation user

/-- `UpdatePassword`, and the update. -/
def updatePassword (user : IdentityUser userId) (newPassword : Utf16) :
    ManagerHandler IdentityResult :=
  embed (unlessErrors (passwordErrors newPassword)
    (updateAsync m.toHost user.user (some newPassword) .keep))

/-- `ChangePasswordAsync` -/
def changePasswordAsync (userId : Nat) (currentPassword newPassword : Utf16) :
    ManagerHandler IdentityResult := do
  let user ← loadAsync userId
  if user.passwordHash = some currentPassword then m.updatePassword user newPassword
  else return .failed [utf16 "Incorrect password."]

/-- `AddPasswordAsync` -/
def addPasswordAsync (userId : Nat) (password : Utf16) : ManagerHandler IdentityResult := do
  let user ← loadAsync userId
  if user.passwordHash = none then m.updatePassword user password
  else return .failed [utf16 "User already has a password set."]

/-- `RemovePasswordAsync` -/
def removePasswordAsync (userId : Nat) : ManagerHandler IdentityResult := do
  let user ← loadAsync userId
  embed (updateAsync m.toHost user.user none .keep)

/-- `AddLoginAsync` -/
def addLoginAsync (userId : Nat) (login : UserLoginInfo) : ManagerHandler IdentityResult := do
  let user ← loadAsync userId
  embed (linkAsync m.toHost user.user user.passwordHash login)

/-- `RemoveLoginAsync`: a login that has not been loaded with the account is none of its. -/
def removeLoginAsync (userId : Nat) (login : UserLoginInfo) : ManagerHandler IdentityResult := do
  let user ← loadAsync userId
  embed (updateAsync m.toHost user.user user.passwordHash
    (if login ∈ user.logins then .remove login else .keep))

end ApplicationUserManager

end TacPac.Web
