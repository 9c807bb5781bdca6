import TacPac.Lib.Trace
import TacPac.Web.Store

/-!
# The user manager's own code

What ASP.NET Identity runs between its statements, as `ApplicationUserManager.Create` in
`App_Start/IdentityConfig.cs` sets it up. `CreateAsync` and `UpdateAsync` validate the user
with two reads and write him with a statement of its own, and nothing is locked in between,
so what has been found out may no longer be so when the write comes. `AddLoginAsync` looks
whether the login is anybody's before that. So the pieces below are programs over the
statements of `Store.lean`, like the handlers that call them.

A hash of a password is the password that it verifies.
-/

namespace TacPac.Web

open TacPac.Lib

/-- `char.IsWhiteSpace` -/
def isWhiteSpace (c : UInt16) : Bool :=
  (9 ≤ c && c ≤ 13) || c = 0x20 || c = 0x85 || c = 0xA0 || c = 0x1680
    || (0x2000 ≤ c && c ≤ 0x200A) || c = 0x2028 || c = 0x2029 || c = 0x202F || c = 0x205F
    || c = 0x3000

/-! ## Statements -/

/-- `UserStore.FindByNameAsync` -/
def findByName (userName : Utf16) : Handler (Option ApplicationUser) :=
  .ask (Op.findByName userName)

/-- `UserStore.FindByEmailAsync` -/
def findByEmail (email : Utf16) : Handler (Option ApplicationUser) := .ask (Op.findByEmail email)

/-- `UserStore.CreateAsync` -/
def insertUser (user : ApplicationUser) (passwordHash : Option Utf16) : Handler Unit :=
  .ask (Op.insertUser user passwordHash)

/-- `UserManager.FindById` -/
def findById (userId : Nat) : Handler (Option ApplicationUser) := .ask (Op.findById userId)

/-- `UserStore.FindAsync` -/
def findLogin (login : UserLoginInfo) : Handler (Option ApplicationUser) :=
  .ask (Op.findLogin login)

/-- `UserStore.UpdateAsync` -/
def updateUser (userId : Nat) (passwordHash : Option Utf16) (change : LoginChange) :
    Handler Unit := .ask (Op.updateUser userId passwordHash change)

/-! ## `PasswordValidator` -/

/-- `IsDigit` -/
def isDigit (c : UInt16) : Bool := 0x30 ≤ c && c ≤ 0x39

/-- `IsLower` -/
def isLower (c : UInt16) : Bool := 0x61 ≤ c && c ≤ 0x7A

/-- `IsUpper` -/
def isUpper (c : UInt16) : Bool := 0x41 ≤ c && c ≤ 0x5A

/-- `IsLetterOrDigit` -/
def isLetterOrDigit (c : UInt16) : Bool := isUpper c || isLower c || isDigit c

/-- What a password lacks. -/
def passwordFaults (item : Utf16) : List Utf16 :=
  (if item.all isWhiteSpace || item.length < 6 then
    [utf16 "Passwords must be at least 6 characters."] else [])
  ++ (if item.all isLetterOrDigit then
    [utf16 "Passwords must have at least one non letter or digit character."] else [])
  ++ (if item.all (fun c => !isDigit c) then
    [utf16 "Passwords must have at least one digit ('0'-'9')."] else [])
  ++ (if item.all (fun c => !isLower c) then
    [utf16 "Passwords must have at least one lowercase ('a'-'z')."] else [])
  ++ (if item.all (fun c => !isUpper c) then
    [utf16 "Passwords must have at least one uppercase ('A'-'Z')."] else [])

/-- `PasswordValidator.ValidateAsync`: all that it lacks is one error. -/
def passwordErrors (item : Utf16) : List Utf16 :=
  match passwordFaults item with
  | [] => []
  | errors => [(errors.intersperse (utf16 " ")).flatten]

/-! ## `UserValidator` -/

/-- Another account has it. -/
def takenErrors (what text : Utf16) (userId : Nat) (owner : Option ApplicationUser) : List Utf16 :=
  if owner.any (fun o => o.id ≠ userId) then [what ++ text ++ utf16 " is already taken."] else []

/-- `ValidateUserName` -/
def validateUserName (user : ApplicationUser) : Handler (List Utf16) :=
  let userName := user.userName.getD []
  if userName.all isWhiteSpace then return [utf16 "Name cannot be null or empty."]
  else do
    let owner ← findByName userName
    return takenErrors (utf16 "Name ") userName user.id owner

/-- `ValidateEmailAsync` -/
def validateEmail (host : Host) (user : ApplicationUser) : Handler (List Utf16) :=
  let email := user.email.getD []
  if email.all isWhiteSpace then return [utf16 "Email cannot be null or empty."]
  else if host.isMailAddress email then do
    let owner ← findByEmail email
    return takenErrors (utf16 "Email '") (email ++ utf16 "'") user.id owner
  else return [utf16 "Email '" ++ email ++ utf16 "' is invalid."]

/-- `UserValidator.ValidateAsync` -/
def validateAsync (host : Host) (user : ApplicationUser) : Handler (List Utf16) := do
  let errors ← validateUserName user
  let errors' ← validateEmail host user
  return errors ++ errors'

/-! ## `UserManager` -/

/-- The program goes on if there are no errors. -/
def unlessErrors (errors : List Utf16) (p : Handler IdentityResult) : Handler IdentityResult :=
  if errors = [] then p else .ret (.failed errors)

/-- `CreateAsync(user)`, with a password or without. -/
def createAsync (host : Host) (user : ApplicationUser) (password : Option Utf16) :
    Handler IdentityResult :=
  unlessErrors (password.elim [] passwordErrors) do
    let errors ← validateAsync host user
    unlessErrors errors do
      insertUser user password
      return .success

/-- `UpdateAsync`, for a user with this password hash and a change of his logins. -/
def updateAsync (host : Host) (user : ApplicationUser) (passwordHash : Option Utf16)
    (change : LoginChange) : Handler IdentityResult := do
  let errors ← validateAsync host user
  unlessErrors errors do
    updateUser user.id passwordHash change
    return .success

/-- `AddLoginAsync`, when the user has been loaded. -/
def linkAsync (host : Host) (user : ApplicationUser) (passwordHash : Option Utf16)
    (login : UserLoginInfo) : Handler IdentityResult := do
  let existingUser ← findLogin login
  match existingUser with
  | some _ => return .failed [utf16 "A user with that external login already exists."]
  | none => updateAsync host user passwordHash (.add login)

/-! ## What the validator finds -/

/-- What `ValidateUserName` comes to. -/
def Host.nameErrors (host : Host) (users : List ApplicationUser) (user : ApplicationUser) :
    List Utf16 :=
  let userName := user.userName.getD []
  if userName.all isWhiteSpace then [utf16 "Name cannot be null or empty."]
  else takenErrors (utf16 "Name ") userName user.id
    (users.find? fun u => host.equals u.userName userName)

/-- What `ValidateEmailAsync` comes to. -/
def Host.emailErrors (host : Host) (users : List ApplicationUser) (user : ApplicationUser) :
    List Utf16 :=
  let email := user.email.getD []
  if email.all isWhiteSpace then [utf16 "Email cannot be null or empty."]
  else if host.isMailAddress email then
    takenErrors (utf16 "Email '") (email ++ utf16 "'") user.id
      (users.find? fun u => host.equals u.email email)
  else [utf16 "Email '" ++ email ++ utf16 "' is invalid."]

/-- What `ValidateAsync` comes to while the users stay the same. -/
def Host.userErrors (host : Host) (users : List ApplicationUser) (user : ApplicationUser) :
    List Utf16 := host.nameErrors users user ++ host.emailErrors users user

section Alone

variable {host : Host} {s : Store}

/-- A validator that changes nothing, run on its own. -/
def Finds {α : Type} (host : Host) (s : Store) (p : Handler α) (x : α) : Prop :=
  ∀ l, Proc.wp (alone host) p (fun y w => y = x ∧ w.1 = s)
    (fun e w => e = .infrastructure ∧ w.1 = s) (s, l)

theorem finds_ret {α : Type} (x : α) : Finds host s (.ret x) x := fun _ => ⟨rfl, rfl⟩

theorem finds_bind {α β : Type} {p : Handler α} {f : α → Handler β} {x : α} {y : β}
    (hp : Finds host s p x) (hf : Finds host s (f x) y) : Finds host s (p >>= f) y := by
  intro l
  refine Proc.wp_seq (hp l) fun x' w h => ?_
  obtain ⟨rfl, hw⟩ := h
  obtain ⟨s', l'⟩ := w
  obtain rfl : s' = s := hw
  exact hf l'

theorem finds_read {o : Op} {x : o.Res} (h : ∀ l, perform host o (s, l) = (.ok x, (s, l))) :
    Finds host s (Proc.ask o) x := by
  refine fun l => wp_ask (fun l' => ?_) fun _ => ⟨rfl, rfl⟩
  rw [h l']
  exact ⟨rfl, rfl⟩

theorem finds_userName (user : ApplicationUser) :
    Finds host s (validateUserName user) (host.nameErrors s.users user) := by
  unfold validateUserName Host.nameErrors
  by_cases hblank : (user.userName.getD []).all isWhiteSpace = true
  · rw [if_pos hblank, if_pos hblank]
    exact finds_ret _
  · rw [if_neg hblank, if_neg hblank]
    exact finds_bind (finds_read (o := .findByName _) fun _ => rfl) (finds_ret _)

theorem finds_email (user : ApplicationUser) :
    Finds host s (validateEmail host user) (host.emailErrors s.users user) := by
  unfold validateEmail Host.emailErrors
  by_cases hblank : (user.email.getD []).all isWhiteSpace = true
  · rw [if_pos hblank, if_pos hblank]
    exact finds_ret _
  · rw [if_neg hblank, if_neg hblank]
    by_cases haddress : host.isMailAddress (user.email.getD []) = true
    · rw [if_pos haddress, if_pos haddress]
      exact finds_bind (finds_read (o := .findByEmail _) fun _ => rfl) (finds_ret _)
    · rw [if_neg haddress, if_neg haddress]
      exact finds_ret _

/-- **What the validator finds** on its own. -/
theorem finds_validateAsync (host : Host) (s : Store) (user : ApplicationUser) :
    Finds host s (validateAsync host user) (host.userErrors s.users user) :=
  finds_bind (finds_userName user) (finds_bind (finds_email user) (finds_ret _))

end Alone

/-! ## What they do, among others -/

section Follows

variable {α Tag E : Type} {P : Plan Op Op.Res α Tag E} {host : Host} {t : Tag} {es : List E}

/-- The reads of the validator are calls that do nothing. -/
structure LooksUp (P : Plan Op Op.Res α Tag E) (t : Tag) (es : List E) (user : ApplicationUser) :
    Prop where
  name : ∀ userName, user.userName = some userName → P.asks t es (.findByName userName)
    ∧ ∀ x, P.act (.findByName userName) x = none
  email : ∀ email, user.email = some email → P.asks t es (.findByEmail email)
    ∧ ∀ x, P.act (.findByEmail email) x = none

/-- The calls that are asked and do nothing, whoever is found. -/
def LooksUp.asked (P : Plan Op Op.Res α Tag E) (t : Tag) (es : List E) (o : Op) : Prop :=
  P.asks t es o ∧ ∀ x : o.Res, P.act o x = none

/-- What is not blank is there. -/
theorem eq_some_of_not_blank {text : Option Utf16} (h : ¬ (text.getD []).all isWhiteSpace = true) :
    text = some (text.getD []) := by
  cases text with
  | none => exact absurd rfl h
  | some text => rfl

theorem silent_validateAsync {user : ApplicationUser} (h : LooksUp P t es user) :
    P.Silent (ε := Exn) (LooksUp.asked P t es) (validateAsync host user) := by
  refine Plan.silent_bind ?_ fun errors => Plan.silent_bind ?_ fun errors' => trivial
  · unfold validateUserName
    by_cases hblank : (user.userName.getD []).all isWhiteSpace = true
    · rw [if_pos hblank]
      trivial
    · rw [if_neg hblank]
      have hread := h.name _ (eq_some_of_not_blank hblank)
      exact Plan.silent_bind (Plan.silent_ask hread hread.2) fun _ => trivial
  · unfold validateEmail
    by_cases hblank : (user.email.getD []).all isWhiteSpace = true
    · rw [if_pos hblank]
      trivial
    · rw [if_neg hblank]
      by_cases haddress : host.isMailAddress (user.email.getD []) = true
      · rw [if_pos haddress]
        have hread := h.email _ (eq_some_of_not_blank hblank)
        exact Plan.silent_bind (Plan.silent_ask hread hread.2) fun _ => trivial
      · rw [if_neg haddress]
        trivial

theorem follows_unlessErrors {errors : List Utf16} {p : Handler IdentityResult}
    {f : IdentityResult → Handler α} (hfailed : P.Follows t es (f (.failed errors)))
    (hp : P.Follows t es (p >>= f)) : P.Follows t es (unlessErrors errors p >>= f) := by
  unfold unlessErrors
  by_cases h : errors = []
  · rw [if_pos h]
    exact hp
  · rw [if_neg h]
    exact hfailed

/-- Turned down, or the user is made. -/
theorem follows_createAsync {user : ApplicationUser} {password : Option Utf16}
    {f : IdentityResult → Handler α} (hreads : LooksUp P t es user) (hbreaks : P.breaks t es)
    (hasks : P.asks t es (.insertUser user password))
    (hfailed : ∀ errors, P.Follows t es (f (.failed errors)))
    (hsuccess : P.Follows t (es ++ (P.act (.insertUser user password) ()).toList) (f .success)) :
    P.Follows t es (createAsync host user password >>= f) := by
  refine follows_unlessErrors (hfailed _) ?_
  rw [bind_assoc]
  refine Plan.follows_silent (silent_validateAsync hreads) (fun o ho => ho.1) hbreaks
    fun errors => follows_unlessErrors (hfailed _) ?_
  exact Plan.follows_ask hbreaks hasks fun _ => hsuccess

/-- Turned down, or the user is written. -/
theorem follows_updateAsync {user : ApplicationUser} {passwordHash : Option Utf16}
    {change : LoginChange} {f : IdentityResult → Handler α} (hreads : LooksUp P t es user)
    (hbreaks : P.breaks t es) (hasks : P.asks t es (.updateUser user.id passwordHash change))
    (hfailed : ∀ errors, P.Follows t es (f (.failed errors)))
    (hsuccess : P.Follows t
      (es ++ (P.act (.updateUser user.id passwordHash change) ()).toList) (f .success)) :
    P.Follows t es (updateAsync host user passwordHash change >>= f) := by
  unfold updateAsync
  rw [bind_assoc]
  refine Plan.follows_silent (silent_validateAsync hreads) (fun o ho => ho.1) hbreaks
    fun errors => follows_unlessErrors (hfailed _) ?_
  exact Plan.follows_ask hbreaks hasks fun _ => hsuccess

/-- Turned down, or the login was nobody's and goes in with the update. -/
theorem follows_linkAsync {user : ApplicationUser} {passwordHash : Option Utf16}
    {login : UserLoginInfo} {f : IdentityResult → Handler α} (hbreaks : P.breaks t es)
    (hasks : P.asks t es (.findLogin login))
    (htaken : ∀ owner errors, P.Follows t
      (es ++ (P.act (.findLogin login) (some owner)).toList) (f (.failed errors)))
    (hfree : P.Follows t (es ++ (P.act (.findLogin login) none).toList)
      (updateAsync host user passwordHash (.add login) >>= f)) :
    P.Follows t es (linkAsync host user passwordHash login >>= f) := by
  unfold linkAsync
  rw [bind_assoc]
  refine Plan.follows_ask hbreaks hasks fun existingUser => ?_
  cases existingUser with
  | some owner => exact htaken owner _
  | none => exact hfree

end Follows

end TacPac.Web
