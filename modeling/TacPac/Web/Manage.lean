import TacPac.Web.Identity

/-!
# Managing an account

The actions of `AccountController` besides the two registrations, and
`ApplicationOAuthProvider`, which hands out the tokens that they ask for. `me` is
`User.Identity.GetUserId()`.

The calls on `Authentication` take effect when the response is written, so an action
returns them with its result.
-/

namespace TacPac.Web

open TacPac.Lib

/-! ## Binding models -/

/-- `[Compare("NewPassword", ErrorMessage = "The new password and confirmation password do not
match.")]` -/
def compareNewPassword (newPassword confirmPassword : Option Utf16) : List ModelError :=
  if confirmPassword = newPassword then []
  else [(field (utf16 "ConfirmPassword"),
    utf16 "The new password and confirmation password do not match.")]

/-- `AddExternalLoginBindingModel` -/
structure AddExternalLoginBindingModel where
  externalAccessToken : Option Utf16

/-- Its attributes: a token is required. -/
def AddExternalLoginBindingModel.modelErrors (m : AddExternalLoginBindingModel) :
    List ModelError :=
  required (utf16 "ExternalAccessToken") (utf16 "External access token") m.externalAccessToken

/-- `ChangePasswordBindingModel` -/
structure ChangePasswordBindingModel where
  oldPassword : Option Utf16
  newPassword : Option Utf16
  confirmPassword : Option Utf16

/-- Its attributes. -/
def ChangePasswordBindingModel.modelErrors (m : ChangePasswordBindingModel) : List ModelError :=
  required (utf16 "OldPassword") (utf16 "Current password") m.oldPassword
  ++ required (utf16 "NewPassword") (utf16 "New password") m.newPassword
  ++ stringLength (utf16 "NewPassword") (utf16 "New password") m.newPassword
  ++ compareNewPassword m.newPassword m.confirmPassword

/-- `RemoveLoginBindingModel` -/
structure RemoveLoginBindingModel where
  loginProvider : Option Utf16
  providerKey : Option Utf16

/-- Its attributes: both parts of the login are required. -/
def RemoveLoginBindingModel.modelErrors (m : RemoveLoginBindingModel) : List ModelError :=
  required (utf16 "LoginProvider") (utf16 "Login provider") m.loginProvider
  ++ required (utf16 "ProviderKey") (utf16 "Provider key") m.providerKey

/-- `SetPasswordBindingModel` -/
structure SetPasswordBindingModel where
  newPassword : Option Utf16
  confirmPassword : Option Utf16

/-- Its attributes. -/
def SetPasswordBindingModel.modelErrors (m : SetPasswordBindingModel) : List ModelError :=
  required (utf16 "NewPassword") (utf16 "New password") m.newPassword
  ++ stringLength (utf16 "NewPassword") (utf16 "New password") m.newPassword
  ++ compareNewPassword m.newPassword m.confirmPassword

/-! ## Results -/

/-- The `IHttpActionResult` of an action. -/
inductive ActionResult where
  | of (answer : Answer)
  /-- `BadRequest(message)` -/
  | badRequest (message : Utf16)
  | redirect (location : Utf16)
  /-- `ChallengeResult` -/
  | challenge (loginProvider : Option Utf16)
  deriving DecidableEq

/-- A call on `Authentication`. -/
inductive AuthenticationCall where
  | signOut (authenticationType : Utf16)
  | signIn (properties : List (Utf16 × Option Utf16)) (identities : List ClaimsIdentity)
  deriving DecidableEq

/-- What an action returns, with its calls on `Authentication`. -/
structure Reply where
  result : ActionResult
  calls : List AuthenticationCall
  deriving DecidableEq

/-- A result, and no call on `Authentication`. -/
def Reply.of (answer : Answer) : Reply := ⟨.of answer, []⟩

/-- `DefaultAuthenticationTypes.ExternalCookie` -/
def externalCookie : Utf16 := utf16 "ExternalCookie"

/-- `CookieAuthenticationDefaults.AuthenticationType` -/
def cookies : Utf16 := utf16 "Cookies"

/-- `OAuthDefaults.AuthenticationType` -/
def bearer : Utf16 := utf16 "Bearer"

/-- `AccountController.LocalLoginProvider` -/
def localLoginProvider : Utf16 := utf16 "Local"

/-- What an action answers to an `IdentityResult`. -/
def IdentityResult.answer : IdentityResult → Answer
  | .failed errors => getErrorResult errors
  | .success => .ok

/-! ## External logins -/

/-- `AccountController.ExternalLoginData` -/
structure ExternalLoginData where
  loginProvider : Utf16
  providerKey : Utf16
  userName : Option Utf16
  deriving DecidableEq

namespace ExternalLoginData

/-- `GetClaims` -/
def getClaims (data : ExternalLoginData) : List Claim :=
  Claim.new .nameIdentifier data.providerKey data.loginProvider
    :: (data.userName.map fun userName => Claim.new .name userName data.loginProvider).toList

/-- `FromIdentity` -/
def fromIdentity : Option ClaimsIdentity → Option ExternalLoginData
  | none => none
  | some identity =>
      match identity.findFirst .nameIdentifier with
      | none => none
      | some providerKeyClaim =>
          if providerKeyClaim.issuer = [] ∨ providerKeyClaim.value = [] then none
          else if providerKeyClaim.issuer = defaultIssuer then none
          else some ⟨providerKeyClaim.issuer, providerKeyClaim.value,
            identity.findFirstValue .name⟩

/-- The login that it stands for. -/
def login (data : ExternalLoginData) : UserLoginInfo := ⟨data.loginProvider, data.providerKey⟩

end ExternalLoginData

/-! ## `ApplicationOAuthProvider` -/

/-- `CreateProperties` -/
def createProperties (userName : Option Utf16) : List (Utf16 × Option Utf16) :=
  [(utf16 "userName", userName)]

/-- What `GrantResourceOwnerCredentials` leaves in its context. -/
inductive Grant where
  | error (error description : Utf16)
  | validated (ticket : AuthenticationTicket) (signIn : ClaimsIdentity)

/-- `GrantResourceOwnerCredentials` -/
def grantResourceOwnerCredentials (m : ApplicationUserManager) (userName password : Utf16) :
    ManagerHandler Grant := do
  let user ← .ask (ManagerOp.findAsync userName password)
  match user with
  | none =>
      return .error (utf16 "invalid_grant") (utf16 "The user name or password is incorrect.")
  | some user =>
      return .validated ⟨some (m.createIdentityAsync user bearer), none,
        createProperties user.userName⟩ (m.createIdentityAsync user cookies)

/-- The parameters added to the response of the token endpoint. -/
def tokenEndpoint (ticket : AuthenticationTicket) : List (Utf16 × Option Utf16) :=
  ticket.properties

/-- Whether the client is validated: credentials come without a client id. -/
def validateClientAuthentication (clientId : Option Utf16) : Bool := clientId = none

/-- `root` is the address of the site. -/
def validateClientRedirectUri (publicClientId root : Utf16) (clientId redirectUri : Option Utf16) :
    Bool :=
  clientId = some publicClientId && redirectUri = some root

/-! ## Actions -/

section Actions

variable (m : ApplicationUserManager)

/-- `UserInfoViewModel` -/
structure UserInfoViewModel where
  email : Option Utf16
  firstName : Option Utf16
  lastName : Option Utf16
  birthday : Option Utf16

/-- `GetUserInfo` -/
def getUserInfo (me : Nat) : ManagerHandler UserInfoViewModel := do
  let user ← ApplicationUserManager.findByIdAsync me
  let user ← Proc.orRaise .nullReference user
  return ⟨user.user.email, user.user.firstName, user.user.lastName, user.user.birthday⟩

/-- `checkToken`: whoever gets here has a token. -/
def checkToken : Bool := true

/-- `Logout` -/
def logout : Reply := ⟨.of .ok, [.signOut cookies]⟩

/-- `UserLoginInfoViewModel` -/
structure UserLoginInfoViewModel where
  loginProvider : Utf16
  providerKey : Option Utf16
  deriving DecidableEq

/-- The logins that `GetManageInfo` lists: the external ones, and the password. -/
def IdentityUser.views {me : Nat} (user : IdentityUser me) : List UserLoginInfoViewModel :=
  user.logins.map (fun linkedAccount =>
    ⟨linkedAccount.loginProvider, some linkedAccount.providerKey⟩)
  ++ if user.passwordHash ≠ none then [⟨localLoginProvider, user.user.userName⟩] else []

/-- `ExternalLoginViewModel` -/
structure ExternalLoginViewModel where
  name : Utf16
  url : Utf16
  state : Option Utf16

/-- What `Authentication` knows of a way to log in. -/
structure AuthenticationDescription where
  authenticationType : Utf16
  caption : Utf16

/-- Where the site is: its routes, and what a relative address stands for. -/
structure Site where
  publicClientId : Utf16
  externalAuthenticationTypes : List AuthenticationDescription
  /-- `Url.Route("ExternalLogin", …)` -/
  externalLoginRoute : List (Utf16 × Option Utf16) → Utf16
  /-- `new Uri(Request.RequestUri, returnUrl).AbsoluteUri`, unless it throws. -/
  absoluteUri : Option Utf16 → Option Utf16
  /-- `Url.Content("~/")` -/
  content : Utf16
  escapeDataString : Utf16 → Utf16

/-- `GetExternalLogins`; `state` is what the generator yields if one is asked for. -/
def getExternalLogins (site : Site) (returnUrl state : Option Utf16) :
    ManagerHandler (List ExternalLoginViewModel) :=
  site.externalAuthenticationTypes.foldlM (fun logins description => do
    let redirectUri ← Proc.orRaise .argument (site.absoluteUri returnUrl)
    return logins ++ [⟨description.caption, site.externalLoginRoute
      [(utf16 "provider", some description.authenticationType),
        (utf16 "response_type", some (utf16 "token")),
        (utf16 "client_id", some site.publicClientId),
        (utf16 "redirect_uri", some redirectUri),
        (utf16 "state", state)], state⟩]) []

/-- `ManageInfoViewModel` -/
structure ManageInfoViewModel where
  localLoginProvider : Utf16
  email : Option Utf16
  logins : List UserLoginInfoViewModel
  externalLoginProviders : List ExternalLoginViewModel

/-- `GetManageInfo` -/
def getManageInfo (site : Site) (me : Nat) (returnUrl state : Option Utf16) :
    ManagerHandler (Option ManageInfoViewModel) := do
  let user ← ApplicationUserManager.findByIdAsync me
  match user with
  | none => return none
  | some user =>
      let providers ← getExternalLogins site returnUrl state
      return some ⟨localLoginProvider, user.user.userName, user.views, providers⟩

/-- `ChangePassword` -/
def changePassword (me : Nat) (model : Option ChangePasswordBindingModel) :
    ManagerHandler Reply :=
  match modelState ChangePasswordBindingModel.modelErrors model with
  | e :: es => return .of (.badRequest (e :: es))
  | [] => do
    let model ← Proc.orRaise .nullReference model
    let oldPassword ← Proc.orRaise .argument model.oldPassword
    let newPassword ← Proc.orRaise .argument model.newPassword
    let result ← m.changePasswordAsync me oldPassword newPassword
    return .of result.answer

/-- `SetPassword` -/
def setPassword (me : Nat) (model : Option SetPasswordBindingModel) : ManagerHandler Reply :=
  match modelState SetPasswordBindingModel.modelErrors model with
  | e :: es => return .of (.badRequest (e :: es))
  | [] => do
    let model ← Proc.orRaise .nullReference model
    let newPassword ← Proc.orRaise .argument model.newPassword
    let result ← m.addPasswordAsync me newPassword
    return .of result.answer

/-- Whether a ticket can be used at this time. -/
def AuthenticationTicket.live (ticket : AuthenticationTicket) (utcNow : Nat) : Bool :=
  ticket.identity ≠ none && !(ticket.expiresUtc.any (· < utcNow))

/-- `AddExternalLogin` -/
def addExternalLogin (accessTokenFormat : SecureDataFormat) (utcNow : Nat) (me : Nat)
    (model : Option AddExternalLoginBindingModel) : ManagerHandler Reply :=
  match modelState AddExternalLoginBindingModel.modelErrors model with
  | e :: es => return .of (.badRequest (e :: es))
  | [] => do
    let model ← Proc.orRaise .nullReference model
    let token ← Proc.orRaise .argument model.externalAccessToken
    let calls := [.signOut externalCookie]
    match (accessTokenFormat.unprotect token).filter (·.live utcNow) with
    | none => return ⟨.badRequest (utf16 "External login failure."), calls⟩
    | some ticket =>
        match ExternalLoginData.fromIdentity ticket.identity with
        | none =>
            return ⟨.badRequest
              (utf16 "The external login is already associated with an account."), calls⟩
        | some externalData =>
            let result ← m.addLoginAsync me externalData.login
            return ⟨.of result.answer, calls⟩

/-- `RemoveLogin` -/
def removeLogin (me : Nat) (model : Option RemoveLoginBindingModel) : ManagerHandler Reply :=
  match modelState RemoveLoginBindingModel.modelErrors model with
  | e :: es => return .of (.badRequest (e :: es))
  | [] => do
    let model ← Proc.orRaise .nullReference model
    let loginProvider ← Proc.orRaise .argument model.loginProvider
    let providerKey ← Proc.orRaise .argument model.providerKey
    if loginProvider = localLoginProvider then
      let result ← m.removePasswordAsync me
      return .of result.answer
    else
      let result ← m.removeLoginAsync me ⟨loginProvider, providerKey⟩
      return .of result.answer

/-- `GetExternalLogin`; `identity` is that of the external cookie, which `Authentication` has
read. -/
def getExternalLogin (site : Site) (provider error : Option Utf16) (identity : ClaimsIdentity) :
    ManagerHandler Reply :=
  match error with
  | some error =>
      return ⟨.redirect (site.content ++ utf16 "#error=" ++ site.escapeDataString error), []⟩
  | none =>
    if identity.isAuthenticated = false then return ⟨.challenge provider, []⟩
    else
      match ExternalLoginData.fromIdentity (some identity) with
      | none => return .of .internalServerError
      | some externalLogin =>
        if some externalLogin.loginProvider ≠ provider then
          return ⟨.challenge provider, [.signOut externalCookie]⟩
        else do
          let user ← embed (findLogin externalLogin.login)
          match user with
          | some user =>
              return ⟨.of .ok, [.signOut externalCookie,
                .signIn (createProperties user.userName)
                  [m.createIdentityAsync user bearer, m.createIdentityAsync user cookies]]⟩
          | none =>
              return ⟨.of .ok, [.signIn [] [⟨bearer, externalLogin.getClaims⟩]]⟩

end Actions

end TacPac.Web
