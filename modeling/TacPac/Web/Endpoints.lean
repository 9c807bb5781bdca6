import TacPac.Lib.Isolation
import TacPac.Web.Access
import TacPac.Web.Commits
import TacPac.Web.Manage

/-!
# The endpoints of the web application

Every endpoint that an account is used through or managed with, and what a request to it has
done to the accounts when it answers (`Done`) and when it is cut off (`Breaks`), whatever its
calls answer (`follows_program`). A request that changes an account has looked at it before,
and writes once, with its last call.

The only constructor of `AccountController` takes two arguments. Without a dependency resolver
that supplies them it cannot be made, and its actions end in an exception.
-/

namespace TacPac.Web

open TacPac.Lib

/-- What the requests run on. -/
structure WebApp where
  manager : ApplicationUserManager
  site : Site
  accessTokenFormat : SecureDataFormat
  /-- Whether a dependency resolver makes an `AccountController`. -/
  resolves : Bool

/-- A request; `me` is the account it is served as. -/
inductive Endpoint where
  | signup (r : Request)
  /-- `/Token` -/
  | token (userName password : Utf16)
  | userInfo (me : Nat)
  | checkToken (me : Nat)
  | logout (me : Nat)
  | manageInfo (me : Nat) (returnUrl state : Option Utf16)
  | changePassword (me : Nat) (model : Option ChangePasswordBindingModel)
  | setPassword (me : Nat) (model : Option SetPasswordBindingModel)
  | addExternalLogin (me utcNow : Nat) (model : Option AddExternalLoginBindingModel)
  | removeLogin (me : Nat) (model : Option RemoveLoginBindingModel)
  | externalLogin (provider error : Option Utf16) (identity : ClaimsIdentity)
  | externalLogins (returnUrl state : Option Utf16)
  | patient (r : PatientRequest)
  | sendEmail (me : Nat) (recepients : Option Utf16)

/-- Whose credentials it has come with. -/
def Endpoint.me : Endpoint → Option Nat
  | .signup _ => none
  | .token _ _ => none
  | .userInfo me => some me
  | .checkToken me => some me
  | .logout me => some me
  | .manageInfo me _ _ => some me
  | .changePassword me _ => some me
  | .setPassword me _ => some me
  | .addExternalLogin me _ _ => some me
  | .removeLogin me _ => some me
  | .externalLogin _ _ _ => none
  | .externalLogins _ _ => none
  | .patient r => some r.me
  | .sendEmail me _ => some me

/-- It is an action of `AccountController`. -/
def Endpoint.isAccount : Endpoint → Bool
  | .token _ _ => false
  | .patient _ => false
  | .sendEmail _ _ => false
  | _ => true

/-- It leaves the accounts alone. -/
def Endpoint.isQuery : Endpoint → Bool
  | .userInfo _ => true
  | .checkToken _ => true
  | .logout _ => true
  | .manageInfo _ _ _ => true
  | .externalLogins _ _ => true
  | .patient _ => true
  | .sendEmail _ _ => true
  | _ => false

/-- What it is answered with. -/
inductive Response where
  | signup (answer : Answer)
  | token (grant : Grant)
  | userInfo (info : UserInfoViewModel)
  | checkToken (valid : Bool)
  | manageInfo (info : Option ManageInfoViewModel)
  | reply (reply : Reply)
  | externalLogins (logins : List ExternalLoginViewModel)
  | patient (answer : PatientAnswer)
  | sendEmail (text : Utf16)

/-- The action that it is routed to. -/
def Endpoint.action (w : WebApp) : Endpoint → ManagerHandler Response
  | .signup r => embed (r.handler w.manager.toHost) >>= fun x => .ret (.signup x)
  | .token userName password =>
      grantResourceOwnerCredentials w.manager userName password >>= fun x => .ret (.token x)
  | .userInfo me => getUserInfo me >>= fun x => .ret (.userInfo x)
  | .checkToken _ => .ret (.checkToken Web.checkToken)
  | .logout _ => .ret (.reply Web.logout)
  | .manageInfo me returnUrl state =>
      getManageInfo w.site me returnUrl state >>= fun x => .ret (.manageInfo x)
  | .changePassword me model =>
      Web.changePassword w.manager me model >>= fun x => .ret (.reply x)
  | .setPassword me model => Web.setPassword w.manager me model >>= fun x => .ret (.reply x)
  | .addExternalLogin me utcNow model =>
      Web.addExternalLogin w.manager w.accessTokenFormat utcNow me model >>= fun x =>
        .ret (.reply x)
  | .removeLogin me model => Web.removeLogin w.manager me model >>= fun x => .ret (.reply x)
  | .externalLogin provider error identity =>
      getExternalLogin w.manager w.site provider error identity >>= fun x => .ret (.reply x)
  | .externalLogins returnUrl state =>
      getExternalLogins w.site returnUrl state >>= fun x => .ret (.externalLogins x)
  | .patient r => embed (r.program w.manager.toHost) >>= fun x => .ret (.patient x)
  | .sendEmail me recepients =>
      embed (Web.sendEmail w.manager.toHost me recepients) >>= fun x => .ret (.sendEmail x)

/-- The code that runs for it: the action, of a controller that can be made. -/
def Endpoint.program (w : WebApp) (r : Endpoint) : ManagerHandler Response :=
  if r.isAccount && !w.resolves then .raise .invalidOperation else r.action w

/-- The identity that a bearer token is made of. -/
def AuthenticationCall.bearer : AuthenticationCall → Option ClaimsIdentity
  | .signOut _ => none
  | .signIn _ identities => identities.find? (fun i => i.authenticationType = Web.bearer)

/-- Whom an answer signs in. -/
def Response.identity : Response → Option ClaimsIdentity
  | .token (.validated ticket _) => ticket.identity
  | .reply x => x.calls.findSome? AuthenticationCall.bearer
  | _ => none

/-! ## What a request has done -/

/-- The token that an account is entered with. -/
def granted (m : ApplicationUserManager) (user : ApplicationUser) : Grant :=
  .validated ⟨some (m.createIdentityAsync user bearer), none, createProperties user.userName⟩
    (m.createIdentityAsync user cookies)

/-- `GetExternalLogin` signs somebody in. -/
def signedIn (m : ApplicationUserManager) (user : ApplicationUser) : Reply :=
  ⟨.of .ok, [.signOut externalCookie, .signIn (createProperties user.userName)
    [m.createIdentityAsync user bearer, m.createIdentityAsync user cookies]]⟩

/-- `GetExternalLogin` does not know him. -/
def notRegistered (data : ExternalLoginData) : Reply :=
  ⟨.of .ok, [.signIn [] [⟨bearer, data.getClaims⟩]]⟩

/-- An answer by which nothing has been done for the request. -/
def Response.refused : Response → Prop
  | .signup answer => answer ≠ .ok
  | .reply x => x.result ≠ .of .ok
  | _ => False

/-- The name it signs up with. -/
def Request.name (host : Host) (r : Request) : Option Utf16 := r.email.map host.upper

/-- The password it signs up with. -/
def Request.password : Request → Option Utf16
  | .register model => model.bind (·.password)
  | .registerExternal _ _ => none

/-- Something has been looked at, and nothing changed. -/
def Looks (es : List Act) : Prop := ∀ e ∈ es, e.looks = true

section Plan

variable (w : WebApp)

/-- What a request that is cut off, or turned down, has done: it may have made an account. -/
inductive Breaks : Endpoint → List Act → Prop
  | looked {r : Endpoint} {es : List Act} : Looks es → Breaks r es
  | numbered (r : Request) (id : Nat) : Breaks (.signup r) [.number id]
  | made (r : Request) (id : Nat) {es : List Act} : Looks es → Breaks (.signup r)
      (.number id :: .create id (r.name w.manager.toHost) r.password :: es)

/-- What a request has done, by what it answers. -/
inductive Done : Endpoint → List Act → Response → Prop
  | answered {r : Endpoint} {es : List Act} {x : Response} : r.isQuery = true → Looks es →
      x.identity = none → Done r es x
  | refused {r : Endpoint} {es : List Act} {x : Response} : Breaks w r es → x.refused →
      x.identity = none → Done r es x
  | registered (model : Option RegisterBindingModel) (id : Nat) :
      Done (.signup (.register model)) [.number id,
        .create id ((Request.register model).name w.manager.toHost)
          (Request.register model).password] (.signup .ok)
  | registeredExternal (model : Option RegisterExternalBindingModel) (login : UserLoginInfo)
      (id : Nat) :
      Done (.signup (.registerExternal model (some login)))
        [.number id,
          .create id ((Request.registerExternal model (some login)).name w.manager.toHost) none,
          .enterWith (w.manager.loginKey login) none,
          .save id none (.add (w.manager.loginKey login))] (.signup .ok)
  | granted (userName password : Utf16) (user : ApplicationUser) :
      Done (.token userName password)
        [.enter (some (w.manager.upper userName)) password (some user.id)]
        (.token (granted w.manager user))
  | denied (userName password : Utf16) :
      Done (.token userName password)
        [.enter (some (w.manager.upper userName)) password none]
        (.token (.error (utf16 "invalid_grant")
          (utf16 "The user name or password is incorrect.")))
  | passwordChanged (me : Nat) {model : ChangePasswordBindingModel} {old new : Utf16} :
      model.oldPassword = some old → model.newPassword = some new →
      Done (.changePassword me (some model)) [.load me (some old), .save me (some new) .keep]
        (.reply (.of .ok))
  | passwordSet (me : Nat) {model : SetPasswordBindingModel} {new : Utf16} :
      model.newPassword = some new →
      Done (.setPassword me (some model)) [.load me none, .save me (some new) .keep]
        (.reply (.of .ok))
  | linked (me utcNow : Nat) {model : AddExternalLoginBindingModel} {token : Utf16}
      {ticket : AuthenticationTicket} {data : ExternalLoginData} (password : Option Utf16) :
      model.externalAccessToken = some token → w.accessTokenFormat.unprotect token = some ticket →
      ticket.live utcNow = true → ExternalLoginData.fromIdentity ticket.identity = some data →
      Done (.addExternalLogin me utcNow (some model)) [.load me password,
          .enterWith (w.manager.loginKey data.login) none,
          .save me password (.add (w.manager.loginKey data.login))]
        (.reply ⟨.of .ok, [.signOut externalCookie]⟩)
  | passwordRemoved (me : Nat) {model : RemoveLoginBindingModel} (password : Option Utf16) :
      model.loginProvider = some localLoginProvider →
      Done (.removeLogin me (some model)) [.load me password, .save me none .keep]
        (.reply (.of .ok))
  | unlinked (me : Nat) {model : RemoveLoginBindingModel} {login : UserLoginInfo}
      (password : Option Utf16) {change : LoginChange} :
      model.loginProvider = some login.loginProvider → login.loginProvider ≠ localLoginProvider →
      model.providerKey = some login.providerKey →
      change = .keep ∨ change = .remove (w.manager.loginKey login) →
      Done (.removeLogin me (some model)) [.load me password, .save me password change]
        (.reply (.of .ok))
  | signedIn {provider : Option Utf16} {identity : ClaimsIdentity} {data : ExternalLoginData}
      (user : ApplicationUser) :
      ExternalLoginData.fromIdentity (some identity) = some data →
      provider = some data.loginProvider →
      Done (.externalLogin provider none identity)
        [.enterWith (w.manager.loginKey data.login) (some user.id)]
        (.reply (signedIn w.manager user))
  | notRegistered {provider : Option Utf16} {identity : ClaimsIdentity}
      {data : ExternalLoginData} :
      ExternalLoginData.fromIdentity (some identity) = some data →
      provider = some data.loginProvider →
      Done (.externalLogin provider none identity)
        [.enterWith (w.manager.loginKey data.login) none] (.reply (notRegistered data))

/-- A user is only inserted under an id that the request has been given. -/
def Asks (es : List Act) (o : ManagerOp) : Prop :=
  ∀ user passwordHash, o = .store (.insertUser user passwordHash) → .number user.id ∈ es

/-- The endpoints, as programs over acts. -/
def plan : Plan ManagerOp ManagerOp.Res Response Endpoint Act where
  act := act w.manager
  asks _ := Asks
  ends := Done w
  breaks := Breaks w

/-- The statements that insert nobody. -/
def Modest (o : ManagerOp) : Prop := ∀ user passwordHash, o ≠ .store (.insertUser user passwordHash)

end Plan

/-! ## A handler of the store, among other calls -/

section Embed

variable {α β Tag E : Type} (P : Plan ManagerOp ManagerOp.Res β Tag E) (f : α → ManagerHandler β)

/-- The plan of a handler that `f` goes on from. -/
def onStore : Plan Op Op.Res α Tag E where
  act o x := P.act (.store o) x
  asks t es o := P.asks t es (.store o)
  ends t es a := P.Follows t es (f a)
  breaks := P.breaks

variable {P f}

theorem follows_embed {t : Tag} {p : Handler α} : ∀ {es : List E},
    (onStore P f).Follows t es p → P.Follows t es (embed p >>= f) := by
  induction p with
  | ret a => exact fun h => h
  | raise e => exact fun h => h
  | call o k ih => exact fun h => ⟨h.1, h.2.1, fun x => ih x (h.2.2 x)⟩

end Embed

section Programs

variable {w : WebApp}

theorem looks_nil : Looks [] := fun _ he => (List.not_mem_nil he).elim

theorem breaks_nil (r : Endpoint) : Breaks w r [] := .looked looks_nil

theorem asks_of_modest {es : List Act} {o : ManagerOp} (h : Modest o) : Asks es o :=
  fun user passwordHash ho => absurd ho (h user passwordHash)

/-- The reads of the validator are no acts. -/
theorem looksUp_onStore {α : Type} {f : α → ManagerHandler Response} (r : Endpoint)
    (es : List Act) (user : ApplicationUser) : LooksUp (onStore (plan w) f) r es user :=
  ⟨fun _ _ => ⟨asks_of_modest (by simp [Modest]), fun _ => rfl⟩,
    fun _ _ => ⟨asks_of_modest (by simp [Modest]), fun _ => rfl⟩⟩

/-! ### Calls of the user manager -/

section Calls

variable {r : Endpoint} {es : List Act} {me : Nat} {f : IdentityResult → ManagerHandler Response}

/-- What every call begins with. -/
theorem follows_loadAsync {f : IdentityUser me → ManagerHandler Response}
    (hf : ∀ user, (plan w).Follows r [.load me user.passwordHash] (f user)) :
    (plan w).Follows r [] (ApplicationUserManager.loadAsync me >>= f) := by
  unfold ApplicationUserManager.loadAsync ApplicationUserManager.findByIdAsync
  rw [bind_assoc, bind_assoc]
  refine Plan.follows_ask (breaks_nil r) (asks_of_modest (by simp [Modest])) fun loaded => ?_
  cases loaded with
  | none => exact breaks_nil (w := w) r
  | some loaded =>
      have hlooks : Looks [.load me loaded.passwordHash] := by simp [Looks, Registry.Act.looks]
      exact Plan.follows_ask (o := ManagerOp.loadLogins me) (.looked hlooks)
        (asks_of_modest (by simp [Modest])) fun logins => hf { loaded with logins := logins }

/-- What it ends with. -/
theorem follows_update {user : ApplicationUser} {passwordHash : Option Utf16}
    {change : LoginChange} (hbreaks : Breaks w r es)
    (hfailed : ∀ errors, (plan w).Follows r es (f (.failed errors)))
    (hsuccess : (plan w).Follows r
      (es ++ [.save user.id passwordHash (change.map w.manager.loginKey)]) (f .success)) :
    (plan w).Follows r es
      (embed (updateAsync w.manager.toHost user passwordHash change) >>= f) := by
  rw [← Proc.bind_ret (updateAsync w.manager.toHost user passwordHash change)]
  exact follows_embed (follows_updateAsync (looksUp_onStore r es user) hbreaks
    (asks_of_modest (by simp [Modest])) hfailed hsuccess)

theorem follows_updatePassword {user : IdentityUser me} {newPassword : Utf16}
    (hbreaks : Breaks w r es) (hfailed : ∀ errors, (plan w).Follows r es (f (.failed errors)))
    (hsuccess : (plan w).Follows r (es ++ [.save me (some newPassword) .keep]) (f .success)) :
    (plan w).Follows r es (w.manager.updatePassword user newPassword >>= f) := by
  unfold ApplicationUserManager.updatePassword
  rw [← Proc.bind_ret (unlessErrors _ _)]
  refine follows_embed (follows_unlessErrors (hfailed _) ?_)
  refine follows_updateAsync (looksUp_onStore r es _) hbreaks
    (asks_of_modest (by simp [Modest])) hfailed ?_
  rw [user.key]
  exact hsuccess

variable (hfailed : ∀ es errors, Looks es → (plan w).Follows r es (f (.failed errors)))

include hfailed

/-- The old password was the one that was loaded. -/
theorem follows_changePasswordAsync {old new : Utf16}
    (hsuccess : (plan w).Follows r [.load me (some old), .save me (some new) .keep]
      (f .success)) :
    (plan w).Follows r [] (w.manager.changePasswordAsync me old new >>= f) := by
  unfold ApplicationUserManager.changePasswordAsync
  rw [bind_assoc]
  refine follows_loadAsync fun user => ?_
  have hlooks : Looks [.load me user.passwordHash] := by simp [Looks, Registry.Act.looks]
  by_cases hold : user.passwordHash = some old
  · -- the account may have got another password by now, which is written over
    rw [if_pos hold]
    refine follows_updatePassword (.looked hlooks) (fun errors => hfailed _ errors hlooks) ?_
    rw [hold]
    exact hsuccess
  · rw [if_neg hold]
    exact hfailed _ _ hlooks

/-- There was no password. -/
theorem follows_addPasswordAsync {new : Utf16}
    (hsuccess : (plan w).Follows r [.load me none, .save me (some new) .keep] (f .success)) :
    (plan w).Follows r [] (w.manager.addPasswordAsync me new >>= f) := by
  unfold ApplicationUserManager.addPasswordAsync
  rw [bind_assoc]
  refine follows_loadAsync fun user => ?_
  have hlooks : Looks [.load me user.passwordHash] := by simp [Looks, Registry.Act.looks]
  by_cases hnone : user.passwordHash = none
  · rw [if_pos hnone]
    refine follows_updatePassword (.looked hlooks) (fun errors => hfailed _ errors hlooks) ?_
    rw [hnone]
    exact hsuccess
  · rw [if_neg hnone]
    exact hfailed _ _ hlooks

theorem follows_removePasswordAsync
    (hsuccess : ∀ password, (plan w).Follows r [.load me password, .save me none .keep]
      (f .success)) :
    (plan w).Follows r [] (w.manager.removePasswordAsync me >>= f) := by
  unfold ApplicationUserManager.removePasswordAsync
  rw [bind_assoc]
  refine follows_loadAsync fun user => ?_
  have hlooks : Looks [.load me user.passwordHash] := by simp [Looks, Registry.Act.looks]
  refine follows_update (.looked hlooks) (fun errors => hfailed _ errors hlooks) ?_
  rw [user.key]
  exact hsuccess user.passwordHash

/-- The login was nobody's. -/
theorem follows_addLoginAsync {login : UserLoginInfo}
    (hsuccess : ∀ password, (plan w).Follows r [.load me password,
      .enterWith (w.manager.loginKey login) none,
      .save me password (.add (w.manager.loginKey login))] (f .success)) :
    (plan w).Follows r [] (w.manager.addLoginAsync me login >>= f) := by
  unfold ApplicationUserManager.addLoginAsync
  rw [bind_assoc]
  refine follows_loadAsync fun user => ?_
  have hlooks : Looks [.load me user.passwordHash] := by simp [Looks, Registry.Act.looks]
  have hlooks' : ∀ who : Option Nat, Looks [.load me user.passwordHash,
      .enterWith (w.manager.loginKey login) who] := by simp [Looks, Registry.Act.looks]
  rw [← Proc.bind_ret (linkAsync _ _ _ _)]
  refine follows_embed (follows_linkAsync (.looked hlooks) (asks_of_modest (by simp [Modest]))
    (fun owner errors => hfailed _ errors (hlooks' _)) ?_)
  refine follows_updateAsync (looksUp_onStore r _ _) (.looked (hlooks' none))
    (asks_of_modest (by simp [Modest])) (fun errors => hfailed _ errors (hlooks' none)) ?_
  rw [user.key]
  exact hsuccess user.passwordHash

/-- The login goes if it has been loaded. -/
theorem follows_removeLoginAsync {login : UserLoginInfo}
    (hsuccess : ∀ password change, change = .keep ∨ change = .remove (w.manager.loginKey login) →
      (plan w).Follows r [.load me password, .save me password change] (f .success)) :
    (plan w).Follows r [] (w.manager.removeLoginAsync me login >>= f) := by
  unfold ApplicationUserManager.removeLoginAsync
  rw [bind_assoc]
  refine follows_loadAsync fun user => ?_
  have hlooks : Looks [.load me user.passwordHash] := by simp [Looks, Registry.Act.looks]
  refine follows_update (.looked hlooks) (fun errors => hfailed _ errors hlooks) ?_
  rw [user.key]
  refine hsuccess user.passwordHash _ ?_
  by_cases hmem : login ∈ user.logins
  · rw [if_pos hmem]
    exact Or.inr rfl
  · rw [if_neg hmem]
    exact Or.inl rfl

end Calls

/-! ### Actions -/

theorem follows_refused {r : Endpoint} {es : List Act} {x : Response} (hbreaks : Breaks w r es)
    (hx : x.refused) (hidentity : x.identity = none) :
    (plan w).Follows r es (.ret x : ManagerHandler Response) := .refused hbreaks hx hidentity

/-- What an action answers when a call has failed. -/
theorem follows_failed {r : Endpoint} {es : List Act} {calls : List AuthenticationCall}
    (hcalls : calls.findSome? AuthenticationCall.bearer = none) (errors : List Utf16)
    (hlooks : Looks es) : (plan w).Follows r es
      (.ret (.reply ⟨.of (IdentityResult.failed errors).answer, calls⟩) :
        ManagerHandler Response) :=
  follows_refused (.looked hlooks)
    (by simp [Response.refused, IdentityResult.answer, getErrorResult]) hcalls

theorem follows_changePassword (me : Nat) (model : Option ChangePasswordBindingModel) :
    (plan w).Follows (.changePassword me model) []
      ((Endpoint.changePassword me model).action w) := by
  show Plan.Follows _ _ _ (Web.changePassword w.manager me model >>= _)
  have hbreaks := breaks_nil (w := w) (.changePassword me model)
  unfold Web.changePassword
  split
  · exact follows_refused hbreaks (by simp [Response.refused, Reply.of]) rfl
  · simp only [bind_assoc]
    refine Plan.follows_orRaise hbreaks fun model hmodel => ?_
    refine Plan.follows_orRaise hbreaks fun old hold => ?_
    refine Plan.follows_orRaise hbreaks fun new hnew => ?_
    rw [hmodel]
    exact follows_changePasswordAsync (fun _ errors hlooks => follows_failed rfl errors hlooks)
      (Done.passwordChanged me hold hnew)

theorem follows_setPassword (me : Nat) (model : Option SetPasswordBindingModel) :
    (plan w).Follows (.setPassword me model) [] ((Endpoint.setPassword me model).action w) := by
  show Plan.Follows _ _ _ (Web.setPassword w.manager me model >>= _)
  have hbreaks := breaks_nil (w := w) (.setPassword me model)
  unfold Web.setPassword
  split
  · exact follows_refused hbreaks (by simp [Response.refused, Reply.of]) rfl
  · simp only [bind_assoc]
    refine Plan.follows_orRaise hbreaks fun model hmodel => ?_
    refine Plan.follows_orRaise hbreaks fun new hnew => ?_
    rw [hmodel]
    exact follows_addPasswordAsync (fun _ errors hlooks => follows_failed rfl errors hlooks)
      (Done.passwordSet me hnew)

theorem follows_addExternalLogin (me utcNow : Nat) (model : Option AddExternalLoginBindingModel) :
    (plan w).Follows (.addExternalLogin me utcNow model) []
      ((Endpoint.addExternalLogin me utcNow model).action w) := by
  show Plan.Follows _ _ _
    (Web.addExternalLogin w.manager w.accessTokenFormat utcNow me model >>= _)
  have hbreaks := breaks_nil (w := w) (.addExternalLogin me utcNow model)
  unfold Web.addExternalLogin
  split
  · exact follows_refused hbreaks (by simp [Response.refused, Reply.of]) rfl
  · simp only [bind_assoc]
    refine Plan.follows_orRaise hbreaks fun model hmodel => ?_
    refine Plan.follows_orRaise hbreaks fun token htoken => ?_
    split
    · exact follows_refused hbreaks (by simp [Response.refused]) rfl
    · next ticket hticket =>
        obtain ⟨hread, hlive⟩ := Option.filter_eq_some_iff.mp hticket
        split
        · exact follows_refused hbreaks (by simp [Response.refused]) rfl
        · next data hdata =>
            rw [hmodel, bind_assoc]
            exact follows_addLoginAsync (fun _ errors hlooks => follows_failed rfl errors hlooks)
              fun password => Done.linked me utcNow password htoken hread hlive hdata

theorem follows_removeLogin (me : Nat) (model : Option RemoveLoginBindingModel) :
    (plan w).Follows (.removeLogin me model) [] ((Endpoint.removeLogin me model).action w) := by
  show Plan.Follows _ _ _ (Web.removeLogin w.manager me model >>= _)
  have hbreaks := breaks_nil (w := w) (.removeLogin me model)
  unfold Web.removeLogin
  split
  · exact follows_refused hbreaks (by simp [Response.refused, Reply.of]) rfl
  · simp only [bind_assoc]
    refine Plan.follows_orRaise hbreaks fun model hmodel => ?_
    refine Plan.follows_orRaise hbreaks fun provider hprovider => ?_
    refine Plan.follows_orRaise hbreaks fun key hkey => ?_
    rw [hmodel]
    split
    · next hlocal =>
        rw [bind_assoc]
        refine follows_removePasswordAsync
          (fun _ errors hlooks => follows_failed rfl errors hlooks) fun password => ?_
        exact Done.passwordRemoved me password (by rw [hprovider, hlocal])
    · next hother =>
        rw [bind_assoc]
        refine follows_removeLoginAsync
          (fun _ errors hlooks => follows_failed rfl errors hlooks) fun password change h => ?_
        exact Done.unlinked me password hprovider hother hkey h

theorem follows_externalLogin (provider error : Option Utf16) (identity : ClaimsIdentity) :
    (plan w).Follows (.externalLogin provider error identity) []
      ((Endpoint.externalLogin provider error identity).action w) := by
  show Plan.Follows _ _ _ (getExternalLogin w.manager w.site provider error identity >>= _)
  have hbreaks := breaks_nil (w := w) (.externalLogin provider error identity)
  unfold getExternalLogin
  split
  · exact follows_refused hbreaks (by simp [Response.refused]) rfl
  · split
    · exact follows_refused hbreaks (by simp [Response.refused]) rfl
    · split
      · exact follows_refused hbreaks (by simp [Response.refused, Reply.of]) rfl
      · next data hdata =>
          split
          · exact follows_refused hbreaks (by simp [Response.refused]) rfl
          · next hprovider =>
              have heq : provider = some data.loginProvider := (not_not.mp hprovider).symm
              -- one look decides between signing in and not knowing him
              rw [bind_assoc]
              refine follows_embed (Plan.follows_ask hbreaks (asks_of_modest (by simp [Modest]))
                fun user => ?_)
              cases user with
              | none => exact Done.notRegistered hdata heq
              | some user => exact Done.signedIn user hdata heq

theorem follows_token (userName password : Utf16) :
    (plan w).Follows (.token userName password) []
      ((Endpoint.token userName password).action w) := by
  refine Plan.follows_ask (o := ManagerOp.findAsync userName password) (breaks_nil _)
    (asks_of_modest (by simp [Modest])) fun user => ?_
  cases user with
  | none => exact Done.denied userName password
  | some user => exact Done.granted userName password user

/-! ### Signing up -/

/-- What signing up answers when it is turned down. -/
theorem follows_signup_refused {r : Request} {es : List Act} {a : Answer}
    (hbreaks : Breaks w (.signup r) es) (ha : a ≠ .ok) :
    (plan w).Follows (.signup r) es (.ret (.signup a) : ManagerHandler Response) :=
  follows_refused hbreaks ha rfl

/-- A user is made as the request says. -/
theorem follows_creates {r : Request} {user : ApplicationUser} {password : Option Utf16}
    {f : IdentityResult → Handler Answer} (hname : user.userName = r.email)
    (hpassword : password = r.password)
    (hfailed : ∀ errors, (onStore (plan w) fun x => .ret (.signup x)).Follows (.signup r)
      [.number user.id] (f (.failed errors)))
    (hsuccess : (onStore (plan w) fun x => .ret (.signup x)).Follows (.signup r)
      [.number user.id, .create user.id (r.name w.manager.toHost) r.password] (f .success)) :
    (onStore (plan w) fun x => .ret (.signup x)).Follows (.signup r) [.number user.id]
      (createAsync w.manager.toHost user password >>= f) := by
  refine follows_createAsync (looksUp_onStore _ _ user) (.numbered r user.id)
    (fun user' hash heq => ?_) hfailed ?_
  · cases heq
    exact List.mem_cons_self
  · rw [hpassword]
    have hact : (onStore (plan w) fun x => (.ret (.signup x) : ManagerHandler Response)).act
        (.insertUser user r.password) ()
        = some (.create user.id (r.name w.manager.toHost) r.password) := by
      rw [Request.name, ← hname]
      rfl
    rw [hact]
    exact hsuccess

theorem follows_signup_register (model : Option RegisterBindingModel) :
    (plan w).Follows (.signup (.register model)) []
      ((Endpoint.signup (.register model)).action w) := by
  refine follows_embed ?_
  show Plan.Follows _ _ _ (register _ _)
  unfold register
  split
  · exact follows_signup_refused (breaks_nil _) (by simp)
  · refine Plan.follows_ask (breaks_nil _) (asks_of_modest (by simp [Modest])) fun id => ?_
    have hnumber := Breaks.numbered (w := w) (.register model) id
    refine Plan.follows_orRaise hnumber fun m hm => ?_
    refine Plan.follows_orRaise hnumber fun password hpassword => ?_
    have hname : (ApplicationUser.mk id m.email m.email m.firstName m.lastName
        m.birthday).userName = (Request.register model).email := by
      rw [hm]
      rfl
    have hpassword' : some password = (Request.register model).password := by
      rw [hm]
      exact hpassword.symm
    refine follows_creates hname hpassword' (fun errors =>
      follows_signup_refused (a := getErrorResult errors) hnumber (by simp [getErrorResult])) ?_
    exact Plan.follows_ask (.made _ id looks_nil) (asks_of_modest (by simp [Modest])) fun _ =>
      Done.registered model id

theorem follows_signup_registerExternal (model : Option RegisterExternalBindingModel)
    (info : Option UserLoginInfo) :
    (plan w).Follows (.signup (.registerExternal model info)) []
      ((Endpoint.signup (.registerExternal model info)).action w) := by
  refine follows_embed ?_
  show Plan.Follows _ _ _ (registerExternal _ _ _)
  unfold registerExternal
  split
  · exact follows_signup_refused (breaks_nil _) (by simp)
  · cases info with
    | none => exact follows_signup_refused (breaks_nil _) (by simp)
    | some login =>
        refine Plan.follows_ask (breaks_nil _) (asks_of_modest (by simp [Modest])) fun id => ?_
        have hnumber := Breaks.numbered (w := w) (.registerExternal model (some login)) id
        refine Plan.follows_orRaise hnumber fun m hm => ?_
        have hname : (ApplicationUser.mk id m.email m.email none none none).userName
            = (Request.registerExternal model (some login)).email := by
          rw [hm]
          rfl
        refine follows_creates hname rfl (fun errors =>
          follows_signup_refused (a := getErrorResult errors) hnumber
            (by simp [getErrorResult])) ?_
        -- the login that completes it
        have hmade : ∀ {es}, Looks es → Breaks w (.signup (.registerExternal model (some login)))
            (.number id :: .create id
              ((Request.registerExternal model (some login)).name w.manager.toHost) none :: es) :=
          fun hlooks => .made _ id hlooks
        have hlooked : ∀ who : Option Nat, Looks [.enterWith (w.manager.loginKey login) who] := by
          simp [Looks, Registry.Act.looks]
        have hrefused : ∀ {es} errors, Looks es →
            (onStore (plan w) fun x => .ret (.signup x)).Follows
              (.signup (.registerExternal model (some login)))
              (.number id :: .create id
                ((Request.registerExternal model (some login)).name w.manager.toHost) none :: es)
              (.ret (getErrorResult errors) : Handler Answer) := fun errors hlooks =>
          follows_signup_refused (hmade hlooks) (by simp [getErrorResult])
        unfold addLoginAsync
        rw [bind_assoc]
        refine Plan.follows_ask (hmade looks_nil) (asks_of_modest (by simp [Modest]))
          fun found => ?_
        rw [bind_assoc]
        refine Plan.follows_orRaise (hmade looks_nil) fun _ _ => ?_
        refine follows_linkAsync (hmade looks_nil) (asks_of_modest (by simp [Modest]))
          (fun owner errors => hrefused errors (hlooked _)) ?_
        exact follows_updateAsync (looksUp_onStore _ _ _) (hmade (hlooked none))
          (asks_of_modest (by simp [Modest])) (fun errors => hrefused errors (hlooked none))
          (Done.registeredExternal model login id)

/-! ### Queries -/

theorem silent_getExternalLogins (returnUrl state : Option Utf16) :
    (plan w).Silent Modest (getExternalLogins w.site returnUrl state) := by
  refine Plan.silent_foldlM (fun logins description => ?_) _ _
  exact Plan.silent_bind Plan.silent_orRaise fun _ => trivial

/-- An account is loaded, or there is none. -/
theorem follows_findByIdAsync {r : Endpoint} {me : Nat}
    {f : Option (IdentityUser me) → ManagerHandler Response}
    (hf : ∀ es user, Looks es → (plan w).Follows r es (f user)) :
    (plan w).Follows r [] (ApplicationUserManager.findByIdAsync me >>= f) := by
  unfold ApplicationUserManager.findByIdAsync
  rw [bind_assoc]
  refine Plan.follows_ask (breaks_nil r) (asks_of_modest (by simp [Modest])) fun loaded => ?_
  cases loaded with
  | none => exact hf _ none looks_nil
  | some loaded =>
      have hlooks : Looks [.load me loaded.passwordHash] := by simp [Looks, Registry.Act.looks]
      exact Plan.follows_ask (o := ManagerOp.loadLogins me) (.looked hlooks)
        (asks_of_modest (by simp [Modest])) fun logins => hf _ _ hlooks

/-- A request that leaves the accounts alone, and has looked at some of them. -/
theorem follows_answered {r : Endpoint} {es : List Act} {β : Type} {p : ManagerHandler β}
    {f : β → Response} (hr : r.isQuery = true) (hes : Looks es) (hp : (plan w).Silent Modest p)
    (hf : ∀ x, (f x).identity = none) :
    (plan w).Follows r es (p >>= fun x => .ret (f x)) :=
  Plan.follows_silent hp (fun _ ho => asks_of_modest ho) (.looked hes) fun x =>
    .answered hr hes (hf x)

theorem follows_userInfo (me : Nat) :
    (plan w).Follows (.userInfo me) [] ((Endpoint.userInfo me).action w) := by
  show Plan.Follows _ _ _ (getUserInfo me >>= _)
  unfold getUserInfo
  simp only [bind_assoc]
  exact follows_findByIdAsync fun es user hes => Plan.follows_orRaise (.looked hes) fun _ _ =>
    Done.answered rfl hes rfl

theorem follows_manageInfo (me : Nat) (returnUrl state : Option Utf16) :
    (plan w).Follows (.manageInfo me returnUrl state) []
      ((Endpoint.manageInfo me returnUrl state).action w) := by
  show Plan.Follows _ _ _ (getManageInfo w.site me returnUrl state >>= _)
  unfold getManageInfo
  rw [bind_assoc]
  refine follows_findByIdAsync fun es user hes => ?_
  cases user with
  | none => exact Done.answered rfl hes rfl
  | some user =>
      dsimp only
      rw [bind_assoc]
      exact follows_answered rfl hes (silent_getExternalLogins returnUrl state) fun _ => rfl

/-- The statements of `TacpacController`. -/
def Op.Reads : Op → Prop
  | .findById _ => True
  | .findPatient _ => True
  | .measurements _ => True
  | .saveMeasurement _ _ => True
  | .send _ => True
  | _ => False

/-- A handler that sends no others is silent. -/
theorem silent_embed {α : Type} {p : Handler α} (hp : p.Only Op.Reads) :
    (plan w).Silent Modest (embed p) := by
  induction p with
  | ret a => trivial
  | raise e => trivial
  | call o k ih =>
      obtain ⟨ho, hk⟩ := hp
      refine ⟨fun user passwordHash heq => ?_, fun x => ⟨?_, ih x (hk x)⟩⟩
      · cases heq
        cases ho
      · cases o with
        | newGuid => cases ho
        | insertUser user passwordHash => cases ho
        | updateUser userId passwordHash change => cases ho
        | findLogin login => cases ho
        | _ => rfl

theorem reads_ask {o : Op} (h : o.Reads) : (Proc.ask o : Handler o.Res).Only Op.Reads :=
  Proc.only_ask h

theorem reads_addMeasurement (host : Host) (me : Nat) (measurement : Option Measurement) :
    (addMeasurement host me measurement).Only Op.Reads := by
  refine Proc.only_bind (reads_ask trivial) fun user => ?_
  refine Proc.only_bind (reads_ask trivial) fun m => ?_
  refine Proc.only_bind (Proc.only_orRaise _ _) fun m => ?_
  refine Proc.only_bind (reads_ask trivial) fun loaded => ?_
  refine Proc.only_bind ?_ fun _ => Proc.only_bind (Proc.only_orRaise _ _) fun _ => trivial
  cases measurement with
  | none => trivial
  | some measurement => exact reads_ask trivial

theorem reads_getPastMeasurement (me : Nat) (amount : Int32) :
    (getPastMeasurement me amount).Only Op.Reads := by
  refine Proc.only_bind (reads_ask trivial) fun user => ?_
  refine Proc.only_bind (Proc.only_orRaise _ _) fun user => ?_
  refine Proc.only_bind (reads_ask trivial) fun m => ?_
  refine Proc.only_bind (Proc.only_orRaise _ _) fun m => ?_
  exact Proc.only_bind (reads_ask trivial) fun list => trivial

theorem reads_patient (host : Host) (r : PatientRequest) :
    (r.program host).Only Op.Reads := by
  cases r with
  | add me measurement =>
      exact Proc.only_bind (reads_addMeasurement host me measurement) fun _ => trivial
  | getPast me amount => exact Proc.only_bind (reads_getPastMeasurement me amount) fun _ => trivial

theorem reads_sendEmail (host : Host) (me : Nat) (recepients : Option Utf16) :
    (Web.sendEmail host me recepients).Only Op.Reads := by
  refine Proc.only_bind (Proc.only_orRaise _ _) fun recipients => ?_
  refine Proc.only_bind (reads_ask trivial) fun user => ?_
  refine Proc.only_bind (Proc.only_orRaise _ _) fun user => ?_
  refine Proc.only_bind (reads_ask trivial) fun patient => ?_
  refine Proc.only_bind (Proc.only_orRaise _ _) fun patient => ?_
  refine Proc.only_bind (reads_ask trivial) fun list => ?_
  exact Proc.only_bind (reads_ask trivial) fun _ => trivial

/-- Every action does what its answer says. -/
theorem follows_action (r : Endpoint) : (plan w).Follows r [] (r.action w) := by
  cases r with
  | signup r =>
      cases r with
      | register model => exact follows_signup_register model
      | registerExternal model info => exact follows_signup_registerExternal model info
  | token userName password => exact follows_token userName password
  | changePassword me model => exact follows_changePassword me model
  | setPassword me model => exact follows_setPassword me model
  | addExternalLogin me utcNow model => exact follows_addExternalLogin me utcNow model
  | removeLogin me model => exact follows_removeLogin me model
  | externalLogin provider error identity => exact follows_externalLogin provider error identity
  | userInfo me => exact follows_userInfo me
  | checkToken me => exact Done.answered rfl looks_nil rfl
  | logout me => exact Done.answered rfl looks_nil rfl
  | manageInfo me returnUrl state => exact follows_manageInfo me returnUrl state
  | externalLogins returnUrl state =>
      exact follows_answered rfl looks_nil (silent_getExternalLogins _ _) fun _ => rfl
  | patient r =>
      exact follows_answered rfl looks_nil (silent_embed (reads_patient _ r)) fun _ => rfl
  | sendEmail me recepients =>
      exact follows_answered rfl looks_nil (silent_embed (reads_sendEmail _ me recepients))
        fun _ => rfl

/-- **Every request** does what its answer says. -/
theorem follows_program (r : Endpoint) : (plan w).Follows r [] (r.program w) := by
  unfold Endpoint.program
  split
  · -- there is no controller
    exact breaks_nil (w := w) r
  · exact follows_action r

end Programs

end TacPac.Web
