import TacPac.App.Firebase

/-!
# The app's own state

The three places where the app keeps a session (`FirebaseHelper.user`,
`TacPacServer.token` and the Keychain entry `token`), and the screen it shows. Which
screens there are and which one leads to which is read off `Main.storyboard`.
-/

namespace TacPac.App

open TacPac.Lib

/-- The tabs of the start screen. -/
inductive Tab where
  | history
  | messages
  | account
  deriving DecidableEq

/-- The top of the navigation stack of the first tab. -/
inductive HistoryTop where
  | history
  | export
  | measurement
  deriving DecidableEq

/-- `window.rootViewController`: the storyboard's `LoginScreen`, possibly with the
sign-up form pushed on it, or its `StartVC`. -/
inductive Root where
  | login (onSignup : Bool)
  | start (tab : Tab) (top : HistoryTop)
  deriving DecidableEq

/-- The session of a phone, and the screen that is shown. -/
structure Phone where
  user : Option Uid
  token : Option Utf16
  keychain : Option Utf16
  root : Root
  deriving DecidableEq

/-- `AppDelegate.application(_:didFinishLaunchingWithOptions:)`. The Keychain outlives
the app; nothing is read from it. -/
def Phone.launch (keychain : Option Utf16) : Phone := ⟨none, none, keychain, .login false⟩

/-- `FirebaseHelper.openStartScreen` -/
def Phone.openStartScreen (p : Phone) : Phone := { p with root := .start .history .history }

/-- `TempViewController.logout` -/
def Phone.logout (p : Phone) : Phone := { p with keychain := none, root := .login false }

/-- What is typed to sign in. -/
structure LoginModel where
  email : Utf16
  password : Utf16

/-- What is typed to sign up. -/
structure SignupModel where
  email : Utf16
  password : Utf16
  firstName : Utf16
  lastName : Utf16
  dob : Utf16
  code : Utf16

/-- The completion of `FirebaseHelper.login`; `none` is an error. -/
def Phone.loginDone (user : Option Uid) (p : Phone) : Phone :=
  match user with
  | some user => { p with user := some user }.openStartScreen
  | none => p

end TacPac.App
