import TacPac.App.Signup

/-!
# The running app

Everything that can happen to the app from launch: what the screens offer, and the
completions of the requests under way, which arrive in any order and are handled one
at a time. A force-unwrapped `nil` ends the run with a `Trap`.

`TacPacServer.login`, the only code that sets the server token, is called from no
screen, and the start-up code that restored it from the Keychain is commented out. So
the token is `nil` in every state (`Inv`), and a run traps on it exactly when Send is
pressed on the export screen (`exec_missingToken`).
-/

namespace TacPac.App

open TacPac.Lib

/-- A request whose completion has not been called yet. -/
inductive Pending where
  | login (model : LoginModel)
  /-- The code query of a sign-up. -/
  | code (model : SignupModel)
  /-- The `createUser` of a sign-up. -/
  | create (model : SignupModel) (doctorId : Uid)
  | measurements (uid : Uid)
  | export (email : Utf16)

/-- The app together with the database it talks to. -/
structure Running where
  db : Db
  phone : Phone
  pending : List Pending

/-- What is in the text field of the measurement screen. -/
inductive Typed where
  | empty
  | notANumber
  | reading (r : Reading)

/-- What can happen: what the screens offer, and what completes. -/
inductive Event where
  | loginPressed (model : LoginModel)
  | openSignup
  | signupPressed (model : SignupModel)
  | back
  | selectTab (tab : Tab)
  | historyAppears
  | openMeasurement
  | savePressed (text : Typed)
  | openExport
  | sendPressed (email : Utf16)
  | logoutPressed
  /-- The completion of the `i`-th request; `none` is an error. -/
  | loginDone (i : Nat) (user : Option Uid)
  | codeDone (i : Nat) (allKeys : List Uid)
  | createDone (i : Nat) (created profile link : Bool)
  | measurementsDone (i : Nat)
  | exportDone (i : Nat) (ok : Bool)

/-- The force unwraps that can find nothing. -/
inductive Trap where
  | missingToken
  | missingUser
  | notANumber
  deriving DecidableEq

namespace Running

/-- The app, launched. -/
def launch (keychain : Option Utf16) (db : Db) : Running := ⟨db, Phone.launch keychain, []⟩

/-- Another screen is shown. -/
def withRoot (a : Running) (root : Root) : Running :=
  { a with phone := { a.phone with root := root } }

/-- A request is sent off. -/
def request (a : Running) (r : Pending) : Running := { a with pending := a.pending ++ [r] }

/-- The request `i` is no longer pending. -/
def settle (a : Running) (i : Nat) : Running := { a with pending := a.pending.eraseIdx i }

/-- `FirebaseHelper.saveReading` and `getMeasurements` unwrap the user. -/
def withUser (a : Running) (f : Uid → Running) : Except Trap Running :=
  match a.phone.user with
  | some uid => .ok (f uid)
  | none => .error .missingUser

/-- `MeasurementViewController.saveButtonPress` -/
def saveButtonPress (a : Running) : Typed → Except Trap Running
  | .empty => .ok a
  | .notANumber => .error .notANumber
  | .reading r => a.withUser fun uid =>
      { a with db := a.db.saveReading uid r }.withRoot (.start .history .history)

/-- `TacPacServer.POSTrequest`, as `export` calls it. -/
def postRequest (a : Running) (email : Utf16) : Except Trap Running :=
  match a.phone.token with
  | some _ => .ok (a.request (.export email))
  | none => .error .missingToken

/-- What a screen offers: `none` where it does not. -/
def userAction (a : Running) : Event → Option (Except Trap Running)
  | .loginPressed model =>
      if a.phone.root = .login false then some (.ok (a.request (.login model))) else none
  | .openSignup =>
      if a.phone.root = .login false then some (.ok (a.withRoot (.login true))) else none
  | .signupPressed model =>
      if a.phone.root = .login true then some (.ok (a.request (.code model))) else none
  | .back =>
      match a.phone.root with
      | .login true => some (.ok (a.withRoot (.login false)))
      | .start .history .export => some (.ok (a.withRoot (.start .history .history)))
      | .start .history .measurement => some (.ok (a.withRoot (.start .history .history)))
      | _ => none
  | .selectTab tab =>
      -- the tab bar is hidden while a screen is pushed
      match a.phone.root with
      | .start _ .history => some (.ok (a.withRoot (.start tab .history)))
      | _ => none
  | .historyAppears =>
      if a.phone.root = .start .history .history then
        some (a.withUser fun uid => a.request (.measurements uid))
      else none
  | .openMeasurement =>
      if a.phone.root = .start .history .history then
        some (.ok (a.withRoot (.start .history .measurement)))
      else none
  | .savePressed text =>
      if a.phone.root = .start .history .measurement then some (a.saveButtonPress text) else none
  | .openExport =>
      if a.phone.root = .start .history .history then
        some (.ok (a.withRoot (.start .history .export)))
      else none
  | .sendPressed email =>
      if a.phone.root = .start .history .export then some (a.postRequest email) else none
  | .logoutPressed =>
      match a.phone.root with
      | .start .account _ => some (.ok { a with phone := a.phone.logout })
      | _ => none
  | _ => none

/-- A completion, of a request that is under way. -/
def completion (a : Running) : Event → Option Running
  | .loginDone i user =>
      match a.pending[i]? with
      | some (.login _) => some { a.settle i with phone := a.phone.loginDone user }
      | _ => none
  | .codeDone i allKeys =>
      match a.pending[i]? with
      | some (.code model) =>
          if allKeys.Perm ((a.db.withCode model.code).map Prod.fst) then
            match App.codeDone allKeys with
            | some doctorId => some ((a.settle i).request (.create model doctorId))
            | none => some (a.settle i)
          else none
      | _ => none
  | .createDone i created profile link =>
      match a.pending[i]? with
      | some (.create model doctorId) =>
          if created then
            let w := App.createDone model doctorId a.db.nextUid profile link
              (a.db.createUser model.email model.password) a.phone
            some { a.settle i with db := w.1, phone := w.2 }
          else some (a.settle i)
      | _ => none
  | .measurementsDone i =>
      match a.pending[i]? with
      | some (.measurements _) => some (a.settle i)
      | _ => none
  | .exportDone i ok =>
      match a.pending[i]? with
      | some (.export _) =>
          -- on success the export screen goes back
          match ok, a.phone.root with
          | true, .start .history .export =>
              some ((a.settle i).withRoot (.start .history .history))
          | _, _ => some (a.settle i)
      | _ => none
  | _ => none

/-- One event; `none` if it cannot happen. -/
def step (a : Running) (e : Event) : Option (Except Trap Running) :=
  match a.userAction e with
  | some out => some out
  | none => (a.completion e).map .ok

/-- A run. After a trap there is no app for anything to happen to. -/
def exec : Running → List Event → Option (Except Trap Running)
  | a, [] => some (.ok a)
  | a, e :: es =>
      match a.step e with
      | some (.ok a') => exec a' es
      | some (.error t) => if es.isEmpty then some (.error t) else none
      | none => none

/-! ## What a step can do -/

/-- What holds of the app whatever happens to it. -/
structure Inv (a : Running) : Prop where
  token : a.phone.token = none
  /-- The start screen is opened by a sign-in or a sign-up, and logging out leaves it. -/
  user : ∀ tab top, a.phone.root = .start tab top → ∃ uid, a.phone.user = some uid

theorem inv_launch (keychain : Option Utf16) (db : Db) : Inv (launch keychain db) :=
  ⟨rfl, fun tab top hroot => by cases hroot⟩

theorem inv_request {a : Running} (h : Inv a) (r : Pending) : Inv (a.request r) :=
  ⟨h.token, h.user⟩

theorem inv_settle {a : Running} (h : Inv a) (i : Nat) : Inv (a.settle i) :=
  ⟨h.token, h.user⟩

/-- Going from one screen behind the sign-in to another. -/
theorem inv_withRoot {a : Running} (h : Inv a) {tab : Tab} {top : HistoryTop}
    (hroot : a.phone.root = .start tab top) (root : Root) : Inv (a.withRoot root) :=
  ⟨h.token, fun _ _ _ => h.user tab top hroot⟩

/-- Going to a screen before the sign-in. -/
theorem inv_withRoot_login {a : Running} (h : Inv a) (onSignup : Bool) :
    Inv (a.withRoot (.login onSignup)) :=
  ⟨h.token, fun tab top hroot => by cases hroot⟩

theorem inv_loginDone {a : Running} (h : Inv a) (i : Nat) (user : Option Uid) :
    Inv { a.settle i with phone := a.phone.loginDone user } := by
  rcases user with _ | uid
  · exact ⟨h.token, h.user⟩
  · exact ⟨h.token, fun _ _ _ => ⟨uid, rfl⟩⟩

theorem inv_createDone {a : Running} (h : Inv a) (i : Nat) (model : SignupModel)
    (doctorId uid : Uid) (profile link : Bool) (db : Db) :
    Inv { a.settle i with
      db := (App.createDone model doctorId uid profile link db a.phone).1,
      phone := (App.createDone model doctorId uid profile link db a.phone).2 } :=
  ⟨h.token, fun _ _ _ => ⟨uid, rfl⟩⟩

/-- Behind the sign-in the user is there to be unwrapped. -/
theorem withUser_ok {a : Running} (h : Inv a) {tab : Tab} {top : HistoryTop}
    (hroot : a.phone.root = .start tab top) (f : Uid → Running) :
    ∃ uid, a.withUser f = .ok (f uid) := by
  obtain ⟨uid, huser⟩ := h.user tab top hroot
  refine ⟨uid, ?_⟩
  unfold withUser
  rw [huser]

/-- What an event can come to: a step that keeps the invariant and is not Send, or one of
two traps, each of one action only. -/
inductive Comes (e : Event) (out : Except Trap Running) : Prop where
  | ok (a' : Running) (hout : out = .ok a') (inv : Inv a')
      (he : ∀ email, e ≠ .sendPressed email)
  | missingToken (email : Utf16) (hout : out = .error .missingToken)
      (he : e = .sendPressed email)
  | notANumber (hout : out = .error .notANumber) (he : e = .savePressed .notANumber)

theorem comes_saveButtonPress {a : Running} (h : Inv a) {tab : Tab} {top : HistoryTop}
    (hroot : a.phone.root = .start tab top) (text : Typed) :
    Comes (.savePressed text) (a.saveButtonPress text) := by
  rcases text with _ | _ | r
  · exact Comes.ok a rfl h (by simp)
  · exact Comes.notANumber rfl rfl
  · obtain ⟨uid, huid⟩ := withUser_ok h hroot fun uid =>
      { a with db := a.db.saveReading uid r }.withRoot (.start .history .history)
    have hinv : Inv { a with db := a.db.saveReading uid r } := ⟨h.token, h.user⟩
    exact Comes.ok _ huid (inv_withRoot hinv hroot _) (by simp)

/-- Every screen with a Send button offers a step that unwraps `nil`. -/
theorem comes_postRequest {a : Running} (h : Inv a) (email : Utf16) :
    Comes (.sendPressed email) (a.postRequest email) := by
  refine Comes.missingToken email ?_ rfl
  unfold postRequest
  rw [h.token]

theorem comes_userAction {a : Running} {e : Event} {out : Except Trap Running} (h : Inv a)
    (hout : a.userAction e = some out) : Comes e out := by
  cases e with
  | loginPressed model =>
      obtain ⟨-, heq⟩ := Option.ite_none_right_eq_some.mp hout
      cases heq
      exact Comes.ok _ rfl (inv_request h _) (by simp)
  | openSignup =>
      obtain ⟨-, heq⟩ := Option.ite_none_right_eq_some.mp hout
      cases heq
      exact Comes.ok _ rfl (inv_withRoot_login h _) (by simp)
  | signupPressed model =>
      obtain ⟨-, heq⟩ := Option.ite_none_right_eq_some.mp hout
      cases heq
      exact Comes.ok _ rfl (inv_request h _) (by simp)
  | back =>
      simp only [userAction] at hout
      split at hout
      · cases hout
        exact Comes.ok _ rfl (inv_withRoot_login h _) (by simp)
      · next hroot =>
        cases hout
        exact Comes.ok _ rfl (inv_withRoot h hroot _) (by simp)
      · next hroot =>
        cases hout
        exact Comes.ok _ rfl (inv_withRoot h hroot _) (by simp)
      · cases hout
  | selectTab tab =>
      simp only [userAction] at hout
      split at hout
      · next hroot =>
        cases hout
        exact Comes.ok _ rfl (inv_withRoot h hroot _) (by simp)
      · cases hout
  | historyAppears =>
      obtain ⟨hroot, heq⟩ := Option.ite_none_right_eq_some.mp hout
      cases heq
      obtain ⟨uid, huid⟩ := withUser_ok h hroot fun uid => a.request (.measurements uid)
      exact Comes.ok _ huid (inv_request h _) (by simp)
  | openMeasurement =>
      obtain ⟨hroot, heq⟩ := Option.ite_none_right_eq_some.mp hout
      cases heq
      exact Comes.ok _ rfl (inv_withRoot h hroot _) (by simp)
  | savePressed text =>
      obtain ⟨hroot, heq⟩ := Option.ite_none_right_eq_some.mp hout
      cases heq
      exact comes_saveButtonPress h hroot text
  | openExport =>
      obtain ⟨hroot, heq⟩ := Option.ite_none_right_eq_some.mp hout
      cases heq
      exact Comes.ok _ rfl (inv_withRoot h hroot _) (by simp)
  | sendPressed email =>
      obtain ⟨hroot, heq⟩ := Option.ite_none_right_eq_some.mp hout
      cases heq
      exact comes_postRequest h email
  | logoutPressed =>
      simp only [userAction] at hout
      split at hout
      · cases hout
        exact Comes.ok _ rfl ⟨h.token, fun _ _ hroot => by cases hroot⟩ (by simp)
      · cases hout
  | loginDone i user => cases hout
  | codeDone i allKeys => cases hout
  | createDone i created profile link => cases hout
  | measurementsDone i => cases hout
  | exportDone i ok => cases hout

theorem inv_completion {a a' : Running} {e : Event} (h : Inv a)
    (ha' : a.completion e = some a') : Inv a' := by
  unfold completion at ha'
  split at ha'
  · -- a sign-in
    split at ha'
    · cases ha'
      exact inv_loginDone h _ _
    · cases ha'
  · -- the code query of a sign-up
    split at ha'
    · split at ha'
      · split at ha'
        · cases ha'
          exact inv_request (inv_settle h _) _
        · cases ha'
          exact inv_settle h _
      · cases ha'
    · cases ha'
  · -- its `createUser`
    split at ha'
    · split at ha'
      · cases ha'
        exact inv_createDone h _ _ _ _ _ _ _
      · cases ha'
        exact inv_settle h _
    · cases ha'
  · split at ha'
    · cases ha'
      exact inv_settle h _
    · cases ha'
  · split at ha'
    · split at ha'
      · next hroot =>
        cases ha'
        exact inv_withRoot (inv_settle h _) hroot _
      · cases ha'
        exact inv_settle h _
    · cases ha'
  · cases ha'

theorem completion_sendPressed (a : Running) (email : Utf16) :
    a.completion (.sendPressed email) = none := rfl

theorem comes_step {a : Running} {e : Event} {out : Except Trap Running} (h : Inv a)
    (hout : a.step e = some out) : Comes e out := by
  unfold step at hout
  split at hout
  · next out' haction =>
    cases hout
    exact comes_userAction h haction
  · obtain ⟨a', ha', rfl⟩ := Option.map_eq_some_iff.mp hout
    refine Comes.ok a' rfl (inv_completion h ha') fun email he => ?_
    rw [he, completion_sendPressed] at ha'
    cases ha'

/-! ## Runs -/

/-- What a run can come to. -/
inductive Ends (es : List Event) (out : Except Trap Running) : Prop where
  | ok (a' : Running) (hout : out = .ok a') (inv : Inv a')
      (he : ∀ email, .sendPressed email ∉ es)
  | missingToken (email : Utf16) (hout : out = .error .missingToken)
      (he : .sendPressed email ∈ es)
  | notANumber (hout : out = .error .notANumber) (he : ∀ email, .sendPressed email ∉ es)

theorem ends_exec (es : List Event) : ∀ {a : Running} {out : Except Trap Running}, Inv a →
    a.exec es = some out → Ends es out := by
  induction es with
  | nil =>
      intro a out h hout
      cases hout
      exact Ends.ok a rfl h (by simp)
  | cons e es ih =>
      intro a out h hout
      simp only [exec] at hout
      split at hout
      · next a' hstep =>
        -- the app goes on: `e` was not Send
        rcases comes_step h hstep with ⟨a'', hok, hinv, he⟩ | ⟨email, hok, he⟩ | ⟨hok, he⟩
        · cases hok
          have hne : ∀ email, Event.sendPressed email ≠ e := fun email => (he email).symm
          rcases ih hinv hout with ⟨b, hb, hb', hes⟩ | ⟨email, hb, hes⟩ | ⟨hb, hes⟩
          · exact Ends.ok b hb hb' fun email => by simp [hne email, hes email]
          · exact Ends.missingToken email hb (List.mem_cons_of_mem _ hes)
          · exact Ends.notANumber hb fun email => by simp [hne email, hes email]
        · cases hok
        · cases hok
      · next t hstep =>
        -- it trapped, so `e` was the last event
        obtain ⟨hlast, heq⟩ := Option.ite_none_right_eq_some.mp hout
        have hnil : es = [] := List.isEmpty_iff.mp hlast
        cases heq
        rw [hnil]
        rcases comes_step h hstep with ⟨a', htrap, hinv, hsend⟩ | ⟨email, htrap, he⟩ | ⟨htrap, he⟩
        · cases htrap
        · exact Ends.missingToken email htrap (by simp [he])
        · exact Ends.notANumber htrap (by simp [he])
      · cases hout

/-- **Send is what traps on the server token.** A run of the app from launch ends in that
trap exactly if Send is pressed in it: nothing that can happen before sets the token. -/
theorem exec_missingToken (keychain : Option Utf16) (db : Db) (es : List Event)
    (out : Except Trap Running) (h : (launch keychain db).exec es = some out) :
    out = .error .missingToken ↔ ∃ email, .sendPressed email ∈ es := by
  rcases ends_exec es (inv_launch keychain db) h with
    ⟨a', heq, hinv, hes⟩ | ⟨email, heq, hes⟩ | ⟨heq, hes⟩
  · rw [heq]
    refine ⟨fun hne => (by cases hne), fun hsend => ?_⟩
    obtain ⟨email, hmem⟩ := hsend
    exact absurd hmem (hes email)
  · exact ⟨fun _ => ⟨email, hes⟩, fun _ => heq⟩
  · rw [heq]
    refine ⟨fun hne => (by cases hne), fun hsend => ?_⟩
    obtain ⟨email, hmem⟩ := hsend
    exact absurd hmem (hes email)

/-- Signing up, with a physician's code, and sending the readings to the physician. -/
def signupAndSend : List Event :=
  [.openSignup, .signupPressed signupAnn, .codeDone 0 [0], .createDone 0 true true true,
    .openExport, .sendPressed (utf16 "dr@jhu.edu")]

theorem exec_missingToken_ann :
    ∃ out, (launch none clinic).exec signupAndSend = some out ∧ out = .error .missingToken := by
  have hrun : (launch none clinic).exec signupAndSend = some (.error .missingToken) := rfl
  exact ⟨_, hrun, (exec_missingToken none clinic signupAndSend _ hrun).mpr
    ⟨utf16 "dr@jhu.edu", by simp [signupAndSend]⟩⟩

theorem exec_traps :
    ¬ ∀ (keychain : Option Utf16) (db : Db) (es : List Event) (out : Except Trap Running),
      (launch keychain db).exec es = some out → out ≠ .error .missingToken :=
  fun h => h none clinic signupAndSend _ rfl rfl

end Running

end TacPac.App
