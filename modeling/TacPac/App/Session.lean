import TacPac.App.Run

/-!
# Whose session it is

Several sign-ins can be under way at once and end in any order, before or after a
logout, and one static variable says whose readings are read and written. It is set
in the same callback that opens the start screen, so the two never come apart
(`exec_user`).

A logout leaves that variable as it is, and the server token too: it removes the
Keychain entry and shows the login screen (`logout_credentials`).
-/

namespace TacPac.App

open TacPac.Lib

namespace Running

/-- The account that a completion signs in. -/
def signsIn (a : Running) : Event → Option Uid
  | .loginDone _ user => user
  | .createDone _ created _ _ => if created then some a.db.nextUid else none
  | _ => none

/-- What a step does to the session. -/
inductive Moves (a : Running) (e : Event) (a' : Running) : Prop where
  | signedIn (uid : Uid) (he : a.signsIn e = some uid) (hne : e ≠ .logoutPressed)
      (phone : a'.phone = { a.phone with user := some uid }.openStartScreen)
  | loggedOut (he : e = .logoutPressed) (hroot : ∃ tab top, a.phone.root = .start tab top)
      (phone : a'.phone = a.phone.logout)
  /-- From one screen to another, on the same side of the sign-in or back to the login. -/
  | stays (root : Root) (he : a.signsIn e = none) (hne : e ≠ .logoutPressed)
      (phone : a'.phone = { a.phone with root := root })
      (hroot : ∀ tab top, root = .start tab top → ∃ tab' top', a.phone.root = .start tab' top')

theorem moves_same {a a' : Running} {e : Event} (he : a.signsIn e = none)
    (hne : e ≠ .logoutPressed) (h : a'.phone = a.phone) : Moves a e a' :=
  Moves.stays a.phone.root he hne h fun tab top hroot => ⟨tab, top, hroot⟩

/-- Screens before the sign-in. -/
theorem moves_login {a : Running} {e : Event} (he : a.signsIn e = none)
    (hne : e ≠ .logoutPressed) (onSignup : Bool) : Moves a e (a.withRoot (.login onSignup)) :=
  Moves.stays _ he hne rfl fun tab top hroot => by cases hroot

/-- Screens behind it. -/
theorem moves_start {a b : Running} {e : Event} {tab : Tab} {top : HistoryTop}
    (he : a.signsIn e = none) (hne : e ≠ .logoutPressed) (hb : b.phone = a.phone)
    (hroot : a.phone.root = .start tab top) (root : Root) : Moves a e (b.withRoot root) := by
  refine Moves.stays root he hne ?_ fun _ _ _ => ⟨tab, top, hroot⟩
  rw [← hb]
  rfl

theorem moves_withUser {a a' : Running} {e : Event} {f : Uid → Running}
    (h : a.withUser f = .ok a') (hf : ∀ uid, Moves a e (f uid)) : Moves a e a' := by
  unfold withUser at h
  split at h
  · next uid huser =>
    cases h
    exact hf uid
  · cases h

theorem moves_userAction {a a' : Running} {e : Event} (h : a.userAction e = some (.ok a')) :
    Moves a e a' := by
  cases e with
  | loginPressed model =>
      obtain ⟨-, heq⟩ := Option.ite_none_right_eq_some.mp h
      cases heq
      exact moves_same rfl (by simp) rfl
  | openSignup =>
      obtain ⟨-, heq⟩ := Option.ite_none_right_eq_some.mp h
      cases heq
      exact moves_login rfl (by simp) true
  | signupPressed model =>
      obtain ⟨-, heq⟩ := Option.ite_none_right_eq_some.mp h
      cases heq
      exact moves_same rfl (by simp) rfl
  | back =>
      simp only [userAction] at h
      split at h
      · cases h
        exact moves_login rfl (by simp) false
      · next hroot =>
        cases h
        exact moves_start rfl (by simp) rfl hroot _
      · next hroot =>
        cases h
        exact moves_start rfl (by simp) rfl hroot _
      · cases h
  | selectTab tab =>
      simp only [userAction] at h
      split at h
      · next hroot =>
        cases h
        exact moves_start rfl (by simp) rfl hroot _
      · cases h
  | historyAppears =>
      obtain ⟨-, heq⟩ := Option.ite_none_right_eq_some.mp h
      exact moves_withUser (Option.some.inj heq) fun uid => moves_same rfl (by simp) rfl
  | openMeasurement =>
      obtain ⟨hroot, heq⟩ := Option.ite_none_right_eq_some.mp h
      cases heq
      exact moves_start rfl (by simp) rfl hroot _
  | savePressed text =>
      obtain ⟨hroot, heq⟩ := Option.ite_none_right_eq_some.mp h
      rcases text with _ | _ | r
      · cases heq
        exact moves_same rfl (by simp) rfl
      · cases heq
      · refine moves_withUser (Option.some.inj heq) fun uid => ?_
        exact moves_start (a := a) (b := { a with db := a.db.saveReading uid r }) rfl (by simp) rfl
          hroot _
  | openExport =>
      obtain ⟨hroot, heq⟩ := Option.ite_none_right_eq_some.mp h
      cases heq
      exact moves_start rfl (by simp) rfl hroot _
  | sendPressed email =>
      obtain ⟨-, heq⟩ := Option.ite_none_right_eq_some.mp h
      unfold postRequest at heq
      split at heq
      · cases heq
        exact moves_same rfl (by simp) rfl
      · cases heq
  | logoutPressed =>
      simp only [userAction] at h
      split at h
      · next hroot =>
        cases h
        exact Moves.loggedOut rfl ⟨_, _, hroot⟩ rfl
      · cases h
  | loginDone i user => cases h
  | codeDone i allKeys => cases h
  | createDone i created profile link => cases h
  | measurementsDone i => cases h
  | exportDone i ok => cases h

theorem moves_completion {a a' : Running} {e : Event} (h : a.completion e = some a') :
    Moves a e a' := by
  unfold completion at h
  split at h
  · -- a sign-in
    next i user =>
    split at h
    · cases h
      rcases user with _ | uid
      · exact moves_same rfl (by simp) rfl
      · exact Moves.signedIn uid rfl (by simp) rfl
    · cases h
  · split at h
    · split at h
      · split at h
        · cases h
          exact moves_same rfl (by simp) rfl
        · cases h
          exact moves_same rfl (by simp) rfl
      · cases h
    · cases h
  · -- the `createUser` of a sign-up
    split at h
    · split at h
      · next hcreated =>
        cases h
        exact Moves.signedIn a.db.nextUid (if_pos hcreated) (by simp) rfl
      · next hcreated =>
        cases h
        exact moves_same (if_neg hcreated) (by simp) rfl
    · cases h
  · split at h
    · cases h
      exact moves_same rfl (by simp) rfl
    · cases h
  · next i ok =>
    split at h
    · split at h
      · next hroot =>
        cases h
        refine moves_start ?_ ?_ ?_ hroot _
        · rfl
        · simp
        · rfl
      · cases h
        exact moves_same rfl (by simp) rfl
    · cases h
  · cases h

theorem moves_step {a a' : Running} {e : Event} (h : a.step e = some (.ok a')) :
    Moves a e a' := by
  unfold step at h
  split at h
  · next out haction =>
    cases h
    exact moves_userAction haction
  · obtain ⟨b, hb, heq⟩ := Option.map_eq_some_iff.mp h
    cases heq
    exact moves_completion hb

/-! ## The start screen and its user -/

/-- Whose completion opened the start screen, if it is still there. -/
def opener (a : Running) (e : Event) (o : Option Uid) : Option Uid :=
  match e with
  | .logoutPressed => none
  | e => (a.signsIn e).or o

/-- `opener` along a run. -/
def openedBy : Running → List Event → Option Uid → Option Uid
  | _, [], o => o
  | a, e :: es, o =>
      match a.step e with
      | some (.ok a') => openedBy a' es (a.opener e o)
      | _ => o

/-- The start screen that `o` opened is the user's. -/
def Owned (o : Option Uid) (a : Running) : Prop :=
  ∀ tab top, a.phone.root = .start tab top → ∃ uid, o = some uid ∧ a.phone.user = some uid

theorem owned_launch (keychain : Option Utf16) (db : Db) : Owned none (launch keychain db) :=
  fun tab top hroot => by cases hroot

theorem owned_step {a a' : Running} {e : Event} {o : Option Uid} (h : Owned o a)
    (hstep : a.step e = some (.ok a')) : Owned (a.opener e o) a' := by
  intro tab top hroot
  rcases moves_step hstep with ⟨uid, he, hne, hphone⟩ | ⟨he, -, hphone⟩ |
    ⟨root, he, hne, hphone, hfrom⟩
  · -- the callback that sets the user opens the screen
    refine ⟨uid, ?_, by rw [hphone]; rfl⟩
    unfold opener
    split
    · exact absurd rfl hne
    · rw [he]
      rfl
  · rw [hphone] at hroot
    cases hroot
  · rw [hphone] at hroot ⊢
    obtain ⟨tab', top', hbefore⟩ := hfrom tab top hroot
    obtain ⟨uid, ho, huser⟩ := h tab' top' hbefore
    refine ⟨uid, ?_, huser⟩
    unfold opener
    split
    · exact absurd rfl hne
    · rw [he, ho]
      rfl

theorem owned_exec (es : List Event) : ∀ {a a' : Running} {o : Option Uid}, Owned o a →
    a.exec es = some (.ok a') → Owned (a.openedBy es o) a' := by
  induction es with
  | nil =>
      intro a a' o h hexec
      cases hexec
      exact h
  | cons e es ih =>
      intro a a' o h hexec
      simp only [exec] at hexec
      split at hexec
      · next b hstep =>
        have hrun : a.openedBy (e :: es) o = b.openedBy es (a.opener e o) := by
          simp only [openedBy]
          rw [hstep]
        rw [hrun]
        exact ih (owned_step h hstep) hexec
      · cases (Option.ite_none_right_eq_some.mp hexec).2
      · cases hexec

/-- What the screens behind the sign-in do while `uid` is the user. -/
structure Serves (uid : Uid) (a : Running) : Prop where
  user : a.phone.user = some uid
  /-- A save adds the reading to the user's own, and leaves those of others alone. -/
  save : ∀ r out, a.step (.savePressed (.reading r)) = some out →
    ∃ a', out = .ok a' ∧ a'.db = a.db.saveReading uid r
      ∧ a'.db.stored uid = a.db.stored uid ++ [r]
      ∧ ∀ other, other ≠ uid → a'.db.stored other = a.db.stored other
  load : ∀ out, a.step .historyAppears = some out → out = .ok (a.request (.measurements uid))

theorem serves_of_user {a : Running} {uid : Uid} (h : a.phone.user = some uid) :
    Serves uid a := by
  have hwith : ∀ f : Uid → Running, a.withUser f = .ok (f uid) := by
    intro f
    unfold withUser
    rw [h]
  refine ⟨h, fun r out hout => ?_, fun out hout => ?_⟩
  · simp only [step, userAction, completion, saveButtonPress] at hout
    split at hout
    · next haction =>
      obtain ⟨-, heq⟩ := Option.ite_none_right_eq_some.mp haction
      cases heq
      cases hout
      refine ⟨_, hwith _, rfl, ?_, fun other hother => ?_⟩
      · show (a.db.saveReading uid r).stored uid = _
        rw [Db.stored_saveReading, if_pos rfl]
      · show (a.db.saveReading uid r).stored other = _
        rw [Db.stored_saveReading, if_neg hother, List.append_nil]
    · cases hout
  · simp only [step, userAction, completion] at hout
    split at hout
    · next haction =>
      obtain ⟨-, heq⟩ := Option.ite_none_right_eq_some.mp haction
      cases heq
      cases hout
      exact hwith _
    · cases hout

/-- **A start screen is its user's.** However the sign-ins, sign-ups and logouts of a run
overlap, the start screen that is shown reads and writes the readings of the account
whose completion opened it, and nothing traps on the user. -/
theorem exec_user (keychain : Option Utf16) (db : Db) (es : List Event)
    (out : Except Trap Running) (h : (launch keychain db).exec es = some out) :
    out ≠ .error .missingUser
    ∧ ∀ a tab top, out = .ok a → a.phone.root = .start tab top →
        ∃ uid, (launch keychain db).openedBy es none = some uid ∧ Serves uid a := by
  constructor
  · rcases ends_exec es (inv_launch keychain db) h with
      ⟨a', heq, -, -⟩ | ⟨email, heq, -⟩ | ⟨heq, -⟩
    · simp [heq]
    · simp [heq]
    · simp [heq]
  · intro a tab top hout hroot
    rw [hout] at h
    obtain ⟨uid, ho, huser⟩ := owned_exec es (owned_launch keychain db) h tab top hroot
    exact ⟨uid, ho, serves_of_user huser⟩

/-- Two sign-ins and a sign-up under way at once, ending in another order, around a logout. -/
def overlapping : List Event :=
  [.loginPressed ⟨utf16 "a@jhu.edu", utf16 "a"⟩, .loginPressed ⟨utf16 "b@jhu.edu", utf16 "b"⟩,
    .openSignup, .signupPressed signupAnn, .loginDone 1 (some 7), .codeDone 1 [0],
    .selectTab .account, .logoutPressed, .createDone 1 true true true, .loginDone 0 (some 8)]

theorem exec_user_overlapping :
    ∃ uid a, (launch none clinic).openedBy overlapping none = some uid ∧ Serves uid a
      ∧ a.phone.user = some 8 := by
  obtain ⟨uid, ho, hserves⟩ := (exec_user none clinic overlapping _ rfl).2 _ _ _ rfl rfl
  exact ⟨uid, _, ho, hserves, rfl⟩

/-! ## What a logout leaves -/

/-- What can happen if `TacPacServer.login`, which no screen calls, is called too. -/
inductive Happening where
  | event (e : Event)
  /-- The response to `TacPacServer.login`; `none` is one without a token. -/
  | serverLoginDone (token : Option Utf16)

/-- The session state that `TacPacServer.login` writes. -/
def serverLoginDone (token : Option Utf16) (a : Running) : Running :=
  match token with
  | some token => { a with phone := { a.phone with token := some token, keychain := some token } }
  | none => a

/-- What comes of it. -/
def happen (a : Running) : Happening → Option (Except Trap Running)
  | .event e => a.step e
  | .serverLoginDone token => some (.ok (a.serverLoginDone token))

/-- A run in which nothing traps. -/
def execAll : Running → List Happening → Option Running
  | a, [] => some a
  | a, x :: xs =>
      match a.happen x with
      | some (.ok a') => execAll a' xs
      | _ => none

/-- The completion of a sign-in or a sign-up, by whichever way. -/
def Happening.SignsIn : Happening → Prop
  | .event (.loginDone _ user) => user ≠ none
  | .event (.createDone _ created _ _) => created = true
  | .event _ => False
  | .serverLoginDone token => token ≠ none

/-- No credential is left. -/
structure SignedOut (p : Phone) : Prop where
  keychain : p.keychain = none
  token : p.token = none
  user : p.user = none

theorem execAll_cons {a b : Running} {x : Happening} {xs : List Happening}
    (h : a.execAll (x :: xs) = some b) :
    ∃ c, a.happen x = some (.ok c) ∧ c.execAll xs = some b := by
  simp only [execAll] at h
  split at h
  · next c hc => exact ⟨c, hc, h⟩
  · cases h

theorem execAll_append (xs : List Happening) : ∀ {a b : Running} {ys : List Happening},
    a.execAll (xs ++ ys) = some b → ∃ c, a.execAll xs = some c ∧ c.execAll ys = some b := by
  induction xs with
  | nil =>
      intro a b ys h
      exact ⟨a, rfl, h⟩
  | cons x xs ih =>
      intro a b ys h
      obtain ⟨c, hx, hc⟩ := execAll_cons h
      obtain ⟨d, hd, hys⟩ := ih hc
      refine ⟨d, ?_, hys⟩
      simp only [execAll]
      rw [hx]
      exact hd

/-- Behind the sign-in there is a user. -/
def HasUser (a : Running) : Prop :=
  ∀ tab top, a.phone.root = .start tab top → ∃ uid, a.phone.user = some uid

theorem hasUser_launch (keychain : Option Utf16) (db : Db) : HasUser (launch keychain db) :=
  fun tab top hroot => by cases hroot

theorem hasUser_happen {a a' : Running} {x : Happening} (ha : HasUser a)
    (h : a.happen x = some (.ok a')) : HasUser a' := by
  cases x with
  | event e =>
      rcases moves_step h with ⟨uid, -, -, hphone⟩ | ⟨-, -, hphone⟩ |
        ⟨root, -, -, hphone, hfrom⟩
      · exact fun _ _ _ => ⟨uid, by rw [hphone]; rfl⟩
      · exact fun _ _ hroot => by rw [hphone] at hroot; cases hroot
      · intro tab top hroot
        rw [hphone] at hroot ⊢
        obtain ⟨tab', top', hbefore⟩ := hfrom tab top hroot
        exact ha tab' top' hbefore
  | serverLoginDone token =>
      cases h
      rcases token with _ | token
      · exact ha
      · exact ha

/-- A user is only ever replaced by another. -/
theorem user_happen {a a' : Running} {x : Happening} (huser : ∃ uid, a.phone.user = some uid)
    (h : a.happen x = some (.ok a')) : ∃ uid, a'.phone.user = some uid := by
  cases x with
  | event e =>
      rcases moves_step h with ⟨uid, -, -, hphone⟩ | ⟨-, -, hphone⟩ | ⟨root, -, -, hphone, -⟩
      · exact ⟨uid, by rw [hphone]; rfl⟩
      · rw [hphone]
        exact huser
      · rw [hphone]
        exact huser
  | serverLoginDone token =>
      cases h
      rcases token with _ | token
      · exact huser
      · exact huser

theorem token_happen {a a' : Running} {x : Happening} (h : a.happen x = some (.ok a')) :
    a'.phone.token = none
      ↔ a.phone.token = none ∧ ∀ token, x ≠ .serverLoginDone (some token) := by
  cases x with
  | event e =>
      have hkeeps : a'.phone.token = a.phone.token := by
        rcases moves_step h with ⟨uid, -, -, hphone⟩ | ⟨-, -, hphone⟩ | ⟨root, -, -, hphone, -⟩
        · rw [hphone]; rfl
        · rw [hphone]; rfl
        · rw [hphone]
      rw [hkeeps]
      simp
  | serverLoginDone token =>
      cases h
      rcases token with _ | token
      · simp [serverLoginDone]
      · simp [serverLoginDone]

/-- Only `TacPacServer.login` writes the Keychain entry. -/
theorem keychain_happen {a a' : Running} {x : Happening} (ha : a.phone.keychain = none)
    (hx : ¬ x.SignsIn) (h : a.happen x = some (.ok a')) : a'.phone.keychain = none := by
  cases x with
  | event e =>
      rcases moves_step h with ⟨uid, -, -, hphone⟩ | ⟨-, -, hphone⟩ | ⟨root, -, -, hphone, -⟩
      · rw [hphone]
        exact ha
      · rw [hphone]
        rfl
      · rw [hphone]
        exact ha
  | serverLoginDone token =>
      cases h
      have hnone : token = none := not_not.mp hx
      rw [hnone]
      exact ha

/-- What every happening keeps, given that it is one of `xs`, a run keeps. -/
theorem execAll_keeps {P : Running → Prop} (xs : List Happening)
    (hstep : ∀ x ∈ xs, ∀ a a', P a → a.happen x = some (.ok a') → P a') :
    ∀ {a b : Running}, P a → a.execAll xs = some b → P b := by
  induction xs with
  | nil =>
      intro a b ha h
      cases h
      exact ha
  | cons x xs ih =>
      intro a b ha h
      obtain ⟨c, hx, hc⟩ := execAll_cons h
      exact ih (fun y hy => hstep y (List.mem_cons_of_mem _ hy))
        (hstep x List.mem_cons_self _ _ ha hx) hc

theorem token_execAll (xs : List Happening) : ∀ {a b : Running}, a.execAll xs = some b →
    (b.phone.token = none
      ↔ a.phone.token = none ∧ ∀ token, .serverLoginDone (some token) ∉ xs) := by
  induction xs with
  | nil =>
      intro a b h
      cases h
      simp
  | cons x xs ih =>
      intro a b h
      obtain ⟨c, hx, hc⟩ := execAll_cons h
      rw [ih hc, token_happen hx]
      constructor
      · intro hnone
        obtain ⟨⟨ha, hne⟩, hxs⟩ := hnone
        refine ⟨ha, fun token hmem => ?_⟩
        rcases List.mem_cons.mp hmem with heq | hmem
        · exact hne token heq.symm
        · exact hxs token hmem
      · intro hnone
        obtain ⟨ha, hxs⟩ := hnone
        exact ⟨⟨ha, fun token heq => hxs token (heq ▸ List.mem_cons_self)⟩,
          fun token hmem => hxs token (List.mem_cons_of_mem _ hmem)⟩

/-- **What a logout leaves.** Until the next sign-in completes the Keychain entry is gone,
but the server token is as it was, and so is the user: the button is only there for one
who is signed in, so after a logout somebody's session is always left. -/
theorem logout_credentials (keychain : Option Utf16) (db : Db) (before after : List Happening)
    (a : Running)
    (h : (launch keychain db).execAll (before ++ .event .logoutPressed :: after) = some a)
    (hafter : ∀ x ∈ after, ¬ x.SignsIn) :
    ¬ SignedOut a.phone
    ∧ a.phone.keychain = none
    ∧ (a.phone.token = none ↔ ∀ token, .serverLoginDone (some token) ∉ before)
    ∧ ∃ uid, a.phone.user = some uid := by
  obtain ⟨b, hbefore, hrest⟩ := execAll_append before h
  obtain ⟨c, hlogout, hdone⟩ := execAll_cons hrest
  -- the button was there, so somebody was signed in
  have hb : HasUser b :=
    execAll_keeps before (fun x _ d d' => hasUser_happen) (hasUser_launch keychain db) hbefore
  have hcleared : c.phone = b.phone.logout ∧ ∃ tab top, b.phone.root = .start tab top := by
    rcases moves_step hlogout with ⟨-, -, hne, -⟩ | ⟨-, hroot, hphone⟩ | ⟨-, -, hne, -, -⟩
    · exact absurd rfl hne
    · exact ⟨hphone, hroot⟩
    · exact absurd rfl hne
  obtain ⟨hphone, tab, top, hroot⟩ := hcleared
  have hc : ∃ uid, c.phone.user = some uid := by
    rw [hphone]
    exact hb tab top hroot
  have hkeychain : c.phone.keychain = none := by rw [hphone]; rfl
  have huser : ∃ uid, a.phone.user = some uid :=
    execAll_keeps after (fun x _ d d' => user_happen) hc hdone
  have htoken : a.phone.token = none ↔ ∀ token, .serverLoginDone (some token) ∉ before := by
    have hnone : ∀ token, .serverLoginDone (some token) ∉ after :=
      fun token hmem => hafter _ hmem (Option.some_ne_none token)
    rw [token_execAll after hdone, token_happen hlogout, token_execAll before hbefore]
    simp [hnone, launch, Phone.launch]
  refine ⟨fun hout => ?_, ?_, htoken, huser⟩
  · obtain ⟨uid, hsome⟩ := huser
    rw [hout.user] at hsome
    cases hsome
  · exact execAll_keeps after (P := fun d => d.phone.keychain = none)
      (fun x hx d d' hd hd' => keychain_happen hd (hafter x hx) hd') hkeychain hdone

/-- Signing in, with the server too, and out. -/
def inAndOut : List Happening :=
  [.event (.loginPressed ⟨utf16 "ann@jhu.edu", utf16 "secret"⟩), .event (.loginDone 0 (some 7)),
    .serverLoginDone (some (utf16 "t0k")), .event (.selectTab .account)]

theorem logout_credentials_inAndOut :
    ∃ a, (launch none clinic).execAll (inAndOut ++ [.event .logoutPressed]) = some a
      ∧ ¬ SignedOut a.phone ∧ a.phone.token = some (utf16 "t0k") :=
  ⟨_, rfl, (logout_credentials none clinic inAndOut [] _ rfl (by simp)).1, rfl⟩

theorem logout_leaves :
    ¬ ∀ (keychain : Option Utf16) (db : Db) (before after : List Happening) (a : Running),
      (launch keychain db).execAll (before ++ .event .logoutPressed :: after) = some a →
        (∀ x ∈ after, ¬ x.SignsIn) → SignedOut a.phone := by
  intro h
  have hout := h none clinic inAndOut [] _ rfl (by simp)
  exact absurd hout.user (by decide)

end Running

end TacPac.App
