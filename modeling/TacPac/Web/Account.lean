import TacPac.Web.Users

/-!
# `AccountController.Register` and `RegisterExternal`

Both make an account in two steps that are committed one after the other: the
user, and then the patient row or the external login. Whatever happens between
the two, the first stays (`outcome_register`, `outcome_registerExternal`), and since
no two users may have one name, which is the e-mail, it cannot be made again
(`respond_taken`).
-/

namespace TacPac.Web

open TacPac.Lib

/-! ## Model validation -/

/-- A `ModelState` entry: the field and the message. -/
abbrev ModelError : Type := Utf16 × Utf16

/-- The key of a field of the body. -/
def field (name : Utf16) : Utf16 := utf16 "model." ++ name

/-- `[Required]` -/
def required (name display : Utf16) (v : Option Utf16) : List ModelError :=
  if (v.getD []).all isWhiteSpace then
    [(field name, utf16 "The " ++ display ++ utf16 " field is required.")]
  else []

/-- `[StringLength(100, ErrorMessage = "The {0} must be at least {2} characters long.",
MinimumLength = 6)]` -/
def stringLength (name display : Utf16) (v : Option Utf16) : List ModelError :=
  match v with
  | none => []
  | some v =>
      if 6 ≤ v.length ∧ v.length ≤ 100 then []
      else [(field name, utf16 "The " ++ display ++ utf16 " must be at least 6 characters long.")]

/-- The body of `Register`. -/
structure RegisterBindingModel where
  email : Option Utf16
  password : Option Utf16
  firstName : Option Utf16
  lastName : Option Utf16
  birthday : Option Utf16

/-- The body of `RegisterExternal`. -/
structure RegisterExternalBindingModel where
  email : Option Utf16

/-- Its attributes, in the order of the properties. -/
def RegisterBindingModel.modelErrors (m : RegisterBindingModel) : List ModelError :=
  required (utf16 "Email") (utf16 "Email") m.email
  ++ required (utf16 "Password") (utf16 "Password") m.password
  ++ stringLength (utf16 "Password") (utf16 "Password") m.password
  ++ required (utf16 "FirstName") (utf16 "First Name") m.firstName
  ++ required (utf16 "LastName") (utf16 "Last Name") m.lastName
  ++ required (utf16 "Birthday") (utf16 "Birth Date") m.birthday

/-- Its attributes. -/
def RegisterExternalBindingModel.modelErrors (m : RegisterExternalBindingModel) :
    List ModelError :=
  required (utf16 "Email") (utf16 "Email") m.email

/-- The `ModelState` of a body: a missing one is not validated. -/
def modelState {M : Type} (modelErrors : M → List ModelError) : Option M → List ModelError
  | some m => modelErrors m
  | none => []

/-! ## The handlers -/

/-- What both answer. -/
inductive Answer where
  | ok
  | badRequest (errors : List ModelError)
  | internalServerError
  deriving DecidableEq

/-- `GetErrorResult`, for a result that has not succeeded. -/
def getErrorResult (errors : List Utf16) : Answer := .badRequest (errors.map (Prod.mk []))

/-- A member of something that may be null is used. -/
def deref {α : Type} (o : Option α) : Handler α := Proc.orRaise .nullReference o

/-- `new ApplicationUser()` -/
def newGuid : Handler Nat := .ask Op.newGuid

/-- `db.Patients.Add(p); db.SaveChanges();` -/
def savePatient (p : Patient) : Handler Unit := .ask (Op.savePatient p)

/-- `AddLoginAsync` of a user who has just been made: he has no password. -/
def addLoginAsync (host : Host) (user : ApplicationUser) (login : UserLoginInfo) :
    Handler IdentityResult := do
  let found ← findById user.id
  let _user ← Proc.orRaise .invalidOperation found
  linkAsync host user none login

/-- `Register` -/
def register (host : Host) (model : Option RegisterBindingModel) : Handler Answer :=
  match modelState RegisterBindingModel.modelErrors model with
  | e :: es => return .badRequest (e :: es)
  | [] => do
    let id ← newGuid
    let model ← deref model
    let user : ApplicationUser := ⟨id, model.email, model.email, model.firstName,
      model.lastName, model.birthday⟩
    let password ← Proc.orRaise .argument model.password
    let result ← createAsync host user (some password)
    match result with
    | .failed errors => return getErrorResult errors
    | .success =>
        let p : Patient := ⟨user.id⟩
        savePatient p
        return .ok

/-- `RegisterExternal`; `info` is what `GetExternalLoginInfoAsync` returns. -/
def registerExternal (host : Host) (model : Option RegisterExternalBindingModel)
    (info : Option UserLoginInfo) : Handler Answer :=
  match modelState RegisterExternalBindingModel.modelErrors model with
  | e :: es => return .badRequest (e :: es)
  | [] =>
    match info with
    | none => return .internalServerError
    | some login => do
      let id ← newGuid
      let model ← deref model
      let user : ApplicationUser := ⟨id, model.email, model.email, none, none, none⟩
      let result ← createAsync host user none
      match result with
      | .failed errors => return getErrorResult errors
      | .success =>
        let result ← addLoginAsync host user login
        match result with
        | .failed errors => return getErrorResult errors
        | .success => return .ok

/-! ## What a request can come to -/

/-- A request to one of the two. -/
inductive Request where
  | register (model : Option RegisterBindingModel)
  | registerExternal (model : Option RegisterExternalBindingModel) (info : Option UserLoginInfo)

/-- The code that runs for it. -/
def Request.handler (host : Host) : Request → Handler Answer
  | .register model => Web.register host model
  | .registerExternal model info => Web.registerExternal host model info

/-- The e-mail it registers. -/
def Request.email : Request → Option Utf16
  | .register model => model.bind (·.email)
  | .registerExternal model _ => model.bind (·.email)

/-- A request on its own, with the failures of its calls. -/
def respond (host : Host) (s : Store) (r : Request) (faults : List Bool) :
    Except Exn Answer × World :=
  (r.handler host).run (exec host) (s, Session.start faults)

/-- The first step: the user. -/
def Store.withUser (s : Store) (user : ApplicationUser) : Store :=
  { s with users := s.users ++ [user], nextGuid := user.id + 1 }

/-- The second step: the patient, or the login. -/
inductive Completed (s : Store) (user : ApplicationUser) : Request → Store → Prop where
  | patient (model : Option RegisterBindingModel) : Completed s user (.register model)
      { s with patients := s.patients ++ [⟨user.id⟩] }
  | login (model : Option RegisterExternalBindingModel) (login : UserLoginInfo) :
      Completed s user (.registerExternal model (some login))
        { s with logins := s.logins ++ [⟨user.id, login⟩] }

/-- A user as the request makes it, in a store that takes it. -/
structure Creates (host : Host) (s : Store) (r : Request) (user : ApplicationUser) : Prop where
  id : user.id = s.nextGuid
  userName : user.userName = r.email
  email : user.email = r.email
  free : ∀ u ∈ s.users, u.userName.map host.upper ≠ user.userName.map host.upper

/-- What the request answers, and the store it leaves. -/
inductive Outcome (host : Host) (s : Store) (r : Request) : Except Exn Answer → Store → Prop where
  | unchanged {a : Except Exn Answer} (n : Nat) :
      a ≠ .ok .ok → Outcome host s r a { s with nextGuid := n }
  | halfMade {a : Except Exn Answer} {user : ApplicationUser} :
      a ≠ .ok .ok → Creates host s r user → Outcome host s r a (s.withUser user)
  | made {user : ApplicationUser} {s' : Store} : Creates host s r user →
      Completed (s.withUser user) user r s' → Outcome host s r (.ok .ok) s'

section Runs

variable {host : Host} {s : Store} {r : Request}

/-- A handler all of whose ends are outcomes of `r` on `s`. -/
def Ends (host : Host) (s : Store) (r : Request) (p : Handler Answer) (w : World) : Prop :=
  Proc.wp (alone host) p (fun a w => Outcome host s r (.ok a) w.1)
    (fun e w => Outcome host s r (.error e) w.1) w

/-- A refusal before anything is stored. -/
theorem ends_ret {a : Answer} {n : Nat} {l : Session} (ha : a ≠ .ok) :
    Ends host s r (.ret a) ({ s with nextGuid := n }, l) :=
  .unchanged n (by simpa using ha)

theorem ends_raise {e : Exn} {n : Nat} {l : Session} :
    Ends host s r (.raise e) ({ s with nextGuid := n }, l) :=
  .unchanged n (by simp)

/-- The step both handlers begin with. -/
theorem ends_newGuid {f : Nat → Handler Answer} {l : Session}
    (h : ∀ l', Ends host s r (f s.nextGuid) ({ s with nextGuid := s.nextGuid + 1 }, l')) :
    Ends host s r (newGuid >>= f) (s, l) :=
  Proc.wp_seq (R := fun id w => Ends host s r (f id) w)
    (wp_ask (fun l' => h l') (fun _ => .unchanged s.nextGuid (by simp))) (fun _ _ h => h)

/-- Something is looked up on the way. -/
theorem ends_finds {α : Type} {s' : Store} {p : Handler α} {x : α} {f : α → Handler Answer}
    {l : Session} (hp : Finds host s' p x) (herr : Outcome host s r (.error .infrastructure) s')
    (hf : ∀ l', Ends host s r (f x) (s', l')) : Ends host s r (p >>= f) (s', l) := by
  refine Proc.wp_seq (Proc.wp_mono (hp l) (fun _ _ h => h) fun e w h => ?_) fun y w h => ?_
  · obtain ⟨rfl, hw⟩ := h
    rw [hw]
    exact herr
  · obtain ⟨rfl, hw⟩ := h
    obtain ⟨s'', l'⟩ := w
    obtain rfl : s'' = s' := hw
    exact hf l'

/-- The errors of a call end it. -/
theorem ends_unlessErrors {w : World} {errors : List Utf16} {p : Handler IdentityResult}
    {f : IdentityResult → Handler Answer} (hfailed : Ends host s r (f (.failed errors)) w)
    (hp : Ends host s r (p >>= f) w) : Ends host s r (unlessErrors errors p >>= f) w := by
  unfold unlessErrors
  by_cases h : errors = []
  · rw [if_pos h]
    exact hp
  · rw [if_neg h]
    exact hfailed

/-- The first transaction: refused, or the user is there. -/
theorem ends_createAsync {user : ApplicationUser} {password : Option Utf16}
    {f : IdentityResult → Handler Answer} {l : Session} (hid : user.id = s.nextGuid)
    (hname : user.userName = r.email) (hemail : user.email = r.email)
    (hfailed : ∀ errors l', Ends host s r (f (.failed errors))
      ({ s with nextGuid := s.nextGuid + 1 }, l'))
    (hsuccess : ∀ l', Creates host s r user → Ends host s r (f .success) (s.withUser user, l')) :
    Ends host s r (createAsync host user password >>= f)
      ({ s with nextGuid := s.nextGuid + 1 }, l) := by
  have herr : Outcome host s r (.error .infrastructure) { s with nextGuid := s.nextGuid + 1 } :=
    .unchanged (s.nextGuid + 1) (by simp)
  refine ends_unlessErrors (hfailed _ l) ?_
  rw [bind_assoc]
  refine ends_finds (finds_validateAsync host _ user) herr fun l => ?_
  refine ends_unlessErrors (hfailed _ l) ?_
  show Ends host s r (insertUser user password >>= fun _ => f .success) _
  refine Proc.wp_seq (R := fun _ w => Ends host s r (f .success) w)
    (wp_ask (fun l' => ?_) (fun _ => herr)) (fun _ _ h => h)
  rw [perform_insertUser]
  by_cases htakes : Store.takes host { s with nextGuid := s.nextGuid + 1 } user = true
  · rw [if_pos htakes]
    have hc : Creates host s r user :=
      ⟨hid, hname, hemail, fun u hu => ((takes_iff.mp htakes).2 u hu).2⟩
    have hw : s.withUser user
        = { s with users := s.users ++ [user], nextGuid := s.nextGuid + 1 } := by
      unfold Store.withUser; rw [hid]
    have h := hsuccess l' hc
    rw [hw] at h
    exact h
  · rw [if_neg htakes]
    exact herr

/-- The second transaction of `register`. -/
theorem ends_savePatient {model : Option RegisterBindingModel} {user : ApplicationUser}
    {l : Session} (hc : Creates host s (.register model) user) :
    Ends host s (.register model) (savePatient ⟨user.id⟩ >>= fun _ => .ret .ok)
      (s.withUser user, l) := by
  refine Proc.wp_seq (R := fun _ w => Ends host s (.register model) (.ret .ok) w)
    (wp_ask (fun l' => ?_) (fun _ => .halfMade (by simp) hc)) (fun _ _ h => h)
  rw [perform_savePatient]
  by_cases hp : ⟨user.id⟩ ∈ (s.withUser user).patients
  · -- the insert is refused, and the user stays
    rw [if_pos hp]
    exact .halfMade (by simp) hc
  · rw [if_neg hp]
    exact .made hc (.patient model)

/-- The second transaction of `registerExternal`. -/
theorem ends_addLoginAsync {model : Option RegisterExternalBindingModel} {login : UserLoginInfo}
    {user : ApplicationUser} {f : IdentityResult → Handler Answer} {l : Session}
    (hc : Creates host s (.registerExternal model (some login)) user)
    (hfailed : ∀ errors, f (.failed errors) = .ret (getErrorResult errors))
    (hsuccess : f .success = .ret .ok) :
    Ends host s (.registerExternal model (some login)) (addLoginAsync host user login >>= f)
      (s.withUser user, l) := by
  have hstuck : ∀ {a}, a ≠ .ok .ok →
      Outcome host s (.registerExternal model (some login)) a (s.withUser user) :=
    fun ha => .halfMade ha hc
  have hrefused : ∀ errors l', Ends host s (.registerExternal model (some login))
      (f (.failed errors)) (s.withUser user, l') := by
    intro errors l'
    rw [hfailed]
    exact hstuck (by simp [getErrorResult])
  show Ends host s _ ((findById user.id >>= _) >>= f) _
  rw [bind_assoc]
  refine ends_finds (finds_read (o := .findById user.id) fun _ => rfl) (hstuck (by simp))
    fun l => ?_
  cases (s.withUser user).users.find? (fun u => u.id = user.id) with
  | none => exact hstuck (by simp)
  | some found =>
      show Ends host s _ (linkAsync host user none login >>= f) _
      unfold linkAsync
      rw [bind_assoc]
      refine ends_finds (finds_read (o := .findLogin login) fun _ => rfl) (hstuck (by simp))
        fun l => ?_
      split
      · exact hrefused _ l
      · unfold updateAsync
        rw [bind_assoc]
        refine ends_finds (finds_validateAsync host _ user) (hstuck (by simp)) fun l => ?_
        refine ends_unlessErrors (hrefused _ l) ?_
        show Ends host s _ (updateUser user.id none (.add login) >>= fun _ => f .success) _
        refine Proc.wp_seq
          (R := fun _ w => Ends host s (.registerExternal model (some login)) (f .success) w)
          (wp_ask (fun l' => ?_) (fun _ => hstuck (by simp))) (fun _ _ h => h)
        rw [perform_updateUser]
        cases hupdated : (s.withUser user).updated host user.id (.add login) with
        | none => exact hstuck (by simp)
        | some s' =>
            obtain ⟨-, logins, hchanged, rfl⟩ := updated_eq_some.mp hupdated
            obtain ⟨-, rfl⟩ := changed_add.mp hchanged
            show Ends host s _ (f .success) _
            rw [hsuccess]
            exact .made hc (.login model login)

end Runs

theorem outcome_register (host : Host) (s : Store) (model : Option RegisterBindingModel)
    (l : Session) : Ends host s (.register model) (register host model) (s, l) := by
  unfold register
  split
  · exact ends_ret (n := s.nextGuid) (by simp)
  · refine ends_newGuid fun l => ?_
    cases model with
    | none => exact ends_raise
    | some m =>
        show Ends host s _ (Proc.orRaise .argument m.password >>= _) _
        cases hp : m.password with
        | none => exact ends_raise
        | some password =>
            exact ends_createAsync rfl rfl rfl
              (fun errors l => ends_ret (by simp [getErrorResult]))
              (fun l hc => ends_savePatient hc)

theorem outcome_registerExternal (host : Host) (s : Store)
    (model : Option RegisterExternalBindingModel) (info : Option UserLoginInfo) (l : Session) :
    Ends host s (.registerExternal model info) (registerExternal host model info) (s, l) := by
  unfold registerExternal
  split
  · exact ends_ret (n := s.nextGuid) (by simp)
  · cases info with
    | none => exact ends_ret (n := s.nextGuid) (by simp)
    | some login =>
        refine ends_newGuid fun l => ?_
        cases model with
        | none => exact ends_raise
        | some m =>
            exact ends_createAsync rfl rfl rfl
              (fun errors l => ends_ret (by simp [getErrorResult]))
              (fun l hc => ends_addLoginAsync hc (fun _ => rfl) rfl)

/-- **Every request, with any of its calls failing.** -/
theorem respond_outcome (host : Host) (s : Store) (r : Request) (faults : List Bool) :
    Outcome host s r (respond host s r faults).1 (respond host s r faults).2.1 := by
  have hends : Ends host s r (r.handler host) (s, Session.start faults) := by
    cases r with
    | register model => exact outcome_register host s model _
    | registerExternal model info => exact outcome_registerExternal host s model info _
  have hrun := Proc.run_of_wp (S := alone host) (fun _ => rfl) hends
  unfold respond
  have hexec : (alone host).exec = exec host := rfl
  rw [hexec] at hrun
  rcases hq : (r.handler host).run (exec host) (s, Session.start faults) with ⟨a | a, w⟩
  · rw [hq] at hrun; exact hrun
  · rw [hq] at hrun; exact hrun

/-! ## Half-made accounts -/

/-- Everything a request may have changed is as it was. -/
structure SameTables (s s' : Store) : Prop where
  users : s'.users = s.users
  logins : s'.logins = s.logins
  patients : s'.patients = s.patients

theorem sameTables_guid (s : Store) (n : Nat) : SameTables s { s with nextGuid := n } :=
  ⟨rfl, rfl, rfl⟩

/-- **An e-mail that is taken is taken for good**: no request for it succeeds, and none
of them changes anything. -/
theorem respond_taken (host : Host) {s : Store} {user : ApplicationUser} {r : Request}
    (hmem : user ∈ s.users) (hname : user.userName.map host.upper = r.email.map host.upper)
    (faults : List Bool) :
    (respond host s r faults).1 ≠ .ok .ok ∧ SameTables s (respond host s r faults).2.1 := by
  have hrefused : ∀ u, ¬ Creates host s r u := by
    intro u hc
    -- the name of a new user is the e-mail
    exact hc.free user hmem (by rw [hname, hc.userName])
  have hout := respond_outcome host s r faults
  cases hq : respond host s r faults with
  | mk a w =>
      rw [hq] at hout
      obtain ⟨s', l⟩ := w
      cases hout with
      | unchanged n ha => exact ⟨ha, sameTables_guid s n⟩
      | halfMade ha hc => exact absurd hc (hrefused _)
      | made hc _ => exact absurd hc (hrefused _)

/-- **How far a registration request gets.** `Ok`, and both its steps are done; or no
`Ok`, and nothing is; or no `Ok`, and the user alone is left, who keeps the e-mail
from ever being registered again. -/
theorem respond_steps (host : Host) (s : Store) (r : Request) (faults : List Bool) :
    ((respond host s r faults).1 = .ok .ok
      ∧ ∃ user, user.id = s.nextGuid ∧ user.email = r.email
        ∧ Completed (s.withUser user) user r (respond host s r faults).2.1)
    ∨ ((respond host s r faults).1 ≠ .ok .ok ∧ SameTables s (respond host s r faults).2.1)
    ∨ ((respond host s r faults).1 ≠ .ok .ok
      ∧ ∃ user, user.id = s.nextGuid ∧ user.email = r.email
        ∧ (respond host s r faults).2.1 = s.withUser user
        ∧ ∀ later r' faults', user ∈ later.users →
          r'.email.map host.upper = user.email.map host.upper →
          (respond host later r' faults').1 ≠ .ok .ok
            ∧ SameTables later (respond host later r' faults').2.1) := by
  have hout := respond_outcome host s r faults
  cases hq : respond host s r faults with
  | mk a w =>
      rw [hq] at hout
      obtain ⟨s', l⟩ := w
      cases hout with
      | unchanged n ha => exact Or.inr (Or.inl ⟨ha, sameTables_guid s n⟩)
      | @halfMade _ user ha hc =>
          refine Or.inr (Or.inr ⟨ha, user, hc.id, hc.email, rfl,
            fun later r' faults' hmem hemail => respond_taken host hmem ?_ faults'⟩)
          rw [hemail, hc.userName, hc.email]
      | made hc hdone => exact Or.inl ⟨rfl, _, hc.id, hc.email, hdone⟩

/-- Letters of ASCII in upper case. -/
def plainUpper (text : Utf16) : Utf16 := text.map fun c => if 97 ≤ c ∧ c ≤ 122 then c - 32 else c

/-- A host that takes everything with an `@` for an address. -/
def plainHost : Host where
  upper := plainUpper
  isMailAddress address := List.contains address 0x40
  mailAddresses _ := true
  doubleText _ := []

/-- The body of a registration. -/
def registerAnn : RegisterBindingModel :=
  ⟨some (utf16 "ann@jhu.edu"), some (utf16 "Secret1!"), some (utf16 "Ann"), some (utf16 "Lee"),
    some (utf16 "1/1/1990")⟩

/-- The user it makes. -/
def annUser : ApplicationUser :=
  ⟨0, registerAnn.email, registerAnn.email, registerAnn.firstName, registerAnn.lastName,
    registerAnn.birthday⟩

/-- The patient row cannot be saved. -/
theorem respond_ann :
    respond plainHost Store.empty (.register (some registerAnn))
        [false, false, false, false, true]
      = (.error .infrastructure, Store.empty.withUser annUser, ⟨[], []⟩) := by
  rfl

theorem respond_steps_notAtomic :
    ¬ ∀ (host : Host) (s : Store) (r : Request) (faults : List Bool),
      (respond host s r faults).1 = .ok .ok ∨ SameTables s (respond host s r faults).2.1 := by
  intro h
  rcases h plainHost Store.empty (.register (some registerAnn))
    [false, false, false, false, true] with hok | hsame
  · rw [respond_ann] at hok
    cases hok
  · rw [respond_ann] at hsame
    exact absurd hsame.users (by simp [Store.withUser, Store.empty])

end TacPac.Web
