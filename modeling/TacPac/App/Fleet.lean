import TacPac.App.Scroll
import TacPac.App.Session

/-!
# Many phones

The app on any number of phones, with one database. Sign-ins, sign-ups, logouts, saves and
history loads of all of them overlap, and a load that was asked for before a logout may well
come back after the next sign-in: it is shown on the start screen it was asked from, which is
gone. So what a phone shows are readings of the account that is signed in there, and somebody
who has typed the e-mail and the password of the account has entered them (`fleet_run`).
-/

namespace TacPac.App

open TacPac.Lib

/-! ## What an event does -/

namespace Running

/-- The request whose completion the event is. -/
def settles : Event → Option Nat
  | .loginDone i _ => some i
  | .codeDone i _ => some i
  | .createDone i _ _ _ => some i
  | .measurementsDone i => some i
  | .exportDone i _ => some i
  | _ => none

/-- The reading that is saved, and for whom. -/
def saves (a : Running) : Event → Option (Uid × Reading)
  | .savePressed (.reading r) =>
      if a.phone.root = .start .history .measurement then a.phone.user.map (·, r) else none
  | _ => none

/-- The account that is made. -/
def creates (a : Running) : Event → Option Account
  | .createDone i true _ _ =>
      match a.pending[i]? with
      | some (.create model _) => some ⟨a.db.nextUid, model.email, model.password⟩
      | _ => none
  | _ => none

/-- A request that an event makes. -/
inductive Requests (a : Running) : Event → Pending → Prop where
  | login (model : LoginModel) : Requests a (.loginPressed model) (.login model)
  | code (model : SignupModel) : Requests a (.signupPressed model) (.code model)
  | create {i : Nat} {model : SignupModel} (allKeys : List Uid) (doctorId : Uid)
      (hi : a.pending[i]? = some (.code model)) :
      Requests a (.codeDone i allKeys) (.create model doctorId)
  | measurements {uid : Uid} (hroot : a.phone.root = .start .history .history)
      (huser : a.phone.user = some uid) : Requests a .historyAppears (.measurements uid)
  | export (email : Utf16) : Requests a (.sendPressed email) (.export email)

/-- **What an event does** to the requests and to the database. -/
structure Effect (a : Running) (e : Event) (a' : Running) : Prop where
  pending : ∃ new, a'.pending = (match settles e with
      | some i => a.pending.eraseIdx i
      | none => a.pending) ++ new ∧ ∀ p ∈ new, Requests a e p
  stored : ∀ u, a'.db.stored u
    = a.db.stored u ++ ((a.saves e).toList.filter (fun s => s.1 = u)).map Prod.snd
  accounts : a'.db.accounts = a.db.accounts ++ (a.creates e).toList

section Effect

variable {a a' : Running} {e : Event}

/-- A step that leaves the database as it is, and makes a request. -/
theorem effect_asks {p : Pending} (hrequests : Requests a e p) (hsaves : a.saves e = none)
    (hcreates : a.creates e = none) (hdb : a'.db = a.db)
    (hpending : a'.pending = (match settles e with
      | some i => a.pending.eraseIdx i
      | none => a.pending) ++ [p]) : Effect a e a' := by
  refine ⟨⟨[p], hpending, fun q hq => ?_⟩, fun u => ?_, ?_⟩
  · rw [List.mem_singleton.mp hq]
    exact hrequests
  · rw [hsaves, hdb]
    simp
  · rw [hcreates, hdb]
    simp

/-- A step that leaves the database as it is. -/
theorem effect_quiet (hsaves : a.saves e = none) (hcreates : a.creates e = none)
    (hdb : a'.db = a.db)
    (hpending : a'.pending = match settles e with
      | some i => a.pending.eraseIdx i
      | none => a.pending) : Effect a e a' := by
  refine ⟨⟨[], hpending.trans (List.append_nil _).symm, by simp⟩, fun u => ?_, ?_⟩
  · rw [hsaves, hdb]
    simp
  · rw [hcreates, hdb]
    simp

theorem effect_userAction (h : a.userAction e = some (.ok a')) : Effect a e a' := by
  cases e with
  | loginPressed model =>
      obtain ⟨-, heq⟩ := Option.ite_none_right_eq_some.mp h
      cases heq
      exact effect_asks (Requests.login model) rfl rfl rfl rfl
  | openSignup =>
      obtain ⟨-, heq⟩ := Option.ite_none_right_eq_some.mp h
      cases heq
      exact effect_quiet rfl rfl rfl rfl
  | signupPressed model =>
      obtain ⟨-, heq⟩ := Option.ite_none_right_eq_some.mp h
      cases heq
      exact effect_asks (Requests.code model) rfl rfl rfl rfl
  | back =>
      simp only [userAction] at h
      split at h
      · cases h
        exact effect_quiet rfl rfl rfl rfl
      · cases h
        exact effect_quiet rfl rfl rfl rfl
      · cases h
        exact effect_quiet rfl rfl rfl rfl
      · cases h
  | selectTab tab =>
      simp only [userAction] at h
      split at h
      · cases h
        exact effect_quiet rfl rfl rfl rfl
      · cases h
  | historyAppears =>
      obtain ⟨hroot, heq⟩ := Option.ite_none_right_eq_some.mp h
      have heq := Option.some.inj heq
      unfold withUser at heq
      cases huser : a.phone.user with
      | none =>
          rw [huser] at heq
          cases heq
      | some uid =>
          rw [huser] at heq
          cases heq
          exact effect_asks (Requests.measurements hroot huser) rfl rfl rfl rfl
  | openMeasurement =>
      obtain ⟨-, heq⟩ := Option.ite_none_right_eq_some.mp h
      cases heq
      exact effect_quiet rfl rfl rfl rfl
  | savePressed text =>
      obtain ⟨hroot, heq⟩ := Option.ite_none_right_eq_some.mp h
      have heq := Option.some.inj heq
      rcases text with _ | _ | r
      · cases heq
        exact effect_quiet rfl rfl rfl rfl
      · cases heq
      · unfold saveButtonPress withUser at heq
        cases huser : a.phone.user with
        | none =>
            rw [huser] at heq
            cases heq
        | some uid =>
            rw [huser] at heq
            cases heq
            have hsaves : a.saves (.savePressed (.reading r)) = some (uid, r) := by
              simp only [saves, if_pos hroot, huser, Option.map_some]
            refine ⟨⟨[], (List.append_nil _).symm, by simp⟩, fun u => ?_,
              (List.append_nil _).symm⟩
            rw [hsaves]
            refine (Db.stored_saveReading uid u r a.db).trans ?_
            by_cases hu : u = uid
            · simp [hu]
            · simp [hu, Ne.symm hu]
  | openExport =>
      obtain ⟨-, heq⟩ := Option.ite_none_right_eq_some.mp h
      cases heq
      exact effect_quiet rfl rfl rfl rfl
  | sendPressed email =>
      obtain ⟨-, heq⟩ := Option.ite_none_right_eq_some.mp h
      unfold postRequest at heq
      split at heq
      · cases heq
        exact effect_asks (Requests.export email) rfl rfl rfl rfl
      · cases heq
  | logoutPressed =>
      simp only [userAction] at h
      split at h
      · cases h
        exact effect_quiet rfl rfl rfl rfl
      · cases h
  | loginDone i user => cases h
  | codeDone i allKeys => cases h
  | createDone i created profile link => cases h
  | measurementsDone i => cases h
  | exportDone i ok => cases h

/-- The two writes of a sign-up are no readings, and the account is there before them. -/
theorem createDone_db (model : SignupModel) (doctorId uid : Uid) (profile link : Bool) (db : Db)
    (p : Phone) : (∀ u, (App.createDone model doctorId uid profile link db p).1.stored u
        = db.stored u)
      ∧ (App.createDone model doctorId uid profile link db p).1.accounts = db.accounts := by
  cases profile <;> cases link <;> exact ⟨fun _ => rfl, rfl⟩

theorem effect_completion (h : a.completion e = some a') : Effect a e a' := by
  unfold completion at h
  split at h
  · split at h
    · cases h
      exact effect_quiet rfl rfl rfl rfl
    · cases h
  · next i allKeys =>
    split at h
    · next model hi =>
      split at h
      · split at h
        · next doctorId _ =>
          cases h
          exact effect_asks (Requests.create allKeys doctorId hi) rfl rfl rfl rfl
        · cases h
          exact effect_quiet rfl rfl rfl rfl
      · cases h
    · cases h
  · next i created profile link =>
    split at h
    · next model doctorId hi =>
      split at h
      · next hcreated =>
        cases h
        obtain rfl : created = true := hcreated
        obtain ⟨hstored, haccounts⟩ := createDone_db model doctorId a.db.nextUid profile link
          (a.db.createUser model.email model.password) a.phone
        have hcreates : a.creates (.createDone i true profile link)
            = some ⟨a.db.nextUid, model.email, model.password⟩ := by
          simp only [creates, hi]
        refine ⟨⟨[], (List.append_nil _).symm, by simp⟩, fun u => ?_, ?_⟩
        · exact (hstored u).trans (List.append_nil _).symm
        · rw [hcreates]
          exact haccounts
      · next hcreated =>
        cases h
        obtain rfl : created = false := by simpa using hcreated
        exact effect_quiet rfl rfl rfl rfl
    · cases h
  · split at h
    · cases h
      exact effect_quiet rfl rfl rfl rfl
    · cases h
  · split at h
    · split at h
      · cases h
        exact effect_quiet rfl rfl rfl rfl
      · cases h
        exact effect_quiet rfl rfl rfl rfl
    · cases h
  · cases h

theorem effect_step (h : a.step e = some (.ok a')) : Effect a e a' := by
  unfold step at h
  split at h
  · next out haction =>
    cases h
    exact effect_userAction haction
  · obtain ⟨b, hb, heq⟩ := Option.map_eq_some_iff.mp h
    cases heq
    exact effect_completion hb

end Effect

end Running

/-! ## Phones -/

/-- One phone: the app on it, without the database, and its start screens. -/
structure Device where
  phone : Phone
  pending : List Pending
  /-- For each request, which start screen it is made from, or the last one. -/
  origins : List Nat
  /-- The history screens of the start screens that have been opened. -/
  screens : List HistoryScreen

namespace Device

/-- A phone on which the app has been launched. -/
def launch (keychain : Option Utf16) : Device := ⟨Phone.launch keychain, [], [], []⟩

/-- The app, on a database. -/
def app (d : Device) (db : Db) : Running := ⟨db, d.phone, d.pending⟩

/-- The start screens after an event: a sign-in opens one, and a load is shown where it was
asked for. -/
def screensAfter (d : Device) (db : Db) (allKeys : List Nat) (e : Event) :
    List HistoryScreen :=
  match e with
  | .measurementsDone i =>
      match d.pending[i]?, d.origins[i]? with
      | some (.measurements uid), some k =>
          d.screens.modify k (·.show (getMeasurements db uid allKeys))
      | _, _ => d.screens
  | e => if ((d.app db).signsIn e).isSome then d.screens ++ [HistoryScreen.new] else d.screens

/-- The phone after an event that has made `a'` of the app. -/
def next (d : Device) (db : Db) (allKeys : List Nat) (e : Event) (a' : Running) : Device :=
  let kept := match Running.settles e with
    | some i => d.origins.eraseIdx i
    | none => d.origins
  { phone := a'.phone
    pending := a'.pending
    origins := kept ++ List.replicate (a'.pending.length - kept.length) (d.screens.length - 1)
    screens := d.screensAfter db allKeys e }

/-- What Firebase answers: a sign-in is that of an account with this e-mail and password, and
a snapshot is one of the database. -/
def admits (d : Device) (db : Db) (allKeys : List Nat) : Event → Bool
  | .loginDone i (some uid) =>
      match d.pending[i]? with
      | some (.login model) => (⟨uid, model.email, model.password⟩ : Account) ∈ db.accounts
      | _ => false
  | .measurementsDone i =>
      match d.pending[i]? with
      | some (.measurements uid) => Enumerates allKeys (snapshot db uid)
      | _ => false
  | _ => true

end Device

/-- What happens on a phone; `allKeys` is how a snapshot is enumerated. -/
structure FleetEvent where
  device : Nat
  event : Event
  allKeys : List Nat

/-- Phones that run, or have trapped. -/
structure Fleet where
  db : Db
  devices : List (Except Trap Device)

namespace Fleet

/-- The phones, with what is in their Keychains. -/
def launch (db : Db) (keychains : List (Option Utf16)) : Fleet :=
  ⟨db, keychains.map fun keychain => .ok (Device.launch keychain)⟩

/-- One event; `none` if it cannot happen. -/
def step (f : Fleet) (x : FleetEvent) : Option Fleet :=
  match f.devices[x.device]? with
  | some (.ok d) =>
      if d.admits f.db x.allKeys x.event then
        match (d.app f.db).step x.event with
        | some (.ok a') =>
            some ⟨a'.db, f.devices.set x.device (.ok (d.next f.db x.allKeys x.event a'))⟩
        | some (.error t) => some ⟨f.db, f.devices.set x.device (.error t)⟩
        | none => none
      else none
  | _ => none

/-- Events, one after another. -/
def run (f : Fleet) (xs : List FleetEvent) : Option Fleet := xs.foldlM step f

/-- The reading that an event saves. -/
def saved (f : Fleet) (x : FleetEvent) : Option (Uid × Reading) :=
  match f.devices[x.device]? with
  | some (.ok d) => (d.app f.db).saves x.event
  | _ => none

/-- The readings that are saved in a run, in order. -/
def saves : Fleet → List FleetEvent → List (Uid × Reading)
  | _, [] => []
  | f, x :: xs =>
      (f.saved x).toList ++
        match f.step x with
        | some f' => saves f' xs
        | none => []

end Fleet

/-- The e-mail and the password are typed. -/
def Event.Types (email password : Utf16) : Event → Prop
  | .loginPressed model => model.email = email ∧ model.password = password
  | .signupPressed model => model.email = email ∧ model.password = password
  | _ => False

/-- They have been typed on this phone. -/
def HasTyped (xs : List FleetEvent) (i : Nat) (email password : Utf16) : Prop :=
  ∃ x ∈ xs, x.device = i ∧ x.event.Types email password

/-- The e-mail and the password of the account have been typed on this phone. -/
def Knows (db : Db) (xs : List FleetEvent) (i : Nat) (uid : Uid) : Prop :=
  ∃ account ∈ db.accounts, account.uid = uid ∧ HasTyped xs i account.email account.password

/-- Readings of the account, or none yet: of those it had and those saved since, the first
ten of some moment. -/
def Pictures (db : Db) (saves : List (Uid × Reading)) (uid : Uid) (scr : HistoryScreen) : Prop :=
  scr = HistoryScreen.new ∨ ∃ readings pre, scr = shown readings ∧ readings ≠ []
    ∧ pre <+: saves ∧ readings.Perm ((db.stored uid ++ savedBy uid pre).take 10)

/-! ### Histories only grow -/

section Grows

variable {db db' : Db} {xs ys : List FleetEvent} {i : Nat} {uid : Uid}

theorem hasTyped_append {email password : Utf16} (h : HasTyped xs i email password) :
    HasTyped (xs ++ ys) i email password := by
  obtain ⟨x, hx, htyped⟩ := h
  exact ⟨x, List.mem_append_left _ hx, htyped⟩

theorem knows_append (h : Knows db xs i uid) {new : List Account}
    (hdb : db'.accounts = db.accounts ++ new) : Knows db' (xs ++ ys) i uid := by
  obtain ⟨account, haccount, huid, htyped⟩ := h
  exact ⟨account, hdb ▸ List.mem_append_left _ haccount, huid, hasTyped_append htyped⟩

theorem pictures_append {saves : List (Uid × Reading)} {scr : HistoryScreen}
    (h : Pictures db saves uid scr) (new : List (Uid × Reading)) :
    Pictures db (saves ++ new) uid scr := by
  rcases h with h | ⟨readings, pre, hscr, hne, hpre, hperm⟩
  · exact Or.inl h
  · exact Or.inr ⟨readings, pre, hscr, hne, hpre.trans (List.prefix_append _ _), hperm⟩

/-- As no reading is ever removed, the table keeps up. -/
theorem agrees_of_pictures {saves : List (Uid × Reading)} {scr : HistoryScreen}
    (h : Pictures db saves uid scr) : scr.Agrees := by
  rcases h with rfl | ⟨readings, pre, rfl, -⟩
  · exact HistoryScreen.agrees_new
  · exact HistoryScreen.agrees_shown readings

theorem savedBy_append (uid : Uid) (saves new : List (Uid × Reading)) :
    savedBy uid (saves ++ new) = savedBy uid saves ++ savedBy uid new := by
  rw [savedBy, List.filter_append, List.map_append]
  rfl

end Grows

/-- **A load that comes back** to the screen it was asked for. -/
theorem pictures_show {db db' : Db} {saves : List (Uid × Reading)} {uid : Uid}
    {scr : HistoryScreen} (h : Pictures db saves uid scr)
    (hstored : db'.stored uid = db.stored uid ++ savedBy uid saves) {allKeys : List Nat}
    (hkeys : Enumerates allKeys (snapshot db' uid)) :
    Pictures db saves uid (scr.show (getMeasurements db' uid allKeys)) := by
  have hperm := getMeasurements_perm hkeys
  rw [hstored] at hperm
  by_cases hnone : getMeasurements db' uid allKeys = []
  · -- there are none, so there never were any
    rw [hnone] at hperm ⊢
    have hnil : db.stored uid ++ savedBy uid saves = [] := by
      have htake := hperm.nil_eq
      rcases List.take_eq_nil_iff.mp htake.symm with hzero | hnil
      · cases hzero
      · exact hnil
    rcases h with rfl | ⟨readings, pre, rfl, hne, ⟨rest, rfl⟩, hpre⟩
    · exact Or.inl rfl
    · rw [savedBy_append, ← List.append_assoc] at hnil
      rw [(List.append_eq_nil_iff.mp hnil).1] at hpre
      exact absurd (List.perm_nil.mp hpre) hne
  · exact Or.inr ⟨_, saves, show_eq scr (List.length_pos_of_ne_nil hnone), hnone,
      List.prefix_refl _, hperm⟩

/-! ## What holds of a phone -/

/-- What a request has been made with has been typed. -/
def Pending.Typed (xs : List FleetEvent) (i : Nat) : Pending → Prop
  | .login model => HasTyped xs i model.email model.password
  | .code model => HasTyped xs i model.email model.password
  | .create model _ => HasTyped xs i model.email model.password
  | _ => True

/-- What holds of the phone `i` all along a run that has begun with `db₀`. -/
structure Tidy (db₀ db : Db) (saves : List (Uid × Reading)) (xs : List FleetEvent) (i : Nat)
    (d : Device) : Prop where
  inv : Running.Inv (d.app db)
  origins : d.origins.length = d.pending.length
  typed : ∀ p ∈ d.pending, p.Typed xs i
  user : ∀ uid, d.phone.user = some uid → Knows db xs i uid
  root : ∀ tab top, d.phone.root = .start tab top → d.screens ≠ []
  /-- A load that was asked for on the present start screen is its user's. -/
  loads : ∀ (j : Nat) uid k, d.pending[j]? = some (.measurements uid) → d.origins[j]? = some k →
    k < d.screens.length ∧ (k + 1 = d.screens.length → d.phone.user = some uid)
  visible : ∀ uid scr, d.phone.user = some uid → d.screens.getLast? = some scr →
    Pictures db₀ saves uid scr

theorem tidy_launch (db : Db) (xs : List FleetEvent) (i : Nat) (keychain : Option Utf16) :
    Tidy db db [] xs i (Device.launch keychain) := by
  refine ⟨Running.inv_launch keychain db, rfl, ?_, ?_, ?_, ?_, ?_⟩
  · simp [Device.launch]
  · simp [Device.launch, Phone.launch]
  · simp [Device.launch, Phone.launch]
  · simp [Device.launch]
  · simp [Device.launch]

/-- Nothing on the phone changes by what others do. -/
theorem tidy_append {db₀ db db' : Db} {saves : List (Uid × Reading)} {xs : List FleetEvent}
    {i : Nat} {d : Device} (h : Tidy db₀ db saves xs i d) (ys : List FleetEvent)
    {new : List Account} (hdb : db'.accounts = db.accounts ++ new) (added : List (Uid × Reading)) :
    Tidy db₀ db' (saves ++ added) (xs ++ ys) i d := by
  refine ⟨⟨h.inv.token, h.inv.user⟩, h.origins, fun p hp => ?_,
    fun uid huser => knows_append (h.user uid huser) hdb, h.root, h.loads,
    fun uid scr huser hscr => pictures_append (h.visible uid scr huser hscr) added⟩
  have htyped := h.typed p hp
  cases p with
  | login model => exact hasTyped_append htyped
  | code model => exact hasTyped_append htyped
  | create model doctorId => exact hasTyped_append htyped
  | _ => trivial

/-! ### One event -/

/-- The account that a completion signs in has been asked for. -/
theorem creates_of_step {a a' : Running} {i : Nat} {profile link : Bool}
    (h : a.step (.createDone i true profile link) = some (.ok a')) :
    ∃ model doctorId, a.pending[i]? = some (.create model doctorId)
      ∧ a.creates (.createDone i true profile link)
        = some ⟨a.db.nextUid, model.email, model.password⟩ := by
  obtain ⟨b, hb, -⟩ := Option.map_eq_some_iff.mp
    (show (a.completion _).map Except.ok = some (.ok a') from h)
  simp only [Running.completion] at hb
  split at hb
  · next model doctorId hi =>
    exact ⟨model, doctorId, hi, by simp only [Running.creates, hi]⟩
  · cases hb

section Step

variable {db₀ : Db} {f : Fleet} {saves : List (Uid × Reading)} {xs : List FleetEvent}
  {x : FleetEvent} {d : Device} {a' : Running}

/-- Requests and where they are made from go along. -/
theorem load_cases {pending new : List Pending} {origins : List Nat} {n c j k : Nat}
    {p : Pending} (hlength : origins.length = pending.length)
    (hp : (pending ++ new)[j]? = some p)
    (hk : (origins ++ List.replicate n c)[j]? = some k) :
    (pending[j]? = some p ∧ origins[j]? = some k) ∨ (p ∈ new ∧ k = c) := by
  rcases Nat.lt_or_ge j pending.length with hj | hj
  · rw [List.getElem?_append_left hj] at hp
    rw [List.getElem?_append_left (by omega)] at hk
    exact Or.inl ⟨hp, hk⟩
  · rw [List.getElem?_append_right hj] at hp
    rw [List.getElem?_append_right (by omega)] at hk
    exact Or.inr ⟨List.mem_of_getElem? hp, List.eq_of_mem_replicate (List.mem_of_getElem? hk)⟩

theorem load_eraseIdx {pending : List Pending} {origins : List Nat} {m j k : Nat} {p : Pending}
    (hp : (pending.eraseIdx m)[j]? = some p) (hk : (origins.eraseIdx m)[j]? = some k) :
    ∃ j' : Nat, pending[j']? = some p ∧ origins[j']? = some k := by
  rw [List.getElem?_eraseIdx] at hp hk
  by_cases hj : j < m
  · rw [if_pos hj] at hp hk
    exact ⟨j, hp, hk⟩
  · rw [if_neg hj] at hp hk
    exact ⟨j + 1, hp, hk⟩

/-- The user only changes when a start screen is opened. -/
theorem user_of_moves {a : Running} {e : Event} (h : Running.Moves a e a')
    (he : a.signsIn e = none) : a'.phone.user = a.phone.user := by
  rcases h with ⟨uid, hsigns, -, -⟩ | ⟨-, -, hphone⟩ | ⟨root, -, -, hphone, -⟩
  · rw [hsigns] at he
    cases he
  · rw [hphone]
    rfl
  · rw [hphone]

theorem screensAfter_signsIn {e : Event} {uid : Uid} {allKeys : List Nat} {db : Db}
    (he : (d.app db).signsIn e = some uid) :
    d.screensAfter db allKeys e = d.screens ++ [HistoryScreen.new] := by
  unfold Device.screensAfter
  split
  · cases he
  · rw [if_pos (by rw [he]; rfl)]

theorem screensAfter_length {e : Event} {allKeys : List Nat} {db : Db}
    (he : (d.app db).signsIn e = none) :
    (d.screensAfter db allKeys e).length = d.screens.length := by
  unfold Device.screensAfter
  split
  · split
    · exact List.length_modify ..
    · rfl
  · rw [if_neg (by rw [he]; simp)]

/-- What has been typed for a request, with this event. -/
theorem typed_next (h : Tidy db₀ f.db saves xs x.device d) {p : Pending}
    (hp : p ∈ d.pending ∨ Running.Requests (d.app f.db) x.event p) :
    p.Typed (xs ++ [x]) x.device := by
  have hnow : ∀ {email password}, x.event.Types email password →
      HasTyped (xs ++ [x]) x.device email password := fun htypes =>
    ⟨x, List.mem_append_right _ List.mem_cons_self, rfl, htypes⟩
  have hold : ∀ {q : Pending}, q ∈ d.pending → q.Typed (xs ++ [x]) x.device := by
    intro q hq
    have hsame := tidy_append h [x] (List.append_nil f.db.accounts).symm []
    exact hsame.typed q hq
  rcases hp with hp | hp
  · exact hold hp
  · generalize hevent : x.event = e at hp
    cases hp with
    | login model =>
        refine hnow ?_
        rw [hevent]
        exact ⟨rfl, rfl⟩
    | code model =>
        refine hnow ?_
        rw [hevent]
        exact ⟨rfl, rfl⟩
    | create allKeys doctorId hi => exact hold (q := .code _) (List.mem_of_getElem? hi)
    | measurements => trivial
    | «export» => trivial

/-- Who is signed in has typed what it takes. -/
theorem knows_signsIn (h : Tidy db₀ f.db saves xs x.device d)
    (hadmits : d.admits f.db x.allKeys x.event = true)
    (hstep : (d.app f.db).step x.event = some (.ok a')) {uid : Uid}
    (he : (d.app f.db).signsIn x.event = some uid) : Knows a'.db (xs ++ [x]) x.device uid := by
  have haccounts := (Running.effect_step hstep).accounts
  have htyped : ∀ p ∈ d.pending, p.Typed (xs ++ [x]) x.device :=
    fun p hp => typed_next h (Or.inl hp)
  generalize x.event = e at *
  cases e with
  | loginDone j user =>
      obtain rfl : user = some uid := he
      simp only [Device.admits] at hadmits
      split at hadmits
      · next model hj =>
        have haccount : (⟨uid, model.email, model.password⟩ : Account) ∈ f.db.accounts := by
          simpa using hadmits
        refine ⟨⟨uid, model.email, model.password⟩, ?_, rfl,
          htyped _ (List.mem_of_getElem? hj)⟩
        rw [haccounts]
        exact List.mem_append_left _ haccount
      · cases hadmits
  | createDone j created profile link =>
      obtain ⟨hcreated, huid⟩ := Option.ite_none_right_eq_some.mp he
      obtain rfl : created = true := hcreated
      obtain ⟨model, doctorId, hj, hcreates⟩ := creates_of_step hstep
      refine ⟨⟨uid, model.email, model.password⟩, ?_, rfl, htyped _ (List.mem_of_getElem? hj)⟩
      rw [haccounts, hcreates, ← Option.some.inj huid]
      exact List.mem_append_right _ List.mem_cons_self
  | _ => cases he

/-- A load that comes back belongs to a request that is under way. -/
theorem load_of_admits (h : Tidy db₀ f.db saves xs x.device d) {j : Nat}
    (hadmits : d.admits f.db x.allKeys (.measurementsDone j) = true) :
    ∃ uid k, d.pending[j]? = some (.measurements uid) ∧ d.origins[j]? = some k
      ∧ Enumerates x.allKeys (snapshot f.db uid) := by
  simp only [Device.admits] at hadmits
  split at hadmits
  · next uid hj =>
    have hlt := (List.getElem?_eq_some_iff.mp hj).1
    rw [← h.origins] at hlt
    exact ⟨uid, _, hj, List.getElem?_eq_getElem hlt, of_decide_eq_true hadmits⟩
  · cases hadmits

/-- **What the phone shows** after an event. -/
theorem visible_next (h : Tidy db₀ f.db saves xs x.device d)
    (hstored : ∀ u, f.db.stored u = db₀.stored u ++ savedBy u saves)
    (hadmits : d.admits f.db x.allKeys x.event = true)
    (hstep : (d.app f.db).step x.event = some (.ok a')) {uid : Uid} {scr : HistoryScreen}
    (huser : a'.phone.user = some uid)
    (hscr : (d.screensAfter f.db x.allKeys x.event).getLast? = some scr) :
    Pictures db₀ saves uid scr := by
  have hmoves := Running.moves_step hstep
  cases hsigns : (d.app f.db).signsIn x.event with
  | some uid' =>
      -- a new screen
      rw [screensAfter_signsIn hsigns, List.getLast?_concat] at hscr
      exact Or.inl (Option.some.inj hscr).symm
  | none =>
      have hsame : a'.phone.user = d.phone.user := user_of_moves hmoves hsigns
      rw [hsame] at huser
      by_cases hload : ∃ j, x.event = .measurementsDone j
      · obtain ⟨j, hevent⟩ := hload
        rw [hevent] at hadmits
        obtain ⟨uid', k, hj, hk, hkeys⟩ := load_of_admits h hadmits
        obtain ⟨hlt, hmine⟩ := h.loads j uid' k hj hk
        have hscreens : d.screensAfter f.db x.allKeys x.event
            = d.screens.modify k (·.show (getMeasurements f.db uid' x.allKeys)) := by
          unfold Device.screensAfter
          rw [hevent]
          simp only [hj, hk]
        rw [hscreens, List.getLast?_eq_getElem?, List.length_modify, List.getElem?_modify] at hscr
        obtain ⟨old, hold, rfl⟩ := Option.map_eq_some_iff.mp hscr
        rw [← List.getLast?_eq_getElem?] at hold
        have hpictures := h.visible uid old huser hold
        by_cases hlast : k = d.screens.length - 1
        · have hme : uid' = uid := by
            have huser' := hmine (by omega)
            rw [huser] at huser'
            exact (Option.some.inj huser').symm
          rw [if_pos hlast, hme]
          rw [hme] at hkeys
          exact pictures_show hpictures (hstored uid) hkeys
        · rw [if_neg hlast]
          exact hpictures
      · have hscreens : d.screensAfter f.db x.allKeys x.event = d.screens := by
          unfold Device.screensAfter
          split
          · next j hevent => exact absurd ⟨j, hevent⟩ hload
          · rw [if_neg (by rw [hsigns]; simp)]
        rw [hscreens] at hscr
        exact h.visible uid scr huser hscr

theorem length_kept (h : Tidy db₀ f.db saves xs x.device d) (e : Event) :
    (match Running.settles e with
      | some i => d.origins.eraseIdx i
      | none => d.origins).length
    = (match Running.settles e with
      | some i => d.pending.eraseIdx i
      | none => d.pending).length := by
  split
  · rw [List.length_eraseIdx, List.length_eraseIdx, h.origins]
  · exact h.origins

/-- **Loads stay with their user**: the one they were asked for, while his screen is there. -/
theorem loads_next (h : Tidy db₀ f.db saves xs x.device d)
    (hstep : (d.app f.db).step x.event = some (.ok a')) {j k : Nat} {uid : Uid}
    (hj : a'.pending[j]? = some (.measurements uid))
    (hk : (d.next f.db x.allKeys x.event a').origins[j]? = some k) :
    k < (d.screensAfter f.db x.allKeys x.event).length
    ∧ (k + 1 = (d.screensAfter f.db x.allKeys x.event).length → a'.phone.user = some uid) := by
  have hmoves := Running.moves_step hstep
  obtain ⟨new, hpending, hnew⟩ := (Running.effect_step hstep).pending
  rw [hpending] at hj
  rcases load_cases (length_kept h x.event) hj hk with ⟨hj, hk⟩ | ⟨hmem, rfl⟩
  · -- it was under way
    obtain ⟨j', hj', hk'⟩ : ∃ j' : Nat, d.pending[j']? = some (.measurements uid)
        ∧ d.origins[j']? = some k := by
      split at hj
      · next m hsettles =>
        rw [hsettles] at hk
        exact load_eraseIdx hj hk
      · next hsettles =>
        rw [hsettles] at hk
        exact ⟨j, hj, hk⟩
    obtain ⟨hlt, hmine⟩ := h.loads j' uid k hj' hk'
    cases hsigns : (d.app f.db).signsIn x.event with
    | some uid' =>
        rw [screensAfter_signsIn hsigns, List.length_append, List.length_singleton]
        exact ⟨by omega, fun hlast => by omega⟩
    | none =>
        rw [screensAfter_length hsigns, user_of_moves hmoves hsigns]
        exact ⟨hlt, hmine⟩
  · -- it has just been asked for
    have hrequest := hnew _ hmem
    generalize x.event = e at *
    cases hrequest with
    | measurements hroot huser =>
        have hsigns : (d.app f.db).signsIn .historyAppears = none := rfl
        have hpos := List.length_pos_of_ne_nil (h.root _ _ hroot)
        rw [screensAfter_length hsigns, user_of_moves hmoves hsigns]
        exact ⟨by omega, fun _ => huser⟩

/-- Whoever is signed in after a step has typed his way in on this phone. -/
theorem user_next (h : Tidy db₀ f.db saves xs x.device d)
    (hadmits : d.admits f.db x.allKeys x.event = true)
    (hstep : (d.app f.db).step x.event = some (.ok a')) {uid : Uid}
    (huser : a'.phone.user = some uid) : Knows a'.db (xs ++ [x]) x.device uid := by
  have hmoves := Running.moves_step hstep
  cases hsigns : (d.app f.db).signsIn x.event with
  | some uid' =>
      have huid : uid' = uid := by
        rcases hmoves with ⟨uid'', he, -, hphone⟩ | ⟨he, -, -⟩ | ⟨root, he, -, -, -⟩
        · rw [hphone] at huser
          rw [he] at hsigns
          cases hsigns
          exact Option.some.inj huser
        · rw [he] at hsigns
          cases hsigns
        · rw [he] at hsigns
          cases hsigns
      exact knows_signsIn h hadmits hstep (huid ▸ hsigns)
  | none =>
      rw [user_of_moves hmoves hsigns] at huser
      exact knows_append (h.user uid huser) (Running.effect_step hstep).accounts

/-- Behind the sign-in there is a start screen. -/
theorem root_next (h : Tidy db₀ f.db saves xs x.device d)
    (hstep : (d.app f.db).step x.event = some (.ok a')) {tab : Tab} {top : HistoryTop}
    (hroot : a'.phone.root = .start tab top) :
    d.screensAfter f.db x.allKeys x.event ≠ [] := by
  rcases Running.moves_step hstep with ⟨uid, he, -, -⟩ | ⟨-, -, hphone⟩
    | ⟨root, he, -, hphone, hfrom⟩
  · rw [screensAfter_signsIn he]
    simp
  · rw [hphone] at hroot
    cases hroot
  · rw [hphone] at hroot
    obtain ⟨tab', top', hbefore⟩ := hfrom tab top hroot
    have hne := List.length_pos_of_ne_nil (h.root tab' top' hbefore)
    rw [← screensAfter_length he] at hne
    exact List.ne_nil_of_length_pos hne

/-- **A phone stays tidy.** -/
theorem tidy_next (h : Tidy db₀ f.db saves xs x.device d)
    (hstored : ∀ u, f.db.stored u = db₀.stored u ++ savedBy u saves)
    (hadmits : d.admits f.db x.allKeys x.event = true)
    (hstep : (d.app f.db).step x.event = some (.ok a')) (added : List (Uid × Reading)) :
    Tidy db₀ a'.db (saves ++ added) (xs ++ [x]) x.device
      (d.next f.db x.allKeys x.event a') := by
  obtain ⟨new, hpending, hnew⟩ := (Running.effect_step hstep).pending
  have hkept := length_kept h x.event
  refine ⟨?_, ?_, ?_, ?_, ?_, ?_, ?_⟩
  · rcases Running.comes_step h.inv hstep with ⟨b, hb, hinv, -⟩ | ⟨email, hb, -⟩ | ⟨hb, -⟩
    · cases hb
      exact ⟨hinv.token, hinv.user⟩
    · cases hb
    · cases hb
  · show (_ ++ List.replicate _ _).length = a'.pending.length
    rw [List.length_append, List.length_replicate]
    have hlength := congrArg List.length hpending
    rw [List.length_append] at hlength
    have hsame : (d.app f.db).pending = d.pending := rfl
    rw [hsame] at hlength
    omega
  · intro p hp
    refine typed_next h ?_
    have hp : p ∈ a'.pending := hp
    rw [hpending] at hp
    rcases List.mem_append.mp hp with hp | hp
    · refine Or.inl ?_
      split at hp
      · exact List.mem_of_mem_eraseIdx hp
      · exact hp
    · exact Or.inr (hnew p hp)
  · exact fun uid huser => user_next h hadmits hstep huser
  · exact fun tab top hroot => root_next h hstep hroot
  · exact fun j uid k hj hk => loads_next h hstep hj hk
  · intro uid scr huser hscr
    exact pictures_append (visible_next h hstored hadmits hstep huser hscr) added

end Step

/-! ## Runs -/

/-- What holds of the phones and the database all along. -/
structure Kept (db₀ : Db) (f : Fleet) (saves : List (Uid × Reading)) (xs : List FleetEvent) :
    Prop where
  stored : ∀ u, f.db.stored u = db₀.stored u ++ savedBy u saves
  devices : ∀ (i : Nat) d, f.devices[i]? = some (.ok d) → Tidy db₀ f.db saves xs i d
  traps : ∀ (i : Nat) t, f.devices[i]? = some (.error t) → t ≠ .missingUser
  entered : ∀ s ∈ saves, ∃ x ∈ xs, x.event = .savePressed (.reading s.2)
    ∧ Knows f.db xs x.device s.1

theorem kept_launch (db : Db) (keychains : List (Option Utf16)) :
    Kept db (Fleet.launch db keychains) [] [] := by
  refine ⟨fun u => (List.append_nil _).symm, fun i d hi => ?_, fun i t hi => ?_, by simp⟩
  · obtain ⟨keychain, -, hd⟩ := List.mem_map.mp (List.mem_of_getElem? hi)
    cases hd
    exact tidy_launch db [] i keychain
  · obtain ⟨keychain, -, hd⟩ := List.mem_map.mp (List.mem_of_getElem? hi)
    cases hd

section Run

variable {db₀ : Db} {f f' : Fleet} {saves : List (Uid × Reading)} {xs : List FleetEvent}
  {x : FleetEvent}

/-- The reading that is saved is the user's. -/
theorem entered_saved {d : Device} (h : Tidy db₀ f.db saves xs x.device d)
    {s : Uid × Reading} (hs : (d.app f.db).saves x.event = some s) :
    x.event = .savePressed (.reading s.2) ∧ Knows f.db xs x.device s.1 := by
  generalize x.event = e at *
  unfold Running.saves at hs
  split at hs
  · obtain ⟨-, hs⟩ := Option.ite_none_right_eq_some.mp hs
    obtain ⟨uid, huser, rfl⟩ := Option.map_eq_some_iff.mp hs
    exact ⟨rfl, h.user uid huser⟩
  · cases hs

/-- A phone takes a step. -/
theorem kept_next {d : Device} {a' : Running} (h : Kept db₀ f saves xs)
    (htidy : Tidy db₀ f.db saves xs x.device d)
    (hadmits : d.admits f.db x.allKeys x.event = true)
    (hstep : (d.app f.db).step x.event = some (.ok a')) :
    Kept db₀ ⟨a'.db, f.devices.set x.device (.ok (d.next f.db x.allKeys x.event a'))⟩
      (saves ++ ((d.app f.db).saves x.event).toList) (xs ++ [x]) := by
  have heffect := Running.effect_step hstep
  refine ⟨fun u => ?_, fun i d' hi => ?_, fun i t hi => ?_, fun s hs => ?_⟩
  · rw [savedBy_append, ← List.append_assoc, ← h.stored u]
    exact heffect.stored u
  · rw [List.getElem?_set] at hi
    split at hi
    · next hx =>
      split at hi
      · cases hi
        rw [← hx]
        exact tidy_next htidy h.stored hadmits hstep _
      · cases hi
    · exact tidy_append (h.devices i d' hi) [x] heffect.accounts _
  · rw [List.getElem?_set] at hi
    split at hi
    · split at hi
      · cases hi
      · cases hi
    · exact h.traps i t hi
  · rcases List.mem_append.mp hs with hs | hs
    · obtain ⟨y, hy, hevent, hknows⟩ := h.entered s hs
      exact ⟨y, List.mem_append_left _ hy, hevent, knows_append hknows heffect.accounts⟩
    · obtain ⟨hevent, hknows⟩ := entered_saved htidy (Option.mem_toList.mp hs)
      exact ⟨x, List.mem_append_right _ List.mem_cons_self, hevent,
        knows_append hknows heffect.accounts⟩

/-- A phone traps, and nothing has been saved by it. -/
theorem kept_trap {t : Trap} (h : Kept db₀ f saves xs) (htrap : t ≠ .missingUser) :
    Kept db₀ { f with devices := f.devices.set x.device (.error t) } saves (xs ++ [x]) := by
  have hsame : f.db.accounts = f.db.accounts ++ [] := (List.append_nil _).symm
  refine ⟨h.stored, fun i d hi => ?_, fun i t' hi => ?_, fun s hs => ?_⟩
  · rw [List.getElem?_set] at hi
    split at hi
    · split at hi
      · cases hi
      · cases hi
    · have htidy := tidy_append (h.devices i d hi) [x] hsame []
      rwa [List.append_nil] at htidy
  · rw [List.getElem?_set] at hi
    split at hi
    · split at hi
      · cases hi
        exact htrap
      · cases hi
    · exact h.traps i t' hi
  · obtain ⟨y, hy, hevent, hknows⟩ := h.entered s hs
    exact ⟨y, List.mem_append_left _ hy, hevent, knows_append hknows hsame⟩

theorem kept_step (h : Kept db₀ f saves xs) (hstep : f.step x = some f') :
    Kept db₀ f' (saves ++ (f.saved x).toList) (xs ++ [x]) := by
  unfold Fleet.step at hstep
  split at hstep
  · next d hd =>
    have htidy := h.devices x.device d hd
    have hsaved : f.saved x = (d.app f.db).saves x.event := by
      unfold Fleet.saved
      rw [hd]
    rw [hsaved]
    split at hstep
    · next hadmits =>
      split at hstep
      · next a' ha' =>
        cases hstep
        exact kept_next h htidy hadmits ha'
      · next t ht =>
        cases hstep
        obtain ⟨htrap, hnone⟩ : t ≠ .missingUser ∧ (d.app f.db).saves x.event = none := by
          rcases Running.comes_step htidy.inv ht with ⟨b, hb, -, -⟩ | ⟨email, hb, he⟩ | ⟨hb, he⟩
          · cases hb
          · cases hb
            exact ⟨by simp, by rw [he]; rfl⟩
          · cases hb
            exact ⟨by simp, by rw [he]; rfl⟩
        rw [hnone, Option.toList_none, List.append_nil]
        exact kept_trap h htrap
      · cases hstep
    · cases hstep
  · cases hstep

theorem kept_run (ys : List FleetEvent) : ∀ {f f' : Fleet} {saves : List (Uid × Reading)}
    {xs : List FleetEvent}, Kept db₀ f saves xs → f.run ys = some f' →
      Kept db₀ f' (saves ++ f.saves ys) (xs ++ ys) := by
  induction ys with
  | nil =>
      intro f f' saves xs h hrun
      cases hrun
      simpa [Fleet.saves] using h
  | cons y ys ih =>
      intro f f' saves xs h hrun
      obtain ⟨g, hstep, hrest⟩ := Option.bind_eq_some_iff.mp
        (show (f.step y).bind (fun g => g.run ys) = some f' from hrun)
      have hkept := ih (kept_step h hstep) hrest
      simpa [Fleet.saves, hstep] using hkept

end Run

/-- What a run of the phones has come to. -/
structure Private (db : Db) (keychains : List (Option Utf16)) (xs : List FleetEvent)
    (f : Fleet) : Prop where
  /-- What is saved is stored under the account it was saved by, and stays. -/
  stored : ∀ u, f.db.stored u
    = db.stored u ++ savedBy u ((Fleet.launch db keychains).saves xs)
  /-- It was entered on a phone where somebody had signed in to the account himself. -/
  entered : ∀ s ∈ (Fleet.launch db keychains).saves xs, ∃ x ∈ xs,
    x.event = .savePressed (.reading s.2) ∧ Knows f.db xs x.device s.1
  /-- Behind the sign-in a phone shows readings of its account, which somebody has signed in
  to on this phone himself, -/
  visible : ∀ (i : Nat) d tab top, f.devices[i]? = some (.ok d) →
    d.phone.root = .start tab top → ∃ uid scr, d.phone.user = some uid
      ∧ Knows f.db xs i uid ∧ d.screens.getLast? = some scr
      ∧ Pictures db ((Fleet.launch db keychains).saves xs) uid scr ∧ scr.Agrees
  /-- and there is somebody signed in. -/
  traps : ∀ (i : Nat) t, f.devices[i]? = some (.error t) → t ≠ .missingUser

/-- **Phones keep apart**, however what happens on them overlaps. -/
theorem fleet_run (db : Db) (keychains : List (Option Utf16)) (xs : List FleetEvent) (f : Fleet)
    (hrun : (Fleet.launch db keychains).run xs = some f) : Private db keychains xs f := by
  have hkept := kept_run xs (kept_launch db keychains) hrun
  rw [List.nil_append, List.nil_append] at hkept
  refine ⟨hkept.stored, hkept.entered, fun i d tab top hi hroot => ?_, hkept.traps⟩
  have htidy := hkept.devices i d hi
  obtain ⟨uid, huser⟩ := htidy.inv.user tab top hroot
  obtain ⟨scr, hscr⟩ : ∃ scr, d.screens.getLast? = some scr :=
    Option.ne_none_iff_exists'.mp fun hnone =>
      htidy.root tab top hroot (List.getLast?_eq_none_iff.mp hnone)
  have hpictures := htidy.visible uid scr huser hscr
  exact ⟨uid, scr, huser, htidy.user uid huser, hscr, hpictures, agrees_of_pictures hpictures⟩

/-- Ann signs up on one phone and saves a reading; on another one she signs in, asks for the
history, and logs out before it is there. -/
def annPhones : List FleetEvent :=
  [⟨0, .openSignup, []⟩, ⟨0, .signupPressed signupAnn, []⟩, ⟨0, .codeDone 0 [0], []⟩,
    ⟨0, .createDone 0 true true true, []⟩, ⟨0, .openMeasurement, []⟩,
    ⟨1, .loginPressed ⟨signupAnn.email, signupAnn.password⟩, []⟩,
    ⟨0, .savePressed (.reading ⟨5, utf16 "09/16/2017"⟩), []⟩, ⟨1, .loginDone 0 (some 1), []⟩,
    ⟨1, .historyAppears, []⟩, ⟨0, .historyAppears, []⟩, ⟨1, .selectTab .account, []⟩,
    ⟨1, .logoutPressed, []⟩, ⟨0, .measurementsDone 0, [0]⟩, ⟨1, .measurementsDone 0, [0]⟩]

theorem fleet_run_ann : ∃ f, (Fleet.launch clinic [none, none]).run annPhones = some f
    ∧ Private clinic [none, none] annPhones f := by
  have hrun : ((Fleet.launch clinic [none, none]).run annPhones).isSome := by rfl
  obtain ⟨f, hf⟩ := Option.isSome_iff_exists.mp hrun
  exact ⟨f, hf, fleet_run clinic [none, none] annPhones f hf⟩

end TacPac.App
