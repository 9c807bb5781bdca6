import TacPac.Lib.Keyed
import TacPac.Web.Account

/-!
# `TacpacController`, and who is a patient

The three endpoints of an authenticated account look its `Patient` row up and use
it without a check. `Register` makes that row; `RegisterExternal` does not. So
they work for every account of a run of registrations exactly if none of them was
external (`serveAll_enrolled`).
-/

namespace TacPac.Web

open TacPac.Lib

/-- `db.Patients.Find` -/
def findPatient (userId : Nat) : Handler (Option Patient) := .ask (Op.findPatient userId)

/-- `m.measurements` -/
def measurements (p : Patient) : Handler (List Measurement) := .ask (Op.measurements p)

/-- `m.measurements.Add(measurement); db.SaveChanges();`: the list takes null, and there is
nothing to save then. -/
def saveMeasurement (p : Patient) : Option Measurement → Handler Unit
  | some measurement => .ask (Op.saveMeasurement p measurement)
  | none => return ()

/-- `smtpServer.Send(mail)` -/
def send (mail : MailMessage) : Handler Unit := .ask (Op.send mail)

/-- `addMeasurement`; `me` is `User.Identity.GetUserId()`. -/
def addMeasurement (host : Host) (me : Nat) (measurement : Option Measurement) :
    Handler Utf16 := do
  let _user ← findById me
  let m ← findPatient me
  let m ← deref m
  let _loaded ← measurements m
  saveMeasurement m measurement
  let measurement ← deref measurement
  return utf16 "Concentration Saved: " ++ host.doubleText measurement.concentration

/-- `Skip(Math.Max(0, Count() - amount))` -/
def lastOf (amount : Int32) (list : List Measurement) : List Measurement :=
  list.drop (max 0 (Int32.ofNat list.length - amount)).toInt.toNat

/-- `getPastMeasurement` -/
def getPastMeasurement (me : Nat) (amount : Int32) : Handler (List Measurement) := do
  let user ← findById me
  let user ← deref user
  let m ← findPatient user.id
  let m ← deref m
  let list ← measurements m
  return lastOf amount list

/-- One row of the table that is mailed. -/
def mailRow (host : Host) (i : Measurement) : Utf16 :=
  utf16 "<tr><td>" ++ utf16 (toString i.id.toInt) ++ utf16 "</td><td>" ++ i.time.getD []
    ++ utf16 "</td><td>" ++ host.doubleText i.concentration ++ utf16 "</td></tr>"

/-- The table. -/
def mailBody (host : Host) (list : List Measurement) : Utf16 :=
  utf16 "<table><tr><th>id</th><th>date</th><th>measurement</th></tr>"
    ++ list.flatMap (mailRow host) ++ utf16 "</table>"

/-- `sendEmail` -/
def sendEmail (host : Host) (me : Nat) (recepients : Option Utf16) : Handler Utf16 := do
  let recepients ← Proc.orRaise .argument (recepients.filter host.mailAddresses)
  let user ← findById me
  let user ← deref user
  let patient ← findPatient user.id
  let patient ← deref patient
  let list ← measurements patient
  send ⟨utf16 "UaBitch@Bitch.you", recepients, utf16 "Test Mail - SmtpClientEmail",
    mailBody host list⟩
  return []

/-! ## Null references -/

/-- However its calls fail, the handler does not dereference null. -/
def NoNull {α : Type} (host : Host) (s : Store) (p : Handler α) : Prop :=
  ∀ faults, (p.run (exec host) (s, Session.start faults)).1 ≠ .error .nullReference

/-- The same as a condition on the rest of a handler. -/
def Safe {α : Type} (host : Host) (s : Store) (p : Handler α) : Prop :=
  ∀ l, Proc.wp (alone host) p (fun _ _ => True) (fun e _ => e ≠ .nullReference) (s, l)

section NoNull

variable {host : Host} {s : Store} {α : Type}

theorem noNull_of_safe {p : Handler α} (h : Safe host s p) : NoNull host s p := by
  intro faults
  have hrun := Proc.run_of_wp (S := alone host) (fun _ => rfl) (h (Session.start faults))
  rw [alone_exec] at hrun
  rcases hq : p.run (exec host) (s, Session.start faults) with ⟨e | a, w⟩
  · rw [hq] at hrun
    intro he
    exact hrun (by simpa using he)
  · simp

theorem safe_ret {a : α} : Safe host s (.ret a) := fun _ => trivial

/-- A call, and what follows it when it works. -/
theorem safe_call {o : Op} {f : o.Res → Handler α}
    (h : ∀ l, match perform host o (s, l) with
      | (.ok x, w) => Safe host w.1 (f x)
      | (.error e, _) => e ≠ .nullReference) : Safe host s (Proc.ask o >>= f) := by
  intro l
  refine Proc.wp_seq (R := fun x w => Safe host w.1 (f x)) (wp_ask (fun l' => ?_) (fun _ => ?_))
    (fun x w hx => hx w.2)
  · have hl := h l'
    rcases hp : perform host o (s, l') with ⟨e | x, w⟩
    · rw [hp] at hl; exact hl
    · rw [hp] at hl; exact hl
  · exact fun he => by cases he

/-- A patient whose row is there. -/
structure Found (s : Store) (user : ApplicationUser) (p : Patient) : Prop where
  account : s.users.find? (fun u => u.id = user.id) = some user
  patient : s.patients.find? (fun p => p.userId = user.id) = some p

theorem addMeasurement_safe {user : ApplicationUser} {p : Patient} (h : Found s user p)
    (measurement : Measurement) :
    Safe host s (addMeasurement host user.id (some measurement)) := by
  refine safe_call fun l => safe_call fun l => ?_
  show Safe host s (deref (s.patients.find? (fun p => p.userId = user.id)) >>= _)
  rw [h.patient]
  refine safe_call fun l => safe_call fun l => ?_
  rw [perform_saveMeasurement]
  by_cases hkey : s.nextMeasurement < 2 ^ 31
  · rw [if_pos hkey]
    exact safe_ret
  · -- the database is out of keys
    rw [if_neg hkey]
    exact fun he => by cases he

/-- Without a body there is nothing to read the concentration of. -/
theorem addMeasurement_none {user : ApplicationUser} {p : Patient} (h : Found s user p) :
    ¬ NoNull host s (addMeasurement host user.id none) := by
  intro hsafe
  refine hsafe [] ?_
  show ((deref (s.patients.find? (fun p => p.userId = user.id)) >>= _).run (exec host)
    (s, Session.start [])).1 = _
  rw [h.patient]
  rfl

theorem getPastMeasurement_safe {user : ApplicationUser} {p : Patient} (h : Found s user p)
    (amount : Int32) : Safe host s (getPastMeasurement user.id amount) := by
  refine safe_call fun l => ?_
  show Safe host s (deref (s.users.find? (fun u => u.id = user.id)) >>= _)
  rw [h.account]
  refine safe_call fun l => ?_
  show Safe host s (deref (s.patients.find? (fun p => p.userId = user.id)) >>= _)
  rw [h.patient]
  exact safe_call fun l => safe_ret

theorem sendEmail_safe {user : ApplicationUser} {p : Patient} (h : Found s user p)
    (recepients : Option Utf16) : Safe host s (sendEmail host user.id recepients) := by
  unfold sendEmail
  cases recepients.filter host.mailAddresses with
  | none => exact fun l he => by cases he
  | some addresses =>
      refine safe_call fun l => ?_
      show Safe host s (deref (s.users.find? (fun u => u.id = user.id)) >>= _)
      rw [h.account]
      refine safe_call fun l => ?_
      show Safe host s (deref (s.patients.find? (fun p => p.userId = user.id)) >>= _)
      rw [h.patient]
      exact safe_call fun l => safe_call fun l => safe_ret

end NoNull

/-! ## Runs of registrations -/

/-- It comes from an external login. -/
def Request.isExternal : Request → Bool
  | .register _ => false
  | .registerExternal _ _ => true

/-- Requests, one after another, while every one of them answers `Ok`. -/
def serveAll (host : Host) : Store → List Request → Option Store
  | s, [] => some s
  | s, r :: rs =>
      match respond host s r [] with
      | (.ok .ok, w) => serveAll host w.1 rs
      | _ => none

/-- How many patient rows an account has. -/
def patientRows (s : Store) (user : ApplicationUser) : Nat :=
  (s.patients.filter (fun p => p.userId = user.id)).length

/-- What the other endpoints depend on: every account has its row, and they work, with this
body of `addMeasurement`. -/
def Enrolled (host : Host) (s : Store) (measurement : Option Measurement) : Prop :=
  ∀ user ∈ s.users, patientRows s user = 1
    ∧ NoNull host s (addMeasurement host user.id measurement)
    ∧ (∀ amount, NoNull host s (getPastMeasurement user.id amount))
    ∧ (∀ recepients, NoNull host s (sendEmail host user.id recepients))

/-- What holds along a run; `external` says whether a request so far was external. -/
structure Registered (s : Store) (external : Bool) : Prop where
  ids : (s.users.map (·.id)).Nodup
  usersBound : ∀ user ∈ s.users, user.id < s.nextGuid
  patientsBound : ∀ p ∈ s.patients, p.userId < s.nextGuid
  enrolled : external = false → ∀ user ∈ s.users, patientRows s user = 1
  missed : external = true → ∃ user ∈ s.users, patientRows s user = 0

theorem registered_init : Registered Store.empty false :=
  ⟨List.nodup_nil, by simp [Store.empty], by simp [Store.empty], by simp [Store.empty],
    by simp⟩

/-- The store with a new account, and with the patient rows `new`. -/
def Store.withAccount (s : Store) (user : ApplicationUser) (new : List Patient) : Store :=
  { s.withUser user with patients := s.patients ++ new }

section WithAccount

variable {s : Store} {external : Bool} {user : ApplicationUser} {new : List Patient}

/-- The rows of the accounts that were there are those that were there. -/
theorem patientRows_withAccount_old (h : Registered s external) (hid : user.id = s.nextGuid)
    (hnew : ∀ p ∈ new, p.userId = user.id) {u : ApplicationUser} (hu : u ∈ s.users) :
    patientRows (s.withAccount user new) u = patientRows s u := by
  have hnone : new.filter (fun p => p.userId = u.id) = [] := by
    refine List.filter_eq_nil_iff.mpr fun p hp => ?_
    have hlt := h.usersBound u hu
    rw [hnew p hp, hid]
    simp only [decide_eq_true_eq]
    omega
  show ((s.patients ++ new).filter (fun p => p.userId = u.id)).length = _
  rw [List.filter_append, hnone, List.append_nil]
  rfl

/-- The new account has the new rows. -/
theorem patientRows_withAccount_self (h : Registered s external) (hid : user.id = s.nextGuid)
    (hnew : ∀ p ∈ new, p.userId = user.id) :
    patientRows (s.withAccount user new) user = new.length := by
  have hnone : s.patients.filter (fun p => p.userId = user.id) = [] := by
    refine List.filter_eq_nil_iff.mpr fun p hp => ?_
    have hlt := h.patientsBound p hp
    rw [hid]
    simp only [decide_eq_true_eq]
    omega
  have hall : new.filter (fun p => p.userId = user.id) = new :=
    List.filter_eq_self.mpr fun p hp => by simpa using hnew p hp
  show ((s.patients ++ new).filter (fun p => p.userId = user.id)).length = _
  rw [List.filter_append, hnone, hall, List.nil_append]

theorem ids_withAccount (h : Registered s external) (hid : user.id = s.nextGuid) :
    ((s.users ++ [user]).map (·.id)).Nodup := by
  rw [List.map_append, List.nodup_append]
  refine ⟨h.ids, List.nodup_singleton _, fun a ha b hb => ?_⟩
  obtain ⟨u, hu, rfl⟩ := List.mem_map.mp ha
  have hlt := h.usersBound u hu
  rw [List.map_singleton, List.mem_singleton] at hb
  omega

/-- A new account, with its patient row or without. -/
theorem registered_withAccount (h : Registered s external) (hid : user.id = s.nextGuid)
    (hnew : new = [⟨user.id⟩] ∨ new = []) :
    Registered (s.withAccount user new) (external || new.isEmpty) := by
  have hown : ∀ p ∈ new, p.userId = user.id := by
    intro p hp
    rcases hnew with rfl | rfl
    · rw [List.mem_singleton.mp hp]
    · exact absurd hp (by simp)
  have hold := fun u hu => patientRows_withAccount_old h hid hown (u := u) hu
  have hself := patientRows_withAccount_self h hid hown
  refine ⟨ids_withAccount h hid, fun u hu => ?_, fun p hp => ?_, fun hnone u hu => ?_,
    fun hsome => ?_⟩
  · show u.id < user.id + 1
    rcases List.mem_append.mp hu with hu | hu
    · have hlt := h.usersBound u hu
      omega
    · rw [List.mem_singleton.mp hu]
      omega
  · show p.userId < user.id + 1
    rcases List.mem_append.mp hp with hp | hp
    · have hlt := h.patientsBound p hp
      omega
    · rw [hown p hp]
      omega
  · -- nobody has registered externally, this account included
    obtain ⟨hbefore, hhas⟩ := Bool.or_eq_false_iff.mp hnone
    rcases List.mem_append.mp hu with hu | hu
    · rw [hold u hu]
      exact h.enrolled hbefore u hu
    · rw [List.mem_singleton.mp hu, hself]
      rcases hnew with rfl | rfl
      · rfl
      · exact absurd hhas (by simp)
  · rcases Bool.or_eq_true_iff.mp hsome with hbefore | hhas
    · obtain ⟨u, hu, hrows⟩ := h.missed hbefore
      exact ⟨u, List.mem_append_left _ hu, (hold u hu).trans hrows⟩
    · -- this account is the one without a row
      refine ⟨user, List.mem_append_right _ List.mem_cons_self, ?_⟩
      rw [hself, List.isEmpty_iff.mp hhas]
      rfl

end WithAccount

theorem registered_step {host : Host} {s s' : Store} {r : Request} {external : Bool} {l : Session}
    (h : Registered s external) (hok : respond host s r [] = (.ok .ok, s', l)) :
    Registered s' (external || r.isExternal) := by
  have hout := respond_outcome host s r []
  rw [hok] at hout
  cases hout with
  | unchanged n ha => exact absurd rfl ha
  | halfMade ha _ => exact absurd rfl ha
  | made hc hdone =>
      cases hdone with
      | patient model => exact registered_withAccount h hc.id (Or.inl rfl)
      | login model login =>
          -- an account with no new row; its login is nobody's patient
          have hreg := registered_withAccount h hc.id (Or.inr rfl)
          rw [Store.withAccount, List.append_nil] at hreg
          exact ⟨hreg.ids, hreg.usersBound, hreg.patientsBound, hreg.enrolled, hreg.missed⟩

theorem registered_run {host : Host} (rs : List Request) : ∀ {s s' : Store} {external : Bool},
    Registered s external → serveAll host s rs = some s' →
      Registered s' (external || rs.any Request.isExternal) := by
  induction rs with
  | nil =>
      intro s s' external h hrun
      cases hrun
      rw [List.any_nil, Bool.or_false]
      exact h
  | cons r rs ih =>
      intro s s' external h hrun
      unfold serveAll at hrun
      split at hrun
      · next w hok =>
          rw [List.any_cons, ← Bool.or_assoc]
          exact ih (registered_step h hok) hrun
      · exact absurd hrun (by simp)

/-- An account is found under its id, and so is its patient row if it has one. -/
theorem found_of_registered {s : Store} {external : Bool} (h : Registered s external)
    {user : ApplicationUser} (hu : user ∈ s.users) (hrow : patientRows s user = 1) :
    ∃ p, Found s user p := by
  have haccount : s.users.find? (fun u => u.id = user.id) = some user := find_of_nodup h.ids hu
  cases hf : s.patients.find? (fun p => p.userId = user.id) with
  | some p => exact ⟨p, haccount, hf⟩
  | none =>
      have hnil : s.patients.filter (fun p => p.userId = user.id) = [] :=
        List.filter_eq_nil_iff.mpr (List.find?_eq_none.mp hf)
      unfold patientRows at hrow
      rw [hnil] at hrow
      exact absurd hrow (by simp)

/-- Every request of a run that answers `Ok` leaves an account. -/
theorem users_of_serveAll {host : Host} (rs : List Request) : ∀ {s s' : Store},
    serveAll host s rs = some s' → s'.users.length = s.users.length + rs.length := by
  induction rs with
  | nil =>
      intro s s' hrun
      cases hrun
      rfl
  | cons r rs ih =>
      intro s s' hrun
      unfold serveAll at hrun
      split at hrun
      · next w hok =>
          have hout := respond_outcome host s r []
          obtain ⟨s₁, l⟩ := w
          rw [hok] at hout
          have hone : s₁.users.length = s.users.length + 1 := by
            cases hout with
            | unchanged n ha => exact absurd rfl ha
            | halfMade ha _ => exact absurd rfl ha
            | made hc hdone => cases hdone <;> exact List.length_append
          rw [ih hrun, hone, List.length_cons]
          omega
      · exact absurd hrun (by simp)

/-- **When every account is a patient**: exactly if nobody has registered through an
external login; and then the endpoints work, if `addMeasurement` has a body. -/
theorem serveAll_enrolled (host : Host) (rs : List Request) (s : Store)
    (measurement : Option Measurement) (h : serveAll host Store.empty rs = some s) :
    Enrolled host s measurement
      ↔ (∀ r ∈ rs, r.isExternal = false) ∧ (measurement ≠ none ∨ rs = []) := by
  have hreg := registered_run rs registered_init h
  rw [Bool.false_or] at hreg
  constructor
  · intro hall
    refine ⟨fun r hr => ?_, ?_⟩
    · by_contra hne
      have hany : rs.any Request.isExternal = true :=
        List.any_eq_true.mpr ⟨r, hr, by simpa using hne⟩
      obtain ⟨user, hu, hnone⟩ := hreg.missed hany
      have hone := (hall user hu).1
      omega
    · by_contra hbody
      obtain ⟨hbody, hrs⟩ := not_or.mp hbody
      -- there is an account, and it sends null
      have hlength := users_of_serveAll rs h
      have hpos := List.length_pos_of_ne_nil hrs
      obtain ⟨user, hu⟩ := List.exists_mem_of_length_pos (l := s.users) (by omega)
      obtain ⟨hrow, hsafe, -⟩ := hall user hu
      obtain ⟨p, hp⟩ := found_of_registered hreg hu hrow
      rw [not_not.mp hbody] at hsafe
      exact addMeasurement_none hp hsafe
  · intro hcond user hu
    obtain ⟨hnone, hbody⟩ := hcond
    have hany : rs.any Request.isExternal = false :=
      List.any_eq_false.mpr fun r hr => by simp [hnone r hr]
    have hrow := hreg.enrolled hany user hu
    obtain ⟨p, hp⟩ := found_of_registered hreg hu hrow
    refine ⟨hrow, ?_, fun amount => noNull_of_safe (getPastMeasurement_safe hp amount),
      fun recepients => noNull_of_safe (sendEmail_safe hp recepients)⟩
    rcases hbody with hbody | rfl
    · obtain ⟨m, rfl⟩ := Option.ne_none_iff_exists'.mp hbody
      exact noNull_of_safe (addMeasurement_safe hp m)
    · -- nobody has registered
      cases h
      cases hu

theorem serveAll_enrolled_ann :
    Enrolled plainHost ⟨[annUser], [], [⟨0⟩], [], 1, 1⟩ (some ⟨0, 0, none⟩) :=
  (serveAll_enrolled plainHost [.register (some registerAnn)] _ _ rfl).mpr
    ⟨by simp [Request.isExternal], Or.inl (by simp)⟩

/-- An account made from an external login, and the endpoint that trips over it. -/
theorem serveAll_external :
    ¬ ∀ (host : Host) (rs : List Request) (s : Store) (m : Measurement),
      serveAll host Store.empty rs = some s → Enrolled host s (some m) := by
  intro h
  have hrun : serveAll plainHost Store.empty
      [.registerExternal (some ⟨some (utf16 "ann@jhu.edu")⟩) (some ⟨utf16 "Google", utf16 "1"⟩)]
      = some ⟨[⟨0, some (utf16 "ann@jhu.edu"), some (utf16 "ann@jhu.edu"), none, none, none⟩],
          [⟨0, ⟨utf16 "Google", utf16 "1"⟩⟩], [], [], 1, 1⟩ := by rfl
  obtain ⟨-, hsafe, -⟩ := h _ _ _ ⟨0, 0, none⟩ hrun _ List.mem_cons_self
  exact hsafe [] rfl

end TacPac.Web
