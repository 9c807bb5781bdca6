import TacPac.Web.Tacpac

/-!
# Overlapping registrations

`Register` and `RegisterExternal` requests of anybody, overlapping in any way, with any
of their calls failing. Two requests for one e-mail may both find it free, since what is
found is not locked; the name of a user has a unique index, so that only one of them can
then insert its user. What the requests have entered into the tables is a history that only
grows (`traced_signups`), and each has entered a beginning of what makes an account
(`Made`). So accounts never get mixed up (`signups_sound`), an account whose request
answered `Ok` is complete, and no e-mail gives two. If nothing goes wrong it gives one: of
the requests that race for a free e-mail exactly one answers `Ok` (`signups_race`).
-/

namespace TacPac.Web

open TacPac.Lib

/-- Registrations that are under way. -/
abbrev Signups : Type := Pool Op Op.Res Exn Answer Request Store Session

/-- One of them. -/
abbrev Signup : Type := Thread Op Op.Res Exn Answer Request Session

/-- A request that has just arrived, and which of its calls will fail. -/
def signup (host : Host) (r : Request × List Bool) : Signup :=
  ⟨r.1, r.1.handler host, Session.start r.2⟩

/-- Requests that arrive at once. -/
def Signups.start (host : Host) (s : Store) (rs : List (Request × List Bool)) : Signups :=
  ⟨s, rs.map (signup host)⟩

/-! ## What is entered into the tables -/

/-- What a call of a registration enters. -/
inductive Entered where
  | number (id : Nat)
  | user (user : ApplicationUser)
  | patient (p : Patient)
  | login (l : IdentityUserLogin)

namespace Entered

/-- The account it is about. -/
def guid : Entered → Nat
  | .number id => id
  | .user u => u.id
  | .patient p => p.userId
  | .login l => l.userId

/-- An id that is given out. -/
def number? : Entered → Option Nat
  | .number id => some id
  | _ => none

/-- A row of the users table. -/
def user? : Entered → Option ApplicationUser
  | .user u => some u
  | _ => none

/-- A row of the patients table. -/
def patient? : Entered → Option Patient
  | .patient p => some p
  | _ => none

/-- A row of the logins table. -/
def login? : Entered → Option IdentityUserLogin
  | .login l => some l
  | _ => none

theorem user?_eq_some {e : Entered} {u : ApplicationUser} : e.user? = some u ↔ e = .user u := by
  cases e <;> simp [user?]

theorem patient?_eq_some {e : Entered} {p : Patient} : e.patient? = some p ↔ e = .patient p := by
  cases e <;> simp [patient?]

/-- What it does to the store. -/
def apply (s : Store) : Entered → Store
  | .number id => { s with nextGuid := id + 1 }
  | .user u => { s with users := s.users ++ [u] }
  | .patient p => { s with patients := s.patients ++ [p] }
  | .login l => { s with logins := s.logins ++ [l] }

/-- When it can be entered. -/
def can (host : Host) (s : Store) : Entered → Prop
  | .number id => id = s.nextGuid
  | .user u => u.id < s.nextGuid ∧ u.userName = u.email
      ∧ ∀ v ∈ s.users, v.id ≠ u.id ∧ v.userName.map host.upper ≠ u.userName.map host.upper
  | .patient p => p ∉ s.patients ∧ ∃ u ∈ s.users, u.id = p.userId
  | .login _ => True

end Entered

/-- The tables, as a machine. -/
def signupMachine (host : Host) : Machine Store Entered := ⟨Entered.apply, Entered.can host⟩

/-- Accounts, and what belongs to them. -/
structure Sound (host : Host) (s : Store) : Prop where
  ids : (s.users.map (·.id)).Nodup
  names : (s.users.map fun u => u.userName.map host.upper).Nodup
  /-- The name of a user is his e-mail. -/
  named : ∀ u ∈ s.users, u.userName = u.email
  bound : ∀ u ∈ s.users, u.id < s.nextGuid
  /-- No account has two patient rows. -/
  enrolled : (s.patients.map (·.userId)).Nodup
  /-- Every patient row is an account's. -/
  owned : ∀ p ∈ s.patients, ∃ u ∈ s.users, u.id = p.userId

theorem sound_init (host : Host) : Sound host Store.empty :=
  ⟨List.nodup_nil, List.nodup_nil, by simp [Store.empty], by simp [Store.empty], List.nodup_nil,
    by simp [Store.empty]⟩

section Machine

variable {host : Host} {s : Store}

/-- A key that nobody has comes to those that are there. -/
theorem nodup_snoc {α β : Type} {f : α → β} {l : List α} {x : α} (h : (l.map f).Nodup)
    (hx : ∀ y ∈ l, f y ≠ f x) : ((l ++ [x]).map f).Nodup := by
  rw [List.map_append, List.nodup_append]
  refine ⟨h, List.nodup_singleton _, fun a ha b hb hab => ?_⟩
  obtain ⟨y, hy, rfl⟩ := List.mem_map.mp ha
  exact hx y hy (hab.trans (List.mem_singleton.mp hb))

/-- **Every entry** keeps the accounts apart. -/
theorem sound_apply (s : Store) (e : Entered) (hs : Sound host s) (hcan : e.can host s) :
    Sound host (e.apply s) := by
  cases e with
  | number id =>
      have hid : id = s.nextGuid := hcan
      refine ⟨hs.ids, hs.names, hs.named, fun u hu => ?_, hs.enrolled, hs.owned⟩
      have hlt := hs.bound u hu
      show u.id < id + 1
      omega
  | user user =>
      obtain ⟨hlt, hnamed, hfree⟩ := hcan
      refine ⟨nodup_snoc hs.ids fun u hu => (hfree u hu).1,
        nodup_snoc hs.names fun u hu => (hfree u hu).2, fun u hu => ?_, fun u hu => ?_,
        hs.enrolled, fun p hp => ?_⟩
      · rcases List.mem_append.mp hu with hu | hu
        · exact hs.named u hu
        · rw [List.mem_singleton.mp hu]
          exact hnamed
      · rcases List.mem_append.mp hu with hu | hu
        · exact hs.bound u hu
        · rw [List.mem_singleton.mp hu]
          exact hlt
      · obtain ⟨u, hu, hid⟩ := hs.owned p hp
        exact ⟨u, List.mem_append_left _ hu, hid⟩
  | patient p =>
      obtain ⟨hfree, howner⟩ := hcan
      refine ⟨hs.ids, hs.names, hs.named, hs.bound, nodup_snoc hs.enrolled fun p' hp' hid => ?_,
        fun p' hp' => ?_⟩
      · obtain rfl : p' = p := by
          cases p'
          cases p
          exact congrArg Patient.mk hid
        exact hfree hp'
      · rcases List.mem_append.mp hp' with hp' | hp'
        · exact hs.owned p' hp'
        · rw [List.mem_singleton.mp hp']
          exact howner
  | login l => exact ⟨hs.ids, hs.names, hs.named, hs.bound, hs.enrolled, hs.owned⟩

/-- **The tables after a history** are those before it, and what was entered. -/
structure Extended (s s' : Store) (es : List Entered) : Prop where
  users : s'.users = s.users ++ es.filterMap Entered.user?
  patients : s'.patients = s.patients ++ es.filterMap Entered.patient?
  logins : s'.logins = s.logins ++ es.filterMap Entered.login?

theorem extended_after (es : List Entered) : ∀ s : Store,
    Extended s ((signupMachine host).after s es) es := by
  induction es with
  | nil => exact fun s => ⟨by simp, by simp, by simp⟩
  | cons e es ih =>
      intro s
      obtain ⟨husers, hpatients, hlogins⟩ := ih (e.apply s)
      have hafter : (signupMachine host).after s (e :: es)
          = (signupMachine host).after (e.apply s) es := rfl
      rw [hafter]
      constructor
      · rw [husers]
        cases e <;> simp [Entered.apply, Entered.user?, List.filterMap_cons]
      · rw [hpatients]
        cases e <;> simp [Entered.apply, Entered.patient?, List.filterMap_cons]
      · rw [hlogins]
        cases e <;> simp [Entered.apply, Entered.login?, List.filterMap_cons]

theorem nextGuid_le_apply {e : Entered} (hcan : e.can host s) :
    s.nextGuid ≤ (e.apply s).nextGuid := by
  cases e with
  | number id =>
      have hid : id = s.nextGuid := hcan
      show s.nextGuid ≤ id + 1
      omega
  | _ => exact Nat.le_refl _

/-- An id that is given out is below the next one. -/
theorem guid_lt {id : Nat} {es : List Entered} (h : (signupMachine host).Legal s es)
    (hid : .number id ∈ es) : id < ((signupMachine host).after s es).nextGuid :=
  Machine.after_of_mem (Q := fun s' : Store => id < s'.nextGuid) (fun _ _ => Nat.lt_succ_self id)
    (fun _ _ hlt hcan => Nat.lt_of_lt_of_le hlt (nextGuid_le_apply hcan)) h hid

/-- Every id that is given out is a new one. -/
theorem numbers_nodup (es : List Entered) : ∀ {s : Store}, (signupMachine host).Legal s es →
    (es.filterMap Entered.number?).Nodup
      ∧ ∀ id ∈ es.filterMap Entered.number?, s.nextGuid ≤ id := by
  induction es with
  | nil => exact fun _ => ⟨List.nodup_nil, by simp⟩
  | cons e es ih =>
      intro s h
      obtain ⟨hnodup, hle⟩ := ih h.2
      have hnext := nextGuid_le_apply h.1
      cases e with
      | number id =>
          have hid : id = s.nextGuid := h.1
          have hle' : ∀ id' ∈ es.filterMap Entered.number?, id + 1 ≤ id' := hle
          refine ⟨List.nodup_cons.mpr ⟨fun hmem => ?_, hnodup⟩, fun id' hid' => ?_⟩
          · have hlt := hle' id hmem
            omega
          · rcases List.mem_cons.mp hid' with rfl | hid'
            · omega
            · have hlt := hle' id' hid'
              omega
      | user u => exact ⟨hnodup, fun id hid => Nat.le_trans hnext (hle id hid)⟩
      | patient p => exact ⟨hnodup, fun id hid => Nat.le_trans hnext (hle id hid)⟩
      | login l => exact ⟨hnodup, fun id hid => Nat.le_trans hnext (hle id hid)⟩

end Machine

/-! ## What a request enters -/

/-- A user as the request makes it. -/
structure Makes (r : Request) (user : ApplicationUser) : Prop where
  userName : user.userName = r.email
  email : user.email = r.email

/-- How far a request has got with its account. -/
inductive Made (r : Request) : List Entered → Prop where
  | nothing : Made r []
  | number (id : Nat) : Made r [.number id]
  | user {user : ApplicationUser} : Makes r user → Made r [.number user.id, .user user]
  | patient {user : ApplicationUser} : Makes r user → r.isExternal = false →
      Made r [.number user.id, .user user, .patient ⟨user.id⟩]
  | login {user : ApplicationUser} {model : Option RegisterExternalBindingModel}
      {login : UserLoginInfo} : Makes r user → r = .registerExternal model (some login) →
      Made r [.number user.id, .user user, .login ⟨user.id, login⟩]

/-- All of it is about one account, whose id it has been given. -/
theorem number_of_made {r : Request} {es : List Entered} (h : Made r es) {e : Entered}
    (he : e ∈ es) : .number e.guid ∈ es := by
  cases h with
  | nothing => cases he
  | number id =>
      rw [List.mem_singleton.mp he]
      exact List.mem_cons_self
  | user _ =>
      simp only [List.mem_cons, List.not_mem_nil, or_false] at he
      rcases he with rfl | rfl <;> exact List.mem_cons_self
  | patient _ _ =>
      simp only [List.mem_cons, List.not_mem_nil, or_false] at he
      rcases he with rfl | rfl | rfl <;> exact List.mem_cons_self
  | login _ _ =>
      simp only [List.mem_cons, List.not_mem_nil, or_false] at he
      rcases he with rfl | rfl | rfl <;> exact List.mem_cons_self

/-- A user it enters is as it makes him. -/
theorem makes_of_made {r : Request} {es : List Entered} (h : Made r es) {user : ApplicationUser}
    (he : .user user ∈ es) : Makes r user := by
  cases h with
  | nothing => cases he
  | number id => cases List.mem_singleton.mp he
  | user hmakes =>
      simp only [List.mem_cons, List.not_mem_nil, reduceCtorEq, false_or, or_false,
        Entered.user.injEq] at he
      rwa [he]
  | patient hmakes _ =>
      simp only [List.mem_cons, List.not_mem_nil, reduceCtorEq, false_or, or_false,
        Entered.user.injEq] at he
      rwa [he]
  | login hmakes _ =>
      simp only [List.mem_cons, List.not_mem_nil, reduceCtorEq, false_or, or_false,
        Entered.user.injEq] at he
      rwa [he]

/-- The calls it makes, by what it has entered. -/
inductive AsksFor (r : Request) : List Entered → Op → Prop where
  | newGuid : AsksFor r [] .newGuid
  | findByName {es : List Entered} {userName : Utf16} : r.email = some userName →
      AsksFor r es (.findByName userName)
  | findByEmail {es : List Entered} {email : Utf16} : r.email = some email →
      AsksFor r es (.findByEmail email)
  | insertUser {user : ApplicationUser} {passwordHash : Option Utf16} : Makes r user →
      AsksFor r [.number user.id] (.insertUser user passwordHash)
  | savePatient {user : ApplicationUser} : Makes r user → r.isExternal = false →
      AsksFor r [.number user.id, .user user] (.savePatient ⟨user.id⟩)
  | findById {es : List Entered} {userId : Nat} : AsksFor r es (.findById userId)
  | findLogin {es : List Entered} {login : UserLoginInfo} : AsksFor r es (.findLogin login)
  | updateUser {user : ApplicationUser} {model : Option RegisterExternalBindingModel}
      {login : UserLoginInfo} : Makes r user → r = .registerExternal model (some login) →
      AsksFor r [.number user.id, .user user] (.updateUser user.id none (.add login))

/-- What a registration does. Who is turned down by `Register` has no user. -/
def signupPlan : Plan Op Op.Res Answer Request Entered where
  act
    | .newGuid, id => some (.number id)
    | .insertUser user _, _ => some (.user user)
    | .savePatient p, _ => some (.patient p)
    | .updateUser userId _ (.add login), _ => some (.login ⟨userId, login⟩)
    | _, _ => none
  asks := AsksFor
  ends r es a := Made r es ∧ (a = .ok → es.length = 3)
    ∧ (a ≠ .ok → r.isExternal = false → es.length ≤ 1 ∧ ∃ errors, a = .badRequest errors)
  breaks := Made

section Plan

variable {host : Host} {r : Request}

theorem looksUp_signup {user : ApplicationUser} (h : Makes r user) (es : List Entered) :
    LooksUp signupPlan r es user :=
  ⟨fun _ hname => ⟨.findByName (h.userName.symm.trans hname), fun _ => rfl⟩,
    fun _ hemail => ⟨.findByEmail (h.email.symm.trans hemail), fun _ => rfl⟩⟩

theorem follows_turned_down {es : List Entered} {a : Answer} (hmade : Made r es) (ha : a ≠ .ok)
    (hes : r.isExternal = false → es.length ≤ 1 ∧ ∃ errors, a = .badRequest errors) :
    signupPlan.Follows r es (.ret a : Handler Answer) :=
  ⟨hmade, fun hok => absurd hok ha, fun _ => hes⟩

theorem follows_register (model : Option RegisterBindingModel) :
    signupPlan.Follows (.register model) [] (register host model) := by
  unfold register
  split
  · exact follows_turned_down .nothing (by simp) fun _ => ⟨Nat.zero_le 1, _, rfl⟩
  · refine Plan.follows_ask .nothing .newGuid fun id => ?_
    refine Plan.follows_orRaise (.number id) fun m hm => ?_
    refine Plan.follows_orRaise (.number id) fun password _ => ?_
    have hmakes : Makes (.register model) ⟨id, m.email, m.email, m.firstName, m.lastName,
        m.birthday⟩ := by
      rw [hm]
      exact ⟨rfl, rfl⟩
    refine follows_createAsync (looksUp_signup hmakes _) (.number id) (.insertUser hmakes)
      (fun errors => follows_turned_down (.number id) (by simp [getErrorResult])
        fun _ => ⟨Nat.le_refl 1, _, rfl⟩) ?_
    exact Plan.follows_ask (.user hmakes) (.savePatient hmakes rfl) fun _ =>
      ⟨.patient hmakes rfl, fun _ => rfl, fun hok => absurd rfl hok⟩

theorem follows_registerExternal (model : Option RegisterExternalBindingModel)
    (info : Option UserLoginInfo) :
    signupPlan.Follows (.registerExternal model info) [] (registerExternal host model info) := by
  unfold registerExternal
  split
  · exact follows_turned_down .nothing (by simp) fun h => by cases h
  · cases info with
    | none => exact follows_turned_down .nothing (by simp) fun h => by cases h
    | some login =>
        refine Plan.follows_ask .nothing .newGuid fun id => ?_
        refine Plan.follows_orRaise (.number id) fun m hm => ?_
        have hmakes : Makes (.registerExternal model (some login))
            ⟨id, m.email, m.email, none, none, none⟩ := by
          rw [hm]
          exact ⟨rfl, rfl⟩
        refine follows_createAsync (looksUp_signup hmakes _) (.number id) (.insertUser hmakes)
          (fun errors => follows_turned_down (.number id) (by simp [getErrorResult])
            fun h => by cases h) ?_
        -- the login that completes it
        have hrefused : ∀ errors, signupPlan.Follows (.registerExternal model (some login))
            [.number id, .user ⟨id, m.email, m.email, none, none, none⟩]
            (.ret (getErrorResult errors) : Handler Answer) := fun errors =>
          follows_turned_down (.user hmakes) (by simp [getErrorResult]) fun h => by cases h
        unfold addLoginAsync
        rw [bind_assoc]
        refine Plan.follows_ask (.user hmakes) .findById fun found => ?_
        rw [bind_assoc]
        refine Plan.follows_orRaise (.user hmakes) fun _ _ => ?_
        refine follows_linkAsync (.user hmakes) .findLogin (fun _ errors => hrefused errors) ?_
        refine follows_updateAsync (looksUp_signup hmakes _) (.user hmakes)
          (.updateUser hmakes rfl) (fun errors => hrefused errors) ?_
        exact ⟨.login hmakes rfl, fun _ => rfl, fun hok => absurd rfl hok⟩

theorem follows_handler (r : Request) : signupPlan.Follows r [] (r.handler host) := by
  cases r with
  | register model => exact follows_register model
  | registerExternal model info => exact follows_registerExternal model info

end Plan

/-! ## Runs -/

/-- What the requests have entered is what the tables have got. -/
abbrev Entering (host : Host) (s₀ : Store) (p : Signups) (h : List (Nat × Entered)) : Prop :=
  Pool.Traced (signupMachine host) id (fun _ => True) signupPlan s₀ p h

section Runs

variable {host : Host} {s₀ : Store} {p : Signups} {h : List (Nat × Entered)}

theorem extended_of_entering (hp : Entering host s₀ p h) :
    Extended s₀ p.shared (h.map Prod.snd) := by
  rw [show p.shared = _ from hp.state]
  exact extended_after _ _

theorem sound_of_entering (hs : Sound host s₀) (hp : Entering host s₀ p h) :
    Sound host p.shared := by
  rw [show p.shared = _ from hp.state]
  exact Machine.legal_invariant sound_apply _ hp.legal hs

theorem part_of_entered {e : Entered} (he : e ∈ h.map Prod.snd) : ∃ i, e ∈ Pool.partOf i h := by
  obtain ⟨⟨i, e'⟩, hmem, rfl⟩ := List.mem_map.mp he
  exact ⟨i, Pool.mem_partOf.mpr hmem⟩

/-- A user was there before, or has been entered. -/
theorem user_of_entering (hp : Entering host s₀ p h) {u : ApplicationUser}
    (hu : u ∈ p.shared.users) : u ∈ s₀.users ∨ ∃ i, .user u ∈ Pool.partOf i h := by
  rw [(extended_of_entering hp).users] at hu
  rcases List.mem_append.mp hu with hold | hnew
  · exact Or.inl hold
  · obtain ⟨e, he, huser⟩ := List.mem_filterMap.mp hnew
    obtain rfl := Entered.user?_eq_some.mp huser
    exact Or.inr (part_of_entered he)

/-- What a request has entered is in the tables. -/
theorem user_mem {i : Nat} {user : ApplicationUser} (hp : Entering host s₀ p h)
    (he : .user user ∈ Pool.partOf i h) : user ∈ p.shared.users := by
  rw [(extended_of_entering hp).users]
  have hmem := List.mem_map_of_mem (f := Prod.snd) (Pool.mem_partOf.mp he)
  exact List.mem_append_right _ (List.mem_filterMap.mpr ⟨_, hmem, rfl⟩)

theorem guid_of_part {i id : Nat} (hp : Entering host s₀ p h)
    (he : .number id ∈ Pool.partOf i h) : s₀.nextGuid ≤ id ∧ id < p.shared.nextGuid := by
  have hmem := List.mem_map_of_mem (f := Prod.snd) (Pool.mem_partOf.mp he)
  refine ⟨(numbers_nodup _ hp.legal).2 id (List.mem_filterMap.mpr ⟨_, hmem, rfl⟩), ?_⟩
  rw [show p.shared = _ from hp.state]
  exact guid_lt hp.legal hmem

/-- What every request has entered, whether it has ended or not. -/
theorem made_of_entering (hp : Entering host s₀ p h) {i : Nat} {th : Signup}
    (hi : p.threads[i]? = some th) : Made th.tag (Pool.partOf i h) := by
  by_cases hret : ∃ a, th.left = .ret a
  · obtain ⟨a, hleft⟩ := hret
    exact (Pool.ends_of_traced hp hi hleft).1
  · exact Pool.breaks_of_traced hp hi fun a hleft => hret ⟨a, hleft⟩

/-- **An account is made by one request only.** -/
theorem request_unique (hp : Entering host s₀ p h) {i j : Nat} {e e' : Entered}
    (hi : e ∈ Pool.partOf i h) (hj : e' ∈ Pool.partOf j h) (hguid : e.guid = e'.guid) : i = j := by
  -- both have been given the id of the account, which is given out once
  have hnumber : ∀ {k : Nat} {e : Entered}, e ∈ Pool.partOf k h →
      (k, .number e.guid) ∈ h := by
    intro k e he
    have hmade := made_of_entering hp (List.getElem?_eq_getElem (hp.bounded k e he))
    exact Pool.mem_partOf.mp (number_of_made hmade he)
  have hnodup := (numbers_nodup _ hp.legal).1
  rw [List.filterMap_map, ← List.map_id (List.filterMap _ h)] at hnodup
  exact congrArg Prod.fst
    (eq_of_nodup_filterMap hnodup (hnumber hi) (hnumber hj) rfl rfl hguid)

/-! ### One call -/

/-- A call that is not interrupted, or does nothing. -/
theorem answers_exec {A : Type} {M : Machine A Entered} {view : Store → A} {o : Op}
    {act : o.Res → Option Entered} {s : Store} {l : Session}
    (h : ∀ l', M.Answers view (fun _ => True) act s (perform host o (s, l'))) :
    M.Answers view (fun _ => True) act s (exec host o (s, l)) := by
  rcases exec_cases host o s l with ⟨fs, hx⟩ | ⟨fs, hx⟩
  · rw [hx]
    exact h _
  · rw [hx]
    exact Machine.moves_nothing trivial rfl

/-- **Every call of a registration** enters what it says, or nothing. -/
theorem answers_signup (hp : Entering host s₀ p h) {i : Nat} {r : Request} {o : Op}
    (hasks : AsksFor r (Pool.partOf i h) o) (l : Session) :
    (signupMachine host).Answers id (fun _ => True) (signupPlan.act o) p.shared
      (exec host o (p.shared, l)) := by
  refine answers_exec fun l' => ?_
  generalize hes : Pool.partOf i h = es at hasks
  cases hasks with
  | newGuid => exact Machine.moves_one trivial rfl rfl
  | findByName hname => exact Machine.moves_nothing trivial rfl
  | findByEmail hemail => exact Machine.moves_nothing trivial rfl
  | findById => exact Machine.moves_nothing trivial rfl
  | findLogin => exact Machine.moves_nothing trivial rfl
  | @insertUser user passwordHash hmakes =>
      rw [perform_insertUser]
      by_cases htakes : p.shared.takes host user = true
      · rw [if_pos htakes]
        -- the id is one that has been given out
        have hlt := (guid_of_part (i := i) hp (by rw [hes]; exact List.mem_cons_self)).2
        have hcan : Entered.can host p.shared (.user user) :=
          ⟨hlt, hmakes.userName.trans hmakes.email.symm, (takes_iff.mp htakes).2⟩
        exact Machine.moves_one trivial hcan rfl
      · rw [if_neg htakes]
        exact Machine.moves_nothing trivial rfl
  | @savePatient user hmakes hr =>
      rw [perform_savePatient]
      by_cases hmem : (⟨user.id⟩ : Patient) ∈ p.shared.patients
      · rw [if_pos hmem]
        exact Machine.moves_nothing trivial rfl
      · rw [if_neg hmem]
        have hpart : .user user ∈ Pool.partOf i h := by
          rw [hes]
          simp
        have huser := user_mem hp hpart
        have hcan : Entered.can host p.shared (.patient ⟨user.id⟩) := ⟨hmem, user, huser, rfl⟩
        exact Machine.moves_one trivial hcan rfl
  | @updateUser user model login hmakes hr =>
      rw [perform_updateUser]
      cases hupdated : p.shared.updated host user.id (.add login) with
      | none => exact Machine.moves_nothing trivial rfl
      | some s' =>
          obtain ⟨-, logins, hchanged, rfl⟩ := updated_eq_some.mp hupdated
          obtain ⟨-, rfl⟩ := changed_add.mp hchanged
          exact Machine.moves_one trivial trivial rfl

theorem traced_init_signups (s₀ : Store) (rs : List (Request × List Bool)) :
    Entering host s₀ (Signups.start host s₀ rs) [] := by
  refine Pool.traced_init (p := Signups.start host s₀ rs) trivial fun th hth => ?_
  obtain ⟨r, -, rfl⟩ := List.mem_map.mp hth
  exact follows_handler r.1

/-- **What holds all along a run.** -/
theorem traced_signups (s₀ : Store) (rs : List (Request × List Bool)) (sched : List Nat) :
    Entering host s₀ ((Signups.start host s₀ rs).run (exec host) sched)
      (Pool.history signupPlan.act (exec host) (Signups.start host s₀ rs) sched) :=
  Pool.traced_run (fun hp _ hasks => answers_signup hp hasks _) (traced_init_signups s₀ rs) sched

end Runs

/-! ## What registrations leave -/

/-- Rows are only ever added. -/
def Kept (s s' : Store) : Prop :=
  s.users <+: s'.users ∧ s.patients <+: s'.patients ∧ s.logins <+: s'.logins

/-- The account of a request is complete. -/
def Complete (s : Store) (r : Request) (u : ApplicationUser) : Prop :=
  u ∈ s.users ∧ u.email = r.email ∧ (r.isExternal = false → patientRows s u = 1)
    ∧ ∀ model login, r = .registerExternal model (some login) → ⟨u.id, login⟩ ∈ s.logins

section Leaves

variable {host : Host} {s₀ : Store} {p : Signups} {h : List (Nat × Entered)}

theorem kept_of_entering (hp : Entering host s₀ p h) : Kept s₀ p.shared := by
  obtain ⟨husers, hpatients, hlogins⟩ := extended_of_entering hp
  exact ⟨⟨_, husers.symm⟩, ⟨_, hpatients.symm⟩, ⟨_, hlogins.symm⟩⟩

theorem patientRows_of_mem {s : Store} (hs : Sound host s) {u : ApplicationUser}
    (h : (⟨u.id⟩ : Patient) ∈ s.patients) : patientRows s u = 1 := by
  unfold patientRows
  have hcount : (s.patients.map (·.userId)).count u.id = 1 :=
    List.count_eq_one_of_mem hs.enrolled (List.mem_map_of_mem h)
  rw [List.count_eq_countP, List.countP_map, List.countP_eq_length_filter] at hcount
  rw [← hcount]
  exact congrArg List.length (List.filter_congr fun _ _ => rfl)

/-- Who has answered `Ok` has made an account, and completed it. -/
theorem complete_of_ok (hs : Sound host s₀) (hp : Entering host s₀ p h) {i : Nat} {th : Signup}
    (hi : p.threads[i]? = some th) (hok : th.left = .ret .ok) :
    ∃ u, Complete p.shared th.tag u ∧ u.userName = th.tag.email
      ∧ .user u ∈ Pool.partOf i h := by
  obtain ⟨hmade, hlength, -⟩ := Pool.ends_of_traced hp hi hok
  have hthree := hlength rfl
  have hextended := extended_of_entering hp
  generalize hes : Pool.partOf i h = es at hmade hthree
  have hentered : ∀ e ∈ es, e ∈ h.map Prod.snd := fun e he =>
    List.mem_map_of_mem (f := Prod.snd) (Pool.mem_partOf.mp (by rw [hes]; exact he))
  have huser : ∀ {u}, .user u ∈ es → u ∈ p.shared.users := fun hu => user_mem hp (by rwa [hes])
  cases hmade with
  | nothing => cases hthree
  | number id => cases hthree
  | user hmakes => cases hthree
  | @patient u hmakes hr =>
      refine ⟨u, ⟨huser (by simp), hmakes.email, fun _ => ?_, fun model login hext => ?_⟩,
        hmakes.userName, by simp⟩
      · refine patientRows_of_mem (sound_of_entering hs hp) ?_
        rw [hextended.patients]
        exact List.mem_append_right _
          (List.mem_filterMap.mpr ⟨.patient ⟨u.id⟩, hentered _ (by simp), rfl⟩)
      · rw [hext] at hr
        cases hr
  | @login u model login hmakes hr =>
      refine ⟨u, ⟨huser (by simp), hmakes.email, fun hreg => ?_, fun model' login' hext => ?_⟩,
        hmakes.userName, by simp⟩
      · rw [hr] at hreg
        cases hreg
      · rw [hr] at hext
        cases hext
        rw [hextended.logins]
        exact List.mem_append_right _
          (List.mem_filterMap.mpr ⟨.login ⟨u.id, login⟩, hentered _ (by simp), rfl⟩)

/-- Two requests that have answered `Ok` have two e-mails. -/
theorem email_ne_of_ok (hs : Sound host s₀) (hp : Entering host s₀ p h) {i j : Nat}
    {th th' : Signup} (hij : i ≠ j) (hi : p.threads[i]? = some th)
    (hj : p.threads[j]? = some th') (hok : th.left = .ret .ok) (hok' : th'.left = .ret .ok) :
    th.tag.email.map host.upper ≠ th'.tag.email.map host.upper := by
  obtain ⟨u, ⟨hu, -⟩, hname, hpart⟩ := complete_of_ok hs hp hi hok
  obtain ⟨u', ⟨hu', -⟩, hname', hpart'⟩ := complete_of_ok hs hp hj hok'
  intro heq
  have hsame : u = u' := by
    refine List.inj_on_of_nodup_map (sound_of_entering hs hp).names hu hu' ?_
    rw [hname, hname', heq]
  exact hij (request_unique hp hpart hpart' (by rw [hsame]))

end Leaves

/-- **Overlapping registrations do not mix accounts up.** In any run of any requests,
whichever of their calls fail: ids and names stay unique, the case of names aside, every
patient row is that of one account and no account has two, and nothing that was stored is
lost; a request that has answered `Ok` has its account, with the row that completes it; and
no two such requests are for one e-mail. -/
theorem signups_sound (host : Host) (s₀ : Store) (hs : Sound host s₀)
    (rs : List (Request × List Bool)) (sched : List Nat) :
    Sound host ((Signups.start host s₀ rs).run (exec host) sched).shared
    ∧ Kept s₀ ((Signups.start host s₀ rs).run (exec host) sched).shared
    ∧ (∀ (i : Nat) (th : Signup),
        ((Signups.start host s₀ rs).run (exec host) sched).threads[i]? = some th →
        th.left = .ret .ok →
          ∃ u, Complete ((Signups.start host s₀ rs).run (exec host) sched).shared th.tag u)
    ∧ ∀ (i j : Nat) (th th' : Signup), i ≠ j →
        ((Signups.start host s₀ rs).run (exec host) sched).threads[i]? = some th →
        ((Signups.start host s₀ rs).run (exec host) sched).threads[j]? = some th' →
        th.left = .ret .ok → th'.left = .ret .ok →
          th.tag.email.map host.upper ≠ th'.tag.email.map host.upper := by
  have hp := @traced_signups host s₀ rs sched
  refine ⟨sound_of_entering hs hp, kept_of_entering hp, fun i th hi hok => ?_,
    fun i j th th' hij hi hj hok hok' => email_ne_of_ok hs hp hij hi hj hok hok'⟩
  obtain ⟨u, hcomplete, -⟩ := complete_of_ok hs hp hi hok
  exact ⟨u, hcomplete⟩

/-- Ann registers twice at once, and both her requests find the e-mail free. -/
def annTwice : List (Request × List Bool) :=
  [(.register (some registerAnn), []), (.register (some registerAnn), [])]

/-- The second is the faster one then. -/
def annTwiceTurns : List Nat := [0, 0, 0, 1, 1, 1, 1, 0, 1]

theorem signups_sound_overlapping :
    Sound plainHost
      ((Signups.start plainHost Store.empty annTwice).run (exec plainHost) annTwiceTurns).shared :=
  (signups_sound plainHost Store.empty (sound_init _) annTwice annTwiceTurns).1

/-! ## A race for an e-mail -/

/-- A body that passes every check but whether the e-mail is free. -/
structure InOrder (host : Host) (m : RegisterBindingModel) : Prop where
  checked : m.modelErrors = []
  password : ∃ password, m.password = some password ∧ passwordErrors password = []
  email : ∃ email, m.email = some email ∧ host.isMailAddress email = true ∧ email.length ≤ 256

/-- The e-mail of a body in order is not blank. -/
theorem not_blank_of_checked {m : RegisterBindingModel} {email : Utf16}
    (h : m.modelErrors = []) (hemail : m.email = some email) :
    ¬ email.all isWhiteSpace = true := by
  intro hblank
  have hrequired : required (utf16 "Email") (utf16 "Email") m.email = [] := by
    simp only [RegisterBindingModel.modelErrors, List.append_eq_nil_iff] at h
    exact h.1.1.1.1.1
  rw [hemail, required, Option.getD_some, if_pos hblank] at hrequired
  cases hrequired

/-- Somebody has the e-mail. -/
def Taken (host : Host) (email : Utf16) (s : Store) : Prop :=
  ∃ u ∈ s.users, host.equals u.userName email = true

/-- Nobody is found. -/
def Free : (o : Op) → o.Res → Prop
  | .findByName _, owner => owner = none
  | .findByEmail _, owner => owner = none
  | _, _ => True

/-- As long as nobody is found, the program comes to something in `Q`. -/
def Unopposed {α : Type} (Q : α → Prop) : Handler α → Prop
  | .ret a => Q a
  | .raise _ => False
  | .call o k => ∀ x, Free o x → Unopposed Q (k x)

section Programs

variable {host : Host} {α β : Type}

theorem unopposed_bind {R : α → Prop} {Q : β → Prop} {p : Handler α} {f : α → Handler β}
    (hp : Unopposed R p) (hf : ∀ a, R a → Unopposed Q (f a)) : Unopposed Q (p >>= f) := by
  induction p with
  | ret a => exact hf a hp
  | raise e => exact hp.elim
  | call o k ih => exact fun x hx => ih x (hp x hx)

/-- A user whose name and e-mail nobody is found to have is valid. -/
theorem unopposed_validateAsync {user : ApplicationUser} {email : Utf16}
    (hname : user.userName = some email) (hemail : user.email = some email)
    (hblank : ¬ email.all isWhiteSpace = true) (haddress : host.isMailAddress email = true) :
    Unopposed (· = []) (validateAsync host user) := by
  refine unopposed_bind (R := (· = [])) ?_ fun errors herrors => unopposed_bind (R := (· = [])) ?_
    fun errors' herrors' => by rw [herrors, herrors']; rfl
  · unfold validateUserName
    rw [hname, Option.getD_some, if_neg hblank]
    intro owner howner
    rw [show owner = none from howner]
    rfl
  · unfold validateEmail
    rw [hemail, Option.getD_some, if_neg hblank, if_pos haddress]
    intro owner howner
    rw [show owner = none from howner]
    rfl

theorem noRaise_validateAsync (user : ApplicationUser) :
    (validateAsync host user).NoRaise := by
  refine Proc.noRaise_bind ?_ fun _ => Proc.noRaise_bind ?_ fun _ => trivial
  · unfold validateUserName
    dsimp only
    split
    · trivial
    · exact fun _ => trivial
  · unfold validateEmail
    dsimp only
    split
    · trivial
    · split
      · exact fun _ => trivial
      · trivial

theorem noRaise_unlessErrors {errors : List Utf16} {p : Handler IdentityResult}
    (hp : p.NoRaise) : (unlessErrors errors p).NoRaise := by
  unfold unlessErrors
  split
  · exact hp
  · trivial

theorem noRaise_createAsync (user : ApplicationUser) (password : Option Utf16) :
    (createAsync host user password).NoRaise :=
  noRaise_unlessErrors (Proc.noRaise_bind (noRaise_validateAsync user) fun _ =>
    noRaise_unlessErrors fun _ => trivial)

/-- The user a `Register` request makes. -/
def RegisterBindingModel.user (m : RegisterBindingModel) (id : Nat) : ApplicationUser :=
  ⟨id, m.email, m.email, m.firstName, m.lastName, m.birthday⟩

/-- What `register` does with the result of `createAsync`. -/
def afterCreate (id : Nat) : IdentityResult → Handler Answer
  | .failed errors => .ret (getErrorResult errors)
  | .success => savePatient ⟨id⟩ >>= fun _ => .ret .ok

/-- What is left of `register` when the body is in order. -/
theorem register_eq {m : RegisterBindingModel} {password : Utf16} (h : m.modelErrors = [])
    (hpassword : m.password = some password) : register host (some m)
      = newGuid >>= fun id => createAsync host (m.user id) (some password) >>= afterCreate id := by
  have hstate : modelState RegisterBindingModel.modelErrors (some m) = [] := h
  unfold register
  rw [hstate]
  refine congrArg (Proc.bind newGuid) (funext fun id => ?_)
  show (Proc.orRaise Exn.argument m.password >>= _) = _
  rw [hpassword]
  refine congrArg (Proc.bind (createAsync host (m.user id) (some password)))
    (funext fun result => ?_)
  cases result <;> rfl

theorem noRaise_register {m : RegisterBindingModel} (h : InOrder host m) :
    (register host (some m)).NoRaise := by
  obtain ⟨password, hpassword, -⟩ := h.password
  rw [register_eq h.checked hpassword]
  refine Proc.noRaise_bind (fun _ => trivial) fun id =>
    Proc.noRaise_bind (noRaise_createAsync _ _) fun result => ?_
  cases result with
  | failed errors => trivial
  | success => exact fun _ => trivial

/-- **A body in order** is only turned down for somebody who is found. -/
theorem unopposed_register {m : RegisterBindingModel} (h : InOrder host m) :
    Unopposed (· = Answer.ok) (register host (some m)) := by
  obtain ⟨password, hpassword, hvalid⟩ := h.password
  obtain ⟨email, hemail, haddress, -⟩ := h.email
  rw [register_eq h.checked hpassword]
  intro id _
  refine unopposed_bind (R := (· = IdentityResult.success)) ?_ fun result hresult => ?_
  · unfold createAsync unlessErrors
    rw [Option.elim_some, if_pos hvalid]
    refine unopposed_bind (unopposed_validateAsync hemail hemail
      (not_blank_of_checked h.checked hemail) haddress) fun errors herrors => ?_
    rw [if_pos herrors]
    exact fun _ _ => rfl
  · rw [hresult]
    exact fun _ _ => rfl

end Programs

/-- How a request in the race stands. -/
inductive Stands (taken : Prop) (es : List Entered) : Handler Answer → Prop where
  | beaten : taken → es.length ≤ 1 → Stands taken es (.raise .infrastructure)
  | going {p : Handler Answer} : p.NoRaise → taken ∨ Unopposed (· = Answer.ok) p →
      Stands taken es p

/-- A request in the race: it is in order, and none of its calls fail. -/
structure Racer (host : Host) (email : Utf16) (s : Store) (es : List Entered) (th : Signup) :
    Prop where
  undisturbed : th.own.faults = []
  inOrder : ∃ m, th.tag = .register (some m) ∧ InOrder host m
  stands : Stands (Taken host email s) es th.left

section Race

variable {host : Host} {email : Utf16} {s₀ : Store} {p : Signups} {h : List (Nat × Entered)}

theorem exec_noFaults {o : Op} {s : Store} {l : Session} (h : l.faults = []) :
    exec host o (s, l) = perform host o (s, l) := by
  unfold exec
  rw [h]

/-- A call that is not interrupted leaves no fault behind. -/
theorem perform_faults (host : Host) (o : Op) (s : Store) (l : Session) :
    (perform host o (s, l)).2.2.faults = l.faults := by
  cases o with
  | insertUser user passwordHash => rw [perform_insertUser]; split <;> rfl
  | updateUser userId passwordHash change => rw [perform_updateUser]; split <;> rfl
  | savePatient q => rw [perform_savePatient]; split <;> rfl
  | saveMeasurement q m => rw [perform_saveMeasurement]; split <;> rfl
  | _ => rfl

/-- What a call ends in that is not interrupted: the database has refused it. -/
theorem perform_error {o : Op} {w w' : World} {e : Exn} (h : perform host o w = (.error e, w')) :
    e = .infrastructure := by
  obtain ⟨s, l⟩ := w
  cases o with
  | insertUser user passwordHash =>
      rw [perform_insertUser] at h
      split at h
      · cases h
      · cases h; rfl
  | updateUser userId passwordHash change =>
      rw [perform_updateUser] at h
      split at h
      · cases h
      · cases h; rfl
  | savePatient q =>
      rw [perform_savePatient] at h
      split at h
      · cases h; rfl
      · cases h
  | saveMeasurement q m =>
      rw [perform_saveMeasurement] at h
      split at h
      · cases h
      · cases h; rfl
  | _ => cases h

/-- Who has an e-mail keeps it. -/
theorem taken_of_moves {s s' : Store} {e : Option Entered}
    (h : (signupMachine host).Moves id (fun _ => True) s e s') (ht : Taken host email s) :
    Taken host email s' := by
  obtain ⟨u, hu, hname⟩ := ht
  refine ⟨u, ?_, hname⟩
  have hs' : s' = (signupMachine host).after s e.toList := h.state
  rw [hs', (extended_after _ _).users]
  exact List.mem_append_left _ hu

/-- A user with an id that has been given out is made by the one it was given to. -/
theorem user_of_guid (hs : Sound host s₀) (hp : Entering host s₀ p h) {i : Nat}
    {u : ApplicationUser} (hi : .number u.id ∈ Pool.partOf i h) (hu : u ∈ p.shared.users) :
    .user u ∈ Pool.partOf i h := by
  rcases user_of_entering hp hu with hold | ⟨j, hj⟩
  · have hlt := hs.bound u hold
    have hle := (guid_of_part hp hi).1
    omega
  · rwa [request_unique hp hi hj rfl]

/-- So is a patient. -/
theorem patient_of_guid (hs : Sound host s₀) (hp : Entering host s₀ p h) {i : Nat} {q : Patient}
    (hi : .number q.userId ∈ Pool.partOf i h) (hq : q ∈ p.shared.patients) :
    .patient q ∈ Pool.partOf i h := by
  rw [(extended_of_entering hp).patients] at hq
  rcases List.mem_append.mp hq with hold | hnew
  · obtain ⟨u, hu, hid⟩ := hs.owned q hold
    have hlt := hs.bound u hu
    have hle := (guid_of_part hp hi).1
    omega
  · obtain ⟨e, he, hpatient⟩ := List.mem_filterMap.mp hnew
    obtain rfl := Entered.patient?_eq_some.mp hpatient
    obtain ⟨j, hj⟩ := part_of_entered he
    rwa [request_unique hp hi hj rfl]

/-- While nobody has the e-mail, nobody is found. -/
theorem free_of_not_taken {r : Request} {es : List Entered} {o : Op} {x : o.Res} {s s' : Store}
    {l l' : Session} (hs : Sound host s) (hasks : AsksFor r es o)
    (hemail : host.equals r.email email = true) (hfree : ¬ Taken host email s)
    (hx : perform host o (s, l) = (.ok x, (s', l'))) : Free o x := by
  have hsame : ∀ {text : Utf16}, r.email = some text → host.upper text = host.upper email := by
    intro text htext
    rw [htext, Host.equals, decide_eq_true_eq, Option.map_some] at hemail
    exact Option.some.inj hemail
  cases hasks with
  | @findByName _ userName hname =>
      have hfind : s.users.find? (fun u => host.equals u.userName userName) = x :=
        Except.ok.inj (congrArg Prod.fst hx)
      refine hfind.symm.trans (List.find?_eq_none.mpr fun u hu howns => ?_)
      rw [Host.equals, hsame hname] at howns
      exact hfree ⟨u, hu, howns⟩
  | @findByEmail _ text htext =>
      -- an e-mail is its owner's name
      have hfind : s.users.find? (fun u => host.equals u.email text) = x :=
        Except.ok.inj (congrArg Prod.fst hx)
      refine hfind.symm.trans (List.find?_eq_none.mpr fun u hu howns => ?_)
      rw [← hs.named u hu, Host.equals, hsame htext] at howns
      exact hfree ⟨u, hu, howns⟩
  | newGuid => trivial
  | insertUser hmakes => trivial
  | savePatient hmakes hr => trivial
  | findById => trivial
  | findLogin => trivial
  | updateUser hmakes hr => trivial

/-- **A call that fails** is the insert of a user whose name is taken. -/
theorem taken_of_error (hs : Sound host s₀) (hp : Entering host s₀ p h) {i : Nat}
    {m : RegisterBindingModel} {o : Op} {e : Exn} {l : Session} {w : World}
    (hasks : AsksFor (.register (some m)) (Pool.partOf i h) o) (horder : InOrder host m)
    (hemail : host.equals m.email email = true)
    (hx : perform host o (p.shared, l) = (.error e, w)) :
    Taken host email p.shared ∧ (Pool.partOf i h).length ≤ 1 := by
  obtain ⟨text, htext, -, hlength⟩ := horder.email
  generalize hes : Pool.partOf i h = es at hasks
  cases hasks with
  | newGuid => cases hx
  | findByName hname => cases hx
  | findByEmail htext => cases hx
  | findById => cases hx
  | findLogin => cases hx
  | @updateUser user model login hmakes hr => cases hr
  | @insertUser user passwordHash hmakes =>
      refine ⟨?_, Nat.le_refl 1⟩
      have hname : user.userName = some text := hmakes.userName.trans htext
      have hmail : user.email = some text := hmakes.email.trans htext
      by_contra hfree
      have htakes : p.shared.takes host user = true := by
        refine takes_iff.mpr ⟨?_, fun u hu => ⟨fun hid => ?_, fun hsame => ?_⟩⟩
        · simp [ApplicationUser.fits, hname, hmail, hlength]
        · -- only this request has the id, and it has no user yet
          have hmem := user_of_guid (i := i) hs hp (u := u)
            (by rw [hes, hid]; exact List.mem_cons_self) hu
          rw [hes] at hmem
          cases List.mem_singleton.mp hmem
        · refine hfree ⟨u, hu, ?_⟩
          rw [Host.equals, hsame, hmakes.userName]
          exact hemail
      rw [perform_insertUser, if_pos htakes] at hx
      cases hx
  | @savePatient user hmakes hr =>
      -- only this request has the id, and it has no patient yet
      have hfree : (⟨user.id⟩ : Patient) ∉ p.shared.patients := by
        intro hmem
        have hpart := patient_of_guid (i := i) hs hp (q := ⟨user.id⟩)
          (by rw [hes]; exact List.mem_cons_self) hmem
        rw [hes] at hpart
        simp at hpart
      rw [perform_savePatient, if_neg hfree] at hx
      cases hx

/-- **A turn of a request in the race.** -/
theorem racer_advance (hs : Sound host s₀) (hp : Entering host s₀ p h) {i : Nat} {th : Signup}
    (hi : p.threads[i]? = some th) (hemail : host.equals th.tag.email email = true)
    (hracer : Racer host email p.shared (Pool.partOf i h) th) :
    Racer host email (Pool.advance (exec host) p.shared th).1
      (Pool.partOf i h ++ (Pool.did signupPlan.act (exec host) p.shared th).toList)
      (Pool.advance (exec host) p.shared th).2 := by
  obtain ⟨hfaults, ⟨m, htag, horder⟩, hstands⟩ := hracer
  obtain ⟨tag, left, own⟩ := th
  obtain rfl : tag = .register (some m) := htag
  have hown : own.faults = [] := hfaults
  cases left with
  | ret a =>
      refine ⟨hown, ⟨m, rfl, horder⟩, ?_⟩
      show Stands _ (Pool.partOf i h ++ []) (.ret a)
      rwa [List.append_nil]
  | raise e =>
      refine ⟨hown, ⟨m, rfl, horder⟩, ?_⟩
      show Stands _ (Pool.partOf i h ++ []) (.raise e)
      rwa [List.append_nil]
  | call o k =>
      have hasks : AsksFor (.register (some m)) (Pool.partOf i h) o := (hp.fits i _ hi).2.1
      have hgoing : (∀ x, (k x).NoRaise)
          ∧ (Taken host email p.shared ∨ Unopposed (· = Answer.ok) (.call o k)) := by
        cases hstands with
        | going hraise hopen => exact ⟨hraise, hopen⟩
      obtain ⟨hraise, hopen⟩ := hgoing
      have hkeeps : (perform host o (p.shared, own)).2.2.faults = [] :=
        (perform_faults host o p.shared own).trans hown
      have hx : exec host o (p.shared, own) = perform host o (p.shared, own) :=
        exec_noFaults hown
      have hmoves := answers_signup hp hasks own
      rw [hx] at hmoves
      rcases hq : perform host o (p.shared, own) with ⟨e | x, s', l'⟩
      · -- the insert has run into the index
        rw [hq] at hx hkeeps hmoves
        obtain ⟨htaken, hlength⟩ := taken_of_error hs hp hasks horder hemail hq
        obtain rfl := perform_error hq
        rw [Pool.advance_error hx, Pool.did_error hx, Option.toList_none, List.append_nil]
        exact ⟨hkeeps, ⟨m, rfl, horder⟩, .beaten (taken_of_moves hmoves htaken) hlength⟩
      · -- what is found now is what the rest of the program goes by
        rw [hq] at hx hkeeps hmoves
        rw [Pool.advance_ok hx]
        refine ⟨hkeeps, ⟨m, rfl, horder⟩, .going (hraise x) ?_⟩
        by_cases htaken : Taken host email p.shared
        · exact Or.inl (taken_of_moves hmoves htaken)
        · rcases hopen with hopen | hopen
          · exact absurd hopen htaken
          · exact Or.inr (hopen x
              (free_of_not_taken (sound_of_entering hs hp) hasks hemail htaken hq))

/-- What holds along the race for an e-mail. -/
structure Race (host : Host) (email : Utf16) (s₀ : Store) (p : Signups)
    (h : List (Nat × Entered)) : Prop where
  entering : Entering host s₀ p h
  racers : ∀ i th, p.threads[i]? = some th → host.equals th.tag.email email = true →
    Racer host email p.shared (Pool.partOf i h) th

theorem race_step (hs : Sound host s₀) (hrace : Race host email s₀ p h) {i : Nat} {th : Signup}
    (hi : p.threads[i]? = some th) : Race host email s₀ (p.step (exec host) i)
      (h ++ Pool.entry i (Pool.did signupPlan.act (exec host) p.shared th)) := by
  obtain ⟨hp, hracers⟩ := hrace
  have hcall : ∀ {p : Signups} {h i tag o k own}, Entering host s₀ p h →
      p.threads[i]? = some ⟨tag, .call o k, own⟩ → AsksFor tag (Pool.partOf i h) o →
      (signupMachine host).Answers id (fun _ => True) (signupPlan.act o) p.shared
        (exec host o (p.shared, own)) := fun hp _ hasks => answers_signup hp hasks _
  refine ⟨Pool.traced_step hcall hi hp, fun j th' hj hemail => ?_⟩
  rw [Pool.partOf_append, Pool.step_shared hi]
  by_cases hij : i = j
  · -- its own turn
    subst hij
    rw [Pool.step_self hi] at hj
    rw [Pool.partOf_entry_self, ← Option.some.inj hj]
    rw [← Option.some.inj hj, Pool.advance_tag] at hemail
    exact racer_advance hs hp hi hemail (hracers i th hi hemail)
  · -- somebody else's, who can only have taken the e-mail
    rw [Pool.step_other hij] at hj
    rw [Pool.partOf_entry_other (Ne.symm hij), List.append_nil]
    obtain ⟨hfaults, horder, hstands⟩ := hracers j th' hj hemail
    have hmoves := Pool.moves_of_traced hcall hi hp
    refine ⟨hfaults, horder, ?_⟩
    generalize th'.left = left at hstands
    cases hstands with
    | beaten htaken hlength => exact .beaten (taken_of_moves hmoves htaken) hlength
    | going hraise hopen => exact .going hraise (hopen.imp_left (taken_of_moves hmoves))

theorem race_init {rs : List (Request × List Bool)}
    (hrs : ∀ r ∈ rs, host.equals r.1.email email = true → r.2 = [] ∧ ∃ m,
      r.1 = .register (some m) ∧ InOrder host m) :
    Race host email s₀ (Signups.start host s₀ rs) [] := by
  refine ⟨traced_init_signups s₀ rs, fun i th hi hemail => ?_⟩
  obtain ⟨r, hr, rfl⟩ := List.mem_map.mp (List.mem_of_getElem? hi)
  obtain ⟨hfaults, m, hreg, horder⟩ := hrs r hr hemail
  refine ⟨hfaults, ⟨m, hreg, horder⟩, ?_⟩
  show Stands _ _ (r.1.handler host)
  rw [hreg]
  exact .going (noRaise_register horder) (Or.inr (unopposed_register horder))

theorem race_run (hs : Sound host s₀) {rs : List (Request × List Bool)}
    (hrs : ∀ r ∈ rs, host.equals r.1.email email = true → r.2 = [] ∧ ∃ m,
      r.1 = .register (some m) ∧ InOrder host m) (sched : List Nat) :
    Race host email s₀ ((Signups.start host s₀ rs).run (exec host) sched)
      (Pool.history signupPlan.act (exec host) (Signups.start host s₀ rs) sched) := by
  have hrun := Pool.history_induction signupPlan.act (exec host)
    (I := fun p h => Race host email s₀ p h)
    (fun _ _ _ _ hi hrace => race_step hs hrace hi) sched (race_init hrs)
  rwa [List.nil_append] at hrun

/-- The request has nothing left to do. -/
def Ended (th : Signup) : Prop := (∃ a, th.left = .ret a) ∨ ∃ e, th.left = .raise e

/-- Whoever has made a user has answered `Ok`, once he has ended. -/
theorem ok_of_user (hrace : Race host email s₀ p h) {i : Nat} {th : Signup}
    {u : ApplicationUser} (hi : p.threads[i]? = some th)
    (hemail : host.equals th.tag.email email = true) (hended : Ended th)
    (hu : .user u ∈ Pool.partOf i h) : th.left = .ret .ok := by
  obtain ⟨-, ⟨m, htag, -⟩, hstands⟩ := hrace.racers i th hi hemail
  have hlong : ¬ (Pool.partOf i h).length ≤ 1 := by
    have hmade := made_of_entering hrace.entering hi
    generalize Pool.partOf i h = es at hmade hu
    cases hmade with
    | nothing => cases hu
    | number id => cases List.mem_singleton.mp hu
    | user _ => simp
    | patient _ _ => simp
    | login _ _ => simp
  rcases hended with ⟨a, ha⟩ | ⟨e, he⟩
  · obtain ⟨-, -, hrefused⟩ := Pool.ends_of_traced hrace.entering hi ha
    by_contra hok
    rw [ha] at hok
    have hexternal : th.tag.isExternal = false := by rw [htag]; rfl
    exact hlong (hrefused (fun heq => hok (by rw [heq])) hexternal).1
  · rw [he] at hstands
    cases hstands with
    | beaten _ hlength => exact absurd hlength hlong
    | going hraise _ => exact hraise.elim

/-- Who has ended without an `Ok` has lost to somebody. -/
theorem taken_of_lost (hrace : Race host email s₀ p h) {i : Nat} {th : Signup}
    (hi : p.threads[i]? = some th) (hemail : host.equals th.tag.email email = true)
    (hended : Ended th) (hok : th.left ≠ .ret .ok) : Taken host email p.shared := by
  have hstands := (hrace.racers i th hi hemail).stands
  rcases hended with ⟨a, ha⟩ | ⟨e, he⟩
  · rw [ha] at hstands hok
    cases hstands with
    | going _ hopen =>
        rcases hopen with htaken | hopen
        · exact htaken
        · exact absurd (congrArg Proc.ret hopen) hok
  · rw [he] at hstands
    cases hstands with
    | beaten htaken _ => exact htaken
    | going hraise _ => exact hraise.elim

/-- The one who has the e-mail in the end is in the race. -/
theorem winner_of_taken (hrace : Race host email s₀ p h)
    (hfree : ∀ u ∈ s₀.users, host.equals u.userName email = false)
    (hended : ∀ th ∈ p.threads, host.equals th.tag.email email = true → Ended th)
    (htaken : Taken host email p.shared) : ∃ (i : Nat) (th : Signup),
      p.threads[i]? = some th ∧ host.equals th.tag.email email = true ∧ th.left = .ret .ok := by
  obtain ⟨u, hu, hname⟩ := htaken
  rcases user_of_entering hrace.entering hu with hold | ⟨j, hpart⟩
  · -- nobody had it at the start
    rw [hfree u hold] at hname
    cases hname
  · have hj := List.getElem?_eq_getElem (hrace.entering.bounded j _ hpart)
    have hmakes := makes_of_made (made_of_entering hrace.entering hj) hpart
    have hemail := hname
    rw [hmakes.userName] at hemail
    exact ⟨j, _, hj, hemail, ok_of_user hrace hj hemail
      (hended _ (List.mem_of_getElem? hj) hemail) hpart⟩

/-- Nobody else can have the e-mail too. -/
theorem lost_of_winner (hs : Sound host s₀) (hrace : Race host email s₀ p h) {i j : Nat}
    {th th' : Signup} (hij : j ≠ i) (hi : p.threads[i]? = some th)
    (hj : p.threads[j]? = some th') (hemail : host.equals th.tag.email email = true)
    (hemail' : host.equals th'.tag.email email = true) (hok : th.left = .ret .ok)
    (hended : Ended th') :
    (∃ errors, th'.left = .ret (.badRequest errors)) ∨ th'.left = .raise .infrastructure := by
  have hsame : th.tag.email.map host.upper = th'.tag.email.map host.upper :=
    (of_decide_eq_true hemail).trans (of_decide_eq_true hemail').symm
  rcases hended with ⟨a, ha⟩ | ⟨e, he⟩
  · by_cases hok' : a = .ok
    · rw [hok'] at ha
      exact absurd hsame (email_ne_of_ok hs hrace.entering (Ne.symm hij) hi hj hok ha)
    · -- `Register` is turned down with errors only
      obtain ⟨-, -, hrefused⟩ := Pool.ends_of_traced hrace.entering hj ha
      obtain ⟨-, ⟨m, htag, -⟩, -⟩ := hrace.racers j th' hj hemail'
      have hexternal : th'.tag.isExternal = false := by rw [htag]; rfl
      obtain ⟨-, errors, rfl⟩ := hrefused hok' hexternal
      exact Or.inl ⟨errors, ha⟩
  · have hstands := (hrace.racers j th' hj hemail').stands
    rw [he] at hstands
    cases hstands with
    | beaten _ _ => exact Or.inr he
    | going hraise _ => exact hraise.elim

end Race

/-- **Of the requests that race for a free e-mail exactly one succeeds.** Let nobody have
the e-mail, let the bodies for it be in order and none of their calls fail, and let them
all have ended, among any other requests. Then one of them has answered `Ok`, and each of
the others has been turned down or has ended in an exception of the database. -/
theorem signups_race (host : Host) (s₀ : Store) (hs : Sound host s₀) (email : Utf16)
    (hfree : ∀ u ∈ s₀.users, host.equals u.userName email = false)
    (rs : List (Request × List Bool))
    (hrs : ∀ r ∈ rs, host.equals r.1.email email = true → r.2 = [] ∧ ∃ m,
      r.1 = .register (some m) ∧ InOrder host m)
    (hsome : ∃ r ∈ rs, host.equals r.1.email email = true) (sched : List Nat)
    (hended : ∀ th ∈ ((Signups.start host s₀ rs).run (exec host) sched).threads,
      host.equals th.tag.email email = true → Ended th) :
    ∃ (i : Nat) (th : Signup),
      ((Signups.start host s₀ rs).run (exec host) sched).threads[i]? = some th
      ∧ host.equals th.tag.email email = true ∧ th.left = .ret .ok
      ∧ ∀ (j : Nat) (th' : Signup), j ≠ i →
          ((Signups.start host s₀ rs).run (exec host) sched).threads[j]? = some th' →
          host.equals th'.tag.email email = true →
            (∃ errors, th'.left = .ret (.badRequest errors))
            ∨ th'.left = .raise .infrastructure := by
  have hrace := race_run hs hrs sched
  have hwinner : ∃ (i : Nat) (th : Signup),
      ((Signups.start host s₀ rs).run (exec host) sched).threads[i]? = some th
      ∧ host.equals th.tag.email email = true ∧ th.left = .ret .ok := by
    obtain ⟨r, hr, hemail⟩ := hsome
    have htag : r.1 ∈ ((Signups.start host s₀ rs).run (exec host) sched).threads.map
        Thread.tag := by
      rw [Pool.run_tags]
      exact List.mem_map_of_mem (List.mem_map_of_mem hr)
    obtain ⟨th, hth, htag⟩ := List.mem_map.mp htag
    obtain ⟨i, hi⟩ := List.mem_iff_getElem?.mp hth
    rw [← htag] at hemail
    by_cases hok : th.left = .ret .ok
    · exact ⟨i, th, hi, hemail, hok⟩
    · exact winner_of_taken hrace hfree hended
        (taken_of_lost hrace hi hemail (hended th hth hemail) hok)
  obtain ⟨i, th, hi, hemail, hok⟩ := hwinner
  refine ⟨i, th, hi, hemail, hok, fun j th' hij hj hemail' => ?_⟩
  exact lost_of_winner hs hrace hij hi hj hemail hemail' hok
    (hended th' (List.mem_of_getElem? hj) hemail')

/-- The slower request of Ann's runs into the index. -/
theorem signups_race_ann : ∃ (i : Nat) (th : Signup),
    ((Signups.start plainHost Store.empty annTwice).run (exec plainHost) annTwiceTurns).threads[i]?
      = some th ∧ th.left = .ret .ok := by
  have horder : InOrder plainHost registerAnn :=
    ⟨by rfl, ⟨_, rfl, by rfl⟩, ⟨_, rfl, by rfl, by decide⟩⟩
  have hthreads : ((Signups.start plainHost Store.empty annTwice).run (exec plainHost)
      annTwiceTurns).threads
      = [⟨.register (some registerAnn), .raise .infrastructure, ⟨[], []⟩⟩,
        ⟨.register (some registerAnn), .ret .ok, ⟨[], []⟩⟩] := by rfl
  obtain ⟨i, th, hth, -, hok, -⟩ := signups_race plainHost Store.empty (sound_init _)
    (utf16 "ann@jhu.edu") (fun u hu => by cases hu) annTwice
    (fun r hr _ => by
      have hrann : r = (.register (some registerAnn), []) := by simpa [annTwice] using hr
      rw [hrann]
      exact ⟨rfl, registerAnn, rfl, horder⟩)
    ⟨_, List.mem_cons_self, by rfl⟩ annTwiceTurns
    (fun th hth _ => by
      rw [hthreads] at hth
      rcases List.mem_cons.mp hth with rfl | hth
      · exact Or.inr ⟨_, rfl⟩
      · rw [List.mem_singleton.mp hth]
        exact Or.inl ⟨_, rfl⟩)
  exact ⟨i, th, hth, hok⟩

end TacPac.Web
