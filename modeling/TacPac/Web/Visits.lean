import Mathlib.Logic.Equiv.List
import Mathlib.Tactic.DeriveEncodable
import TacPac.Web.Endpoints

/-!
# Who gets in

Requests of anybody to any of the endpoints, overlapping in any way, with any of their calls
failing. What they do to the accounts are acts of the registry, in one order, each of which
could be done when it was; an answer says what its request has done and found out
(`access_run`). So an account is entered by those who have its password or a login of it, and
what these are is up to its own requests (`untouched_run`).
-/

namespace TacPac.Web

open TacPac.Lib

/-- Requests that are under way. -/
abbrev Visits : Type := Pool ManagerOp ManagerOp.Res Exn Response Endpoint Accounts Session

/-- One of them. -/
abbrev Visit : Type := Thread ManagerOp ManagerOp.Res Exn Response Endpoint Session

/-- A request that has just arrived, and which of its calls will fail. -/
def visit (w : WebApp) (r : Endpoint × List Bool) : Visit :=
  ⟨r.1, r.1.program w, Session.start r.2⟩

/-- Requests that arrive at once. -/
def Visits.start (w : WebApp) (a : Accounts) (rs : List (Endpoint × List Bool)) : Visits :=
  ⟨a, rs.map (visit w)⟩

/-- The accounts after a run of requests. -/
def Visits.after (w : WebApp) (a : Accounts) (rs : List (Endpoint × List Bool))
    (sched : List Nat) : Visits := (Visits.start w a rs).run (manageExec w.manager) sched

/-- What the requests of a run do to the accounts. -/
def acts (w : WebApp) (a : Accounts) (rs : List (Endpoint × List Bool)) (sched : List Nat) :
    List (Nat × Act) :=
  Pool.history (act w.manager) (manageExec w.manager) (Visits.start w a rs) sched

/-- The accounts, when the first `n` things have been done. -/
def directoryAt (w : WebApp) (a : Accounts) (rs : List (Endpoint × List Bool))
    (sched : List Nat) (n : Nat) : Directory :=
  Registry.machine.after (a.directory w.manager) (((acts w a rs sched).map Prod.snd).take n)

/-! ## Runs -/

/-- What the requests have done to the registry is what has become of the accounts. -/
abbrev Serving (w : WebApp) (a : Accounts) (p : Visits) (h : List (Nat × Act)) : Prop :=
  Pool.Traced Registry.machine (Accounts.directory w.manager) (Accounts.Intact w.manager)
    (plan w) a p h

section Serving

variable {w : WebApp} {a : Accounts} {p : Visits} {h : List (Nat × Act)}

theorem serving_init (ha : a.Intact w.manager) (rs : List (Endpoint × List Bool)) :
    Serving w a (Visits.start w a rs) [] := by
  refine Pool.traced_init (p := Visits.start w a rs) ha fun th hth => ?_
  obtain ⟨r, -, rfl⟩ := List.mem_map.mp hth
  exact follows_program r.1

theorem sound_of_serving (hsound : (a.directory w.manager).Sound) (hp : Serving w a p h) :
    (p.shared.directory w.manager).Sound := by
  rw [hp.state]
  exact Registry.sound_after hp.legal hsound

/-- **One call.** -/
theorem answers_visit (hsound : (a.directory w.manager).Sound) (hp : Serving w a p h) {i : Nat}
    {o : ManagerOp} (hasks : Asks (Pool.partOf i h) o) (l : Session) :
    Answers w.manager o p.shared (manageExec w.manager o (p.shared, l)) := by
  refine answers_manageExec hp.keeps (sound_of_serving hsound hp) fun user hash ho => ?_
  have hmem : .number user.id ∈ h.map Prod.snd :=
    List.mem_map_of_mem (Pool.mem_partOf.mp (hasks user hash ho))
  have hlt := (Registry.number_lt hp.legal hmem).2
  rw [← hp.state] at hlt
  exact hlt

/-- **What holds all along** holds at the end. -/
theorem serving_run (ha : a.Intact w.manager) (hsound : (a.directory w.manager).Sound)
    (rs : List (Endpoint × List Bool)) (sched : List Nat) :
    Serving w a (Visits.after w a rs sched) (acts w a rs sched) :=
  Pool.traced_run (fun hp _ hasks => answers_visit hsound hp hasks _) (serving_init ha rs) sched

end Serving

/-- What a run of requests has come to. -/
structure Accessed (w : WebApp) (a : Accounts) (rs : List (Endpoint × List Bool))
    (sched : List Nat) : Prop where
  /-- What the requests do can be done, one after another, -/
  legal : Registry.machine.Legal (a.directory w.manager) ((acts w a rs sched).map Prod.snd)
  /-- and makes the accounts what they are. -/
  directory : (Visits.after w a rs sched).shared.directory w.manager
    = Registry.machine.after (a.directory w.manager) ((acts w a rs sched).map Prod.snd)
  intact : (Visits.after w a rs sched).shared.Intact w.manager
  /-- No two accounts get a name in common. -/
  apart : ((Visits.after w a rs sched).shared.directory w.manager).Sound
  /-- A request that has answered has done what its answer says, -/
  answered : ∀ (i : Nat) (th : Visit) x, (Visits.after w a rs sched).threads[i]? = some th →
    th.left = .ret x → Done w th.tag (Pool.partOf i (acts w a rs sched)) x
  /-- and any other may at most have made an account. -/
  broken : ∀ (i : Nat) (th : Visit), (Visits.after w a rs sched).threads[i]? = some th →
    (∀ x, th.left ≠ .ret x) → Breaks w th.tag (Pool.partOf i (acts w a rs sched))

theorem accessed {w : WebApp} {a : Accounts} (ha : a.Intact w.manager)
    (hsound : (a.directory w.manager).Sound) (rs : List (Endpoint × List Bool))
    (sched : List Nat) : Accessed w a rs sched := by
  have hrun := serving_run ha hsound rs sched
  exact ⟨hrun.legal, hrun.state, hrun.keeps, sound_of_serving hsound hrun,
    fun _ _ _ hi hleft => Pool.ends_of_traced hrun hi hleft,
    fun _ _ hi hleft => Pool.breaks_of_traced hrun hi hleft⟩

instance encodableUInt16 : Encodable UInt16 :=
  Encodable.ofLeftInjection UInt16.toNat (fun n => some (UInt16.ofNat n)) fun c => by simp

deriving instance Encodable for ClaimType
deriving instance Encodable for Claim
deriving instance Encodable for ClaimsIdentity
deriving instance Encodable for AuthenticationTicket

/-- Who Ann is to a provider. -/
def annGoogle : ExternalLoginData := ⟨utf16 "Google", utf16 "17", some (utf16 "Ann")⟩

/-- What the token that she comes back with holds. -/
def annTicket : AuthenticationTicket := ⟨some ⟨bearer, annGoogle.getClaims⟩, some 14, []⟩

/-- Hers has a short name, and any other is a number. -/
def plainFormat : SecureDataFormat where
  protect ticket :=
    if ticket = annTicket then utf16 "ann" else List.replicate (Encodable.encode ticket) 0
  unprotect text := if text = utf16 "ann" then some annTicket else Encodable.decode text.length
  unprotect_protect ticket := by
    by_cases h : ticket = annTicket
    · rw [if_pos h, if_pos rfl, h]
    · have hother : List.replicate (Encodable.encode ticket) 0 ≠ utf16 "ann" := by
        intro heq
        have hmem : (97 : UInt16) ∈ List.replicate (Encodable.encode ticket) 0 := by
          rw [heq]
          exact List.mem_cons_self
        exact absurd (List.eq_of_mem_replicate hmem) (by decide)
      rw [if_neg h, if_neg hother, List.length_replicate, Encodable.encodek]

/-- What the library code would do for the plain host. -/
def plainManager : ApplicationUserManager where
  toHost := plainHost
  userIdText id := List.replicate id 48
  createIdentityAsync user type :=
    ⟨type, [⟨.nameIdentifier, List.replicate user.id 48, defaultIssuer⟩,
      ⟨.name, user.userName.getD [], defaultIssuer⟩]⟩

/-- An application that can make an `AccountController`. -/
def plainApp : WebApp where
  manager := plainManager
  site := ⟨utf16 "self", [], fun _ => [], fun _ => none, utf16 "/", fun text => text⟩
  accessTokenFormat := plainFormat
  resolves := true

theorem plainManager_identifies : plainManager.Identifies := by
  refine ⟨fun _ _ => rfl, fun _ _ => rfl, fun user type c hc => ?_, fun id id' h => ?_⟩
  · rcases List.mem_cons.mp hc with rfl | hc
    · rfl
    · rw [List.mem_singleton.mp hc]
  · have hlength := congrArg List.length h
    simpa [plainManager] using hlength

/-- The accounts of a new installation. -/
def Accounts.empty : Accounts := ⟨Store.empty, fun _ => none⟩

theorem intact_empty (m : ApplicationUserManager) : Accounts.empty.Intact m :=
  ⟨List.nodup_nil, List.nodup_nil, by simp [Accounts.empty, Store.empty],
    by simp [Accounts.empty]⟩

theorem sound_empty (m : ApplicationUserManager) : (Accounts.empty.directory m).Sound := by
  have hnone : ∀ id, (Accounts.empty.directory m).holder id = none := fun _ => rfl
  refine ⟨fun id h hh => ?_, fun id id' h h' hh => ?_⟩
  · rw [hnone] at hh
    cases hh
  · rw [hnone] at hh
    cases hh

/-- Ann signs up, signs in with the password she has chosen, and chooses another one before
she signs in with the first one again. -/
def annVisits : List (Endpoint × List Bool) :=
  [(.signup (.register (some registerAnn)), []),
    (.token (utf16 "Ann@jhu.edu") (utf16 "Secret1!"), []),
    (.changePassword 0 (some ⟨some (utf16 "Secret1!"), some (utf16 "Secret2!"),
      some (utf16 "Secret2!")⟩), []),
    (.token (utf16 "Ann@jhu.edu") (utf16 "Secret1!"), [])]

/-- She signs in before her patient row is saved, and with the first password again when the
second has been. -/
def annVisitsTurns : List Nat := [0, 0, 0, 0, 1, 2, 2, 2, 2, 2, 3, 0]

example : acts plainApp Accounts.empty annVisits annVisitsTurns
    = [(0, .number 0),
      (0, .create 0 (some (utf16 "ANN@JHU.EDU")) (some (utf16 "Secret1!"))),
      (1, .enter (some (utf16 "ANN@JHU.EDU")) (utf16 "Secret1!") (some 0)),
      (2, .load 0 (some (utf16 "Secret1!"))),
      (2, .save 0 (some (utf16 "Secret2!")) .keep),
      (3, .enter (some (utf16 "ANN@JHU.EDU")) (utf16 "Secret1!") none)] := by rfl

/-! ## An account that nobody is served as -/

/-- It opens an account with these keys. -/
def Endpoint.Opens (m : ApplicationUserManager) (h : Holder (Option Utf16) Utf16 UserLoginInfo) :
    Endpoint → Prop
  | .token userName password =>
      h.name = some (m.upper userName) ∧ h.password = some password
  | .externalLogin provider none identity =>
      ∃ data, ExternalLoginData.fromIdentity (some identity) = some data
        ∧ provider = some data.loginProvider ∧ m.loginKey data.login ∈ h.logins
  | _ => False

/-- Whoever gets this answer is served as that account from now on. -/
def Response.Enters (m : ApplicationUserManager) (x : Response) (id : Nat) : Prop :=
  ∃ identity, x.identity = some identity ∧ identity.findFirst .nameIdentifier
    = some ⟨.nameIdentifier, m.userIdText id, defaultIssuer⟩

/-- Nobody who has a turn is served as the account. -/
def Unserved (rs : List (Endpoint × List Bool)) (sched : List Nat) (id : Nat) : Prop :=
  ∀ i ∈ sched, ∀ r, rs[i]? = some r → r.1.me ≠ some id

section Untouched

variable {w : WebApp} {a : Accounts} {rs : List (Endpoint × List Bool)} {sched : List Nat}

/-- Whose account a request may change: its own, or the one it makes. -/
theorem subject_of_breaks {r : Endpoint} {es : List Act} (hr : Breaks w r es) {e : Act}
    (he : e ∈ es) {id : Nat} (hid : e.subject = some id) : .number id ∈ es := by
  have hlooked : ∀ {es : List Act}, Looks es → e ∉ es := by
    intro es hlooks he
    rw [Registry.subject_of_looks (hlooks e he)] at hid
    cases hid
  cases hr with
  | looked hlooks => exact absurd he (hlooked hlooks)
  | numbered r id' =>
      cases List.mem_singleton.mp he
      cases hid
  | made r id' hlooks =>
      rcases List.mem_cons.mp he with rfl | he
      · cases hid
      · rcases List.mem_cons.mp he with rfl | he
        · cases hid
          exact List.mem_cons_self
        · exact absurd he (hlooked hlooks)

theorem subject_of_done {r : Endpoint} {es : List Act} {x : Response} (hr : Done w r es x)
    {e : Act} (he : e ∈ es) {id : Nat} (hid : e.subject = some id) :
    r.me = some id ∨ .number id ∈ es := by
  cases hr with
  | answered hquery hlooks =>
      rw [Registry.subject_of_looks (hlooks e he)] at hid
      cases hid
  | refused hbreaks => exact Or.inr (subject_of_breaks hbreaks he hid)
  | registered model id' =>
      simp only [List.mem_cons, List.not_mem_nil, or_false] at he
      rcases he with rfl | rfl
      · cases hid
      · cases hid
        exact Or.inr List.mem_cons_self
  | registeredExternal model login id' =>
      simp only [List.mem_cons, List.not_mem_nil, or_false] at he
      rcases he with rfl | rfl | rfl | rfl
      · cases hid
      · cases hid
        exact Or.inr List.mem_cons_self
      · cases hid
      · cases hid
        exact Or.inr List.mem_cons_self
  | granted => cases List.mem_singleton.mp he; cases hid
  | denied => cases List.mem_singleton.mp he; cases hid
  | signedIn => cases List.mem_singleton.mp he; cases hid
  | notRegistered => cases List.mem_singleton.mp he; cases hid
  | linked =>
      simp only [List.mem_cons, List.not_mem_nil, or_false] at he
      rcases he with rfl | rfl | rfl
      · cases hid
      · cases hid
      · exact Or.inl hid
  | _ =>
      simp only [List.mem_cons, List.not_mem_nil, or_false] at he
      rcases he with rfl | rfl
      · cases hid
      · exact Or.inl hid

theorem tag_of_visit {i : Nat} {th : Visit}
    (hi : (Visits.after w a rs sched).threads[i]? = some th) :
    ∃ r, rs[i]? = some r ∧ r.1 = th.tag := by
  have htags : (Visits.after w a rs sched).threads.map Thread.tag = rs.map Prod.fst := by
    have h := Pool.run_tags (manageExec w.manager) sched (Visits.start w a rs)
    refine h.trans ?_
    show (rs.map (visit w)).map Thread.tag = _
    rw [List.map_map]
    rfl
  have htag := congrArg (fun tags => tags[i]?) htags
  simp only [List.getElem?_map, hi, Option.map_some] at htag
  exact Option.map_eq_some_iff.mp htag.symm

/-- Whoever has done something has answered, or has been cut off. -/
theorem part_cases (hrun : Accessed w a rs sched) {i : Nat} {e : Act}
    (he : (i, e) ∈ acts w a rs sched) : ∃ r, rs[i]? = some r ∧
      ((∃ x, Done w r.1 (Pool.partOf i (acts w a rs sched)) x)
      ∨ Breaks w r.1 (Pool.partOf i (acts w a rs sched))) := by
  have hlt : i < (Visits.after w a rs sched).threads.length := by
    have hlength := congrArg List.length
      (Pool.run_tags (manageExec w.manager) sched (Visits.start w a rs))
    rw [List.length_map, List.length_map] at hlength
    have h := Pool.lt_of_history sched he
    rwa [← hlength] at h
  have hi := List.getElem?_eq_getElem hlt
  obtain ⟨r, hr, htag⟩ := tag_of_visit hi
  refine ⟨r, hr, ?_⟩
  rw [htag]
  by_cases hleft : ∃ x, ((Visits.after w a rs sched).threads[i]).left = .ret x
  · obtain ⟨x, hleft⟩ := hleft
    exact Or.inl ⟨x, hrun.answered i _ x hi hleft⟩
  · exact Or.inr (hrun.broken i _ hi fun x hx => hleft ⟨x, hx⟩)

/-- Nothing is done to an account by those who are not served as it. -/
theorem subject_ne (hrun : Accessed w a rs sched) {id : Nat} (hid : id < a.store.nextGuid)
    (hrs : Unserved rs sched id) {i : Nat} {e : Act} (he : (i, e) ∈ acts w a rs sched) :
    e.subject ≠ some id := by
  intro hsubject
  have hpart := Pool.mem_partOf.mpr he
  have hnumber : (i, .number id) ∈ acts w a rs sched := by
    refine Pool.mem_partOf.mp ?_
    obtain ⟨r, hr, ⟨x, hdone⟩ | hbreaks⟩ := part_cases hrun he
    · rcases subject_of_done hdone hpart hsubject with hme | hmem
      · exact absurd hme (hrs i (Pool.mem_of_history sched he) r hr)
      · exact hmem
    · exact subject_of_breaks hbreaks hpart hsubject
  -- it has a number that had been given out
  have hge := (Registry.number_lt hrun.legal (List.mem_map_of_mem hnumber)).1
  have hnext : (a.directory w.manager).next = a.store.nextGuid := rfl
  omega

/-- So it is as it was, whenever it is looked at. -/
theorem holder_untouched (hrun : Accessed w a rs sched) {id : Nat} (hid : id < a.store.nextGuid)
    (hrs : Unserved rs sched id) (n : Nat) :
    (directoryAt w a rs sched n).holder id = (a.directory w.manager).holder id := by
  refine Registry.holder_after _ fun e he => ?_
  obtain ⟨⟨i, e'⟩, hmem, rfl⟩ := List.mem_map.mp (List.mem_of_mem_take he)
  exact subject_ne hrun hid hrs hmem

/-- What a request does could be done when it was done. -/
theorem can_of_part (hrun : Accessed w a rs sched) {i : Nat} {e : Act}
    (he : e ∈ Pool.partOf i (acts w a rs sched)) :
    ∃ n, (directoryAt w a rs sched n).can e := by
  obtain ⟨n, hn⟩ := List.mem_iff_getElem?.mp (List.mem_map_of_mem (f := Prod.snd)
    (Pool.mem_partOf.mp he))
  exact ⟨n, Machine.can_of_legal hrun.legal hn⟩

/-! ### Logins that are an account's alone -/

/-- Whoever adds a login has looked for it. -/
theorem looked_of_added {r : Endpoint} {es : List Act}
    (hr : (∃ x, Done w r es x) ∨ Breaks w r es) {id : Nat} {password : Option Utf16}
    {login : UserLoginInfo} (he : .save id password (.add login) ∈ es) :
    .enterWith login none ∈ es := by
  have hlooked : ∀ {es : List Act}, Looks es → .save id password (.add login) ∉ es :=
    fun hlooks he => by cases hlooks _ he
  have hbreaks : ∀ {r es}, Breaks w r es → .save id password (.add login) ∉ es := by
    intro r es hr he
    cases hr with
    | looked hlooks => exact hlooked hlooks he
    | numbered r id' => cases List.mem_singleton.mp he
    | made r id' hlooks =>
        simp only [List.mem_cons, reduceCtorEq, false_or] at he
        exact hlooked hlooks he
  rcases hr with ⟨x, hdone⟩ | hr
  · cases hdone with
    | answered _ hlooks => exact absurd he (hlooked hlooks)
    | refused hr => exact absurd he (hbreaks hr)
    | registeredExternal model login' id' =>
        simp only [List.mem_cons, List.not_mem_nil, reduceCtorEq, false_or, or_false,
          Registry.Act.save.injEq, Registry.Change.add.injEq] at he
        simp [he.2.2]
    | linked =>
        simp only [List.mem_cons, List.not_mem_nil, reduceCtorEq, false_or, or_false,
          Registry.Act.save.injEq, Registry.Change.add.injEq] at he
        simp [he.2.2]
    | @unlinked _ _ _ _ change _ _ _ hchange =>
        rcases hchange with rfl | rfl
        · simp at he
        · simp at he
    | _ => simp at he
  · exact absurd he (hbreaks hr)

/-- **Nobody gets a login** of an account that nobody is served as, if it is that account's
alone. -/
theorem opensWith_alone (hrun : Accessed w a rs sched) {id : Nat}
    {h : Holder (Option Utf16) Utf16 UserLoginInfo} {login : UserLoginInfo}
    (hstays : ∀ n, (directoryAt w a rs sched n).holder id = some h) (hlogin : login ∈ h.logins)
    (halone : ∀ j, (a.directory w.manager).OpensWith login j → j = id) {n j : Nat}
    (hopens : (directoryAt w a rs sched n).OpensWith login j) : j = id := by
  rcases Registry.opensWith_of_after _ hopens with hold | hadded
  · exact halone j hold
  · -- it would have been looked for when the account had it
    obtain ⟨password, hmem⟩ := hadded
    obtain ⟨⟨i, e⟩, hi, rfl⟩ := List.mem_map.mp (List.mem_of_mem_take hmem)
    obtain ⟨r, -, hr⟩ := part_cases hrun hi
    obtain ⟨k, -, hnone⟩ := can_of_part hrun (looked_of_added hr (Pool.mem_partOf.mpr hi))
    exact absurd ⟨h, hstays k, hlogin⟩ (hnone rfl id)

/-! ### Who is signed in -/

theorem enters_iff {m : ApplicationUserManager} (hm : m.Identifies) {x : Response}
    {user : ApplicationUser} (hx : x.identity = some (m.createIdentityAsync user bearer))
    (id : Nat) : x.Enters m id ↔ user.id = id := by
  constructor
  · intro henters
    obtain ⟨identity, hidentity, hclaim⟩ := henters
    rw [hx] at hidentity
    rw [← Option.some.inj hidentity, hm.subject] at hclaim
    exact hm.guids _ _ (congrArg Claim.value (Option.some.inj hclaim))
  · rintro rfl
    exact ⟨_, hx, hm.subject user bearer⟩

theorem not_enters {m : ApplicationUserManager} {x : Response} (hx : x.identity = none)
    (id : Nat) : ¬ x.Enters m id := by
  intro henters
  obtain ⟨identity, hidentity, -⟩ := henters
  rw [hx] at hidentity
  cases hidentity

theorem identity_signedIn {m : ApplicationUserManager} (hm : m.Identifies)
    (user : ApplicationUser) :
    (Response.reply (signedIn m user)).identity = some (m.createIdentityAsync user bearer) := by
  simp [Response.identity, signedIn, List.findSome?, AuthenticationCall.bearer, hm.typed]

theorem fromIdentity_eq_some {identity : Option ClaimsIdentity} {data : ExternalLoginData}
    (h : ExternalLoginData.fromIdentity identity = some data) :
    data.loginProvider ≠ [] ∧ data.providerKey ≠ [] ∧ data.loginProvider ≠ defaultIssuer := by
  unfold ExternalLoginData.fromIdentity at h
  split at h
  · cases h
  · split at h
    · cases h
    · split at h
      · cases h
      · next hne =>
          split at h
          · cases h
          · next hissuer =>
              cases h
              obtain ⟨h₁, h₂⟩ := not_or.mp hne
              exact ⟨h₁, h₂, hissuer⟩

/-- Whoever is not registered is nobody's account, whatever key his provider gives him. -/
theorem not_enters_notRegistered {m : ApplicationUserManager} {identity : Option ClaimsIdentity}
    {data : ExternalLoginData} (h : ExternalLoginData.fromIdentity identity = some data)
    (id : Nat) : ¬ (Response.reply (notRegistered data)).Enters m id := by
  obtain ⟨hprovider, -, hissuer⟩ := fromIdentity_eq_some h
  intro henters
  obtain ⟨identity', hidentity, hclaim⟩ := henters
  have hclaims : (Response.reply (notRegistered data)).identity
      = some ⟨bearer, data.getClaims⟩ := by
    simp [Response.identity, notRegistered, AuthenticationCall.bearer]
  rw [hclaims] at hidentity
  rw [← Option.some.inj hidentity] at hclaim
  have hfirst : (⟨bearer, data.getClaims⟩ : ClaimsIdentity).findFirst .nameIdentifier
      = some (Claim.new .nameIdentifier data.providerKey data.loginProvider) := rfl
  rw [hfirst] at hclaim
  have hsame := congrArg Claim.issuer (Option.some.inj hclaim)
  rw [Claim.new, if_neg hprovider] at hsame
  exact hissuer hsame

/-- **Whoever is signed in** has come with what opens the account. -/
theorem opens_of_enters (hm : w.manager.Identifies) {id : Nat}
    {h : Holder (Option Utf16) Utf16 UserLoginInfo} {r : Endpoint} {es : List Act} {x : Response}
    (hdone : Done w r es x)
    (hcan : ∀ e ∈ es, ∃ g : Directory, g.holder id = some h ∧ g.can e)
    (henters : x.Enters w.manager id) : r.Opens w.manager h ∧ ¬ x.refused := by
  cases hdone with
  | answered _ _ hx => exact absurd henters (not_enters hx id)
  | refused _ _ hx => exact absurd henters (not_enters hx id)
  | granted userName password user =>
      obtain ⟨g, hg, hwho⟩ := hcan _ List.mem_cons_self
      have hid := (enters_iff hm rfl id).mp henters
      exact ⟨(Registry.opens_iff hg).mp ((hwho id).mp (congrArg some hid)), not_false⟩
  | @signedIn provider identity data user hdata hprovider =>
      obtain ⟨g, hg, hwho, -⟩ := hcan _ List.mem_cons_self
      have hid := (enters_iff hm (identity_signedIn hm user) id).mp henters
      have hmem := (Registry.opensWith_iff hg).mp (hwho id (congrArg some hid))
      exact ⟨⟨data, hdata, hprovider, hmem⟩, fun hne => hne rfl⟩
  | @notRegistered provider identity data hdata hprovider =>
      exact absurd henters (not_enters_notRegistered hdata id)
  | _ => exact absurd henters (not_enters rfl id)

/-- **Who comes with what opens the account** is signed in, unless he is turned down. -/
theorem enters_of_opens (hm : w.manager.Identifies) {id : Nat}
    {h : Holder (Option Utf16) Utf16 UserLoginInfo} {r : Endpoint} {es : List Act} {x : Response}
    (hdone : Done w r es x)
    (hcan : ∀ e ∈ es, ∃ g : Directory, g.holder id = some h
      ∧ (∀ login ∈ h.logins, ∀ j, g.OpensWith login j → j = id) ∧ g.can e)
    (hopens : r.Opens w.manager h) (hx : ¬ x.refused) : x.Enters w.manager id := by
  cases hdone with
  | answered hquery =>
      cases r with
      | token userName password => cases hquery
      | externalLogin provider error identity => cases hquery
      | _ => exact hopens.elim
  | refused _ hrefused => exact absurd hrefused hx
  | granted userName password user =>
      obtain ⟨g, hg, -, hwho⟩ := hcan _ List.mem_cons_self
      have hid := (hwho id).mpr ((Registry.opens_iff hg).mpr hopens)
      exact (enters_iff hm rfl id).mpr (Option.some.inj hid)
  | denied userName password =>
      obtain ⟨g, hg, -, hwho⟩ := hcan _ List.mem_cons_self
      cases (hwho id).mpr ((Registry.opens_iff hg).mpr hopens)
  | @signedIn provider identity data user hdata hprovider =>
      obtain ⟨g, hg, halone, hwho, -⟩ := hcan _ List.mem_cons_self
      obtain ⟨data', hdata', -, hmem⟩ := hopens
      rw [hdata] at hdata'
      rw [← Option.some.inj hdata'] at hmem
      exact (enters_iff hm (identity_signedIn hm user) id).mpr
        (halone _ hmem user.id (hwho user.id rfl))
  | @notRegistered provider identity data hdata hprovider =>
      obtain ⟨g, hg, -, -, hnone⟩ := hcan _ List.mem_cons_self
      obtain ⟨data', hdata', -, hmem⟩ := hopens
      rw [hdata] at hdata'
      rw [← Option.some.inj hdata'] at hmem
      exact absurd ((Registry.opensWith_iff hg).mpr hmem) (hnone rfl id)
  | _ => exact hopens.elim

/-- An account that nobody is served as. -/
theorem untouched (hm : w.manager.Identifies) (ha : a.Intact w.manager)
    (hsound : (a.directory w.manager).Sound) {id : Nat}
    {h : Holder (Option Utf16) Utf16 UserLoginInfo}
    (hholder : (a.directory w.manager).holder id = some h) (hrs : Unserved rs sched id) :
    ((Visits.after w a rs sched).shared.directory w.manager).holder id = some h
    ∧ ∀ (i : Nat) (th : Visit) x, (Visits.after w a rs sched).threads[i]? = some th →
        th.left = .ret x → x.Enters w.manager id → th.tag.Opens w.manager h ∧ ¬ x.refused := by
  have hrun := accessed ha hsound rs sched
  have hstays := holder_untouched hrun (hsound.bound id h hholder) hrs
  refine ⟨?_, fun i th x hi hleft => opens_of_enters hm (hrun.answered i th x hi hleft) ?_⟩
  · have hall := hstays ((acts w a rs sched).map Prod.snd).length
    rw [directoryAt, List.take_length] at hall
    rw [hrun.directory, hall, hholder]
  · intro e he
    obtain ⟨n, hn⟩ := can_of_part hrun he
    exact ⟨_, (hstays n).trans hholder, hn⟩

end Untouched

/-- Ann has an account, and a password. -/
def annAccounts : Accounts :=
  ⟨⟨[annUser], [], [⟨0⟩], [], 1, 1⟩, fun id => if id = 0 then some (utf16 "Secret1!") else none⟩

theorem intact_ann : annAccounts.Intact plainManager := by
  refine ⟨List.nodup_singleton _, List.nodup_nil, by simp [annAccounts], fun id hid => ?_⟩
  by_cases h : id = 0
  · exact ⟨annUser, List.mem_cons_self, h.symm⟩
  · exact absurd (if_neg h) hid

theorem sound_ann : (annAccounts.directory plainManager).Sound := by
  have hann : ∀ {id h}, (annAccounts.directory plainManager).holder id = some h → id = 0 := by
    intro id h hh
    obtain ⟨u, hu, rfl, rfl⟩ := (holder_eq_some intact_ann).mp hh
    rw [List.mem_singleton.mp hu]
    rfl
  refine ⟨fun id h hh => ?_, fun id id' h h' hh hh' _ => ?_⟩
  · rw [hann hh]
    exact Nat.one_pos
  · rw [hann hh, hann hh']

/-- Ann signs in while somebody else signs up and tries a password on her account. -/
def annGuessed : List (Endpoint × List Bool) :=
  [(.token (utf16 "ann@jhu.edu") (utf16 "Secret1!"), []),
    (.signup (.register (some { registerAnn with email := some (utf16 "bob@jhu.edu") })), []),
    (.token (utf16 "ann@jhu.edu") (utf16 "Secret2!"), [])]

end TacPac.Web
