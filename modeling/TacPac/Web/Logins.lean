import TacPac.Web.Visits

/-!
# External logins

Somebody who comes from another provider and is not registered gets a token that says who he is
there. Of this token `AddExternalLogin` makes a login of the account it is served as
(`fromIdentity_getClaims`), and from then on he is signed in to that account, until it gives
the login up (`linked_run`). Nothing but that nobody else adds the login at the same time
keeps it the account's alone.

What an account can give up is what `GetManageInfo` lists, but not all of what is listed can
be given up (`removeLogin_iff`).
-/

namespace TacPac.Web

open TacPac.Lib

/-! ## The way of a login -/

/-- **What is put into claims is read from them**, of anything that has been read once. -/
theorem fromIdentity_getClaims {data : ExternalLoginData} {source : Option ClaimsIdentity}
    (hdata : ExternalLoginData.fromIdentity source = some data) (type : Utf16) :
    ExternalLoginData.fromIdentity (some ⟨type, data.getClaims⟩) = some data := by
  obtain ⟨hprovider, hkey, hissuer⟩ := fromIdentity_eq_some hdata
  have hclaim : Claim.new .nameIdentifier data.providerKey data.loginProvider
      = ⟨.nameIdentifier, data.providerKey, data.loginProvider⟩ := by
    rw [Claim.new, if_neg hprovider]
  have hfirst : (⟨type, data.getClaims⟩ : ClaimsIdentity).findFirst .nameIdentifier
      = some ⟨.nameIdentifier, data.providerKey, data.loginProvider⟩ := by
    rw [← hclaim]
    rfl
  have hname : (⟨type, data.getClaims⟩ : ClaimsIdentity).findFirstValue .name
      = data.userName := by
    unfold ClaimsIdentity.findFirstValue ClaimsIdentity.findFirst ExternalLoginData.getClaims
    cases data.userName with
    | none => simp [Claim.new]
    | some userName => simp [Claim.new]
  simp only [ExternalLoginData.fromIdentity, hfirst, hname]
  rw [if_neg (not_or.mpr ⟨hprovider, hkey⟩), if_neg hissuer]

/-- The request gives up this login of the account. -/
def Endpoint.Unlinks (m : ApplicationUserManager) (id : Nat) (key : UserLoginInfo)
    (r : Endpoint) : Prop :=
  ∃ (model : RemoveLoginBindingModel) (login : UserLoginInfo), r = .removeLogin id (some model)
    ∧ model.loginProvider = some login.loginProvider
    ∧ model.providerKey = some login.providerKey ∧ m.loginKey login = key

/-- The request asks for this login to be added to an account. -/
def Endpoint.Links (w : WebApp) (key : UserLoginInfo) : Endpoint → Prop
  | .addExternalLogin _ _ (some model) => ∃ token ticket data,
      model.externalAccessToken = some token ∧ w.accessTokenFormat.unprotect token = some ticket
      ∧ ExternalLoginData.fromIdentity ticket.identity = some data
      ∧ w.manager.loginKey data.login = key
  | .signup (.registerExternal _ (some login)) => w.manager.loginKey login = key
  | _ => False

section Runs

variable {w : WebApp} {a : Accounts} {rs : List (Endpoint × List Bool)} {sched : List Nat}
  {id : Nat} {key : UserLoginInfo}

/-- Who is cut off has not changed any account. -/
theorem save_not_mem {r : Endpoint} {es : List Act} (hr : Breaks w r es)
    {password : Option Utf16} {change : Registry.Change UserLoginInfo} :
    .save id password change ∉ es := by
  have hlooked : ∀ {es : List Act}, Looks es → .save id password change ∉ es :=
    fun hlooks he => by cases hlooks _ he
  intro he
  cases hr with
  | looked hlooks => exact hlooked hlooks he
  | numbered r id' => cases List.mem_singleton.mp he
  | made r id' hlooks =>
      simp only [List.mem_cons, reduceCtorEq, false_or] at he
      exact hlooked hlooks he

/-- A login is only given up by the account that has it, on request. -/
theorem unlinks_of_done {r : Endpoint} {es : List Act} {x : Response} (hr : Done w r es x)
    {password : Option Utf16} (he : .save id password (.remove key) ∈ es) :
    r.Unlinks w.manager id key := by
  cases hr with
  | answered _ hlooks => cases hlooks _ he
  | refused hbreaks => exact absurd he (save_not_mem hbreaks)
  | @unlinked me model login password' change hprovider hother hkey hchange =>
      rcases hchange with rfl | rfl
      · simp at he
      · simp only [List.mem_cons, List.not_mem_nil, reduceCtorEq, false_or, or_false,
          Registry.Act.save.injEq, Registry.Change.remove.injEq] at he
        obtain ⟨rfl, -, rfl⟩ := he
        exact ⟨model, login, rfl, hprovider, hkey, rfl⟩
  | _ => simp at he

/-- A login is only added on request. -/
theorem links_of_done {r : Endpoint} {es : List Act} {x : Response} (hr : Done w r es x)
    {password : Option Utf16} (he : .save id password (.add key) ∈ es) : r.Links w key := by
  cases hr with
  | answered _ hlooks => cases hlooks _ he
  | refused hbreaks => exact absurd he (save_not_mem hbreaks)
  | registeredExternal model login id' =>
      simp only [List.mem_cons, List.not_mem_nil, reduceCtorEq, false_or, or_false,
        Registry.Act.save.injEq, Registry.Change.add.injEq] at he
      exact he.2.2.symm
  | @linked me utcNow model token ticket data password' htoken hread hlive hfrom =>
      simp only [List.mem_cons, List.not_mem_nil, reduceCtorEq, false_or, or_false,
        Registry.Act.save.injEq, Registry.Change.add.injEq] at he
      exact ⟨token, ticket, data, htoken, hread, hfrom, he.2.2.symm⟩
  | @unlinked _ _ _ _ change _ _ _ hchange =>
      rcases hchange with rfl | rfl
      · simp at he
      · simp at he
  | _ => simp at he

theorem remove_not_acts (hrun : Accessed w a rs sched)
    (hkept : ∀ r ∈ rs, ¬ r.1.Unlinks w.manager id key) (password : Option Utf16) :
    .save id password (.remove key) ∉ (acts w a rs sched).map Prod.snd := by
  intro hmem
  obtain ⟨⟨i, e⟩, hi, rfl⟩ := List.mem_map.mp hmem
  obtain ⟨r, hr, ⟨x, hdone⟩ | hbreaks⟩ := part_cases hrun hi
  · exact hkept r (List.mem_of_getElem? hr) (unlinks_of_done hdone (Pool.mem_partOf.mpr hi))
  · exact save_not_mem hbreaks (Pool.mem_partOf.mpr hi)

/-- What an account does not give up is there at any time, -/
theorem opensWith_kept (hrun : Accessed w a rs sched)
    (hkept : ∀ r ∈ rs, ¬ r.1.Unlinks w.manager id key)
    (hlinked : (a.directory w.manager).OpensWith key id) (n : Nat) :
    (directoryAt w a rs sched n).OpensWith key id := by
  have hlegal := hrun.legal
  rw [← List.take_append_drop n ((acts w a rs sched).map Prod.snd)] at hlegal
  exact Registry.opensWith_after _ ((Machine.legal_append _ _).mp hlegal).1
    (fun password hmem => remove_not_acts hrun hkept password (List.mem_of_mem_take hmem)) hlinked

/-- and nobody else gets it. -/
theorem opensWith_run (hrun : Accessed w a rs sched)
    (hkept : ∀ r ∈ rs, ¬ r.1.Unlinks w.manager id key)
    (hlinked : ∀ j, (a.directory w.manager).OpensWith key j ↔ j = id) (n j : Nat) :
    (directoryAt w a rs sched n).OpensWith key j ↔ j = id := by
  have hthere := opensWith_kept hrun hkept ((hlinked id).mpr rfl)
  constructor
  · intro hopens
    rcases Registry.opensWith_of_after _ hopens with hold | hadded
    · exact (hlinked j).mp hold
    · -- whoever added it would have found it
      obtain ⟨password, hmem⟩ := hadded
      obtain ⟨⟨i, e⟩, hi, rfl⟩ := List.mem_map.mp (List.mem_of_mem_take hmem)
      obtain ⟨r, -, hr⟩ := part_cases hrun hi
      obtain ⟨k, -, hnone⟩ := can_of_part hrun (looked_of_added hr (Pool.mem_partOf.mpr hi))
      exact absurd (hthere k) (hnone rfl id)
  · rintro rfl
    exact hthere n

/-- **Whoever comes with a login** that one account has, and does not give up, is signed in to
that account. -/
theorem signedIn_of_opensWith (hm : w.manager.Identifies) (hrun : Accessed w a rs sched)
    (hkept : ∀ r ∈ rs, ¬ r.1.Unlinks w.manager id key)
    (hlinked : ∀ j, (a.directory w.manager).OpensWith key j ↔ j = id) {i : Nat} {th : Visit}
    {x : Response} {provider : Option Utf16} {identity : ClaimsIdentity}
    {data : ExternalLoginData} (hi : (Visits.after w a rs sched).threads[i]? = some th)
    (htag : th.tag = .externalLogin provider none identity)
    (hdata : ExternalLoginData.fromIdentity (some identity) = some data)
    (hlogin : w.manager.loginKey data.login = key) (hleft : th.left = .ret x)
    (hx : ¬ x.refused) (j : Nat) : x.Enters w.manager j ↔ j = id := by
  have hdone := hrun.answered i th x hi hleft
  have hcan := fun e he => can_of_part hrun (i := i) (e := e) he
  rw [htag] at hdone
  generalize Pool.partOf i (acts w a rs sched) = es at hdone hcan
  cases hdone with
  | answered hquery => cases hquery
  | refused _ hrefused => exact absurd hrefused hx
  | signedIn user hdata' hprovider =>
      rw [hdata] at hdata'
      cases hdata'
      obtain ⟨n, hn⟩ := hcan _ List.mem_cons_self
      have hwho := hn.1 user.id rfl
      rw [hlogin, opensWith_run hrun hkept hlinked] at hwho
      rw [enters_iff hm (identity_signedIn hm user), hwho]
      exact eq_comm
  | notRegistered hdata' hprovider =>
      rw [hdata] at hdata'
      cases hdata'
      obtain ⟨n, hn⟩ := hcan _ List.mem_cons_self
      refine absurd ?_ (hn.2 rfl id)
      rw [hlogin]
      exact (opensWith_run hrun hkept hlinked n id).mpr rfl

/-- **A login that has been added** by one request only, and not given up since, is the
account's alone. -/
theorem opensWith_of_added (hrun : Accessed w a rs sched)
    (hkept : ∀ r ∈ rs, ¬ r.1.Unlinks w.manager id key) {i : Nat} {password : Option Utf16}
    (hothers : ∀ k r, k ≠ i → rs[k]? = some r → ¬ r.1.Links w key)
    (hpart : Pool.partOf i (acts w a rs sched)
      = [.load id password, .enterWith key none, .save id password (.add key)]) (j : Nat) :
    ((Visits.after w a rs sched).shared.directory w.manager).OpensWith key j ↔ j = id := by
  have hremove := remove_not_acts hrun hkept
  constructor
  · intro hopens
    -- when the request looked nobody had it
    have hlooked : Pool.partOf i (acts w a rs sched)
        = [.load id password] ++ .enterWith key none :: [.save id password (.add key)] := hpart
    obtain ⟨l, l', hsplit, -⟩ := Pool.partOf_split hlooked
    have hlegal := hrun.legal
    rw [hrun.directory] at hopens
    rw [hsplit, List.map_append, List.map_cons] at hlegal hopens
    obtain ⟨-, hcan, -⟩ := (Machine.legal_append _ _).mp hlegal
    rw [Machine.after_append] at hopens
    rcases Registry.opensWith_of_after _ hopens with hbefore | hadded
    · exact absurd hbefore (hcan.2 rfl j)
    · obtain ⟨password', hmem⟩ := hadded
      have hmem' : Registry.Act.save j password' (.add key) ∈ (acts w a rs sched).map Prod.snd := by
        rw [hsplit, List.map_append]
        exact List.mem_append_right _ hmem
      obtain ⟨⟨k, e⟩, hk, rfl⟩ := List.mem_map.mp hmem'
      have hki : k = i := by
        by_contra hne
        obtain ⟨r, hr, ⟨x, hdone⟩ | hbreaks⟩ := part_cases hrun hk
        · exact hothers k r hne hr (links_of_done hdone (Pool.mem_partOf.mpr hk))
        · exact save_not_mem hbreaks (Pool.mem_partOf.mpr hk)
      have hthis := Pool.mem_partOf.mpr hk
      rw [hki, hpart] at hthis
      simp only [List.mem_cons, List.not_mem_nil, reduceCtorEq, false_or, or_false,
        Registry.Act.save.injEq] at hthis
      exact hthis.1
  · rintro rfl
    have hmem : .save j password (.add key) ∈ (acts w a rs sched).map Prod.snd :=
      List.mem_map_of_mem (Pool.mem_partOf.mp (by rw [hpart]; simp))
    obtain ⟨es, es', hsplit⟩ := List.append_of_mem hmem
    have hlegal := hrun.legal
    rw [hrun.directory]
    rw [hsplit] at hlegal hremove ⊢
    obtain ⟨-, ⟨h, hh, -⟩, hrest⟩ := (Machine.legal_append _ _).mp hlegal
    rw [Machine.after_append]
    refine Registry.opensWith_after es' hrest (fun password' hlater =>
      hremove password' (List.mem_append_right _ (List.mem_cons_of_mem _ hlater))) ?_
    -- right after it was added
    refine ⟨{ h with password := password, logins := h.logins ++ [key] }, ?_,
      List.mem_append_right _ List.mem_cons_self⟩
    show (Registry.alter _ j _).holder j = _
    rw [Registry.alter_holder_self, hh]
    rfl

end Runs

/-- **From one provider's token to an account.** Let somebody who is not registered have got
a token, let `AddExternalLogin`, served as the account `me`, have answered `Ok` to it, let no
other request of that run ask for the login, and let `me` not give it up. Then whoever comes
from the provider with this key later is signed in to `me`, and to no other account. -/
theorem linked_run (w : WebApp) (hm : w.manager.Identifies) (a : Accounts)
    (ha : a.Intact w.manager) (hsound : (a.directory w.manager).Sound)
    (rs : List (Endpoint × List Bool)) (sched : List Nat) (me : Nat)
    (source : ClaimsIdentity) (data : ExternalLoginData)
    (hdata : ExternalLoginData.fromIdentity (some source) = some data)
    (i : Nat) (th : Visit) (utcNow : Nat) (ticket : AuthenticationTicket) (reply : Reply)
    (hi : (Visits.after w a rs sched).threads[i]? = some th)
    (htag : th.tag
      = .addExternalLogin me utcNow (some ⟨some (w.accessTokenFormat.protect ticket)⟩))
    (hticket : ticket.identity = (Response.reply (notRegistered data)).identity)
    (hleft : th.left = .ret (.reply reply)) (hok : reply.result = .of .ok)
    (hothers : ∀ k r, k ≠ i → rs[k]? = some r →
      ¬ r.1.Links w (w.manager.loginKey data.login))
    (hkept : ∀ r ∈ rs, ¬ r.1.Unlinks w.manager me (w.manager.loginKey data.login))
    (rs' : List (Endpoint × List Bool)) (sched' : List Nat)
    (hkept' : ∀ r ∈ rs', ¬ r.1.Unlinks w.manager me (w.manager.loginKey data.login)) :
    ∀ (j : Nat) (th' : Visit) provider identity data' x,
      (Visits.after w (Visits.after w a rs sched).shared rs' sched').threads[j]? = some th' →
      th'.tag = .externalLogin provider none identity →
      ExternalLoginData.fromIdentity (some identity) = some data' →
      w.manager.loginKey data'.login = w.manager.loginKey data.login →
      th'.left = .ret x → ¬ x.refused → ∀ id, x.Enters w.manager id ↔ id = me := by
  have hrun := accessed ha hsound rs sched
  have hidentity : ticket.identity = some ⟨bearer, data.getClaims⟩ := by
    rw [hticket]
    simp [Response.identity, notRegistered, AuthenticationCall.bearer]
  -- what was added is the login that the token was made of
  have hpart : ∃ password, Pool.partOf i (acts w a rs sched)
      = [.load me password, .enterWith (w.manager.loginKey data.login) none,
        .save me password (.add (w.manager.loginKey data.login))] := by
    have hdone := hrun.answered i th _ hi hleft
    rw [htag] at hdone
    generalize Pool.partOf i (acts w a rs sched) = es at hdone
    cases hdone with
    | answered hquery => cases hquery
    | refused _ hrefused => exact absurd hok hrefused
    | linked _ _ password htoken hread _ hfrom =>
        cases htoken
        rw [w.accessTokenFormat.unprotect_protect] at hread
        rw [← Option.some.inj hread, hidentity, fromIdentity_getClaims hdata] at hfrom
        cases hfrom
        exact ⟨password, rfl⟩
  obtain ⟨password, hpart⟩ := hpart
  have hlinked := opensWith_of_added hrun hkept hothers hpart
  have hrun' := accessed hrun.intact hrun.apart rs' sched'
  exact fun j th' provider identity data' x hj htag' hdata' hlogin hleft' hx id =>
    signedIn_of_opensWith hm hrun' hkept' hlinked hj htag' hdata' hlogin hleft' hx id

/-- Ann adds the login that she has at a provider, and comes from there the next time. -/
theorem linked_run_ann :
    (Response.reply (signedIn plainManager annUser)).Enters plainManager 0 := by
  have hrun := linked_run plainApp plainManager_identifies annAccounts intact_ann
    sound_ann [(.addExternalLogin 0 3 (some ⟨some (utf16 "ann")⟩), [])] [0, 0, 0, 0, 0, 0] 0
    ⟨externalCookie, annGoogle.getClaims⟩ annGoogle (by rfl) 0
    ⟨.addExternalLogin 0 3 (some ⟨some (utf16 "ann")⟩),
      .ret (.reply ⟨.of .ok, [.signOut externalCookie]⟩), ⟨[], []⟩⟩ 3 annTicket _ (by rfl) (by rfl)
    (by rfl) (by rfl) (by rfl)
    (fun k r hk hr => by
      rcases k with _ | k
      · exact absurd rfl hk
      · cases hr)
    (by simp [Endpoint.Unlinks])
    [(.externalLogin (some (utf16 "Google")) none ⟨externalCookie, annGoogle.getClaims⟩, [])] [0]
    (by simp [Endpoint.Unlinks])
  exact (hrun 0 ⟨.externalLogin (some (utf16 "Google")) none ⟨externalCookie, annGoogle.getClaims⟩,
    .ret (.reply (signedIn plainManager annUser)), ⟨[], []⟩⟩ _ _ annGoogle _ (by rfl) rfl (by rfl)
    rfl rfl (fun hne => hne rfl) 0).mpr rfl

/-! ## Giving up a login -/

section Listed

variable (m : ApplicationUserManager) (site : Site) (me : Nat) (a : Accounts)

/-- What `GetManageInfo` answers. -/
def shown (returnUrl state : Option Utf16) : Except Exn (Option ManageInfoViewModel) :=
  ((getManageInfo site me returnUrl state).run (manageExec m) (a, Session.start [])).1

/-- The accounts after `RemoveLogin` of a listed login. -/
def removed (row : UserLoginInfoViewModel) : Accounts :=
  ((removeLogin m me (some ⟨some row.loginProvider, row.providerKey⟩)).run (manageExec m)
    (a, Session.start [])).2.1

/-- What it takes to give up a login that is listed. -/
structure Removable (user : ApplicationUser) (row : UserLoginInfoViewModel) : Prop where
  provider : ¬ row.loginProvider.all isWhiteSpace
  key : ¬ (row.providerKey.getD []).all isWhiteSpace
  valid : m.userErrors a.store.users user = []
  /-- Whatever calls itself the local provider is taken for the password. -/
  password : row.loginProvider = localLoginProvider →
    a.passwordHash user.id ≠ none ∧ row.providerKey = user.userName

variable {m site me a} {returnUrl state : Option Utf16} {user : ApplicationUser}

/-- A login as it is listed. -/
def UserLoginInfo.view (login : UserLoginInfo) : UserLoginInfoViewModel :=
  ⟨login.loginProvider, some login.providerKey⟩

theorem view_injective : Function.Injective UserLoginInfo.view := by
  rintro ⟨provider, key⟩ ⟨provider', key'⟩ h
  cases h
  rfl

/-- The logins that are listed for the user. -/
def Accounts.views (a : Accounts) (user : ApplicationUser) : List UserLoginInfoViewModel :=
  (a.loginsOf user.id).map UserLoginInfo.view
  ++ if a.passwordHash user.id ≠ none then [⟨localLoginProvider, user.userName⟩] else []

/-- A way to log in as it is listed, unless its address does not come about. -/
def listed (site : Site) (returnUrl state : Option Utf16)
    (description : AuthenticationDescription) : Option ExternalLoginViewModel :=
  (site.absoluteUri returnUrl).map fun redirectUri =>
    ⟨description.caption, site.externalLoginRoute
      [(utf16 "provider", some description.authenticationType),
        (utf16 "response_type", some (utf16 "token")),
        (utf16 "client_id", some site.publicClientId),
        (utf16 "redirect_uri", some redirectUri), (utf16 "state", state)], state⟩

theorem getExternalLogins_eq (site : Site) (returnUrl state : Option Utf16) :
    getExternalLogins site returnUrl state
      = Proc.orRaise .argument (site.externalAuthenticationTypes.mapM
          (listed site returnUrl state)) := by
  have hcollect : getExternalLogins site returnUrl state
      = site.externalAuthenticationTypes.foldlM (fun logins description =>
          Proc.orRaise Exn.argument (listed site returnUrl state description) >>= fun login =>
            .ret (logins ++ [login])) [] := by
    unfold getExternalLogins
    congr 1
    funext logins description
    unfold listed
    cases site.absoluteUri returnUrl with
    | none => rfl
    | some redirectUri => rfl
  rw [hcollect, Proc.foldlM_orRaise]
  simp

/-- **A listed way to log in** goes back to an address that `ValidateClientRedirectUri` lets
pass if it is the root of the site, and only then. -/
theorem validated_iff {providers : List ExternalLoginViewModel}
    (h : site.externalAuthenticationTypes.mapM (listed site returnUrl state) = some providers)
    {p : ExternalLoginViewModel} (hp : p ∈ providers) (root : Utf16) :
    ∃ provider clientId redirectUri, p.url = site.externalLoginRoute
        [(utf16 "provider", some provider), (utf16 "response_type", some (utf16 "token")),
          (utf16 "client_id", clientId), (utf16 "redirect_uri", redirectUri),
          (utf16 "state", state)]
      ∧ (validateClientRedirectUri site.publicClientId root clientId redirectUri
          ↔ site.absoluteUri returnUrl = some root) := by
  obtain ⟨description, -, hlisted⟩ := source_of_mapM h hp
  obtain ⟨redirectUri, huri, rfl⟩ := Option.map_eq_some_iff.mp hlisted
  refine ⟨description.authenticationType, some site.publicClientId, some redirectUri, rfl, ?_⟩
  rw [huri]
  simp [validateClientRedirectUri]

/-! ### What the actions come to -/

/-- The account as it is loaded. -/
theorem run_findByIdAsync (hfound : a.findUser me = some user) {α : Type}
    (f : Option (IdentityUser me) → ManagerHandler α) :
    (ApplicationUserManager.findByIdAsync me >>= f).run (manageExec m) (a, Session.start [])
      = (f (some ⟨⟨user, Accounts.id_of_findUser hfound, a.passwordHash me⟩, a.loginsOf me⟩)).run
          (manageExec m) (a, Session.start []) := by
  have hload : manageExec m (.loadUser me) (a, Session.start [])
      = (.ok (some ⟨user, Accounts.id_of_findUser hfound, a.passwordHash me⟩),
        (a, Session.start [])) := by
    show (Except.ok (a.loadUser me), _) = _
    rw [a.loadUser_of_findUser hfound]
    rfl
  refine Proc.run_seq ?_
  unfold ApplicationUserManager.findByIdAsync
  simp only [Proc.ask, Proc.call_bind, Proc.ret_bind]
  rw [Proc.run_call_ok hload]
  rfl

theorem run_loadAsync (hfound : a.findUser me = some user) {α : Type}
    (f : IdentityUser me → ManagerHandler α) :
    (ApplicationUserManager.loadAsync me >>= f).run (manageExec m) (a, Session.start [])
      = (f ⟨⟨user, Accounts.id_of_findUser hfound, a.passwordHash me⟩, a.loginsOf me⟩).run
          (manageExec m) (a, Session.start []) := by
  unfold ApplicationUserManager.loadAsync
  rw [bind_assoc, run_findByIdAsync hfound]
  rfl

/-- The list is that of the account, and nothing else that is answered depends on it. -/
theorem shown_eq (site : Site) (me : Nat) (returnUrl state : Option Utf16) :
    ∃ providers : Except Exn (List ExternalLoginViewModel),
      ∀ (m : ApplicationUserManager) (a : Accounts) (user : ApplicationUser),
        a.findUser me = some user →
        shown m site me a returnUrl state = providers.map fun providers =>
          some ⟨localLoginProvider, user.userName, a.views user, providers⟩ := by
  have hproviders := getExternalLogins_eq site returnUrl state
  generalize site.externalAuthenticationTypes.mapM (listed site returnUrl state) = providers
    at hproviders
  refine ⟨match providers with | some providers => .ok providers | none => .error .argument,
    fun m a user hfound => ?_⟩
  have hviews : a.views user
      = (⟨⟨user, Accounts.id_of_findUser hfound, a.passwordHash me⟩, a.loginsOf me⟩ :
        IdentityUser me).views := by
    unfold Accounts.views
    rw [Accounts.id_of_findUser hfound]
    rfl
  rw [hviews]
  unfold shown getManageInfo
  rw [run_findByIdAsync hfound]
  simp only [hproviders]
  cases providers with
  | none => rfl
  | some providers => rfl

/-- The validator finds the same here as on the store. -/
theorem run_validateAsync {α : Type} (f : List Utf16 → Handler α) :
    (embed (validateAsync m.toHost user >>= f)).run (manageExec m) (a, Session.start [])
      = (embed (f (m.userErrors a.store.users user))).run (manageExec m)
          (a, Session.start []) := by
  unfold validateAsync validateUserName validateEmail Host.userErrors Host.nameErrors
    Host.emailErrors
  by_cases hname : (user.userName.getD []).all isWhiteSpace = true
  · by_cases hemail : (user.email.getD []).all isWhiteSpace = true
    · simp only [if_pos hname, if_pos hemail]
      rfl
    · by_cases haddress : m.isMailAddress (user.email.getD []) = true
      · simp only [if_pos hname, if_neg hemail, if_pos haddress]
        rfl
      · simp only [if_pos hname, if_neg hemail, if_neg haddress]
        rfl
  · by_cases hemail : (user.email.getD []).all isWhiteSpace = true
    · simp only [if_neg hname, if_pos hemail]
      rfl
    · by_cases haddress : m.isMailAddress (user.email.getD []) = true
      · simp only [if_neg hname, if_neg hemail, if_pos haddress]
        rfl
      · simp only [if_neg hname, if_neg hemail, if_neg haddress]
        rfl

/-- The accounts when one of them has been written, with these logins of all. -/
def Accounts.updated (a : Accounts) (userId : Nat) (passwordHash : Option Utf16)
    (logins : List IdentityUserLogin) : Accounts :=
  { a.setPasswordHash userId passwordHash with store := { a.store with logins := logins } }

/-- **An update** writes what it is given, of a user who is valid. -/
theorem run_updateAsync {passwordHash : Option Utf16} {change : LoginChange}
    {logins : List IdentityUserLogin} (hfound : a.findUser user.id = some user)
    (hlogins : a.store.changed m.toHost user.id change = some logins) :
    ((embed (updateAsync m.toHost user passwordHash change)).run (manageExec m)
        (a, Session.start [])).2.1
      = if m.userErrors a.store.users user = [] then
          a.updated user.id passwordHash logins
        else a := by
  unfold updateAsync
  rw [run_validateAsync]
  by_cases hvalid : m.userErrors a.store.users user = []
  · rw [if_pos hvalid, unlessErrors, if_pos hvalid]
    have hupdated : a.store.updated m.toHost user.id change
        = some { a.store with logins := logins } :=
      updated_eq_some.mpr ⟨⟨user, List.mem_of_find?_eq_some hfound, rfl⟩, logins, hlogins, rfl⟩
    have hcall : manageExec m (.store (.updateUser user.id passwordHash change))
        (a, Session.start [])
        = (.ok (), (a.updated user.id passwordHash logins, Session.start [])) := by
      show manage m (.store (.updateUser user.id passwordHash change)) (a, Session.start []) = _
      unfold manage
      simp only [perform_updateUser, hupdated]
      rfl
    exact congrArg (fun q : Except Exn IdentityResult × ManagerWorld => q.2.1)
      (Proc.run_call_ok hcall)
  · rw [if_neg hvalid, unlessErrors, if_neg hvalid]
    rfl

/-- A body passes if it names a login. -/
theorem removeLogin_modelState (provider : Utf16) (key : Option Utf16) :
    modelState RemoveLoginBindingModel.modelErrors (some ⟨some provider, key⟩) = []
      ↔ ¬ provider.all isWhiteSpace ∧ ¬ (key.getD []).all isWhiteSpace := by
  show required _ _ (some provider) ++ required _ _ key = [] ↔ _
  rw [List.append_eq_nil_iff, required, required, ite_eq_right_iff, ite_eq_right_iff]
  exact and_congr (imp_congr_right fun _ => iff_false_intro (List.cons_ne_nil _ _))
    (imp_congr_right fun _ => iff_false_intro (List.cons_ne_nil _ _))

/-- The account without the password, or without an external login. -/
def Accounts.without (m : ApplicationUserManager) (a : Accounts) (user : ApplicationUser)
    (row : UserLoginInfoViewModel) : Accounts :=
  if row.loginProvider = localLoginProvider then a.setPasswordHash user.id none
  else a.updated user.id (a.passwordHash user.id) (a.store.logins.filter fun l =>
    !Store.isLogin m.toHost user.id ⟨row.loginProvider, row.providerKey.getD []⟩ l)

theorem mem_views_external {row : UserLoginInfoViewModel} (hrow : row ∈ a.views user)
    (hexternal : row.loginProvider ≠ localLoginProvider) :
    ∃ login ∈ a.loginsOf user.id, login.view = row := by
  rcases List.mem_append.mp hrow with hrow | hrow
  · exact List.mem_map.mp hrow
  · split at hrow
    · rw [List.mem_singleton.mp hrow] at hexternal
      exact absurd rfl hexternal
    · cases hrow

/-- **What `RemoveLogin` leaves**, of a row that is listed. -/
theorem removed_eq {row : UserLoginInfoViewModel} (hfound : a.findUser me = some user)
    (hrow : row ∈ a.views user) :
    removed m me a row
      = if (¬ row.loginProvider.all isWhiteSpace ∧ ¬ (row.providerKey.getD []).all isWhiteSpace)
            ∧ m.userErrors a.store.users user = [] then
          a.without m user row
        else a := by
  obtain rfl : user.id = me := Accounts.id_of_findUser hfound
  obtain ⟨provider, key⟩ := row
  by_cases hnamed : ¬ provider.all isWhiteSpace ∧ ¬ (key.getD []).all isWhiteSpace
  · obtain ⟨key, rfl⟩ : ∃ key', key = some key' := by
      cases key with
      | none => exact absurd rfl hnamed.2
      | some key => exact ⟨key, rfl⟩
    have hstate := (removeLogin_modelState provider (some key)).mpr hnamed
    have hvalid : ((¬ provider.all isWhiteSpace ∧ ¬ ((some key).getD []).all isWhiteSpace)
        ∧ m.userErrors a.store.users user = []) ↔ m.userErrors a.store.users user = [] :=
      and_iff_right hnamed
    simp only [hvalid]
    unfold removed removeLogin
    rw [hstate]
    simp only [Proc.orRaise, Proc.ret_bind]
    by_cases hlocal : provider = localLoginProvider
    · rw [if_pos hlocal, Accounts.without, if_pos hlocal]
      unfold ApplicationUserManager.removePasswordAsync
      have hkeep : a.store.changed m.toHost user.id .keep = some a.store.logins := rfl
      rw [bind_assoc, run_loadAsync hfound]
      exact (congrArg Prod.fst (Proc.run_bind_ret _ _ _)).trans (run_updateAsync hfound hkeep)
    · obtain ⟨login, hlogin, heq⟩ := mem_views_external hrow hlocal
      obtain ⟨rfl, hkey⟩ := UserLoginInfoViewModel.mk.inj heq
      obtain rfl : login.providerKey = key := Option.some.inj hkey
      rw [if_neg hlocal, Accounts.without, if_neg hlocal]
      unfold ApplicationUserManager.removeLoginAsync
      have hremove : a.store.changed m.toHost user.id (.remove login) = some _ :=
        changed_remove.mpr ⟨⟨_, mem_loginsOf.mp hlogin, isLogin_iff.mpr ⟨rfl, rfl⟩⟩, rfl⟩
      rw [bind_assoc, run_loadAsync hfound]
      refine (congrArg Prod.fst (Proc.run_bind_ret _ _ _)).trans ?_
      simp only [if_pos hlogin]
      exact run_updateAsync hfound hremove
  · have hvalid : ¬ ((¬ provider.all isWhiteSpace ∧ ¬ (key.getD []).all isWhiteSpace)
        ∧ m.userErrors a.store.users user = []) := fun h => hnamed h.1
    simp only [if_neg hvalid]
    unfold removed removeLogin
    cases hstate : modelState RemoveLoginBindingModel.modelErrors (some ⟨some provider, key⟩) with
    | cons e es => rfl
    | nil => exact absurd ((removeLogin_modelState provider key).mp hstate) hnamed

/-! ### What is listed afterwards -/

/-- An account without its password lists its external logins. -/
theorem views_setPasswordHash_none (a : Accounts) (user : ApplicationUser) :
    (a.setPasswordHash user.id none).views user = (a.loginsOf user.id).map UserLoginInfo.view := by
  have hhash : (a.setPasswordHash user.id none).passwordHash user.id = none := if_pos rfl
  rw [Accounts.views, hhash]
  simp [Accounts.loginsOf, Accounts.setPasswordHash]

theorem nodup_loginsOf (ha : a.Intact m) (id : Nat) :
    ((a.loginsOf id).map m.loginKey).Nodup := by
  have hsub : (((a.store.logins.filter fun l => l.userId = id).map fun l : IdentityUserLogin =>
      (l.userId, m.loginKey l.login))).Nodup :=
    ha.logins.sublist (List.filter_sublist.map _)
  have hpairs : (a.store.logins.filter fun l => l.userId = id).map (fun l : IdentityUserLogin =>
      (l.userId, m.loginKey l.login)) = ((a.loginsOf id).map m.loginKey).map (Prod.mk id) := by
    unfold Accounts.loginsOf
    rw [List.map_map, List.map_map]
    refine List.map_congr_left fun l hl => ?_
    have hid : l.userId = id := of_decide_eq_true (List.mem_filter.mp hl).2
    rw [hid]
    rfl
  rw [hpairs] at hsub
  exact hsub.of_map _

/-- An account without an external login lists that one no more. -/
theorem views_without (ha : a.Intact m) (user : ApplicationUser) {login : UserLoginInfo}
    (hlogin : login ∈ a.loginsOf user.id) (hexternal : login.loginProvider ≠ localLoginProvider) :
    (a.without m user login.view).views user = (a.views user).erase login.view := by
  have hnodup := nodup_loginsOf ha user.id
  have hrest : (a.loginsOf user.id).filter (fun l => m.loginKey l ≠ m.loginKey login)
      = (a.loginsOf user.id).erase login := by
    rw [(hnodup.of_map _).erase_eq_filter]
    refine List.filter_congr fun l hl => ?_
    have hkey : m.loginKey l = m.loginKey login ↔ l = login :=
      ⟨fun h => List.inj_on_of_nodup_map hnodup hl hlogin h, fun h => by rw [h]⟩
    by_cases hl : l = login
    · simp [hl]
    · simp [hkey, hl]
  have hhash : (a.setPasswordHash user.id (a.passwordHash user.id)).passwordHash user.id
      = a.passwordHash user.id := if_pos rfl
  have hother : ¬ login.view.loginProvider = localLoginProvider := hexternal
  rw [Accounts.without, if_neg hother]
  have hlogins := loginsOf_remove (a := a) (m := m) user.id user.id login rfl
  rw [if_pos rfl, hrest] at hlogins
  show (Accounts.loginsOf _ user.id).map _ ++ (if (a.setPasswordHash user.id
    (a.passwordHash user.id)).passwordHash user.id ≠ none then _ else _) = _
  rw [hhash]
  unfold Accounts.views
  rw [List.erase_append_left _ (List.mem_map_of_mem hlogin), ← List.map_erase view_injective]
  exact congrArg (fun logins => logins.map UserLoginInfo.view ++ _) hlogins

/-- Without the password, a list has lost the row of the password or none. -/
theorem perm_password_iff (a : Accounts) (user : ApplicationUser) {row : UserLoginInfoViewModel}
    (hrow : row ∈ a.views user) (hlocal : row.loginProvider = localLoginProvider) :
    ((a.loginsOf user.id).map UserLoginInfo.view).Perm ((a.views user).erase row)
      ↔ a.passwordHash user.id ≠ none ∧ row.providerKey = user.userName := by
  unfold Accounts.views at hrow ⊢
  constructor
  · intro hperm
    have hlength := hperm.length_eq
    rw [List.length_erase_of_mem hrow, List.length_append] at hlength
    have hpos := List.length_pos_of_mem hrow
    rw [List.length_append] at hpos
    by_cases hhash : a.passwordHash user.id ≠ none
    · refine ⟨hhash, ?_⟩
      rw [if_pos hhash] at hperm hrow
      -- the row of the password is left once more than it was there, unless it is this one
      by_contra hne
      have hother : row ≠ ⟨localLoginProvider, user.userName⟩ := by
        rintro rfl
        exact hne rfl
      have hcount := hperm.count_eq ⟨localLoginProvider, user.userName⟩
      rw [List.count_erase_of_ne hother.symm, List.count_append, List.count_singleton_self]
        at hcount
      omega
    · rw [if_neg hhash, List.length_nil] at hlength hpos
      omega
  · intro hpassword
    obtain ⟨hhash, hkey⟩ := hpassword
    have hself : row = ⟨localLoginProvider, user.userName⟩ := by
      obtain ⟨provider, key⟩ := row
      cases hlocal
      cases hkey
      rfl
    rw [if_pos hhash, hself]
    have hcons := (List.perm_append_singleton (⟨localLoginProvider, user.userName⟩ :
      UserLoginInfoViewModel) ((a.loginsOf user.id).map UserLoginInfo.view)).erase
        ⟨localLoginProvider, user.userName⟩
    rw [List.erase_cons_head] at hcons
    exact hcons.symm

/-- **A row that is given up** is not listed once more, nor does any other go. -/
theorem removed_perm_iff (ha : a.Intact m) (hfound : a.findUser me = some user)
    {row : UserLoginInfoViewModel} (hrow : row ∈ a.views user) :
    ((removed m me a row).views user).Perm ((a.views user).erase row)
      ↔ Removable m a user row := by
  have hlonger : ¬ (a.views user).Perm ((a.views user).erase row) := by
    intro hperm
    have hlength := hperm.length_eq
    rw [List.length_erase_of_mem hrow] at hlength
    have hpos := List.length_pos_of_mem hrow
    omega
  rw [removed_eq hfound hrow]
  by_cases hnamed : (¬ row.loginProvider.all isWhiteSpace
      ∧ ¬ (row.providerKey.getD []).all isWhiteSpace) ∧ m.userErrors a.store.users user = []
  · rw [if_pos hnamed]
    obtain ⟨⟨hprovider, hkey⟩, hvalid⟩ := hnamed
    by_cases hlocal : row.loginProvider = localLoginProvider
    · rw [Accounts.without, if_pos hlocal, views_setPasswordHash_none,
        perm_password_iff a user hrow hlocal]
      exact ⟨fun h => ⟨hprovider, hkey, hvalid, fun _ => h⟩, fun h => h.password hlocal⟩
    · obtain ⟨login, hlogin, rfl⟩ := mem_views_external hrow hlocal
      rw [views_without ha user hlogin hlocal]
      exact iff_of_true (List.Perm.refl _) ⟨hprovider, hkey, hvalid, fun h => absurd h hlocal⟩
  · rw [if_neg hnamed]
    exact iff_of_false hlonger fun h => hnamed ⟨⟨h.provider, h.key⟩, h.valid⟩

/-- Whatever is given up, it is still the same user. -/
theorem removed_findUser (hfound : a.findUser me = some user) {row : UserLoginInfoViewModel}
    (hrow : row ∈ a.views user) : (removed m me a row).findUser me = some user := by
  have husers : (removed m me a row).store.users = a.store.users := by
    rw [removed_eq hfound hrow]
    split
    · unfold Accounts.without
      split
      · rfl
      · rfl
    · rfl
  unfold Accounts.findUser
  rw [husers]
  exact hfound

/-- **Listing, giving up, and listing again.** A login that is listed goes off the list, and
no other, exactly if it is `Removable`. -/
theorem removeLogin_iff (m : ApplicationUserManager) (site : Site) (a : Accounts)
    (ha : a.Intact m) (me : Nat) (user : ApplicationUser) (hfound : a.findUser me = some user)
    (returnUrl state : Option Utf16) (info : ManageInfoViewModel)
    (hinfo : shown m site me a returnUrl state = .ok (some info))
    (row : UserLoginInfoViewModel) (hrow : row ∈ info.logins) :
    (∃ info', shown m site me (removed m me a row) returnUrl state = .ok (some info')
      ∧ info'.logins.Perm (info.logins.erase row)) ↔ Removable m a user row := by
  obtain ⟨providers, hshown⟩ := shown_eq site me returnUrl state
  rw [hshown m a user hfound] at hinfo
  cases providers with
  | error e => cases hinfo
  | ok providers =>
      cases hinfo
      rw [hshown m _ user (removed_findUser hfound hrow), ← removed_perm_iff ha hfound hrow]
      constructor
      · intro hex
        obtain ⟨info', hinfo', hperm⟩ := hex
        cases hinfo'
        exact hperm
      · exact fun hperm => ⟨_, rfl, hperm⟩

/-- Ann gives up her password, which is all that she has. -/
theorem removeLogin_iff_ann : ∃ info,
    shown plainManager plainApp.site 0 (removed plainManager 0 annAccounts
      ⟨localLoginProvider, annUser.userName⟩) none none = .ok (some info) ∧ info.logins = [] := by
  obtain ⟨info, hinfo, hperm⟩ := (removeLogin_iff plainManager plainApp.site annAccounts intact_ann
    0 annUser rfl none none ⟨localLoginProvider, annUser.userName,
      [⟨localLoginProvider, annUser.userName⟩], []⟩ (by rfl)
    ⟨localLoginProvider, annUser.userName⟩ List.mem_cons_self).mpr
    ⟨by decide, by decide, by rfl, fun _ => ⟨by decide, rfl⟩⟩
  refine ⟨info, hinfo, List.perm_nil.mp (hperm.trans ?_)⟩
  rw [List.erase_cons_head]

end Listed

end TacPac.Web
