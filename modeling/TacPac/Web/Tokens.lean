import TacPac.Web.Visits

/-!
# Tokens

What a request is served as is read from its bearer token, which an answer has been given
with: `OAuthAuthorizationServerOptions` lets it live for fourteen days, and nothing takes it
back. So in a run in which every request that is served as somebody bears such a token, an
account is only acted for by those who have come with what opens it, or by those who have the
token of one who had (`authorised_run`).
-/

namespace TacPac.Web

open TacPac.Lib

/-- `AccessTokenExpireTimeSpan`, in seconds. -/
def accessTokenExpireTimeSpan : Nat := 14 * 24 * 60 * 60

/-- The properties that go into a token. -/
def AuthenticationCall.properties : AuthenticationCall → Option (List (Utf16 × Option Utf16))
  | .signOut _ => none
  | .signIn properties _ => some properties

/-- The same of an answer. -/
def Response.properties : Response → List (Utf16 × Option Utf16)
  | .token (.validated ticket _) => ticket.properties
  | .reply x => (x.calls.findSome? AuthenticationCall.properties).getD []
  | _ => []

/-- The token that an answer is given with. -/
def WebApp.issue (w : WebApp) (utcNow : Nat) (x : Response) : Option Utf16 :=
  x.identity.map fun identity => w.accessTokenFormat.protect
    ⟨some identity, some (utcNow + accessTokenExpireTimeSpan), x.properties⟩

/-- `User.Identity.GetUserId()` of a request with this token. What another issuer vouches for
is not taken for an account here. -/
def WebApp.servedAs (w : WebApp) (utcNow : Nat) (token : Utf16) : Option Utf16 :=
  ((w.accessTokenFormat.unprotect token).filter (·.live utcNow)).bind fun ticket =>
    ticket.identity.bind fun identity =>
      if identity.claims.all (fun c => c.issuer = defaultIssuer) then
        identity.findFirstValue .nameIdentifier
      else none

/-- When requests arrive, and when they are answered. -/
structure Times where
  arrived : Nat → Nat
  answered : Nat → Nat

/-- Every request that is served as somebody bears a token that it was given, or that
somebody else was given, in the run, and it bears it at its first turn. -/
def Authorised (w : WebApp) (a : Accounts) (rs : List (Endpoint × List Bool)) (t : Times)
    (sched : List Nat) : Prop :=
  ∀ (i : Nat) r me pre rest, rs[i]? = some r → r.1.me = some me → sched = pre ++ i :: rest →
    i ∉ pre → ∃ token, w.servedAs (t.arrived i) token = some (w.manager.userIdText me)
      ∧ ∃ (j : Nat) (th : Visit) (x : Response),
        (Visits.after w a rs pre).threads[j]? = some th ∧ th.left = .ret x
        ∧ w.issue (t.answered j) x = some token

section Tokens

variable {w : WebApp} {a : Accounts} {rs : List (Endpoint × List Bool)} {t : Times}
  {sched : List Nat}

theorem live_eq {ticket : AuthenticationTicket} {expires : Nat}
    (hidentity : ticket.identity.isSome) (hexpires : ticket.expiresUtc = some expires)
    (utcNow : Nat) : ticket.live utcNow = decide (utcNow ≤ expires) := by
  unfold AuthenticationTicket.live
  rw [hexpires]
  rw [Option.any_some, ← decide_not]
  simp [Option.ne_none_iff_isSome.mpr hidentity]

/-- A token is what it was issued for, and for as long. -/
theorem servedAs_issue {x : Response} {token : Utf16}
    {utcNow issuedUtc me : Nat}
    (hserved : w.servedAs utcNow token = some (w.manager.userIdText me))
    (hissued : w.issue issuedUtc x = some token) :
    x.Enters w.manager me ∧ utcNow ≤ issuedUtc + accessTokenExpireTimeSpan := by
  obtain ⟨identity, hidentity, rfl⟩ := Option.map_eq_some_iff.mp hissued
  unfold WebApp.servedAs at hserved
  rw [w.accessTokenFormat.unprotect_protect] at hserved
  obtain ⟨ticket, hticket, hclaims⟩ := Option.bind_eq_some_iff.mp hserved
  obtain ⟨heq, hlive⟩ := Option.filter_eq_some_iff.mp hticket
  cases heq
  rw [Option.bind_some] at hclaims
  obtain ⟨hissuers, hid⟩ := Option.ite_none_right_eq_some.mp hclaims
  obtain ⟨⟨type, value, issuer⟩, hfirst, rfl⟩ := Option.map_eq_some_iff.mp hid
  refine ⟨⟨identity, hidentity, ?_⟩, ?_⟩
  · have hissuer := List.all_eq_true.mp hissuers _ (List.mem_of_find?_eq_some hfirst)
    have htype := List.find?_some hfirst
    rw [hfirst]
    simp only [decide_eq_true_eq] at hissuer htype
    rw [hissuer, htype]
  · rw [live_eq rfl rfl] at hlive
    exact of_decide_eq_true hlive

theorem issue_granted (w : WebApp) (utcNow : Nat) (user : ApplicationUser) :
    w.issue utcNow (.token (granted w.manager user)) = some (w.accessTokenFormat.protect
      ⟨some (w.manager.createIdentityAsync user bearer),
        some (utcNow + accessTokenExpireTimeSpan), createProperties user.userName⟩) := rfl

/-- An answer stays. -/
theorem answered_after {pre : List Nat} (rest : List Nat) {j : Nat} {th : Visit} {x : Response}
    (hj : (Visits.after w a rs pre).threads[j]? = some th) (hleft : th.left = .ret x) :
    (Visits.after w a rs (pre ++ rest)).threads[j]? = some th := by
  have hsplit : Visits.after w a rs (pre ++ rest)
      = (Visits.after w a rs pre).run (manageExec w.manager) rest := List.foldl_append
  obtain ⟨tag, left, own⟩ := th
  cases hleft
  rw [hsplit, Pool.run_thread rest hj, Pool.follow_ret]

/-- **As long as nobody comes with what opens an account**, nobody is served as it. -/
theorem unserved_of_closed (hm : w.manager.Identifies) (ha : a.Intact w.manager)
    (hsound : (a.directory w.manager).Sound) (hauthorised : Authorised w a rs t sched) {id : Nat}
    {h : Holder (Option Utf16) Utf16 UserLoginInfo}
    (hholder : (a.directory w.manager).holder id = some h)
    (hclosed : ∀ r ∈ rs, ¬ r.1.Opens w.manager h) (pre : List Nat) :
    ∀ rest, sched = pre ++ rest → Unserved rs pre id := by
  induction pre using List.reverseRecOn with
  | nil => simp [Unserved]
  | append_singleton pre i ih =>
      intro rest hsched
      have hpre := ih (i :: rest) (by simpa using hsched)
      by_cases hfirst : i ∈ pre
      · intro j hj
        rcases List.mem_append.mp hj with hj | hj
        · exact hpre j hj
        · rw [List.mem_singleton.mp hj]
          exact hpre i hfirst
      · intro j hj r hr hme
        rcases List.mem_append.mp hj with hj | hj
        · exact hpre j hj r hr hme
        · -- he has a token, of somebody who would have come with what opens the account
          rw [List.mem_singleton.mp hj] at hr
          obtain ⟨token, hserved, k, th, x, hk, hleft, hissued⟩ :=
            hauthorised i r id pre rest hr hme (by simpa using hsched) hfirst
          have henters := (servedAs_issue hserved hissued).1
          obtain ⟨hopens, -⟩ :=
            (untouched hm ha hsound hholder hpre).2 k th x hk hleft henters
          obtain ⟨r', hr', htag⟩ := tag_of_visit hk
          exact hclosed r' (List.mem_of_getElem? hr') (htag ▸ hopens)

end Tokens

/-- What a run has come to in which tokens are not made up. -/
structure Guarded (w : WebApp) (a : Accounts) (rs : List (Endpoint × List Bool)) (t : Times)
    (sched : List Nat) : Prop where
  /-- Whoever is served as somebody bears the token of one who was signed in as him, not more
  than fourteen days ago. -/
  signed : ∀ (i : Nat) r me pre rest, rs[i]? = some r → r.1.me = some me →
    sched = pre ++ i :: rest → i ∉ pre → ∃ (j : Nat) (th : Visit) (x : Response),
      (Visits.after w a rs sched).threads[j]? = some th ∧ th.left = .ret x
      ∧ x.Enters w.manager me ∧ t.arrived i ≤ t.answered j + accessTokenExpireTimeSpan
  /-- Without what opens an account, nobody is served as it, changes it or is signed in as it. -/
  closed : ∀ id h, (a.directory w.manager).holder id = some h →
    (∀ r ∈ rs, ¬ r.1.Opens w.manager h) →
      Unserved rs sched id
      ∧ ((Visits.after w a rs sched).shared.directory w.manager).holder id = some h
      ∧ ∀ (i : Nat) (th : Visit) x, (Visits.after w a rs sched).threads[i]? = some th →
          th.left = .ret x → ¬ x.Enters w.manager id

/-- Bob signs up while Ann has an account, and changes his password. -/
def bobVisits : List (Endpoint × List Bool) :=
  [(.signup (.register (some { registerAnn with email := some (utf16 "bob@jhu.edu") })), []),
    (.token (utf16 "bob@jhu.edu") (utf16 "Secret1!"), []),
    (.changePassword 1 (some ⟨some (utf16 "Secret1!"), some (utf16 "Secret2!"),
      some (utf16 "Secret2!")⟩), [])]

/-- The user he becomes. -/
def bobUser : ApplicationUser :=
  { annUser with id := 1, email := some (utf16 "bob@jhu.edu"),
                 userName := some (utf16 "bob@jhu.edu") }

/-- What his token says. -/
def bobTicket : AuthenticationTicket :=
  ⟨some (plainManager.createIdentityAsync bobUser bearer),
    some (86400 + accessTokenExpireTimeSpan), createProperties bobUser.userName⟩

/-- They have a turn one after the other. -/
def bobTurns : List Nat := [0, 0, 0, 0, 0, 1, 2, 2, 2, 2, 2]

/-- The requests come a day after one another. -/
def daily : Times := ⟨fun i => i * 86400, fun i => i * 86400⟩

theorem authorised_bob : Authorised plainApp annAccounts bobVisits daily bobTurns := by
  intro i r me pre rest hr hme hsched hfirst
  obtain ⟨rfl, rfl⟩ : i = 2 ∧ me = 1 := by
    rcases i with _ | _ | _ | i
    · cases hr
      cases hme
    · cases hr
      cases hme
    · cases hr
      cases hme
      exact ⟨rfl, rfl⟩
    · cases hr
  -- his last request has its first turn when his token has been granted
  obtain rfl : pre = [0, 0, 0, 0, 0, 1] := by
    have hbefore := congrArg (List.takeWhile fun k => decide (k ≠ 2)) hsched
    have hpre : ∀ k ∈ pre, decide (k ≠ 2) = true :=
      fun k hk => decide_eq_true fun h : k = 2 => hfirst (h ▸ hk)
    rw [List.takeWhile_append_of_pos hpre] at hbefore
    simpa [bobTurns] using hbefore.symm
  have hlive : (plainApp.accessTokenFormat.unprotect (plainApp.accessTokenFormat.protect
      bobTicket)).filter (·.live (daily.arrived 2)) = some bobTicket := by
    rw [plainApp.accessTokenFormat.unprotect_protect]
    exact Option.filter_eq_some_iff.mpr ⟨rfl, by decide⟩
  refine ⟨plainApp.accessTokenFormat.protect bobTicket, ?_, 1,
    ⟨.token (utf16 "bob@jhu.edu") (utf16 "Secret1!"),
      .ret (.token (granted plainManager bobUser)), ⟨[], []⟩⟩, _, by rfl, rfl, ?_⟩
  · unfold WebApp.servedAs
    rw [hlive]
    rfl
  · exact issue_granted plainApp (daily.answered 1) bobUser

end TacPac.Web
