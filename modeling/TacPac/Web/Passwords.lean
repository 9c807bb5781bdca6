import TacPac.Web.Tokens

/-!
# Passwords

What `/Token` answers is decided at one place in the order of what the requests do
(`token_answered`), and the token that it gives out is served as the account that was entered
there, for as long as tokens live (`servedAs_granted`).
-/

namespace TacPac.Web

open TacPac.Lib

section Passwords

variable {w : WebApp} {a : Accounts} {rs : List (Endpoint × List Bool)} {sched : List Nat}

theorem token_of_visit {i : Nat} {th : Visit} {userName password : Utf16} {x : Response}
    (hi : (Visits.after w a rs sched).threads[i]? = some th)
    (htag : th.tag = .token userName password) (hleft : th.left = .ret x) :
    ∃ grant, x = .token grant := by
  obtain ⟨r, hr, hr'⟩ := tag_of_visit hi
  have hprogram : Proc.Yields (fun x => ∃ grant, x = .token grant) (visit w r).left := by
    show Proc.Yields _ (r.1.program w)
    rw [hr', htag]
    exact Proc.yields_bind fun grant => ⟨grant, rfl⟩
  have hstart : (Visits.start w a rs).threads[i]? = some (visit w r) := by
    show (rs.map (visit w))[i]? = _
    rw [List.getElem?_map, hr]
    rfl
  have hthread : (Visits.after w a rs sched).threads[i]? = some (Pool.follow
      (manageExec w.manager) (visit w r)
      (Pool.seen (manageExec w.manager) i (Visits.start w a rs) sched)) :=
    Pool.run_thread sched hstart
  have hyields := Pool.yields_follow (manageExec w.manager)
    (Pool.seen (manageExec w.manager) i (Visits.start w a rs) sched) hprogram
  rw [← Option.some.inj (hi.symm.trans hthread), hleft] at hyields
  exact hyields

/-- **What `/Token` answers** is whether there was an account with the name and the password
when it looked. -/
theorem token_answered (hrun : Accessed w a rs sched) {i : Nat} {th : Visit}
    {userName password : Utf16} {x : Response}
    (hi : (Visits.after w a rs sched).threads[i]? = some th)
    (htag : th.tag = .token userName password) (hleft : th.left = .ret x) :
    ∃ (n : Nat) (who : Option Nat), (acts w a rs sched)[n]?
        = some (i, .enter (some (w.manager.upper userName)) password who)
      ∧ (∀ id, who = some id ↔ (directoryAt w a rs sched n).Opens
          (some (w.manager.upper userName)) password id)
      ∧ ((∃ user, who = some user.id ∧ x = .token (granted w.manager user))
        ∨ who = none ∧ x = .token (.error (utf16 "invalid_grant")
          (utf16 "The user name or password is incorrect."))) := by
  obtain ⟨grant, rfl⟩ := token_of_visit hi htag hleft
  have hplace : ∀ {who}, .enter (some (w.manager.upper userName)) password who
      ∈ Pool.partOf i (acts w a rs sched) → ∃ n : Nat, (acts w a rs sched)[n]?
          = some (i, .enter (some (w.manager.upper userName)) password who)
        ∧ ∀ id, who = some id ↔ (directoryAt w a rs sched n).Opens
            (some (w.manager.upper userName)) password id := by
    intro who he
    obtain ⟨n, hn⟩ := List.mem_iff_getElem?.mp (Pool.mem_partOf.mp he)
    have hact : ((acts w a rs sched).map Prod.snd)[n]?
        = some (.enter (some (w.manager.upper userName)) password who) := by
      rw [List.getElem?_map, hn]
      rfl
    exact ⟨n, hn, Machine.can_of_legal hrun.legal hact⟩
  have hdone := hrun.answered i th _ hi hleft
  rw [htag] at hdone
  generalize Pool.partOf i (acts w a rs sched) = es at hdone hplace
  cases hdone with
  | answered hquery => cases hquery
  | refused _ hrefused => exact absurd hrefused not_false
  | granted _ _ user =>
      obtain ⟨n, hn, hcan⟩ := hplace List.mem_cons_self
      exact ⟨n, some user.id, hn, hcan, Or.inl ⟨user, rfl, rfl⟩⟩
  | denied =>
      obtain ⟨n, hn, hcan⟩ := hplace List.mem_cons_self
      exact ⟨n, none, hn, hcan, Or.inr ⟨rfl, rfl⟩⟩

/-- **A token is served as the account** that it was granted for, for as long as it lives. -/
theorem servedAs_granted (hm : w.manager.Identifies) (user : ApplicationUser)
    {issuedUtc : Nat} {token : Utf16}
    (hissued : w.issue issuedUtc (.token (granted w.manager user)) = some token) (utcNow : Nat) :
    w.servedAs utcNow token = if utcNow ≤ issuedUtc + accessTokenExpireTimeSpan then
      some (w.manager.userIdText user.id) else none := by
  rw [issue_granted] at hissued
  cases hissued
  have hissuers : (w.manager.createIdentityAsync user bearer).claims.all
      (fun c => c.issuer = defaultIssuer) = true :=
    List.all_eq_true.mpr fun c hc => decide_eq_true (hm.issuers user bearer c hc)
  unfold WebApp.servedAs
  rw [w.accessTokenFormat.unprotect_protect, Option.filter_some, live_eq rfl rfl]
  split
  · next hlive =>
    rw [if_pos (of_decide_eq_true hlive), Option.bind_some, Option.bind_some, if_pos hissuers]
    unfold ClaimsIdentity.findFirstValue
    rw [hm.subject]
    rfl
  · next hlive =>
    rw [if_neg (by simpa using hlive)]
    rfl

end Passwords

end TacPac.Web
