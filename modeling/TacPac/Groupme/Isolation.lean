import TacPac.Groupme.Overlap
import TacPac.Lib.Isolation

/-!
# Overlapping requests that do not meet

`Overlap.lean` says what overlapping requests lose. This file says when they lose
nothing at all: when every request saves to the very table that its queries have
seen. A run like that is the calls handled one after another, in the order in which
they came to their saves (`isolated_serve`); the table is theirs, and so is
every reply and every exception.

Requests that have not queried when they save, such as those that only register, are
never in the way of that.
-/

namespace TacPac.Groupme

open TacPac.Lib

/-- It looks at the table. -/
def Op.reads : Op → Bool
  | .toList => true
  | _ => false

/-- It writes to the table. -/
def Op.writes : Op → Bool
  | .saveChanges => true
  | _ => false

/-- Only the query looks at the table, and only the save writes to it. -/
def access : Access exec where
  reads := Op.reads
  writes := Op.writes
  still := by
    intro o t l hw
    rcases exec_cases o t l with ⟨fs, hx⟩ | ⟨f, fs, hx⟩
    · rw [hx]
      cases o with
      | saveChanges => cases hw
      | _ => rfl
    · rw [hx]
  blind := by
    intro o t t' l hr hw
    unfold exec
    rcases l.faults with _ | ⟨_ | _ | _, fs⟩
    all_goals cases o with
      | toList => cases hr
      | saveChanges => cases hw
      | _ => exact ⟨rfl, rfl⟩

/-! ## A request saves once, at the end -/

/-- A piece of the handler that does not save. -/
abbrev Unsaving {α : Type} (p : Handler α) : Prop := p.Only (fun o => access.writes o = false)

theorem unsaving_locus (a : AttachmentBindingModel) (i j : Nat) : Unsaving (locus a i j) :=
  Proc.only_bind (Proc.only_orRaise _ _) fun _ =>
    Proc.only_bind (Proc.only_orRaise _ _) fun _ =>
      Proc.only_bind (Proc.only_orRaise _ _) fun _ => Proc.only_orRaise _ _

theorem unsaving_findMentions (g : GroupmeBindingModel) : Unsaving (findMentions g) := by
  refine Proc.only_bind (Proc.only_orRaise _ _) fun as => Proc.only_foldlM fun i _ acc => ?_
  refine Proc.only_bind (Proc.only_orRaise _ _) fun i => ?_
  split <;> trivial

theorem unsaving_register (text : Utf16) (g : GroupmeBindingModel) :
    Unsaving (register text g) := by
  refine Proc.only_bind (unsaving_findMentions g) fun o => ?_
  cases o with
  | none => exact Proc.only_ask rfl
  | some a =>
      refine Proc.only_bind ?_ fun _ => Proc.only_ask rfl
      refine Proc.only_bind (Proc.only_orRaise _ _) fun ids => Proc.only_foldlM fun x _ acc => ?_
      refine Proc.only_bind (unsaving_locus a x.2 0) fun _ => ?_
      refine Proc.only_bind (unsaving_locus a x.2 1) fun _ => ?_
      refine Proc.only_bind (Proc.only_orRaise _ _) fun name => ?_
      show Proc.Only _ (if _ then _ else _)
      split
      · exact Proc.only_bind (Proc.only_ask rfl) fun _ => trivial
      · trivial

theorem unsaving_credit (diff : Int32) (userId : Int64) (name : Utf16) (phis : List Phikeia) :
    Unsaving (credit diff userId name phis) := by
  refine Proc.only_foldlM fun phi _ acc => ?_
  show Proc.Only _ (if _ then _ else _)
  split
  · refine Proc.only_bind (Proc.only_orRaise _ _) fun _ => ?_
    exact Proc.only_bind (Proc.only_ask rfl) fun _ => trivial
  · trivial

theorem unsaving_merit (text : Utf16) (g : GroupmeBindingModel) : Unsaving (merit text g) := by
  refine Proc.only_bind (unsaving_findMentions g) fun o => ?_
  cases o with
  | none => trivial
  | some a =>
      refine Proc.only_bind ?_ fun _ => Proc.only_ask rfl
      refine Proc.only_bind (Proc.only_orRaise _ _) fun ids => Proc.only_foldlM fun x _ acc => ?_
      refine Proc.only_bind (unsaving_locus a x.2 0) fun _ => ?_
      refine Proc.only_bind (unsaving_locus a x.2 1) fun _ => ?_
      refine Proc.only_bind (Proc.only_orRaise _ _) fun name => ?_
      refine Proc.only_bind (Proc.only_ask rfl) fun phis => ?_
      exact Proc.only_bind (unsaving_credit _ _ _ phis) fun _ => trivial

theorem unsaving_branches (text : Utf16) (g : GroupmeBindingModel) :
    Unsaving (branches text g) := by
  rw [branches_eq]
  refine Proc.only_bind ?_ fun _ => Proc.only_bind ?_ fun _ => ?_
  · split
    · exact unsaving_register text g
    · trivial
  · split
    · exact unsaving_merit text g
    · trivial
  · split
    · exact Proc.only_bind (Proc.only_ask rfl) fun _ => Proc.only_ask rfl
    · trivial

theorem msg_writesOnce (g : Option GroupmeBindingModel) : access.WritesOnce (msg g) := by
  cases g with
  | none => trivial
  | some m =>
      cases htext : m.text with
      | none => rw [msg_noText htext]; trivial
      | some text =>
          rw [msg_text htext]
          refine Access.writesOnce_bind (unsaving_branches text m) fun _ => ⟨fun _ _ => ?_, ?_⟩
          · show Proc.Only _ (if _ then _ else _)
            split
            · exact Proc.only_ask ⟨rfl, rfl⟩
            · trivial
          · intro hw
            cases hw

/-! ## The order of the saves -/

/-- The requests in the order in which they came to their saves. -/
def saveOrder (t : Table Phikeia) (cs : List Call) (sched : List Nat) : List Nat :=
  Pool.writers access (Requests.start t cs) sched

/-- The calls at these places. -/
def callsAt (cs : List Call) (is : List Nat) : List Call := is.filterMap (cs[·]?)

/-- How a request has ended, if it has. -/
def ended (th : Request) : Option (Except Exn Unit) :=
  match th.left with
  | .ret a => some (.ok a)
  | .raise e => some (.error e)
  | .call _ _ => none

theorem run_ended {th : Request} {r : Except Exn Unit} (h : ended th = some r)
    (t : Table Phikeia) : th.left.run exec (t, th.own) = (r, (t, th.own)) := by
  unfold ended at h
  rcases hl : th.left with a | e | ⟨o, k⟩
  · rw [hl] at h
    rw [← Option.some.inj h]
    rfl
  · rw [hl] at h
    rw [← Option.some.inj h]
    rfl
  · rw [hl] at h
    cases h

theorem serve_foldl (cs : List Call) : ∀ t : Table Phikeia,
    (serve t cs).1 = cs.foldl (fun t c => (handle t c).1) t := by
  induction cs with
  | nil => exact fun _ => rfl
  | cons c cs ih => exact fun t => ih (handle t c).1

theorem start_threads (t : Table Phikeia) (cs : List Call) (i : Nat) :
    (Requests.start t cs).threads[i]? = cs[i]?.map receive := List.getElem?_map

/-- The serial run of the library is `serve`. -/
theorem serial_start (t : Table Phikeia) (cs : List Call) (is : List Nat) :
    Pool.serial exec (Requests.start t cs) is = (serve t (callsAt cs is)).1 := by
  rw [serve_foldl]
  unfold callsAt Pool.serial
  rw [List.foldl_filterMap]
  show is.foldl _ t = is.foldl _ t
  refine congrArg (fun f => is.foldl f t) (funext fun t' => funext fun i => ?_)
  unfold Pool.solo
  rw [start_threads]
  cases cs[i]? with
  | none => rfl
  | some c => rfl

/-- A request that has not come to its save has not saved. -/
theorem saved_mem_order (t : Table Phikeia) (cs : List Call) (sched : List Nat) {i : Nat}
    {th : Request} (hth : ((Requests.start t cs).run exec sched).threads[i]? = some th)
    (hs : Effect.saved ∈ th.own.log) : i ∈ saveOrder t cs sched := by
  induction sched using List.reverseRecOn generalizing th with
  | nil =>
      have hth' : cs[i]?.map receive = some th := (start_threads t cs i).symm.trans hth
      obtain ⟨c, -, rfl⟩ := Option.map_eq_some_iff.mp hth'
      exact absurd hs (by simp [receive, Session.start])
  | append_singleton sched j ih =>
      unfold saveOrder at ih ⊢
      rw [Pool.run_snoc] at hth
      rw [Pool.writers_snoc]
      by_cases hj : j = i
      · subst hj
        cases hold : ((Requests.start t cs).run exec sched).threads[j]? with
        | none =>
            unfold Pool.step at hth
            rw [hold] at hth
            exact absurd (hold.symm.trans hth) (by simp)
        | some th₁ =>
            rw [Pool.step_self hold] at hth
            rw [← Option.some.inj hth] at hs
            cases hw : access.writesNext th₁ with
            | true =>
                rw [Option.any_some, hw]
                exact List.mem_append_right _ List.mem_cons_self
            | false =>
                refine List.mem_append_left _ (ih hold ?_)
                -- any other call leaves the log without a save
                obtain ⟨tag, left, own⟩ := th₁
                cases left with
                | ret a => exact hs
                | raise e => exact hs
                | call o k =>
                    rcases exec_cases o ((Requests.start t cs).run exec sched).shared own with
                      ⟨fs, hx⟩ | ⟨f, fs, hx⟩
                    · rw [Pool.advance_ok hx] at hs
                      cases o with
                      | saveChanges => cases hw
                      | post text => simpa [perform] using hs
                      | _ => exact hs
                    · rw [Pool.advance_error hx] at hs
                      exact saved_mem_failLog.mp hs
      · rw [Pool.step_other hj] at hth
        exact List.mem_append_left _ (ih hth hs)

/-- **Requests that do not meet are served one after another.** If every save is made
to the very table that the queries of its request have found, then the run leaves the
table that the calls leave when they are handled one after another, in the order of
the saves; and a request that has ended has ended as its call does there, with the
same replies. No request is in that order twice, and every one that has saved is. -/
theorem isolated_serve (t₀ : Table Phikeia) (cs : List Call) (sched : List Nat)
    (h : Pool.Isolated access (Requests.start t₀ cs) sched) :
    ((Requests.start t₀ cs).run exec sched).shared
        = (serve t₀ (callsAt cs (saveOrder t₀ cs sched))).1
    ∧ (saveOrder t₀ cs sched).Nodup
    ∧ ∀ i th, ((Requests.start t₀ cs).run exec sched).threads[i]? = some th →
        (Effect.saved ∈ th.own.log → i ∈ saveOrder t₀ cs sched)
        ∧ ∀ n c r, (saveOrder t₀ cs sched)[n]? = some i → cs[i]? = some c → ended th = some r →
            (msg c.body).run exec
                ((serve t₀ (callsAt cs ((saveOrder t₀ cs sched).take n))).1, Session.start c.faults)
              = (r, ((serve t₀ (callsAt cs ((saveOrder t₀ cs sched).take (n + 1)))).1,
                  th.own)) := by
  have honce : ∀ th ∈ (Requests.start t₀ cs).threads, access.WritesOnce th.left := by
    intro th hth
    obtain ⟨c, -, rfl⟩ := List.mem_map.mp hth
    exact msg_writesOnce c.body
  have hserial := Pool.run_serial honce sched h
  refine ⟨hserial.shared.trans (serial_start t₀ cs _), hserial.nodup, fun i th hth =>
    ⟨saved_mem_order t₀ cs sched hth, fun n c r hn hc hended => ?_⟩⟩
  have hstart : (Requests.start t₀ cs).threads[i]? = some (receive c) := by
    rw [start_threads, hc]
    rfl
  have hsame := (hserial.after n i _ th hstart hth hn).same
  rw [serial_start, serial_start, run_ended hended] at hsame
  exact hsame

/-- A merit and a registration, overlapping: the second begins first and saves last. -/
theorem isolated_serve_overlapping :
    ((Requests.start ledgerA [meritA, ⟨some registerA, []⟩]).run exec [1, 0, 0, 1, 0, 0, 1]).shared
      = (serve ledgerA [meritA, ⟨some registerA, []⟩]).1 := by
  have hiso : Pool.Isolated access (Requests.start ledgerA [meritA, ⟨some registerA, []⟩])
      [1, 0, 0, 1, 0, 0, 1] := by
    refine Pool.isolated_of_take fun n i hn hw s hs => ?_
    rcases n with _ | _ | _ | _ | _ | _ | _ | n
    · cases hn; cases hw
    · cases hn; cases hw
    · cases hn; cases hw
    · cases hn; cases hw
    · cases hn; cases hw
    · -- the merit saves to the table that it has queried
      cases hn
      obtain rfl : s = ledgerA := List.mem_singleton.mp hs
      rfl
    · -- the registration has not queried
      cases hn
      cases hs
    · cases hn
  have horder : saveOrder ledgerA [meritA, ⟨some registerA, []⟩] [1, 0, 0, 1, 0, 0, 1]
      = [0, 1] := by
    decide +kernel
  have hrun := (isolated_serve ledgerA [meritA, ⟨some registerA, []⟩] [1, 0, 0, 1, 0, 0, 1] hiso).1
  rw [horder] at hrun
  exact hrun

end TacPac.Groupme
