import TacPac.Lib.Pool
import Mathlib.Data.List.Induction
import Mathlib.Data.List.Nodup

/-!
# Runs that are as if one after another

Programs that take turns, each of which changes the shared state by one call at most
and does not look at it afterwards. If what such a program has read until then is the
very state it changes, its part of the run is what it would have done alone, all at
once, at that point. So a run in which that holds of every change is the serial run
of the programs in the order of their changes (`run_serial`): the same shared state
in the end, and for every program the same answer.
-/

namespace TacPac.Lib

variable {Op : Type} {Res : Op → Type} {ε α β γ Tag S L : Type}

namespace Proc

/-- All the calls that the program can make are in `P`. -/
def Only (P : Op → Prop) : Proc Op Res ε α → Prop
  | .ret _ => True
  | .raise _ => True
  | .call o k => P o ∧ ∀ r, Only P (k r)

theorem only_ask {P : Op → Prop} {o : Op} (h : P o) :
    Only P (ask o : Proc Op Res ε (Res o)) := ⟨h, fun _ => trivial⟩

theorem only_bind {P : Op → Prop} {p : Proc Op Res ε α} {f : α → Proc Op Res ε β}
    (hp : Only P p) (hf : ∀ a, Only P (f a)) : Only P (p >>= f) := by
  induction p with
  | ret a => exact hf a
  | raise e => trivial
  | call o k ih => exact ⟨hp.1, fun r => ih r (hp.2 r)⟩

theorem only_orRaise {P : Op → Prop} (e : ε) (o : Option α) :
    Only P (orRaise e o : Proc Op Res ε α) := by
  cases o <;> trivial

theorem only_foldlM {P : Op → Prop} {f : β → γ → Proc Op Res ε β} {l : List γ} {b : β}
    (h : ∀ x ∈ l, ∀ b, Only P (f b x)) : Only P (l.foldlM f b) := by
  induction l generalizing b with
  | nil => trivial
  | cons x l ih =>
      rw [List.foldlM_cons]
      exact only_bind (h x List.mem_cons_self b)
        fun b' => ih fun y hy => h y (List.mem_cons_of_mem _ hy)

end Proc

/-- Which calls look at the shared state, and which may change it. -/
structure Access (exec : Exec Op Res ε (S × L)) where
  reads : Op → Bool
  writes : Op → Bool
  /-- A call that does not write leaves the shared state alone. -/
  still : ∀ o s l, writes o = false → (exec o (s, l)).2.1 = s
  /-- A call that does neither does not depend on it. -/
  blind : ∀ o s s' l, reads o = false → writes o = false →
    (exec o (s, l)).1 = (exec o (s', l)).1 ∧ (exec o (s, l)).2.2 = (exec o (s', l)).2.2

namespace Access

variable {exec : Exec Op Res ε (S × L)} (A : Access exec)

/-- The call has nothing to do with the shared state. -/
def Private (o : Op) : Prop := A.reads o = false ∧ A.writes o = false

/-- After a write the program has nothing to do with the shared state any more. -/
def WritesOnce : Proc Op Res ε α → Prop
  | .ret _ => True
  | .raise _ => True
  | .call o k => (A.writes o = true → ∀ r, (k r).Only A.Private)
      ∧ (A.writes o = false → ∀ r, WritesOnce (k r))

variable {A}

theorem writesOnce_bind {p : Proc Op Res ε α} {f : α → Proc Op Res ε β}
    (hp : p.Only (fun o => A.writes o = false)) (hf : ∀ a, A.WritesOnce (f a)) :
    A.WritesOnce (p >>= f) := by
  induction p with
  | ret a => exact hf a
  | raise e => trivial
  | call o k ih =>
      refine ⟨fun hw => ?_, fun _ r => ih r (hp.2 r)⟩
      rw [hp.1] at hw
      cases hw

/-- The next call of a thread looks at the shared state. -/
def readsNext (A : Access exec) (th : Thread Op Res ε α Tag L) : Bool :=
  match th.left with
  | .call o _ => A.reads o
  | _ => false

/-- The next call of a thread may change it. -/
def writesNext (A : Access exec) (th : Thread Op Res ε α Tag L) : Bool :=
  match th.left with
  | .call o _ => A.writes o
  | _ => false

end Access

namespace Pool

variable {exec : Exec Op Res ε (S × L)} {A : Access exec}

/-! ## One turn -/

/-- A turn is the first step of what the thread would do alone. -/
theorem run_advance (s : S) (th : Thread Op Res ε α Tag L) :
    th.left.run exec (s, th.own)
      = (advance exec s th).2.left.run exec ((advance exec s th).1, (advance exec s th).2.own) := by
  obtain ⟨tag, left, own⟩ := th
  cases left with
  | ret a => rfl
  | raise e => rfl
  | call o k =>
      rcases hq : exec o (s, own) with ⟨e | r, w⟩
      · rw [advance_error hq]
        exact Proc.run_call_error hq
      · rw [advance_ok hq]
        exact Proc.run_call_ok hq

theorem advance_still {s : S} {th : Thread Op Res ε α Tag L} (h : A.writesNext th = false) :
    (advance exec s th).1 = s := by
  obtain ⟨tag, left, own⟩ := th
  cases left with
  | ret a => rfl
  | raise e => rfl
  | call o k => rw [advance_call_shared, A.still o s own h]

theorem advance_blind {s s' : S} {th : Thread Op Res ε α Tag L} (hr : A.readsNext th = false)
    (hw : A.writesNext th = false) : (advance exec s th).2 = (advance exec s' th).2 := by
  obtain ⟨tag, left, own⟩ := th
  cases left with
  | ret a => rfl
  | raise e => rfl
  | call o k =>
      obtain ⟨hres, hown⟩ := A.blind o s s' own hr hw
      rcases hq : exec o (s, own) with ⟨e | r, w⟩
      · rcases hq' : exec o (s', own) with ⟨e' | r', w'⟩
        · rw [hq, hq'] at hres hown
          rw [advance_error hq, advance_error hq', show w.2 = w'.2 from hown,
            Except.error.inj hres]
        · rw [hq, hq'] at hres
          cases hres
      · rcases hq' : exec o (s', own) with ⟨e' | r', w'⟩
        · rw [hq, hq'] at hres
          cases hres
        · rw [hq, hq'] at hres hown
          rw [advance_ok hq, advance_ok hq', show w.2 = w'.2 from hown, Except.ok.inj hres]

/-- A turn leaves a program that writes once such a program, or it was the write. -/
theorem writesOnce_advance {s : S} {th : Thread Op Res ε α Tag L} (h : A.WritesOnce th.left) :
    (A.writesNext th = false → A.WritesOnce (advance exec s th).2.left)
    ∧ (A.writesNext th = true → (advance exec s th).2.left.Only A.Private) := by
  obtain ⟨tag, left, own⟩ := th
  cases left with
  | ret a => exact ⟨fun _ => trivial, fun _ => trivial⟩
  | raise e => exact ⟨fun _ => trivial, fun _ => trivial⟩
  | call o k =>
      rcases hq : exec o (s, own) with ⟨e | r, w⟩
      · rw [advance_error hq]
        exact ⟨fun _ => trivial, fun _ => trivial⟩
      · rw [advance_ok hq]
        exact ⟨fun hw => h.2 hw r, fun hw => h.1 hw r⟩

theorem private_advance {s : S} {th : Thread Op Res ε α Tag L} (h : th.left.Only A.Private) :
    A.readsNext th = false ∧ A.writesNext th = false
      ∧ (advance exec s th).2.left.Only A.Private := by
  obtain ⟨tag, left, own⟩ := th
  cases left with
  | ret a => exact ⟨rfl, rfl, trivial⟩
  | raise e => exact ⟨rfl, rfl, trivial⟩
  | call o k =>
      refine ⟨h.1.1, h.1.2, ?_⟩
      rcases hq : exec o (s, own) with ⟨e | r, w⟩
      · rw [advance_error hq]
        trivial
      · rw [advance_ok hq]
        exact h.2 r

/-- What has nothing to do with the shared state leaves it alone. -/
theorem private_run {p : Proc Op Res ε α} (h : p.Only A.Private) (s : S) : ∀ own : L,
    (p.run exec (s, own)).2.1 = s := by
  induction p with
  | ret a => exact fun _ => rfl
  | raise e => exact fun _ => rfl
  | call o k ih =>
      intro own
      have hstill := A.still o s own h.1.2
      rcases hq : exec o (s, own) with ⟨e | r, s₁, own₁⟩
      · rw [Proc.run_call_error hq]
        rw [hq] at hstill
        exact hstill
      · rw [Proc.run_call_ok hq]
        rw [hq] at hstill
        rw [show s₁ = s from hstill]
        exact ih r (h.2 r) own₁

/-! ## Who writes, and what he has read -/

/-- The shared states that the reads of thread `i` have found. -/
def found (A : Access exec) (i : Nat) (p : Pool Op Res ε α Tag S L) : List Nat → List S
  | [] => []
  | j :: sched =>
      (if j = i ∧ (p.threads[j]?.any A.readsNext) = true then [p.shared] else [])
        ++ found A i (p.step exec j) sched

/-- The threads whose turn it was to write, in that order. -/
def writers (A : Access exec) (p : Pool Op Res ε α Tag S L) : List Nat → List Nat
  | [] => []
  | j :: sched => (if (p.threads[j]?.any A.writesNext) = true then [j] else [])
      ++ writers A (p.step exec j) sched

/-- Whenever a thread writes, all it has read is the state that it writes to. -/
def Isolated (A : Access exec) (p : Pool Op Res ε α Tag S L) (sched : List Nat) : Prop :=
  ∀ pre i post, sched = pre ++ i :: post →
    ((p.run exec pre).threads[i]?.any A.writesNext) = true →
      ∀ s ∈ found A i p pre, s = (p.run exec pre).shared

theorem run_snoc (p : Pool Op Res ε α Tag S L) (sched : List Nat) (i : Nat) :
    p.run exec (sched ++ [i]) = (p.run exec sched).step exec i := by
  unfold run
  rw [List.foldl_append]
  rfl

theorem found_snoc (i j : Nat) (sched : List Nat) : ∀ p : Pool Op Res ε α Tag S L,
    found A i p (sched ++ [j]) = found A i p sched
      ++ if j = i ∧ ((p.run exec sched).threads[j]?.any A.readsNext) = true
        then [(p.run exec sched).shared] else [] := by
  induction sched with
  | nil =>
      intro p
      show _ ++ [] = [] ++ _
      rw [List.append_nil, List.nil_append]
      rfl
  | cons x sched ih =>
      intro p
      rw [List.cons_append, found, ih, found, List.append_assoc]
      rfl

theorem writers_snoc (j : Nat) (sched : List Nat) : ∀ p : Pool Op Res ε α Tag S L,
    writers A p (sched ++ [j]) = writers A p sched
      ++ if ((p.run exec sched).threads[j]?.any A.writesNext) = true then [j] else [] := by
  induction sched with
  | nil =>
      intro p
      show _ ++ [] = [] ++ _
      rw [List.append_nil, List.nil_append]
      rfl
  | cons x sched ih =>
      intro p
      rw [List.cons_append, writers, ih, writers, List.append_assoc]
      rfl

theorem isolated_init {p : Pool Op Res ε α Tag S L} {sched : List Nat} {i : Nat}
    (h : Isolated A p (sched ++ [i])) : Isolated A p sched := by
  intro pre j post hsched
  exact h pre j (post ++ [i]) (by rw [hsched]; simp)

/-- It is enough to look at every turn of the schedule. -/
theorem isolated_of_take {p : Pool Op Res ε α Tag S L} {sched : List Nat}
    (h : ∀ n i, sched[n]? = some i →
      ((p.run exec (sched.take n)).threads[i]?.any A.writesNext) = true →
        ∀ s ∈ found A i p (sched.take n), s = (p.run exec (sched.take n)).shared) :
    Isolated A p sched := by
  intro pre i post hsched
  have hpre : sched.take pre.length = pre := by rw [hsched, List.take_left]
  have hturn := h pre.length i
    (by rw [hsched, List.getElem?_append_right (Nat.le_refl _), Nat.sub_self]; rfl)
  rw [hpre] at hturn
  exact hturn

/-! ## The serial run -/

/-- The shared state after thread `i` of `p` has run alone, from `s`. -/
def solo (exec : Exec Op Res ε (S × L)) (p : Pool Op Res ε α Tag S L) (s : S) (i : Nat) : S :=
  match p.threads[i]? with
  | some th => (th.left.run exec (s, th.own)).2.1
  | none => s

/-- The shared state after these threads of `p` have run, one after another. -/
def serial (exec : Exec Op Res ε (S × L)) (p : Pool Op Res ε α Tag S L) (is : List Nat) : S :=
  is.foldl (solo exec p) p.shared

theorem serial_snoc (p : Pool Op Res ε α Tag S L) (is : List Nat) (i : Nat) :
    serial exec p (is ++ [i]) = solo exec p (serial exec p is) i := by
  unfold serial
  rw [List.foldl_append]
  rfl

/-- Thread `th₀`, now `th`, has not written yet: it is where it would be if it had run
alone from the state that its reads have found. -/
structure Rehearsed (A : Access exec) (found : List S) (th₀ th : Thread Op Res ε α Tag L) :
    Prop where
  once : A.WritesOnce th.left
  same : ∀ s, (∀ s' ∈ found, s' = s) →
    th₀.left.run exec (s, th₀.own) = th.left.run exec (s, th.own)

/-- It has written: it is where it would be if it had run alone from `s`. -/
structure Performed (A : Access exec) (s s' : S) (th₀ th : Thread Op Res ε α Tag L) :
    Prop where
  past : th.left.Only A.Private
  same : th₀.left.run exec (s, th₀.own) = th.left.run exec (s', th.own)

theorem rehearsed_advance {found : List S} {s : S} {th₀ th : Thread Op Res ε α Tag L}
    (h : Rehearsed A found th₀ th) (hw : A.writesNext th = false) :
    Rehearsed A (found ++ if A.readsNext th = true then [s] else []) th₀
      (advance exec s th).2 := by
  refine ⟨(writesOnce_advance h.once).1 hw, fun s₁ hs₁ => ?_⟩
  rw [h.same s₁ fun s' hs' => hs₁ s' (List.mem_append_left _ hs'), run_advance, advance_still hw]
  have hturn : (advance exec s₁ th).2 = (advance exec s th).2 := by
    cases hr : A.readsNext th with
    | false => exact advance_blind hr hw
    | true => rw [hs₁ s (List.mem_append_right _ (by rw [hr]; exact List.mem_cons_self))]
  rw [hturn]

theorem performed_advance {s s' s₁ : S} {th₀ th : Thread Op Res ε α Tag L}
    (h : Performed A s s' th₀ th) : Performed A s s' th₀ (advance exec s₁ th).2 := by
  obtain ⟨hr, hw, hpast⟩ := private_advance (s := s₁) h.past
  refine ⟨hpast, ?_⟩
  rw [h.same, run_advance, advance_still hw, advance_blind hr hw]

/-- The write. -/
theorem performed_of_rehearsed {found : List S} {s : S} {th₀ th : Thread Op Res ε α Tag L}
    (h : Rehearsed A found th₀ th) (hw : A.writesNext th = true) (hfound : ∀ s' ∈ found, s' = s) :
    Performed A s (advance exec s th).1 th₀ (advance exec s th).2 :=
  ⟨(writesOnce_advance h.once).2 hw, (h.same s hfound).trans (run_advance s th)⟩

/-- What holds of a run with isolated writes. -/
structure Serialized (A : Access exec) (p : Pool Op Res ε α Tag S L) (sched : List Nat) :
    Prop where
  shared : (p.run exec sched).shared = serial exec p (writers A p sched)
  nodup : (writers A p sched).Nodup
  before : ∀ i th₀ th, p.threads[i]? = some th₀ → (p.run exec sched).threads[i]? = some th →
    i ∉ writers A p sched → Rehearsed A (found A i p sched) th₀ th
  after : ∀ n i th₀ th, p.threads[i]? = some th₀ → (p.run exec sched).threads[i]? = some th →
    (writers A p sched)[n]? = some i →
      Performed A (serial exec p ((writers A p sched).take n))
        (serial exec p ((writers A p sched).take (n + 1))) th₀ th

theorem serialized_init {p : Pool Op Res ε α Tag S L}
    (h : ∀ th ∈ p.threads, A.WritesOnce th.left) : Serialized A p [] where
  shared := rfl
  nodup := List.nodup_nil
  before := by
    intro i th₀ th h₀ hth _
    have hsame : th₀ = th := Option.some.inj (h₀.symm.trans hth)
    subst hsame
    exact ⟨h th₀ (List.mem_of_getElem? h₀), fun _ _ => rfl⟩
  after := by
    intro n i th₀ th _ _ hn
    exact absurd hn (by simp [writers])

/-- A thread that is there now was there from the start. -/
theorem exists_start {p : Pool Op Res ε α Tag S L} {sched : List Nat} {i : Nat}
    {th : Thread Op Res ε α Tag L} (h : (p.run exec sched).threads[i]? = some th) :
    ∃ th₀, p.threads[i]? = some th₀ := by
  have hlen := congrArg List.length (run_tags exec sched p)
  rw [List.length_map, List.length_map] at hlen
  obtain ⟨hlt, -⟩ := List.getElem?_eq_some_iff.mp h
  exact ⟨_, List.getElem?_eq_getElem (by omega)⟩

/-- A turn of a thread that does not write. -/
theorem serialized_quiet {p : Pool Op Res ε α Tag S L} {sched : List Nat} {i : Nat}
    {th : Thread Op Res ε α Tag L} (h : Serialized A p sched)
    (hth : (p.run exec sched).threads[i]? = some th) (hw : A.writesNext th = false) :
    Serialized A p (sched ++ [i]) := by
  have hwriters : writers A p (sched ++ [i]) = writers A p sched := by
    rw [writers_snoc, hth, Option.any_some, hw, if_neg (by simp), List.append_nil]
  have hshared : (p.run exec (sched ++ [i])).shared = (p.run exec sched).shared := by
    rw [run_snoc]
    unfold step
    rw [hth]
    exact advance_still hw
  constructor
  · rw [hshared, hwriters]
    exact h.shared
  · rw [hwriters]
    exact h.nodup
  · intro j th₀ th' h₀ hth' hnot
    rw [hwriters] at hnot
    rw [run_snoc] at hth'
    rw [found_snoc, hth, Option.any_some]
    by_cases hj : i = j
    · subst hj
      rw [step_self hth] at hth'
      rw [← Option.some.inj hth']
      have hnext := rehearsed_advance (s := (p.run exec sched).shared)
        (h.before i th₀ th h₀ hth hnot) hw
      simpa using hnext
    · rw [step_other hj] at hth'
      rw [if_neg (fun hc => hj hc.1), List.append_nil]
      exact h.before j th₀ th' h₀ hth' hnot
  · intro n j th₀ th' h₀ hth' hn
    rw [hwriters] at hn ⊢
    rw [run_snoc] at hth'
    by_cases hj : i = j
    · subst hj
      rw [step_self hth] at hth'
      rw [← Option.some.inj hth']
      exact performed_advance (h.after n i th₀ th h₀ hth hn)
    · rw [step_other hj] at hth'
      exact h.after n j th₀ th' h₀ hth' hn

/-- A write that is isolated. -/
theorem serialized_write {p : Pool Op Res ε α Tag S L} {sched : List Nat} {i : Nat}
    {th : Thread Op Res ε α Tag L} (h : Serialized A p sched)
    (hth : (p.run exec sched).threads[i]? = some th) (hw : A.writesNext th = true)
    (hfound : ∀ s ∈ found A i p sched, s = (p.run exec sched).shared) :
    Serialized A p (sched ++ [i]) := by
  obtain ⟨th₀, h₀⟩ := exists_start hth
  have hwriters : writers A p (sched ++ [i]) = writers A p sched ++ [i] := by
    rw [writers_snoc, hth, Option.any_some, hw, if_pos rfl]
  -- a thread writes once
  have hnot : i ∉ writers A p sched := by
    intro hmem
    obtain ⟨n, hn⟩ := List.mem_iff_getElem?.mp hmem
    have hidle := (private_advance (s := p.shared) (h.after n i th₀ th h₀ hth hn).past).2.1
    rw [hw] at hidle
    cases hidle
  have hdone := performed_of_rehearsed (h.before i th₀ th h₀ hth hnot) hw hfound
  have hshared : (p.run exec (sched ++ [i])).shared
      = (advance exec (p.run exec sched).shared th).1 := by
    rw [run_snoc]
    unfold step
    rw [hth]
  have hserial : (advance exec (p.run exec sched).shared th).1
      = serial exec p (writers A p sched ++ [i]) := by
    rw [serial_snoc, ← h.shared]
    unfold solo
    rw [h₀]
    show _ = (th₀.left.run exec ((p.run exec sched).shared, th₀.own)).2.1
    rw [hdone.same, private_run hdone.past]
  have hlt : ∀ {n j}, (writers A p sched)[n]? = some j → n < (writers A p sched).length :=
    fun hn => (List.getElem?_eq_some_iff.mp hn).1
  constructor
  · rw [hshared, hwriters, hserial]
  · rw [hwriters]
    exact List.nodup_append.mpr ⟨h.nodup, List.nodup_singleton i, fun a ha b hb hab =>
      hnot (by rw [← List.mem_singleton.mp hb, ← hab]; exact ha)⟩
  · intro j th₁ th' h₁ hth' hnotin
    rw [hwriters] at hnotin
    rw [run_snoc] at hth'
    have hj : i ≠ j := fun e => hnotin (by rw [e]; exact List.mem_append_right _ List.mem_cons_self)
    rw [step_other hj] at hth'
    rw [found_snoc, if_neg (fun hc => hj hc.1), List.append_nil]
    exact h.before j th₁ th' h₁ hth' fun hmem => hnotin (List.mem_append_left _ hmem)
  · intro n j th₁ th' h₁ hth' hn
    rw [hwriters] at hn ⊢
    rw [run_snoc] at hth'
    rcases Nat.lt_trichotomy n (writers A p sched).length with hless | hend | hmore
    · -- somebody who has written before
      rw [List.getElem?_append_left hless] at hn
      have hj : i ≠ j := fun e => hnot (by rw [e]; exact List.mem_of_getElem? hn)
      rw [step_other hj] at hth'
      rw [List.take_append_of_le_length (by omega), List.take_append_of_le_length (by omega)]
      exact h.after n j th₁ th' h₁ hth' hn
    · subst hend
      rw [List.getElem?_append_right (Nat.le_refl _), Nat.sub_self] at hn
      obtain rfl : i = j := Option.some.inj hn
      rw [step_self hth] at hth'
      rw [← Option.some.inj hth', List.take_left, ← h.shared,
        List.take_of_length_le (by rw [List.length_append]; exact Nat.le_refl _), ← hserial]
      rw [h₀] at h₁
      rw [← Option.some.inj h₁]
      exact hdone
    · exact absurd (List.getElem?_eq_some_iff.mp hn).1
        (by rw [List.length_append, List.length_singleton]; omega)

/-- One turn. -/
theorem serialized_step {p : Pool Op Res ε α Tag S L} {sched : List Nat} {i : Nat}
    (h : Serialized A p sched) (hiso : Isolated A p (sched ++ [i])) :
    Serialized A p (sched ++ [i]) := by
  cases hth : (p.run exec sched).threads[i]? with
  | some th =>
      cases hw : A.writesNext th with
      | false => exact serialized_quiet h hth hw
      | true =>
          refine serialized_write h hth hw (hiso sched i [] rfl ?_)
          rw [hth, Option.any_some, hw]
  | none =>
      -- nobody's turn
      have hrun : p.run exec (sched ++ [i]) = p.run exec sched := by
        rw [run_snoc]
        unfold step
        rw [hth]
      have hwriters : writers A p (sched ++ [i]) = writers A p sched := by
        rw [writers_snoc, hth, Option.any_none, if_neg (by simp), List.append_nil]
      have hfound : ∀ j, found A j p (sched ++ [i]) = found A j p sched := by
        intro j
        rw [found_snoc, hth, Option.any_none, if_neg (by simp), List.append_nil]
      exact ⟨by rw [hrun, hwriters]; exact h.shared, by rw [hwriters]; exact h.nodup,
        by rw [hrun, hwriters]; simpa only [hfound] using h.before,
        by rw [hrun, hwriters]; exact h.after⟩

/-- **A run with isolated writes is serial.** -/
theorem run_serial {p : Pool Op Res ε α Tag S L} (h : ∀ th ∈ p.threads, A.WritesOnce th.left)
    (sched : List Nat) (hiso : Isolated A p sched) : Serialized A p sched := by
  induction sched using List.reverseRecOn with
  | nil => exact serialized_init h
  | append_singleton sched i ih => exact serialized_step (ih (isolated_init hiso)) hiso

end Pool

end TacPac.Lib
