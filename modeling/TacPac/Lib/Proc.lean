import Mathlib.Order.Basic
import Mathlib.Data.List.Basic
import Mathlib.Control.Lawful

/-!
# Programs that call out

A request handler is a straight piece of code that, every now and then, calls
something outside itself: a query, a write, a remote post. `Proc` keeps exactly
that structure. It is the tree of calls, each with the code that runs on the
answer, and it says nothing about what a call does.

What a call does is an `Exec`. The same program can then be run on its own
(`Proc.run`), or one call at a time next to others (`TacPac.Lib.Pool`), and one
predicate, `Proc.wp`, reasons about both: it lets the state move by `rely`
before every call and asks every call for `guar`.
-/

namespace TacPac.Lib

/-! ## A partial function along a list -/

section Partial

variable {α β : Type} {f : α → Option β} {l : List α}

/-- It is defined along the list, with the results `ys`. -/
theorem mapM_eq_some_iff {ys : List β} : l.mapM f = some ys ↔ l.map f = ys.map some := by
  induction l generalizing ys with
  | nil => cases ys <;> simp
  | cons x l ih =>
      rw [List.mapM_cons, List.map_cons]
      cases hx : f x with
      | none => cases ys <;> simp
      | some y =>
          rw [Option.bind_eq_bind, Option.bind_some, Option.bind_eq_bind,
            Option.bind_eq_some_iff]
          constructor
          · rintro ⟨rest, hrest, heq⟩
            cases heq
            rw [List.map_cons, ih.mp hrest]
          · intro heq
            cases ys with
            | nil => cases heq
            | cons y' rest =>
                obtain ⟨hy, hrest⟩ := List.cons.inj heq
                exact ⟨rest, ih.mpr hrest, by rw [Option.some.inj hy]; rfl⟩

theorem isSome_mapM_iff : (l.mapM f).isSome ↔ ∀ x ∈ l, (f x).isSome := by
  rw [Option.isSome_iff_exists]
  constructor
  · rintro ⟨ys, h⟩ x hx
    have hmem : f x ∈ l.map f := List.mem_map_of_mem hx
    rw [mapM_eq_some_iff.mp h] at hmem
    obtain ⟨y, -, hy⟩ := List.mem_map.mp hmem
    rw [← hy]
    rfl
  · intro h
    refine ⟨l.pmap (fun x hx => (f x).get (h x hx)) fun _ hx => hx, mapM_eq_some_iff.mpr ?_⟩
    rw [List.map_pmap]
    simp

theorem mapM_snoc {x : α} {ys : List β} {y : β} (hl : l.mapM f = some ys) (hx : f x = some y) :
    (l ++ [x]).mapM f = some (ys ++ [y]) := by
  rw [mapM_eq_some_iff, List.map_append, List.map_append, mapM_eq_some_iff.mp hl]
  simp [hx]

/-- What an element has become. -/
theorem mem_of_mapM {ys : List β} (h : l.mapM f = some ys) {x : α} (hx : x ∈ l) :
    ∃ y ∈ ys, f x = some y := by
  have hmem : f x ∈ l.map f := List.mem_map_of_mem hx
  rw [mapM_eq_some_iff.mp h] at hmem
  obtain ⟨y, hy, heq⟩ := List.mem_map.mp hmem
  exact ⟨y, hy, heq.symm⟩

/-- Where a result comes from. -/
theorem source_of_mapM {ys : List β} (h : l.mapM f = some ys) {y : β} (hy : y ∈ ys) :
    ∃ x ∈ l, f x = some y := by
  have hmem : some y ∈ ys.map some := List.mem_map_of_mem hy
  rw [← mapM_eq_some_iff.mp h] at hmem
  exact List.mem_map.mp hmem

/-- It is defined along the list, and all its results are as said. -/
theorem exists_mapM_iff {Q : β → Prop} : (∃ ys, l.mapM f = some ys ∧ ∀ y ∈ ys, Q y)
    ↔ ∀ x ∈ l, ∃ y, f x = some y ∧ Q y := by
  constructor
  · rintro ⟨ys, h, hQ⟩ x hx
    obtain ⟨y, hy, hfx⟩ := mem_of_mapM h hx
    exact ⟨y, hfx, hQ y hy⟩
  · intro h
    have hsome : (l.mapM f).isSome := isSome_mapM_iff.mpr fun x hx => by
      obtain ⟨y, hfx, -⟩ := h x hx
      rw [hfx]
      rfl
    obtain ⟨ys, hys⟩ := Option.isSome_iff_exists.mp hsome
    refine ⟨ys, hys, fun y hy => ?_⟩
    obtain ⟨x, hx, hfx⟩ := source_of_mapM hys hy
    obtain ⟨y', hfx', hQ⟩ := h x hx
    rw [Option.some.inj (hfx.symm.trans hfx')]
    exact hQ

end Partial

/-- A program over the calls `Op`, answered in `Res`, raising `ε`, returning `α`. -/
inductive Proc (Op : Type) (Res : Op → Type) (ε : Type) (α : Type) where
  | ret (a : α)
  | raise (e : ε)
  | call (o : Op) (k : Res o → Proc Op Res ε α)

namespace Proc

variable {Op : Type} {Res : Op → Type} {ε α β γ : Type}

/-- One program after another. -/
def bind : Proc Op Res ε α → (α → Proc Op Res ε β) → Proc Op Res ε β
  | .ret a, f => f a
  | .raise e, _ => .raise e
  | .call o k, f => .call o (fun r => (k r).bind f)

instance : Monad (Proc Op Res ε) where
  pure := .ret
  bind := .bind

@[simp] theorem pure_eq (a : α) : (pure a : Proc Op Res ε α) = .ret a := rfl

@[simp] theorem ret_bind (a : α) (f : α → Proc Op Res ε β) : (Proc.ret a >>= f) = f a := rfl

@[simp] theorem raise_bind (e : ε) (f : α → Proc Op Res ε β) :
    (Proc.raise e >>= f) = .raise e := rfl

@[simp] theorem call_bind (o : Op) (k : Res o → Proc Op Res ε α) (f : α → Proc Op Res ε β) :
    (Proc.call o k >>= f) = .call o (fun r => k r >>= f) := rfl

/-- A single call, whose answer is the result. -/
def ask (o : Op) : Proc Op Res ε (Res o) := .call o .ret

/-- The value, or the exception where there is none. -/
def orRaise (e : ε) : Option α → Proc Op Res ε α
  | some a => .ret a
  | none => .raise e

/-- A loop that collects, and raises where there is nothing to collect. -/
theorem foldlM_orRaise (e : ε) (f : α → Option β) (l : List α) : ∀ ys : List β,
    l.foldlM (fun ys x => orRaise e (f x) >>= fun y => (Proc.ret (ys ++ [y]) :
      Proc Op Res ε (List β))) ys = orRaise e ((l.mapM f).map (ys ++ ·)) := by
  induction l with
  | nil =>
      intro ys
      simp [orRaise]
  | cons x l ih =>
      intro ys
      rw [List.foldlM_cons, List.mapM_cons]
      cases f x with
      | none => rfl
      | some y =>
          show l.foldlM _ (ys ++ [y]) = _
          rw [ih]
          cases l.mapM f <;> simp [orRaise]

theorem bind_ret (p : Proc Op Res ε α) : (p >>= Proc.ret) = p := by
  induction p with
  | ret a => rfl
  | raise e => rfl
  | call o k ih => exact congrArg (Proc.call o) (funext ih)

theorem bind_assoc (p : Proc Op Res ε α) (f : α → Proc Op Res ε β) (g : β → Proc Op Res ε γ) :
    ((p >>= f) >>= g) = (p >>= fun a => f a >>= g) := by
  induction p with
  | ret a => rfl
  | raise e => rfl
  | call o k ih => exact congrArg (Proc.call o) (funext ih)

instance : LawfulMonad (Proc Op Res ε) :=
  LawfulMonad.mk' _ bind_ret (fun _ _ => rfl) bind_assoc

end Proc

/-- What each call answers, and what it does to the state. -/
abbrev Exec (Op : Type) (Res : Op → Type) (ε σ : Type) : Type :=
  (o : Op) → σ → Except ε (Res o) × σ

namespace Proc

variable {Op : Type} {Res : Op → Type} {ε σ α β γ : Type}

/-- The program run on its own, to its result or its exception. -/
def run (exec : Exec Op Res ε σ) : Proc Op Res ε α → σ → Except ε α × σ
  | .ret a, s => (.ok a, s)
  | .raise e, s => (.error e, s)
  | .call o k, s =>
      match exec o s with
      | (.ok r, s') => run exec (k r) s'
      | (.error e, s') => (.error e, s')

variable {exec : Exec Op Res ε σ}

theorem run_call_ok {o : Op} {k : Res o → Proc Op Res ε α} {s s' : σ} {r : Res o}
    (h : exec o s = (.ok r, s')) : run exec (.call o k) s = run exec (k r) s' := by
  rw [run, h]

theorem run_call_error {o : Op} {k : Res o → Proc Op Res ε α} {s s' : σ} {e : ε}
    (h : exec o s = (.error e, s')) : run exec (.call o k) s = (.error e, s') := by
  rw [run, h]

/-- What has returned goes on with what follows. -/
theorem run_seq {p : Proc Op Res ε α} {f : α → Proc Op Res ε β} {s s' : σ} {a : α}
    (h : run exec p s = (.ok a, s')) : run exec (p >>= f) s = run exec (f a) s' := by
  induction p generalizing s with
  | ret b => cases h; rfl
  | raise e => cases h
  | call o k ih =>
      rcases hq : exec o s with ⟨e | r, s₁⟩
      · rw [run_call_error hq] at h
        cases h
      · rw [run_call_ok hq] at h
        rw [call_bind, run_call_ok hq]
        exact ih r h

/-- What is made of the result is nothing to the state. -/
theorem run_bind_ret (p : Proc Op Res ε α) (f : α → β) (s : σ) :
    (run exec (p >>= fun a => .ret (f a)) s).2 = (run exec p s).2 := by
  induction p generalizing s with
  | ret a => rfl
  | raise e => rfl
  | call o k ih =>
      rw [call_bind]
      rcases hq : exec o s with ⟨e | r, s₁⟩
      · rw [run_call_error hq, run_call_error hq]
      · rw [run_call_ok hq, run_call_ok hq]
        exact ih r s₁

/-- A sequence that returns has returned twice. -/
theorem run_bind_ok {p : Proc Op Res ε α} {f : α → Proc Op Res ε β} {s s' : σ} {b : β}
    (h : run exec (p >>= f) s = (.ok b, s')) :
    ∃ a s₁, run exec p s = (.ok a, s₁) ∧ run exec (f a) s₁ = (.ok b, s') := by
  induction p generalizing s with
  | ret a => exact ⟨a, s, rfl, h⟩
  | raise e => cases h
  | call o k ih =>
      rw [call_bind] at h
      rcases hq : exec o s with ⟨e | r, s₁⟩
      · rw [run_call_error hq] at h
        cases h
      · rw [run_call_ok hq] at h ⊢
        exact ih r h

/-- Whatever its calls answer, what the program returns is in `Q`. -/
def Yields (Q : α → Prop) : Proc Op Res ε α → Prop
  | .ret a => Q a
  | .raise _ => True
  | .call _ k => ∀ r, Yields Q (k r)

theorem yields_bind {Q : β → Prop} {p : Proc Op Res ε α} {f : α → Proc Op Res ε β}
    (hf : ∀ a, Yields Q (f a)) : Yields Q (p >>= f) := by
  induction p with
  | ret a => exact hf a
  | raise e => trivial
  | call o k ih => exact fun r => ih r

/-! ### What a program raises itself -/

/-- Whatever its calls answer, what the program itself raises is in `E`. -/
def RaisesOnly (E : ε → Prop) : Proc Op Res ε α → Prop
  | .ret _ => True
  | .raise e => E e
  | .call _ k => ∀ r, RaisesOnly E (k r)

theorem raisesOnly_ask (E : ε → Prop) (o : Op) :
    RaisesOnly E (ask o : Proc Op Res ε (Res o)) := fun _ => trivial

theorem raisesOnly_bind {E : ε → Prop} {p : Proc Op Res ε α} {f : α → Proc Op Res ε β}
    (hp : RaisesOnly E p) (hf : ∀ a, RaisesOnly E (f a)) : RaisesOnly E (p >>= f) := by
  induction p with
  | ret a => exact hf a
  | raise e => exact hp
  | call o k ih => exact fun r => ih r (hp r)

theorem raisesOnly_orRaise {E : ε → Prop} {e : ε} {o : Option α} (h : o = none → E e) :
    RaisesOnly E (orRaise e o : Proc Op Res ε α) := by
  cases o with
  | none => exact h rfl
  | some a => trivial

theorem raisesOnly_foldlM {E : ε → Prop} {f : β → γ → Proc Op Res ε β} {l : List γ} {b : β}
    (h : ∀ x ∈ l, ∀ b, RaisesOnly E (f b x)) : RaisesOnly E (l.foldlM f b) := by
  induction l generalizing b with
  | nil => trivial
  | cons x l ih =>
      rw [List.foldlM_cons]
      exact raisesOnly_bind (h x List.mem_cons_self b)
        fun b' => ih fun y hy => h y (List.mem_cons_of_mem _ hy)

/-- While no call fails, whatever a program ends with is its own. -/
theorem run_of_raisesOnly {E : ε → Prop} {P : σ → Prop} {p : Proc Op Res ε α}
    (hexec : ∀ o s, P s → ∃ r s', exec o s = (.ok r, s') ∧ P s') (hp : RaisesOnly E p) {s : σ}
    (hs : P s) : match run exec p s with
      | (.ok _, s') => P s'
      | (.error e, s') => E e ∧ P s' := by
  induction p generalizing s with
  | ret a => exact hs
  | raise e => exact ⟨hp, hs⟩
  | call o k ih =>
      obtain ⟨r, s₁, hq, hs₁⟩ := hexec o s hs
      rw [run_call_ok hq]
      exact ih r (hp r) hs₁

/-- Whatever its calls answer, the program itself does not raise. -/
def NoRaise : Proc Op Res ε α → Prop
  | .ret _ => True
  | .raise _ => False
  | .call _ k => ∀ r, NoRaise (k r)

theorem noRaise_iff {p : Proc Op Res ε α} : NoRaise p ↔ RaisesOnly (fun _ => False) p := by
  induction p with
  | ret a => exact Iff.rfl
  | raise e => exact Iff.rfl
  | call o k ih => exact forall_congr' ih

theorem noRaise_ask (o : Op) : NoRaise (ask o : Proc Op Res ε (Res o)) := fun _ => trivial

theorem noRaise_bind {p : Proc Op Res ε α} {f : α → Proc Op Res ε β} (hp : NoRaise p)
    (hf : ∀ a, NoRaise (f a)) : NoRaise (p >>= f) :=
  noRaise_iff.mpr (raisesOnly_bind (noRaise_iff.mp hp) fun a => noRaise_iff.mp (hf a))

theorem noRaise_foldlM {f : β → γ → Proc Op Res ε β} {l : List γ} {b : β}
    (h : ∀ x ∈ l, ∀ b, NoRaise (f b x)) : NoRaise (l.foldlM f b) :=
  noRaise_iff.mpr (raisesOnly_foldlM fun x hx b => noRaise_iff.mp (h x hx b))

/-- While no call fails, such a program returns. -/
theorem run_of_noRaise {P : σ → Prop} {p : Proc Op Res ε α}
    (hexec : ∀ o s, P s → ∃ r s', exec o s = (.ok r, s') ∧ P s') (hp : NoRaise p) {s : σ}
    (hs : P s) : ∃ a s', run exec p s = (.ok a, s') ∧ P s' := by
  have hrun := run_of_raisesOnly hexec (noRaise_iff.mp hp) hs
  rcases hq : run exec p s with ⟨e | a, s'⟩
  · rw [hq] at hrun
    exact hrun.1.elim
  · rw [hq] at hrun
    exact ⟨a, s', rfl, hrun⟩

/-! ### Whether a run returns -/

/-- The program, run to a result. -/
def Returns (exec : Exec Op Res ε σ) (p : Proc Op Res ε α) (s : σ) : Prop :=
  ∃ a s', run exec p s = (.ok a, s')

theorem returns_ret (a : α) (s : σ) : Returns exec (.ret a) s := ⟨a, s, rfl⟩

theorem not_returns_raise {e : ε} {s : σ} : ¬ Returns exec (.raise e : Proc Op Res ε α) s := by
  rintro ⟨a, s', h⟩
  cases h

theorem returns_bind {p : Proc Op Res ε α} {f : α → Proc Op Res ε β} {s : σ} :
    Returns exec (p >>= f) s ↔ ∃ a s', run exec p s = (.ok a, s') ∧ Returns exec (f a) s' := by
  constructor
  · rintro ⟨b, s', h⟩
    obtain ⟨a, s₁, hp, hf⟩ := run_bind_ok h
    exact ⟨a, s₁, hp, b, s', hf⟩
  · rintro ⟨a, s₁, hp, b, s', hf⟩
    exact ⟨b, s', (run_seq hp).trans hf⟩

theorem returns_orRaise {e : ε} {o : Option α} {f : α → Proc Op Res ε β} {s : σ} :
    Returns exec (orRaise e o >>= f) s ↔ ∃ a, o = some a ∧ Returns exec (f a) s := by
  cases o with
  | none => exact ⟨fun h => (not_returns_raise h).elim, fun ⟨a, ha, _⟩ => by cases ha⟩
  | some a => exact ⟨fun h => ⟨a, rfl, h⟩, fun ⟨b, hb, h⟩ => by cases hb; exact h⟩

/-- **Whether a loop returns.** Each turn has a condition of its own, in the states that the
turns before it leave. -/
theorem returns_foldlM (J : σ → Prop) {ok : γ → Prop} {f : β → γ → Proc Op Res ε β}
    (hturn : ∀ x b s, J s → (Returns exec (f b x) s ↔ ok x))
    (hkeep : ∀ x b s b' s', J s → run exec (f b x) s = (.ok b', s') → J s') (l : List γ) :
    ∀ b s, J s → (Returns exec (l.foldlM f b) s ↔ ∀ x ∈ l, ok x) := by
  induction l with
  | nil => exact fun b s _ => iff_of_true (returns_ret b s) (by simp)
  | cons x l ih =>
      intro b s hJ
      rw [List.foldlM_cons, returns_bind, List.forall_mem_cons, ← hturn x b s hJ]
      constructor
      · rintro ⟨b', s', hrun, hrest⟩
        exact ⟨⟨b', s', hrun⟩, (ih b' s' (hkeep x b s b' s' hJ hrun)).mp hrest⟩
      · rintro ⟨⟨b', s', hrun⟩, hrest⟩
        exact ⟨b', s', hrun, (ih b' s' (hkeep x b s b' s' hJ hrun)).mpr hrest⟩

end Proc

/-- Where a program runs: what its calls do, how the state may move between
them, and what each of them must keep. -/
structure Setting (Op : Type) (Res : Op → Type) (ε σ : Type) where
  exec : Exec Op Res ε σ
  rely : σ → σ → Prop
  guar : σ → σ → Prop

namespace Proc

variable {Op : Type} {Res : Op → Type} {ε σ α β γ : Type}

/-- Started in `s`, the program keeps `guar` at every call, and ends in `Q` if it
returns and in `E` if it raises. -/
def wp (S : Setting Op Res ε σ) :
    Proc Op Res ε α → (α → σ → Prop) → (ε → σ → Prop) → σ → Prop
  | .ret a, Q, _, s => Q a s
  | .raise e, _, E, s => E e s
  | .call o k, Q, E, s => ∀ s₁, S.rely s s₁ →
      S.guar s₁ (S.exec o s₁).2 ∧
        match (S.exec o s₁).1 with
        | .ok r => wp S (k r) Q E (S.exec o s₁).2
        | .error e => E e (S.exec o s₁).2

variable {S : Setting Op Res ε σ}

@[simp] theorem wp_ret (a : α) (Q : α → σ → Prop) (E : ε → σ → Prop) (s : σ) :
    wp S (.ret a) Q E s ↔ Q a s := Iff.rfl

@[simp] theorem wp_raise (e : ε) (Q : α → σ → Prop) (E : ε → σ → Prop) (s : σ) :
    wp S (.raise e : Proc Op Res ε α) Q E s ↔ E e s := Iff.rfl

theorem wp_call {o : Op} {k : Res o → Proc Op Res ε α} {Q : α → σ → Prop} {E : ε → σ → Prop}
    {s : σ} : wp S (.call o k) Q E s ↔ ∀ s₁, S.rely s s₁ →
      S.guar s₁ (S.exec o s₁).2 ∧
        match (S.exec o s₁).1 with
        | .ok r => wp S (k r) Q E (S.exec o s₁).2
        | .error e => E e (S.exec o s₁).2 := Iff.rfl

/-- A weaker postcondition is easier to reach. -/
theorem wp_mono {Q Q' : α → σ → Prop} {E E' : ε → σ → Prop} {p : Proc Op Res ε α} {s : σ}
    (h : wp S p Q E s) (hQ : ∀ a s, Q a s → Q' a s) (hE : ∀ e s, E e s → E' e s) :
    wp S p Q' E' s := by
  induction p generalizing s with
  | ret a => exact hQ a s h
  | raise e => exact hE e s h
  | call o k ih =>
      intro s₁ hs
      obtain ⟨hg, hk⟩ := h s₁ hs
      refine ⟨hg, ?_⟩
      cases hr : (S.exec o s₁).1 with
      | ok r => rw [hr] at hk; exact ih r hk
      | error e => rw [hr] at hk; exact hE e _ hk

/-- Sequencing. -/
theorem wp_bind {p : Proc Op Res ε α} {f : α → Proc Op Res ε β} {Q : β → σ → Prop}
    {E : ε → σ → Prop} {s : σ} :
    wp S (p >>= f) Q E s ↔ wp S p (fun a s => wp S (f a) Q E s) E s := by
  induction p generalizing s with
  | ret a => exact Iff.rfl
  | raise e => exact Iff.rfl
  | call o k ih =>
      rw [call_bind, wp_call, wp_call]
      refine forall_congr' fun s₁ => imp_congr_right fun _ => and_congr_right fun _ => ?_
      cases (S.exec o s₁).1 with
      | ok r => exact ih r
      | error e => exact Iff.rfl

/-- A program followed by another: what the first establishes, the second needs. -/
theorem wp_seq {p : Proc Op Res ε α} {f : α → Proc Op Res ε β} {R : α → σ → Prop}
    {Q : β → σ → Prop} {E : ε → σ → Prop} {s : σ}
    (hp : wp S p R E s) (hf : ∀ a s, R a s → wp S (f a) Q E s) : wp S (p >>= f) Q E s :=
  wp_bind.mpr (wp_mono hp hf (fun _ _ h => h))

/-- **The loop rule.** An invariant over the part of the list already walked,
kept by every turn of the loop, holds of the whole list when the loop ends. -/
theorem wp_foldlM (Inv : List γ → β → σ → Prop) {f : β → γ → Proc Op Res ε β} {l : List γ}
    {b : β} {E : ε → σ → Prop} {s : σ} (h0 : Inv [] b s)
    (hstep : ∀ pre x post, l = pre ++ x :: post → ∀ b s, Inv pre b s →
      wp S (f b x) (fun b' s' => Inv (pre ++ [x]) b' s') E s) :
    wp S (l.foldlM f b) (fun b' s' => Inv l b' s') E s := by
  -- induction on what is still to be walked, for every prefix behind it
  suffices h : ∀ (post pre : List γ) (b : β) (s : σ), l = pre ++ post → Inv pre b s →
      wp S (post.foldlM f b) (fun b' s' => Inv l b' s') E s from h l [] b s rfl h0
  intro post
  induction post with
  | nil =>
      intro pre b s hl hi
      rw [List.append_nil] at hl
      subst hl
      exact hi
  | cons x post ih =>
      intro pre b s hl hi
      rw [List.foldlM_cons]
      exact wp_seq (hstep pre x post hl b s hi)
        (fun b' s' hi' => ih (pre ++ [x]) b' s' (by rw [hl, List.append_assoc]; rfl) hi')

/-- **Soundness, alone.** If nothing has to have moved between two calls, what
`wp` says of a program is what running it does. -/
theorem run_of_wp (hrefl : ∀ s, S.rely s s) {p : Proc Op Res ε α} {Q : α → σ → Prop}
    {E : ε → σ → Prop} {s : σ} (h : wp S p Q E s) :
    match p.run S.exec s with
    | (.ok a, s') => Q a s'
    | (.error e, s') => E e s' := by
  induction p generalizing s with
  | ret a => exact h
  | raise e => exact h
  | call o k ih =>
      -- the state has not moved, and then the call is the one `run` makes
      obtain ⟨-, hk⟩ := h s (hrefl s)
      rw [run]
      rcases hq : S.exec o s with ⟨r | r, s'⟩
      · rw [hq] at hk; exact hk
      · rw [hq] at hk; exact ih r hk

end Proc

end TacPac.Lib
