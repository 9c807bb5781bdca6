import TacPac.Lib.Proc

/-!
# Programs taking turns

Several programs run at once on one shared state, each with a state of its own.
They take turns at their calls: a schedule names whose turn it is, and every
schedule is possible. A call is one step, so a program can be overtaken between
any two of its calls.

The proof method is rely-guarantee. Each program is verified on its own against
what it may rely on (`Proc.wp`); if what every program guarantees is what every
other one relies on, then in any run, whatever the schedule, each of them still
is as verified (`step_holds`), and each step that is taken is one its program
guarantees (`step_cases`).
-/

namespace TacPac.Lib

/-- A program under way. The tag is what it was started for. -/
structure Thread (Op : Type) (Res : Op → Type) (ε α Tag L : Type) where
  tag : Tag
  left : Proc Op Res ε α
  own : L

/-- The programs under way, and what they share. -/
structure Pool (Op : Type) (Res : Op → Type) (ε α Tag S L : Type) where
  shared : S
  threads : List (Thread Op Res ε α Tag L)

namespace Pool

variable {Op : Type} {Res : Op → Type} {ε α Tag S L : Type}

/-- One call of one thread. -/
def advance (exec : Exec Op Res ε (S × L)) (s : S) (th : Thread Op Res ε α Tag L) :
    S × Thread Op Res ε α Tag L :=
  match th.left with
  | .ret _ => (s, th)
  | .raise _ => (s, th)
  | .call o k =>
      match exec o (s, th.own) with
      | (.ok r, w) => (w.1, { th with left := k r, own := w.2 })
      | (.error e, w) => (w.1, { th with left := .raise e, own := w.2 })

/-- The turn of the thread at index `i`. -/
def step (exec : Exec Op Res ε (S × L)) (p : Pool Op Res ε α Tag S L) (i : Nat) :
    Pool Op Res ε α Tag S L :=
  match p.threads[i]? with
  | some th => ⟨(advance exec p.shared th).1, p.threads.set i (advance exec p.shared th).2⟩
  | none => p

/-- The turns of a schedule. -/
def run (exec : Exec Op Res ε (S × L)) (p : Pool Op Res ε α Tag S L) (sched : List Nat) :
    Pool Op Res ε α Tag S L :=
  sched.foldl (step exec) p

theorem advance_ok {exec : Exec Op Res ε (S × L)} {s : S} {tag : Tag} {o : Op}
    {k : Res o → Proc Op Res ε α} {own : L} {r : Res o} {w : S × L}
    (h : exec o (s, own) = (.ok r, w)) :
    advance exec s ⟨tag, .call o k, own⟩ = (w.1, ⟨tag, k r, w.2⟩) := by
  simp only [advance, h]

theorem advance_error {exec : Exec Op Res ε (S × L)} {s : S} {tag : Tag} {o : Op}
    {k : Res o → Proc Op Res ε α} {own : L} {e : ε} {w : S × L}
    (h : exec o (s, own) = (.error e, w)) :
    advance exec s ⟨tag, .call o k, own⟩ = (w.1, ⟨tag, .raise e, w.2⟩) := by
  simp only [advance, h]

/-- What a call leaves to the others does not depend on how it ended. -/
theorem advance_call_shared {exec : Exec Op Res ε (S × L)} {s : S} {tag : Tag} {o : Op}
    {k : Res o → Proc Op Res ε α} {own : L} :
    (advance exec s ⟨tag, .call o k, own⟩).1 = (exec o (s, own)).2.1 := by
  rcases hq : exec o (s, own) with ⟨e | r, w⟩
  · rw [advance_error hq]
  · rw [advance_ok hq]

theorem advance_tag (exec : Exec Op Res ε (S × L)) (s : S) (th : Thread Op Res ε α Tag L) :
    (advance exec s th).2.tag = th.tag := by
  unfold advance
  split
  · rfl
  · rfl
  · split <;> rfl

theorem step_tags (exec : Exec Op Res ε (S × L)) (p : Pool Op Res ε α Tag S L) (i : Nat) :
    (p.step exec i).threads.map Thread.tag = p.threads.map Thread.tag := by
  unfold step
  cases hi : p.threads[i]? with
  | none => rfl
  | some th =>
      obtain ⟨hlt, hth⟩ := List.getElem?_eq_some_iff.mp hi
      show (p.threads.set i (advance exec p.shared th).2).map Thread.tag = _
      have hmap : i < (p.threads.map Thread.tag).length := by rw [List.length_map]; exact hlt
      have hself : (p.threads.map Thread.tag)[i] = th.tag := by rw [List.getElem_map, hth]
      rw [List.map_set, advance_tag, ← hself, List.set_getElem_self]

theorem run_tags (exec : Exec Op Res ε (S × L)) (sched : List Nat) :
    ∀ p : Pool Op Res ε α Tag S L,
      (p.run exec sched).threads.map Thread.tag = p.threads.map Thread.tag := by
  induction sched with
  | nil => intro p; rfl
  | cons i sched ih => intro p; exact (ih (p.step exec i)).trans (step_tags exec p i)

/-! ## One thread of a run -/

/-- The shared states that the thread at index `i` finds at its turns. -/
def seen (exec : Exec Op Res ε (S × L)) (i : Nat) : Pool Op Res ε α Tag S L → List Nat → List S
  | _, [] => []
  | p, j :: sched =>
      if j = i then p.shared :: seen exec i (p.step exec j) sched
      else seen exec i (p.step exec j) sched

/-- A thread, given the shared states of its turns. -/
def follow (exec : Exec Op Res ε (S × L)) (th : Thread Op Res ε α Tag L) (seen : List S) :
    Thread Op Res ε α Tag L :=
  seen.foldl (fun th s => (advance exec s th).2) th

theorem step_self {exec : Exec Op Res ε (S × L)} {p : Pool Op Res ε α Tag S L} {i : Nat}
    {th : Thread Op Res ε α Tag L} (h : p.threads[i]? = some th) :
    (p.step exec i).threads[i]? = some (advance exec p.shared th).2 := by
  have hlt := (List.getElem?_eq_some_iff.mp h).1
  unfold step
  rw [h]
  exact List.getElem?_set_self hlt

theorem step_shared {exec : Exec Op Res ε (S × L)} {p : Pool Op Res ε α Tag S L} {i : Nat}
    {th : Thread Op Res ε α Tag L} (h : p.threads[i]? = some th) :
    (p.step exec i).shared = (advance exec p.shared th).1 := by
  unfold step
  rw [h]

theorem step_other {exec : Exec Op Res ε (S × L)} {p : Pool Op Res ε α Tag S L} {i j : Nat}
    (h : j ≠ i) : (p.step exec j).threads[i]? = p.threads[i]? := by
  unfold step
  cases p.threads[j]? with
  | none => rfl
  | some th => exact List.getElem?_set_ne h

/-- **A thread's run** depends on the others only through what it finds at its turns. -/
theorem run_thread {exec : Exec Op Res ε (S × L)} {i : Nat} (sched : List Nat) :
    ∀ {p : Pool Op Res ε α Tag S L} {th : Thread Op Res ε α Tag L}, p.threads[i]? = some th →
      (p.run exec sched).threads[i]? = some (follow exec th (seen exec i p sched)) := by
  induction sched with
  | nil =>
      intro p th h
      exact h
  | cons j sched ih =>
      intro p th h
      show ((p.step exec j).run exec sched).threads[i]? = _
      unfold seen
      by_cases hj : j = i
      · rw [if_pos hj, hj]
        exact ih (step_self h)
      · rw [if_neg hj]
        exact ih ((step_other hj).trans h)

/-- The state of a turn is the one that the run up to it has left. -/
theorem seen_getElem {exec : Exec Op Res ε (S × L)} {i : Nat} (sched : List Nat) :
    ∀ {p : Pool Op Res ε α Tag S L} {n : Nat} {s : S}, (seen exec i p sched)[n]? = some s →
      ∃ pre rest, sched = pre ++ i :: rest ∧ pre.count i = n ∧ s = (p.run exec pre).shared := by
  induction sched with
  | nil =>
      intro p n s h
      cases h
  | cons j sched ih =>
      intro p n s h
      unfold seen at h
      by_cases hj : j = i
      · rw [if_pos hj] at h
        rcases n with _ | n
        · cases h
          exact ⟨[], sched, by rw [hj]; rfl, rfl, rfl⟩
        · obtain ⟨pre, rest, hsched, hcount, hs⟩ := ih h
          refine ⟨j :: pre, rest, by rw [hsched]; rfl, ?_, hs⟩
          rw [List.count_cons, hcount]
          simp [hj]
      · rw [if_neg hj] at h
        obtain ⟨pre, rest, hsched, hcount, hs⟩ := ih h
        refine ⟨j :: pre, rest, by rw [hsched]; rfl, ?_, hs⟩
        rw [List.count_cons, hcount]
        simp [hj]

theorem seen_length (exec : Exec Op Res ε (S × L)) (i : Nat) (sched : List Nat) :
    ∀ p : Pool Op Res ε α Tag S L, (seen exec i p sched).length = sched.count i := by
  induction sched with
  | nil => intro p; rfl
  | cons j sched ih =>
      intro p
      unfold seen
      by_cases hj : j = i
      · rw [if_pos hj, List.length_cons, ih, hj, List.count_cons_self]
      · rw [if_neg hj, ih, List.count_cons_of_ne hj]

theorem yields_advance {Q : α → Prop} (exec : Exec Op Res ε (S × L)) (s : S)
    {th : Thread Op Res ε α Tag L} (h : Proc.Yields Q th.left) :
    Proc.Yields Q (advance exec s th).2.left := by
  obtain ⟨tag, left, own⟩ := th
  cases left with
  | ret a => exact h
  | raise e => exact h
  | call o k =>
      rcases hq : exec o (s, own) with ⟨e | r, w⟩
      · rw [advance_error hq]
        trivial
      · rw [advance_ok hq]
        exact h r

/-- What a thread returns is what its program does. -/
theorem yields_follow {Q : α → Prop} (exec : Exec Op Res ε (S × L)) (seen : List S) :
    ∀ {th : Thread Op Res ε α Tag L}, Proc.Yields Q th.left →
      Proc.Yields Q (follow exec th seen).left := by
  induction seen with
  | nil => exact fun h => h
  | cons s seen ih => exact fun h => ih (yields_advance exec s h)

theorem follow_raise {exec : Exec Op Res ε (S × L)} (seen : List S) {tag : Tag} {e : ε}
    {own : L} : follow exec (⟨tag, .raise e, own⟩ : Thread Op Res ε α Tag L) seen
      = ⟨tag, .raise e, own⟩ := by
  induction seen with
  | nil => rfl
  | cons s seen ih => exact ih

theorem follow_ret {exec : Exec Op Res ε (S × L)} (seen : List S) {tag : Tag} {a : α}
    {own : L} : follow exec (⟨tag, .ret a, own⟩ : Thread Op Res ε α Tag L) seen
      = ⟨tag, .ret a, own⟩ := by
  induction seen with
  | nil => rfl
  | cons s seen ih => exact ih

/-- What every thread relies on and guarantees, and how it may end. -/
structure Contract (Op : Type) (Res : Op → Type) (ε α Tag S L : Type) where
  rely : S → S → Prop
  guar : Tag → S × L → S × L → Prop
  done : Tag → α → S × L → Prop
  failed : Tag → ε → S × L → Prop
  refl : ∀ s, rely s s
  trans : ∀ s s' s'', rely s s' → rely s' s'' → rely s s''
  /-- What one guarantees the others can rely on. -/
  rely_of_guar : ∀ tag w w', guar tag w w' → rely w.1 w'.1
  done_stable : ∀ tag a s s' l, rely s s' → done tag a (s, l) → done tag a (s', l)
  failed_stable : ∀ tag e s s' l, rely s s' → failed tag e (s, l) → failed tag e (s', l)

section Safety

variable {exec : Exec Op Res ε (S × L)} {C : Contract Op Res ε α Tag S L}

/-- The setting one thread runs in: the others move the shared state by `rely`. -/
def Contract.setting (C : Contract Op Res ε α Tag S L) (exec : Exec Op Res ε (S × L))
    (tag : Tag) : Setting Op Res ε (S × L) :=
  ⟨exec, fun w w' => C.rely w.1 w'.1 ∧ w'.2 = w.2, C.guar tag⟩

/-- A thread that is as verified, as seen from the shared state `s`. -/
def Contract.Meets (C : Contract Op Res ε α Tag S L) (exec : Exec Op Res ε (S × L)) (s : S)
    (th : Thread Op Res ε α Tag L) : Prop :=
  Proc.wp (C.setting exec th.tag) th.left (C.done th.tag) (C.failed th.tag) (s, th.own)

/-- Every thread of the pool is. -/
def Holds (C : Contract Op Res ε α Tag S L) (exec : Exec Op Res ε (S × L))
    (p : Pool Op Res ε α Tag S L) : Prop :=
  ∀ th ∈ p.threads, C.Meets exec p.shared th

/-- The others' moves do no harm. -/
theorem meets_of_rely {s s' : S} {th : Thread Op Res ε α Tag L} (h : C.Meets exec s th)
    (hs : C.rely s s') : C.Meets exec s' th := by
  obtain ⟨tag, left, own⟩ := th
  cases left with
  | ret a => exact C.done_stable tag a s s' own hs h
  | raise e => exact C.failed_stable tag e s s' own hs h
  | call o k =>
      -- this move and those before the thread's turn are one move
      intro w hw
      exact h w ⟨C.trans _ _ _ hs hw.1, hw.2⟩

/-- A thread's own move is one it guarantees, and leaves it as verified. -/
theorem meets_advance {s : S} {th : Thread Op Res ε α Tag L} (h : C.Meets exec s th) :
    (advance exec s th = (s, th)
      ∨ C.guar th.tag (s, th.own) ((advance exec s th).1, (advance exec s th).2.own))
    ∧ C.Meets exec (advance exec s th).1 (advance exec s th).2 := by
  obtain ⟨tag, left, own⟩ := th
  cases left with
  | ret a => exact ⟨Or.inl rfl, h⟩
  | raise e => exact ⟨Or.inl rfl, h⟩
  | call o k =>
      obtain ⟨hguar, hrest⟩ := h (s, own) ⟨C.refl s, rfl⟩
      have hexec : (C.setting exec tag).exec = exec := rfl
      rw [hexec] at hguar hrest
      rcases hq : exec o (s, own) with ⟨r | r, w⟩
      · rw [hq] at hguar hrest
        rw [advance_error hq]
        exact ⟨Or.inr hguar, hrest⟩
      · rw [hq] at hguar hrest
        rw [advance_ok hq]
        exact ⟨Or.inr hguar, hrest⟩

/-- **One turn.** Nothing happens, or one thread takes a step that it guarantees. -/
theorem step_cases {p : Pool Op Res ε α Tag S L} (h : p.Holds C exec) (i : Nat) :
    p.step exec i = p ∨ ∃ pre th post s' th', p.threads = pre ++ th :: post
      ∧ i = pre.length ∧ p.step exec i = ⟨s', pre ++ th' :: post⟩ ∧ th'.tag = th.tag
      ∧ C.guar th.tag (p.shared, th.own) (s', th'.own) := by
  unfold step
  cases hi : p.threads[i]? with
  | none => exact Or.inl rfl
  | some th =>
      obtain ⟨hlt, hth⟩ := List.getElem?_eq_some_iff.mp hi
      have hsplit : p.threads = p.threads.take i ++ th :: p.threads.drop (i + 1) := by
        rw [← hth, List.getElem_cons_drop, List.take_append_drop]
      rcases (meets_advance (h th (List.mem_of_getElem? hi))).1 with hsame | hguar
      · -- the thread had ended already
        left
        show Pool.mk (advance exec p.shared th).1 (p.threads.set i (advance exec p.shared th).2) = p
        rw [hsame, ← hth, List.set_getElem_self]
      · right
        refine ⟨p.threads.take i, th, p.threads.drop (i + 1), _, _, hsplit, ?_, ?_,
          advance_tag exec p.shared th, hguar⟩
        · rw [List.length_take]; omega
        · show Pool.mk _ (p.threads.set i _) = _
          rw [List.set_eq_take_append_cons_drop, if_pos hlt]

/-- **Every turn leaves every thread as verified.** -/
theorem step_holds {p : Pool Op Res ε α Tag S L} (h : p.Holds C exec) (i : Nat) :
    (p.step exec i).Holds C exec := by
  unfold step
  cases hi : p.threads[i]? with
  | none => exact h
  | some th =>
      obtain ⟨hmove, hself⟩ := meets_advance (h th (List.mem_of_getElem? hi))
      have hrely : C.rely p.shared (advance exec p.shared th).1 := by
        rcases hmove with hsame | hguar
        · rw [hsame]; exact C.refl _
        · exact C.rely_of_guar _ _ _ hguar
      intro x hx
      rcases List.mem_or_eq_of_mem_set hx with hx | rfl
      · exact meets_of_rely (h x hx) hrely
      · exact hself

end Safety

end Pool

end TacPac.Lib
