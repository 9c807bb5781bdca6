import TacPac.Lib.Pool

/-!
# What the threads of a run have done

A sequential machine (`Machine`) says what it is that the programs of a pool work on, and
some of their calls are acts of it. The history of a run is these acts in the order of the
turns, each with the thread whose turn it was.

A program is described by what it has done when it ends and when it is cut off, whatever
its calls answer (`Plan.Follows`). If every call is an act of the machine that can be done
then, or none, then in every run the history is one of the machine, and every thread is as
described, of its own part of the history (`traced_run`).
-/

namespace TacPac.Lib

/-! ## Sequential machines -/

/-- What acts do, one after another. -/
structure Machine (A E : Type) where
  apply : A → E → A
  /-- The act can be done in this state. -/
  can : A → E → Prop

namespace Machine

variable {A E : Type} (M : Machine A E)

/-- The state that acts lead to. -/
def after (g : A) (es : List E) : A := es.foldl M.apply g

/-- The acts can be done one after another. -/
def Legal : A → List E → Prop
  | _, [] => True
  | g, e :: es => M.can g e ∧ Legal (M.apply g e) es

variable {M} {g : A} {e : E}

@[simp] theorem after_nil : M.after g [] = g := rfl

@[simp] theorem after_append (es es' : List E) :
    M.after g (es ++ es') = M.after (M.after g es) es' := List.foldl_append

theorem legal_append (es es' : List E) : ∀ {g : A},
    M.Legal g (es ++ es') ↔ M.Legal g es ∧ M.Legal (M.after g es) es' := by
  induction es with
  | nil => simp [Legal]
  | cons e es ih =>
      intro g
      rw [List.cons_append, Legal, Legal, ih, and_assoc]
      rfl

/-- An act could be done when it was. -/
theorem can_of_legal {es : List E} {n : Nat} (h : M.Legal g es) (hn : es[n]? = some e) :
    M.can (M.after g (es.take n)) e := by
  obtain ⟨hlt, rfl⟩ := List.getElem?_eq_some_iff.mp hn
  have hsplit : es = es.take n ++ es[n] :: es.drop (n + 1) := by
    rw [List.getElem_cons_drop, List.take_append_drop]
  rw [hsplit] at h
  exact ((legal_append _ _).mp h).2.1

/-- What an act keeps, a run keeps. -/
theorem legal_invariant {I : A → Prop} (hstep : ∀ g e, I g → M.can g e → I (M.apply g e))
    (es : List E) : ∀ {g : A}, M.Legal g es → I g → I (M.after g es) := by
  induction es with
  | nil => exact fun _ hg => hg
  | cons e es ih => exact fun h hg => ih h.2 (hstep _ _ hg h.1)

/-- When an act was done, what every act keeps still held. -/
theorem can_of_mem {I : A → Prop} (hstep : ∀ g e, I g → M.can g e → I (M.apply g e))
    {es : List E} (h : M.Legal g es) (hg : I g) (he : e ∈ es) : ∃ g', I g' ∧ M.can g' e := by
  obtain ⟨l, l', rfl⟩ := List.append_of_mem he
  obtain ⟨hbefore, hcan, -⟩ := (legal_append _ _).mp h
  exact ⟨_, legal_invariant hstep l hbefore hg, hcan⟩

/-- What an act brings about, and every act keeps, holds in the end. -/
theorem after_of_mem {Q : A → Prop} (hdo : ∀ g, M.can g e → Q (M.apply g e))
    (hkeep : ∀ g e', Q g → M.can g e' → Q (M.apply g e')) {es : List E} (h : M.Legal g es)
    (he : e ∈ es) : Q (M.after g es) := by
  obtain ⟨l, l', rfl⟩ := List.append_of_mem he
  obtain ⟨-, hcan, hrest⟩ := (legal_append _ _).mp h
  rw [after_append]
  exact legal_invariant hkeep l' hrest (hdo _ hcan)

/-! ### Steps of another system -/

section Moves

variable {ε α S L : Type} (M) (view : S → A) (I : S → Prop)

/-- From one state to another by an act that can be done, or by none, with `I` kept. -/
structure Moves (s : S) (e : Option E) (s' : S) : Prop where
  keeps : I s'
  legal : M.Legal (view s) e.toList
  state : view s' = M.after (view s) e.toList

/-- The same of a call, which is the act that its answer says, or none if it fails. -/
def Answers (act : α → Option E) (s : S) (q : Except ε α × (S × L)) : Prop :=
  match q.1 with
  | .ok x => M.Moves view I s (act x) q.2.1
  | .error _ => M.Moves view I s none q.2.1

variable {M view I} {s s' : S}

theorem moves_nothing (hI : I s') (hstate : view s' = view s) : M.Moves view I s none s' :=
  ⟨hI, trivial, hstate⟩

theorem moves_one (hI : I s') (hcan : M.can (view s) e) (hstate : view s' = M.apply (view s) e) :
    M.Moves view I s (some e) s' := ⟨hI, ⟨hcan, trivial⟩, hstate⟩

end Moves

end Machine

/-! ## Programs -/

/-- What a request does. -/
structure Plan (Op : Type) (Res : Op → Type) (α Tag E : Type) where
  /-- The act that a call with this answer is. -/
  act : (o : Op) → Res o → Option E
  /-- The calls that are made by one who has done this. -/
  asks : Tag → List E → Op → Prop
  /-- How one who has done this may end. -/
  ends : Tag → List E → α → Prop
  /-- What one who does not end may have done. -/
  breaks : Tag → List E → Prop

namespace Plan

variable {Op : Type} {Res : Op → Type} {ε α β γ Tag E : Type} (P : Plan Op Res α Tag E)

/-- A program that goes by the plan, for one who has done `es`. -/
def Follows (t : Tag) : List E → Proc Op Res ε α → Prop
  | es, .ret a => P.ends t es a
  | es, .raise _ => P.breaks t es
  | es, .call o k => P.breaks t es ∧ P.asks t es o
      ∧ ∀ x : Res o, Follows t (es ++ (P.act o x).toList) (k x)

/-- A program that does nothing, and the calls it makes are `asked`. -/
def Silent (asked : Op → Prop) : Proc Op Res ε β → Prop
  | .ret _ => True
  | .raise _ => True
  | .call o k => asked o ∧ ∀ x : Res o, P.act o x = none ∧ Silent asked (k x)

variable {P} {asked : Op → Prop}

theorem silent_bind {p : Proc Op Res ε β} {f : β → Proc Op Res ε γ} (hp : P.Silent asked p)
    (hf : ∀ b, P.Silent asked (f b)) : P.Silent asked (p >>= f) := by
  induction p with
  | ret b => exact hf b
  | raise e => trivial
  | call o k ih => exact ⟨hp.1, fun x => ⟨(hp.2 x).1, ih x (hp.2 x).2⟩⟩

theorem silent_orRaise {e : ε} {o : Option β} :
    P.Silent asked (Proc.orRaise e o : Proc Op Res ε β) := by
  cases o <;> trivial

theorem silent_ask {o : Op} (ho : asked o) (h : ∀ x : Res o, P.act o x = none) :
    P.Silent asked (Proc.ask o : Proc Op Res ε (Res o)) := ⟨ho, fun x => ⟨h x, trivial⟩⟩

theorem silent_foldlM {f : β → γ → Proc Op Res ε β} (hf : ∀ b c, P.Silent asked (f b c))
    (l : List γ) : ∀ b, P.Silent asked (l.foldlM f b) := by
  induction l with
  | nil => exact fun _ => trivial
  | cons c l ih => exact fun b => silent_bind (hf b c) ih

/-- Who does nothing for a while goes on as before. -/
theorem follows_silent {t : Tag} {es : List E} {p : Proc Op Res ε β} {f : β → Proc Op Res ε α}
    (hp : P.Silent asked p) (hasks : ∀ o, asked o → P.asks t es o) (hbreaks : P.breaks t es)
    (hf : ∀ b, P.Follows t es (f b)) : P.Follows t es (p >>= f) := by
  induction p with
  | ret b => exact hf b
  | raise e => exact hbreaks
  | call o k ih =>
      refine ⟨hbreaks, hasks o hp.1, fun x => ?_⟩
      rw [(hp.2 x).1, Option.toList_none, List.append_nil]
      exact ih x (hp.2 x).2

/-- Where there is a value, the program goes on with it. -/
theorem follows_orRaise {t : Tag} {es : List E} {e : ε} {o : Option β}
    {f : β → Proc Op Res ε α} (hbreaks : P.breaks t es)
    (hf : ∀ b, o = some b → P.Follows t es (f b)) :
    P.Follows t es (Proc.orRaise e o >>= f) := by
  cases o with
  | none => exact hbreaks
  | some b => exact hf b rfl

/-- A call, and what follows each of its answers. -/
theorem follows_ask {t : Tag} {es : List E} {o : Op} {f : Res o → Proc Op Res ε α}
    (hbreaks : P.breaks t es) (hasks : P.asks t es o)
    (hf : ∀ x, P.Follows t (es ++ (P.act o x).toList) (f x)) :
    P.Follows t es (Proc.ask o >>= f) := ⟨hbreaks, hasks, hf⟩

end Plan

/-! ## Runs -/

namespace Pool

variable {Op : Type} {Res : Op → Type} {ε α Tag S L E : Type}

/-- What a turn does. -/
def did (act : (o : Op) → Res o → Option E) (exec : Exec Op Res ε (S × L)) (s : S)
    (th : Thread Op Res ε α Tag L) : Option E :=
  match th.left with
  | .ret _ => none
  | .raise _ => none
  | .call o _ =>
      match (exec o (s, th.own)).1 with
      | .ok x => act o x
      | .error _ => none

/-- The entry of a turn in the history. -/
def entry (i : Nat) (e : Option E) : List (Nat × E) := (e.map (Prod.mk i)).toList

/-- What a run does. -/
def history (act : (o : Op) → Res o → Option E) (exec : Exec Op Res ε (S × L)) :
    Pool Op Res ε α Tag S L → List Nat → List (Nat × E)
  | _, [] => []
  | p, i :: sched =>
      entry i (p.threads[i]?.bind (did act exec p.shared)) ++ history act exec (p.step exec i) sched

/-- One thread's part of a history. -/
def partOf (i : Nat) (h : List (Nat × E)) : List E := (h.filter (fun e => e.1 = i)).map Prod.snd

theorem mem_partOf {i : Nat} {h : List (Nat × E)} {e : E} : e ∈ partOf i h ↔ (i, e) ∈ h := by
  simp only [partOf, List.mem_map, List.mem_filter, decide_eq_true_eq]
  constructor
  · intro hex
    obtain ⟨⟨j, e'⟩, ⟨hmem, rfl⟩, rfl⟩ := hex
    exact hmem
  · exact fun hmem => ⟨(i, e), ⟨hmem, rfl⟩, rfl⟩

theorem partOf_append (i : Nat) (h h' : List (Nat × E)) :
    partOf i (h ++ h') = partOf i h ++ partOf i h' := by
  simp [partOf]

theorem partOf_entry_self (i : Nat) (e : Option E) : partOf i (entry i e) = e.toList := by
  cases e <;> simp [partOf, entry]

theorem partOf_entry_other {i j : Nat} (hj : j ≠ i) (e : Option E) :
    partOf j (entry i e) = [] := by
  cases e with
  | none => rfl
  | some e => simp [partOf, entry, Ne.symm hj]

/-- Where an act of one thread stands in the whole history. -/
theorem partOf_split {i : Nat} {h : List (Nat × E)} {es es' : List E} {e : E}
    (hpart : partOf i h = es ++ e :: es') :
    ∃ l l', h = l ++ (i, e) :: l' ∧ partOf i l = es := by
  obtain ⟨m, m', hfilter, rfl, hm'⟩ := List.map_eq_append_iff.mp hpart
  obtain ⟨⟨j, e'⟩, m'', rfl, rfl, -⟩ := List.map_eq_cons_iff.mp hm'
  obtain ⟨l, l', rfl, rfl, hl'⟩ := List.filter_eq_append_iff.mp hfilter
  obtain ⟨k, k', rfl, hk, hj, -⟩ := List.filter_eq_cons_iff.mp hl'
  obtain rfl : j = i := of_decide_eq_true hj
  have hnone : k.filter (fun x => x.1 = j) = [] := List.filter_eq_nil_iff.mpr hk
  refine ⟨l ++ k, k', (List.append_assoc _ _ _).symm, ?_⟩
  rw [partOf_append, partOf, partOf, hnone, List.map_nil, List.append_nil]

theorem snd_entry (i : Nat) (e : Option E) : (entry i e).map Prod.snd = e.toList := by
  cases e <;> rfl

variable {act : (o : Op) → Res o → Option E} {exec : Exec Op Res ε (S × L)}

theorem did_ok {s : S} {tag : Tag} {o : Op} {k : Res o → Proc Op Res ε α} {own : L} {x : Res o}
    {w : S × L} (h : exec o (s, own) = (.ok x, w)) :
    did act exec s ⟨tag, .call o k, own⟩ = act o x := by
  simp only [did, h]

theorem did_error {s : S} {tag : Tag} {o : Op} {k : Res o → Proc Op Res ε α} {own : L} {e : ε}
    {w : S × L} (h : exec o (s, own) = (.error e, w)) :
    did act exec s ⟨tag, .call o k, own⟩ = none := by
  simp only [did, h]

/-- **Every turn keeps it, so every run does.** -/
theorem history_induction (act : (o : Op) → Res o → Option E) (exec : Exec Op Res ε (S × L))
    {I : Pool Op Res ε α Tag S L → List (Nat × E) → Prop}
    (hstep : ∀ p h i th, p.threads[i]? = some th → I p h →
      I (p.step exec i) (h ++ entry i (did act exec p.shared th)))
    (sched : List Nat) : ∀ {p : Pool Op Res ε α Tag S L} {h : List (Nat × E)}, I p h →
      I (p.run exec sched) (h ++ history act exec p sched) := by
  induction sched with
  | nil =>
      intro p h hI
      rw [history, List.append_nil]
      exact hI
  | cons i sched ih =>
      intro p h hI
      show I ((p.step exec i).run exec sched) _
      rw [history, ← List.append_assoc]
      refine ih ?_
      cases hi : p.threads[i]? with
      | none =>
          have hsame : p.step exec i = p := by
            unfold step
            rw [hi]
          rw [hsame, Option.bind_none]
          simpa [entry] using hI
      | some th => exact hstep p h i th hi hI

/-- What is done is done by a thread of the pool. -/
theorem lt_of_history {i : Nat} {e : E} (sched : List Nat) : ∀ {p : Pool Op Res ε α Tag S L},
    (i, e) ∈ history act exec p sched → i < p.threads.length := by
  induction sched with
  | nil => intro p h; cases h
  | cons j sched ih =>
      intro p h
      rcases List.mem_append.mp h with h | h
      · obtain ⟨e', he', heq⟩ := Option.map_eq_some_iff.mp (Option.mem_toList.mp h)
        obtain rfl : j = i := congrArg Prod.fst heq
        obtain ⟨th, hth, -⟩ := Option.bind_eq_some_iff.mp he'
        exact (List.getElem?_eq_some_iff.mp hth).1
      · have hlength := congrArg List.length (step_tags exec p j)
        rw [List.length_map, List.length_map] at hlength
        rw [← hlength]
        exact ih h

/-- It is done at a turn. -/
theorem mem_of_history {i : Nat} {e : E} (sched : List Nat) : ∀ {p : Pool Op Res ε α Tag S L},
    (i, e) ∈ history act exec p sched → i ∈ sched := by
  induction sched with
  | nil => intro p h; cases h
  | cons j sched ih =>
      intro p h
      rcases List.mem_append.mp h with h | h
      · obtain ⟨e', -, heq⟩ := Option.map_eq_some_iff.mp (Option.mem_toList.mp h)
        obtain rfl : j = i := congrArg Prod.fst heq
        exact List.mem_cons_self
      · exact List.mem_cons_of_mem _ (ih h)

/-- Only who makes a call does something. -/
theorem left_of_did {s : S} {th : Thread Op Res ε α Tag L} {e : E}
    (h : did act exec s th = some e) : ∃ o k, th.left = .call o k := by
  obtain ⟨tag, left, own⟩ := th
  cases left with
  | ret a => cases h
  | raise e' => cases h
  | call o k => exact ⟨o, k, rfl⟩

/-- **The turn of an act**: what has been done before the act is what the run up to that turn
has done. -/
theorem history_split {i : Nat} {e : E} (sched : List Nat) :
    ∀ {p : Pool Op Res ε α Tag S L} {l l' : List (Nat × E)},
      history act exec p sched = l ++ (i, e) :: l' →
        ∃ pre rest th, sched = pre ++ i :: rest ∧ history act exec p pre = l
          ∧ (p.run exec pre).threads[i]? = some th
          ∧ did act exec (p.run exec pre).shared th = some e := by
  induction sched with
  | nil =>
      intro p l l' h
      cases l <;> cases h
  | cons j sched ih =>
      intro p l l' h
      rw [history] at h
      cases hdid : p.threads[j]?.bind (did act exec p.shared) with
      | none =>
          rw [hdid] at h
          obtain ⟨pre, rest, th, rfl, hpre, hth, hact⟩ := ih h
          refine ⟨j :: pre, rest, th, rfl, ?_, hth, hact⟩
          rw [history, hdid]
          exact hpre
      | some e' =>
          rw [hdid] at h
          cases l with
          | nil =>
              -- it is the act of this very turn
              obtain ⟨heq, -⟩ := List.cons.inj h
              obtain ⟨rfl, rfl⟩ := Prod.mk.inj heq
              obtain ⟨th, hth, hact⟩ := Option.bind_eq_some_iff.mp hdid
              exact ⟨[], sched, th, rfl, rfl, hth, hact⟩
          | cons x l =>
              obtain ⟨rfl, hrest⟩ := List.cons.inj h
              obtain ⟨pre, rest, th, rfl, rfl, hth, hact⟩ := ih hrest
              refine ⟨j :: pre, rest, th, rfl, ?_, hth, hact⟩
              rw [history, hdid]
              rfl

/-- Every thread goes by the plan, for what it has done. -/
def Fits (P : Plan Op Res α Tag E) (p : Pool Op Res ε α Tag S L) (h : List (Nat × E)) : Prop :=
  ∀ i th, p.threads[i]? = some th → P.Follows th.tag (partOf i h) th.left

variable {P : Plan Op Res α Tag E}

theorem follows_advance {s : S} {th : Thread Op Res ε α Tag L} {es : List E}
    (h : P.Follows th.tag es th.left) :
    P.Follows th.tag (es ++ (did P.act exec s th).toList) (advance exec s th).2.left := by
  obtain ⟨tag, left, own⟩ := th
  cases left with
  | ret a =>
      show P.Follows tag (es ++ []) (.ret a)
      rwa [List.append_nil]
  | raise e =>
      show P.Follows tag (es ++ []) (.raise e)
      rwa [List.append_nil]
  | call o k =>
      obtain ⟨hbreaks, -, hk⟩ := h
      rcases hx : exec o (s, own) with ⟨e | x, w⟩
      · rw [advance_error hx, did_error hx, Option.toList_none, List.append_nil]
        exact hbreaks
      · rw [advance_ok hx, did_ok hx]
        exact hk x

theorem fits_step (exec : Exec Op Res ε (S × L)) {p : Pool Op Res ε α Tag S L}
    {h : List (Nat × E)} {i : Nat} {th : Thread Op Res ε α Tag L}
    (hi : p.threads[i]? = some th) (hp : Fits P p h) :
    Fits P (p.step exec i) (h ++ entry i (did P.act exec p.shared th)) := by
  intro j th' hth'
  rw [partOf_append]
  by_cases hj : i = j
  · subst hj
    rw [step_self hi] at hth'
    rw [partOf_entry_self, ← Option.some.inj hth', advance_tag]
    exact follows_advance (hp i th hi)
  · rw [step_other hj] at hth'
    rw [partOf_entry_other (Ne.symm hj), List.append_nil]
    exact hp j th' hth'

/-- A pool that nobody has had a turn in. -/
theorem fits_init {p : Pool Op Res ε α Tag S L}
    (h : ∀ th ∈ p.threads, P.Follows th.tag [] th.left) : Fits P p [] :=
  fun _ th hth => h th (List.mem_of_getElem? hth)

/-! ### A machine behind a pool -/

section Traced

variable {A : Type}

/-- What a pool that has begun with `s₀` has done is what the machine has done. -/
structure Traced (M : Machine A E) (view : S → A) (I : S → Prop) (P : Plan Op Res α Tag E)
    (s₀ : S) (p : Pool Op Res ε α Tag S L) (h : List (Nat × E)) : Prop where
  fits : Fits P p h
  /-- All of it was done by somebody. -/
  bounded : ∀ i e, e ∈ partOf i h → i < p.threads.length
  keeps : I p.shared
  legal : M.Legal (view s₀) (h.map Prod.snd)
  state : view p.shared = M.after (view s₀) (h.map Prod.snd)

variable {M : Machine A E} {view : S → A} {I : S → Prop} {s₀ : S}

theorem traced_init {p : Pool Op Res ε α Tag S L} (hI : I p.shared)
    (h : ∀ th ∈ p.threads, P.Follows th.tag [] th.left) :
    Traced M view I P p.shared p [] :=
  ⟨fits_init h, fun _ _ he => (List.not_mem_nil he).elim, hI, trivial, rfl⟩

/-- A turn, by what it does. -/
theorem traced_moves (exec : Exec Op Res ε (S × L)) {p : Pool Op Res ε α Tag S L}
    {h : List (Nat × E)} {i : Nat} {th : Thread Op Res ε α Tag L}
    (hi : p.threads[i]? = some th) (hp : Traced M view I P s₀ p h)
    (hmoves : M.Moves view I p.shared (did P.act exec p.shared th)
      (advance exec p.shared th).1) :
    Traced M view I P s₀ (p.step exec i) (h ++ entry i (did P.act exec p.shared th)) := by
  refine ⟨fits_step exec hi hp.fits, fun j e he => ?_, ?_, ?_, ?_⟩
  · have hlength := congrArg List.length (step_tags exec p i)
    rw [List.length_map, List.length_map] at hlength
    rw [hlength]
    by_cases hj : j = i
    · rw [hj]
      exact (List.getElem?_eq_some_iff.mp hi).1
    · rw [partOf_append, partOf_entry_other hj, List.append_nil] at he
      exact hp.bounded j e he
  · rw [step_shared hi]
    exact hmoves.keeps
  · rw [List.map_append, snd_entry, Machine.legal_append, ← hp.state]
    exact ⟨hp.legal, hmoves.legal⟩
  · rw [List.map_append, snd_entry, Machine.after_append, ← hp.state, step_shared hi]
    exact hmoves.state

variable {exec : Exec Op Res ε (S × L)}

/-- What a turn does, if every call is what it answers. -/
theorem moves_of_traced (hcall : ∀ {p : Pool Op Res ε α Tag S L} {h i tag o k own},
      Traced M view I P s₀ p h → p.threads[i]? = some ⟨tag, .call o k, own⟩ →
      P.asks tag (partOf i h) o → M.Answers view I (P.act o) p.shared (exec o (p.shared, own)))
    {p : Pool Op Res ε α Tag S L} {h : List (Nat × E)} {i : Nat} {th : Thread Op Res ε α Tag L}
    (hi : p.threads[i]? = some th) (hp : Traced M view I P s₀ p h) :
    M.Moves view I p.shared (did P.act exec p.shared th) (advance exec p.shared th).1 := by
  obtain ⟨tag, left, own⟩ := th
  cases left with
  | ret a => exact Machine.moves_nothing hp.keeps rfl
  | raise e => exact Machine.moves_nothing hp.keeps rfl
  | call o k =>
      have hanswers := hcall hp hi (hp.fits i _ hi).2.1
      rcases hx : exec o (p.shared, own) with ⟨e | x, w⟩
      · rw [hx] at hanswers
        rw [advance_error hx, did_error hx]
        exact hanswers
      · rw [hx] at hanswers
        rw [advance_ok hx, did_ok hx]
        exact hanswers

/-- **One turn.** -/
theorem traced_step (hcall : ∀ {p : Pool Op Res ε α Tag S L} {h i tag o k own},
      Traced M view I P s₀ p h → p.threads[i]? = some ⟨tag, .call o k, own⟩ →
      P.asks tag (partOf i h) o → M.Answers view I (P.act o) p.shared (exec o (p.shared, own)))
    {p : Pool Op Res ε α Tag S L} {h : List (Nat × E)} {i : Nat} {th : Thread Op Res ε α Tag L}
    (hi : p.threads[i]? = some th) (hp : Traced M view I P s₀ p h) :
    Traced M view I P s₀ (p.step exec i) (h ++ entry i (did P.act exec p.shared th)) :=
  traced_moves exec hi hp (moves_of_traced hcall hi hp)

/-- **What holds all along a run.** -/
theorem traced_run (hcall : ∀ {p : Pool Op Res ε α Tag S L} {h i tag o k own},
      Traced M view I P s₀ p h → p.threads[i]? = some ⟨tag, .call o k, own⟩ →
      P.asks tag (partOf i h) o → M.Answers view I (P.act o) p.shared (exec o (p.shared, own)))
    {p : Pool Op Res ε α Tag S L} (hp : Traced M view I P s₀ p []) (sched : List Nat) :
    Traced M view I P s₀ (p.run exec sched) (history P.act exec p sched) := by
  have hrun := history_induction P.act exec
    (I := fun p h => Traced M view I P s₀ p h)
    (fun _ _ _ _ hi hp => traced_step hcall hi hp) sched hp
  rwa [List.nil_append] at hrun

/-- A thread that has ended has done what its answer says, -/
theorem ends_of_traced {p : Pool Op Res ε α Tag S L} {h : List (Nat × E)}
    (hp : Traced M view I P s₀ p h) {i : Nat} {th : Thread Op Res ε α Tag L} {a : α}
    (hi : p.threads[i]? = some th) (hleft : th.left = .ret a) :
    P.ends th.tag (partOf i h) a := by
  have hfits := hp.fits i th hi
  rwa [hleft] at hfits

/-- and any other what one who is cut off may have done. -/
theorem breaks_of_traced {p : Pool Op Res ε α Tag S L} {h : List (Nat × E)}
    (hp : Traced M view I P s₀ p h) {i : Nat} {th : Thread Op Res ε α Tag L}
    (hi : p.threads[i]? = some th) (hleft : ∀ a, th.left ≠ .ret a) :
    P.breaks th.tag (partOf i h) := by
  have hfits := hp.fits i th hi
  cases hl : th.left with
  | ret a => exact absurd hl (hleft a)
  | raise e =>
      rw [hl] at hfits
      exact hfits
  | call o k =>
      rw [hl] at hfits
      exact hfits.1

end Traced

end Pool

end TacPac.Lib
