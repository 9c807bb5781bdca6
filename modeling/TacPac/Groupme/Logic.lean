import TacPac.Groupme.Msg

/-!
# Reasoning about a request up to its save

Until a request saves, all it changes is its own context and what it has posted.
`Meets p Q c log` says: started with context `c` and log `log`, wherever the
environment makes a call fail and however the table moves in the meantime, `p`
either raises without having saved, or returns with a context and a log in `Q`.

The three parameters say what "in the meantime" means. `R` is how the table may
move before each call, `I` what is known of it all along, and `G` what every call
has to keep. With `R` equality the request runs alone; with `R t t' := I t'` it
runs among others that keep `I`. The rules below are the same for both.
-/

namespace TacPac.Groupme

open TacPac.Lib

/-- A request among others that move the table by `R`, each of its calls kept to `G`. -/
def setting (R : Table Phikeia → Table Phikeia → Prop) (G : World → World → Prop) :
    Setting Op Op.Res Exn World :=
  ⟨exec, fun w w' => R w.1 w'.1 ∧ w'.2 = w.2, G⟩

@[simp] theorem setting_exec (R : Table Phikeia → Table Phikeia → Prop)
    (G : World → World → Prop) : (setting R G).exec = exec := rfl

/-- What a request knows of its context and its log. -/
abbrev Assn : Type := Context Phikeia → List Effect → Prop

/-- What the rules below need of the surroundings: `R` keeps `I`, and a call that
leaves the table alone and saves nothing is in order. -/
structure Ambient (R : Table Phikeia → Table Phikeia → Prop) (G : World → World → Prop)
    (I : Table Phikeia → Prop) : Prop where
  keep : ∀ t t', I t → R t t' → I t'
  quiet : ∀ t l l', I t → (Effect.saved ∈ l'.log ↔ Effect.saved ∈ l.log) → G (t, l) (t, l')

section Rules

variable {R : Table Phikeia → Table Phikeia → Prop} {G : World → World → Prop}
  {I : Table Phikeia → Prop} {α β γ : Type}

/-- The triple of a request that has not saved yet. -/
def Meets (R : Table Phikeia → Table Phikeia → Prop) (G : World → World → Prop)
    (I : Table Phikeia → Prop) (p : Handler α) (Q : α → Assn) (c : Context Phikeia)
    (log : List Effect) : Prop :=
  ∀ t fs, I t → Proc.wp (setting R G) p
    (fun a w => I w.1 ∧ Q a w.2.ctx w.2.log)
    (fun _ w => I w.1 ∧ Effect.saved ∉ w.2.log) (t, ⟨c, log, fs⟩)

variable {Q : α → Assn} {c : Context Phikeia} {log : List Effect}

theorem meets_ret {a : α} (h : Q a c log) : Meets R G I (.ret a) Q c log :=
  fun _ _ ht => ⟨ht, h⟩

theorem meets_raise {e : Exn} (h : Effect.saved ∉ log) :
    Meets R G I (.raise e : Handler α) Q c log :=
  fun _ _ ht => ⟨ht, h⟩

theorem meets_mono {Q' : α → Assn} {p : Handler α} (h : Meets R G I p Q c log)
    (hQ : ∀ a c log, Q a c log → Q' a c log) : Meets R G I p Q' c log :=
  fun t fs ht => Proc.wp_mono (h t fs ht) (fun a _ hw => ⟨hw.1, hQ a _ _ hw.2⟩) (fun _ _ hw => hw)

/-- Sequencing. -/
theorem meets_bind {p : Handler α} {f : α → Handler β} {Q : β → Assn}
    (h : Meets R G I p (fun a c log => Meets R G I (f a) Q c log) c log) :
    Meets R G I (p >>= f) Q c log :=
  fun t fs ht => Proc.wp_seq (h t fs ht) (fun _ w hw => hw.2 w.1 w.2.faults hw.1)

theorem meets_orRaise {e : Exn} {o : Option α} (hs : Effect.saved ∉ log)
    (h : ∀ a, o = some a → Q a c log) : Meets R G I (Proc.orRaise e o) Q c log := by
  cases o with
  | some a => exact meets_ret (h a rfl)
  | none => exact meets_raise hs

/-- The loop rule, with an invariant over the part of the list already walked. -/
theorem meets_foldlM (Inv : List γ → β → Assn) {f : β → γ → Handler β} {l : List γ} {b : β}
    (h0 : Inv [] b c log)
    (hstep : ∀ pre x post, l = pre ++ x :: post → ∀ b c log, Inv pre b c log →
      Meets R G I (f b x) (fun b' c' log' => Inv (pre ++ [x]) b' c' log') c log) :
    Meets R G I (l.foldlM f b) (fun b' c' log' => Inv l b' c' log') c log := by
  intro t fs ht
  refine Proc.wp_foldlM (fun pre b (w : World) => I w.1 ∧ Inv pre b w.2.ctx w.2.log)
    ⟨ht, h0⟩ ?_
  intro pre x post hl b w hw
  exact hstep pre x post hl b _ _ hw.2 w.1 w.2.faults hw.1

/-- The rule for calls: one case where it works, one where it fails. -/
theorem wp_ask {o : Op} {Q : o.Res → World → Prop} {E : Exn → World → Prop}
    {t : Table Phikeia} {l : Session}
    (hok : ∀ t₁ fs, R t t₁ → G (t₁, l) (perform o (t₁, { l with faults := fs })).2
      ∧ Q (perform o (t₁, { l with faults := fs })).1 (perform o (t₁, { l with faults := fs })).2)
    (herr : ∀ t₁ f fs, R t t₁ →
      G (t₁, l) (t₁, { l with log := failLog o f l.log, faults := fs })
        ∧ E o.exn (t₁, { l with log := failLog o f l.log, faults := fs })) :
    Proc.wp (setting R G) (Proc.ask o) Q E (t, l) := by
  intro w hw
  obtain ⟨t₁, l₁⟩ := w
  obtain ⟨hR, hl⟩ := hw
  obtain rfl : l₁ = l := hl
  rcases exec_cases o t₁ l₁ with ⟨fs, hx⟩ | ⟨f, fs, hx⟩
  · rw [setting_exec, hx]; exact hok t₁ fs hR
  · rw [setting_exec, hx]; exact herr t₁ f fs hR

/-- The same, short of the save: the table stays as it is. -/
theorem meets_ask (hA : Ambient R G I) {o : Op} {Q : o.Res → Assn}
    (hs : Effect.saved ∉ log)
    (hq : ∀ w : World, (perform o w).2.1 = w.1
      ∧ (Effect.saved ∈ (perform o w).2.2.log ↔ Effect.saved ∈ w.2.log))
    (h : ∀ t fs, I t → Q (perform o (t, ⟨c, log, fs⟩)).1
      (perform o (t, ⟨c, log, fs⟩)).2.2.ctx (perform o (t, ⟨c, log, fs⟩)).2.2.log) :
    Meets R G I (Proc.ask o) Q c log := by
  intro t fs ht
  refine wp_ask (fun t₁ fs' hR => ?_) (fun t₁ f fs' hR => ?_)
  · have ht₁ : I t₁ := hA.keep t t₁ ht hR
    obtain ⟨htab, hlog⟩ := hq (t₁, ⟨c, log, fs'⟩)
    have hpair : (perform o (t₁, ⟨c, log, fs'⟩)).2
        = (t₁, (perform o (t₁, ⟨c, log, fs'⟩)).2.2) := Prod.ext htab rfl
    refine ⟨?_, ?_, h t₁ fs' ht₁⟩
    · show G _ (perform o (t₁, ⟨c, log, fs'⟩)).2
      rw [hpair]
      exact hA.quiet _ _ _ ht₁ hlog
    · show I (perform o (t₁, ⟨c, log, fs'⟩)).2.1
      rw [htab]
      exact ht₁
  · have ht₁ : I t₁ := hA.keep t t₁ ht hR
    exact ⟨hA.quiet _ _ _ ht₁ saved_mem_failLog, ht₁, fun hm => hs (saved_mem_failLog.mp hm)⟩

theorem meets_toList (hA : Ambient R G I) {Q : List Phikeia → Assn} (hs : Effect.saved ∉ log)
    (h : ∀ t, I t → Q (c.view t) (c.load t) log) : Meets R G I toList Q c log :=
  meets_ask hA hs (fun _ => ⟨rfl, Iff.rfl⟩) (fun t _ ht => h t ht)

theorem meets_setPhi (hA : Ambient R G I) {Q : Unit → Assn} {phi : Phikeia}
    (hs : Effect.saved ∉ log) (h : Q () (c.set phi) log) : Meets R G I (setPhi phi) Q c log :=
  meets_ask hA hs (fun _ => ⟨rfl, Iff.rfl⟩) (fun _ _ _ => h)

theorem meets_addPhi (hA : Ambient R G I) {Q : Unit → Assn} {phi : Phikeia}
    (hs : Effect.saved ∉ log) (h : Q () (c.add phi) log) : Meets R G I (addPhi phi) Q c log :=
  meets_ask hA hs (fun _ => ⟨rfl, Iff.rfl⟩) (fun _ _ _ => h)

theorem meets_sendMsg (hA : Ambient R G I) {Q : Unit → Assn} {text : Utf16}
    (hs : Effect.saved ∉ log) (h : Q () c (log ++ [.posted text])) :
    Meets R G I (sendMsg text) Q c log :=
  meets_ask hA hs (fun w => ⟨rfl, by simp [perform]⟩) (fun _ _ _ => h)

end Rules

end TacPac.Groupme
