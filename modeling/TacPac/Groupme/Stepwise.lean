import TacPac.Groupme.Returns

/-!
# One save, or one for each branch

The branches of a message share a database context and are saved together. An update
is seen by the queries of a later branch and a new row is not, so it makes a difference
whether they are saved one by one: exactly what a registration adds is seen then by the
merit and the score branch, and is not seen now.
-/

namespace TacPac.Groupme

open TacPac.Lib

/-- What an effect tells the group. -/
def Effect.text : Effect → Option Utf16
  | .posted text => some text
  | .saved => none

/-- The texts posted. -/
def posts (log : List Effect) : List Utf16 := log.filterMap Effect.text

theorem posts_append (log log' : List Effect) : posts (log ++ log') = posts log ++ posts log' :=
  List.filterMap_append

@[simp] theorem posts_saved : posts [.saved] = [] := rfl

/-- A branch with a context and a `SaveChanges` of its own. -/
def ownContext (branch : Handler Unit) : Handler Unit := do
  branch
  saveChanges

/-- The branches of a message, each by itself, and the line that follows them. -/
def steps (text : Utf16) (g : GroupmeBindingModel) : List (Handler Unit) :=
  [ownContext (if text.contains (utf16 "register") then register text g else pure ()),
    ownContext (if text.contains (utf16 "merit") then merit text g else pure ()),
    ownContext (if wantsScore text then score else pure ()),
    if text.contains (utf16 "Andre Re") then sendMsg (utf16 "Andre you a bitch") else pure ()]

/-- Steps, one after another: the table they leave, and what they have posted. -/
def stepwise : List (Handler Unit) → Table Phikeia → Except Exn (Table Phikeia × List Utf16)
  | [], t => .ok (t, [])
  | p :: ps, t =>
      match p.run exec (t, Session.start []) with
      | (.ok _, w) => (stepwise ps w.1).map fun rest => (rest.1, posts w.2.log ++ rest.2)
      | (.error e, _) => .error e

theorem stepwise_cons {p : Handler Unit} {ps : List (Handler Unit)} {t t' : Table Phikeia}
    {u : Unit} {w : World} {texts : List Utf16}
    (hp : p.run exec (t, Session.start []) = (.ok u, w))
    (hps : stepwise ps w.1 = .ok (t', texts)) :
    stepwise (p :: ps) t = .ok (t', posts w.2.log ++ texts) := by
  rw [stepwise, hp]
  show (stepwise ps w.1).map _ = _
  rw [hps]
  rfl

/-- A branch that returns, by itself. -/
theorem run_ownContext {branch : Handler Unit} {t t' : Table Phikeia} {c : Context Phikeia}
    {out : List Effect} {u : Unit}
    (h : branch.run exec (t, Session.start []) = (.ok u, (t', ⟨c, out, []⟩))) :
    (ownContext branch).run exec (t, Session.start [])
      = (.ok (), (t'.save c, ⟨c.accept, out ++ [.saved], []⟩)) :=
  (Proc.run_seq h).trans (run_saveChanges t' c out)

/-- A step whose trigger is not there. -/
theorem run_ownContext_pure (t : Table Phikeia) :
    (ownContext (pure ())).run exec (t, Session.start [])
      = (.ok (), (t, ⟨Context.new.accept, [.saved], []⟩)) := by
  have hpure : (pure () : Handler Unit).run exec (t, Session.start [])
      = (.ok (), (t, ⟨Context.new, [], []⟩)) := rfl
  have hsame : t.save Context.new = t :=
    Table.save_unchanged (Context.fresh_new t) (Context.view_new t) rfl
  rw [run_ownContext hpure, hsame]
  rfl

theorem stepwise_farewell (text : Utf16) (t : Table Phikeia) :
    stepwise [if text.contains (utf16 "Andre Re") then sendMsg (utf16 "Andre you a bitch")
      else pure ()] t = .ok (t, posts (farewell text)) := by
  unfold farewell
  by_cases ha : text.contains (utf16 "Andre Re") = true
  · rw [if_pos ha, if_pos ha]
    exact stepwise_cons (run_sendMsg _ t Context.new []) rfl
  · rw [if_neg ha, if_neg ha]
    rfl

/-- The rows a message adds. -/
theorem registered_of_whenHas {g : GroupmeBindingModel} {text : Utf16}
    {es : List (Int64 × Utf16)} (htext : g.text = some text)
    (h : whenHas text "register" (lastMentioned (registerName text) g) = some es) :
    registered g = es.filter (fun e => !barred e) := by
  unfold whenHas at h
  unfold registered
  rw [htext]
  show (if text.contains (utf16 "register") then
    ((lastMentioned (registerName text) g).getD []).filter (fun e => !barred e) else []) = _
  split at h
  · next hr => rw [if_pos hr, h]; rfl
  · next hr =>
    cases h
    rw [if_neg hr]
    rfl

/-! ## The three branches, one at a time -/

/-- What the score branch says of the rows it sees. -/
def scored (text : Utf16) (phis : List Phikeia) : List Effect :=
  if wantsScore text then [.posted (scoreReply phis)] else []

theorem run_whenScore (text : Utf16) (t : Table Phikeia) (c : Context Phikeia)
    (log : List Effect) : (if wantsScore text then score else pure () : Handler Unit).run exec
        (t, ⟨c, log, []⟩)
      = (.ok (), (t, ⟨if wantsScore text then c.load t else c,
          log ++ scored text (c.view t), []⟩)) := by
  unfold scored
  by_cases hw : wantsScore text = true
  · simp only [hw, if_true]
    rfl
  · simp only [hw, Bool.false_eq_true, if_false, List.append_nil]
    rfl

theorem run_whenRegister {text : Utf16} {g : GroupmeBindingModel} {t : Table Phikeia} {u : Unit}
    {w : World} (htext : g.text = some text)
    (h : (if text.contains (utf16 "register") then register text g else pure ()).run exec
      (t, Session.start []) = (.ok u, w)) :
    ∃ es out, w = (t, ⟨addNew Context.new es, out, []⟩) ∧ Effect.saved ∉ out
      ∧ registered g = es.filter (fun e => !barred e) := by
  have hmeets : Meets Eq (fun _ _ => True) (fun t' => t' = t)
      (if text.contains (utf16 "register") then register text g else pure ())
      (fun _ c log => ∃ es, c = addNew Context.new es ∧ Effect.saved ∉ log
        ∧ registered g = es.filter (fun e => !barred e)) Context.new [] := by
    refine meets_whenRegister (ambient_alone t) (by simp) fun es hes =>
      ⟨es, rfl, ?_, registered_of_whenHas htext hes⟩
    split <;> simp
  obtain ⟨ht, es, hc, hsaved, hes⟩ := run_of_meets hmeets h
  obtain ⟨out, hlog, hpre⟩ := run_undisturbed _ h
  have hsame := h.symm.trans (hpre [])
  rw [List.nil_append] at hlog
  refine ⟨es, out, ?_, hlog ▸ hsaved, hes⟩
  rw [(Prod.mk.inj hsame).2, ht, hc]
  rfl

/-- Nothing is added by a branch that only credits. -/
theorem run_whenMerit {text : Utf16} {g : GroupmeBindingModel} {t : Table Phikeia} {u : Unit}
    {w : World} {log : List Effect} (hs : Effect.saved ∉ log)
    (h : (if text.contains (utf16 "merit") then merit text g else pure ()).run exec
      (t, ⟨Context.new, log, []⟩) = (.ok u, w)) :
    ∃ c out, w = (t, ⟨c, log ++ out, []⟩) ∧ c.Fresh t ∧ c.added = []
      ∧ (if text.contains (utf16 "merit") then merit text g else pure ()).run exec
          (t, Session.start []) = (.ok u, (t, ⟨c, out, []⟩)) := by
  have hmeets : Meets Eq (fun _ _ => True) (fun t' => t' = t)
      (if text.contains (utf16 "merit") then merit text g else pure ())
      (fun _ c _ => c.Fresh t ∧ c.added = []) Context.new log := by
    refine meets_whenMerit (ambient_alone t) (fun _ _ c => c.Fresh t ∧ c.added = []) hs
      ⟨Context.fresh_new t, rfl⟩ ?_ (fun _ _ _ _ hinv => hinv)
    intro ms m msg c t' hinv ht'
    obtain rfl : t' = t := ht'
    refine ⟨Context.fresh_setAll _ (Context.fresh_load hinv.1), ?_⟩
    rw [credited, Context.setAll_added, Context.load_added, hinv.2]
  obtain ⟨ht, hfresh, hadded⟩ := run_of_meets hmeets h
  obtain ⟨out, -, hpre⟩ := run_undisturbed _ h
  have hsame := h.symm.trans (hpre log)
  have halone := hpre []
  rw [ht, List.nil_append] at halone
  refine ⟨w.2.ctx, out, ?_, hfresh, hadded, halone⟩
  rw [← ht]
  exact (Prod.mk.inj hsame).2

/-! ## The two ways of saving -/

theorem stepwise_undisturbed {t : Table Phikeia} {g : GroupmeBindingModel} {text : Utf16}
    {w : World} (htext : g.text = some text)
    (hsep : registered g = []
      ∨ text.contains (utf16 "merit") = false ∧ wantsScore text = false)
    (hrun : (msg (some g)).run exec (t, Session.start []) = (.ok (), w)) :
    stepwise (steps text g) t = .ok (w.1, posts w.2.log) := by
  rw [msg_text htext] at hrun
  obtain ⟨u, w₃, hbranches, hfinish⟩ := Proc.run_bind_ok hrun
  rw [branches_eq] at hbranches
  obtain ⟨u₁, w₁, hregister, hbranches⟩ := Proc.run_bind_ok hbranches
  obtain ⟨u₂, w₂, hmerit, hscore⟩ := Proc.run_bind_ok hbranches
  obtain ⟨es, out₁, rfl, hsaved, hes⟩ := run_whenRegister htext hregister
  have hstep₁ := run_ownContext hregister
  rcases hsep with hnone | ⟨hnomerit, hnoscore⟩
  · -- the registration has added nothing: the next branch starts afresh
    have hnew : addNew Context.new es = Context.new := by
      unfold addNew
      rw [← hes, hnone]
      rfl
    rw [hnew] at hmerit hstep₁
    rw [Table.save_unchanged (Context.fresh_new t) (Context.view_new t) rfl] at hstep₁
    obtain ⟨c, out₂, rfl, hfresh, hadded, hmerit'⟩ := run_whenMerit hsaved hmerit
    have hstep₂ := run_ownContext hmerit'
    -- what the score branch sees is what the merit branch saves
    have hrows : (t.save c).rows = c.view t := by
      rw [Table.save_rows_of_fresh hfresh, hadded]
      exact List.append_nil _
    have hstep₃ := run_ownContext (run_whenScore text (t.save c) Context.new [])
    have hquiet : (t.save c).save (if wantsScore text then Context.new.load (t.save c)
        else Context.new) = t.save c := by
      split
      · exact (Table.save_load (Context.fresh_new _)).trans
          (Table.save_unchanged (Context.fresh_new _) (Context.view_new _) rfl)
      · exact Table.save_unchanged (Context.fresh_new _) (Context.view_new _) rfl
    rw [hquiet, Context.view_new, hrows, List.nil_append] at hstep₃
    have hall := stepwise_cons hstep₁ (stepwise_cons hstep₂
      (stepwise_cons hstep₃ (stepwise_farewell text (t.save c))))
    -- and so does the message
    rw [run_whenScore] at hscore
    cases hscore
    rw [run_finish] at hfinish
    cases hfinish
    have hsame : t.save (if wantsScore text then c.load t else c) = t.save c := by
      split
      · exact Table.save_load hfresh
      · rfl
    unfold steps
    rw [hall]
    simp only [hsame, posts_append, posts_saved, List.append_assoc, List.nil_append]
  · -- the branches that follow are not taken
    simp only [hnomerit, Bool.false_eq_true, if_false] at hmerit
    cases hmerit
    simp only [hnoscore, Bool.false_eq_true, if_false] at hscore
    cases hscore
    rw [run_finish] at hfinish
    cases hfinish
    have hall := stepwise_cons hstep₁ (stepwise_cons (run_ownContext_pure _)
      (stepwise_cons (run_ownContext_pure _) (stepwise_farewell text _)))
    unfold steps
    simp only [hnomerit, hnoscore, Bool.false_eq_true, if_false]
    rw [hall]
    simp only [posts_append, posts_saved, List.append_assoc, List.nil_append]

/-- **One save is as good as three**, in every message that raises no exception, unless it
registers somebody and goes on to give points or to list them. -/
theorem msg_stepwise (t : Table Phikeia) (g : GroupmeBindingModel) (text : Utf16)
    (fs : List Fault) (w : World) (htext : g.text = some text)
    (hrun : (msg (some g)).run exec (t, Session.start fs) = (.ok (), w))
    (hsep : registered g = []
      ∨ text.contains (utf16 "merit") = false ∧ wantsScore text = false) :
    stepwise (steps text g) t = .ok (w.1, posts w.2.log) := by
  obtain ⟨out, hout, hpre⟩ := run_undisturbed _ hrun
  rw [stepwise_undisturbed htext hsep (hpre []), hout]

/-- `@A merit @bot score`, tagging the id 1. -/
def meritScoreA : GroupmeBindingModel :=
  ⟨some [some ⟨some (utf16 "mentions"), some [some [0, 2]], some [1]⟩],
    some (utf16 "@A merit @bot score")⟩

/-- `@A register merit`, tagging the id 1. -/
def registerMeritA : GroupmeBindingModel :=
  ⟨some [some ⟨some (utf16 "mentions"), some [some [0, 2]], some [1]⟩],
    some (utf16 "@A register merit")⟩

theorem msg_stepwise_A : ∃ w, (msg (some meritScoreA)).run exec
      ((handle Table.empty ⟨some registerA, []⟩).1, Session.start []) = (.ok (), w)
    ∧ stepwise (steps (utf16 "@A merit @bot score") meritScoreA)
        (handle Table.empty ⟨some registerA, []⟩).1 = .ok (w.1, posts w.2.log) :=
  ⟨_, rfl, msg_stepwise _ meritScoreA (utf16 "@A merit @bot score") [] _ rfl rfl
    (Or.inl (by decide +kernel))⟩

/-- Together, nobody is there to be given the point; one by one, `A` gets it. -/
theorem msg_not_stepwise :
    ¬ ∀ (t : Table Phikeia) (g : GroupmeBindingModel) (text : Utf16) (fs : List Fault)
      (w : World), g.text = some text →
        (msg (some g)).run exec (t, Session.start fs) = (.ok (), w) →
          ∃ t', stepwise (steps text g) t = .ok (t', posts w.2.log) ∧ t'.rows = w.1.rows := by
  intro h
  obtain ⟨t', hsteps, -⟩ := h Table.empty registerMeritA (utf16 "@A register merit") []
    ((msg (some registerMeritA)).run exec (Table.empty, Session.start [])).2 rfl rfl
  have htexts : (stepwise (steps (utf16 "@A register merit") registerMeritA) Table.empty).map
      Prod.snd = .ok [utf16 "A Registered!\n",
        utf16 "1 Point for @A! NICE! Total of 1 points\n"] := rfl
  rw [hsteps] at htexts
  have hposts : posts ((msg (some registerMeritA)).run exec (Table.empty, Session.start [])).2.2.log
      = [utf16 "A Registered!\n", utf16 "1 Point for @A! NICE! Total of 1 points\n"] :=
    Except.ok.inj htexts
  exact absurd hposts (by decide +kernel)

end TacPac.Groupme
