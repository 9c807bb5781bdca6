import TacPac.Groupme.MsgProof

/-!
# Runs that return

A run that returns has met no fault, so it is the run without any
(`run_undisturbed`); and what a request has posted before makes no difference to what
it does next. Which requests return when no call fails is a question of the payload
alone for all pieces but one: crediting a mention raises on an empty name only if it
finds somebody, which is left to `Returns.lean`.
-/

namespace TacPac.Groupme

open TacPac.Lib

variable {α : Type}

/-- What a call that works adds to the log. -/
def performed : Op → List Effect
  | .post text => [.posted text]
  | .saveChanges => [.saved]
  | _ => []

/-- A call does not look at the log, nor at what is still to go wrong. -/
theorem perform_frame (o : Op) (t : Table Phikeia) (c : Context Phikeia) (log : List Effect)
    (fs : List Fault) : perform o (t, ⟨c, log, fs⟩)
      = ((perform o (t, ⟨c, [], []⟩)).1, ((perform o (t, ⟨c, [], []⟩)).2.1,
          ⟨(perform o (t, ⟨c, [], []⟩)).2.2.ctx, log ++ performed o, fs⟩)) := by
  cases o with
  | toList => simp only [performed, List.append_nil]; rfl
  | set phi => simp only [performed, List.append_nil]; rfl
  | add phi => simp only [performed, List.append_nil]; rfl
  | post text => rfl
  | saveChanges => rfl

/-- A call meets no fault when there are none left. -/
theorem exec_noFaults (o : Op) (t : Table Phikeia) (c : Context Phikeia) (log : List Effect) :
    exec o (t, ⟨c, log, []⟩)
      = (.ok (perform o (t, ⟨c, log, []⟩)).1, (perform o (t, ⟨c, log, []⟩)).2) := rfl

/-- **A run that returns.** It is the run without faults, after whatever posts. -/
theorem run_undisturbed (p : Handler α) : ∀ {t : Table Phikeia} {c : Context Phikeia}
    {log : List Effect} {fs : List Fault} {a : α} {w : World},
    p.run exec (t, ⟨c, log, fs⟩) = (.ok a, w) →
      ∃ out, w.2.log = log ++ out
        ∧ ∀ pre, p.run exec (t, ⟨c, pre, []⟩) = (.ok a, (w.1, ⟨w.2.ctx, pre ++ out, []⟩)) := by
  induction p with
  | ret b =>
      intro t c log fs a w h
      cases h
      exact ⟨[], (List.append_nil log).symm, fun pre => by rw [List.append_nil]; rfl⟩
  | raise e =>
      intro t c log fs a w h
      cases h
  | call o k ih =>
      intro t c log fs a w h
      rcases exec_cases o t ⟨c, log, fs⟩ with ⟨fs', hx⟩ | ⟨f, fs', hx⟩
      · rw [Proc.run_call_ok hx, perform_frame] at h
        obtain ⟨out, hout, hpre⟩ := ih _ h
        refine ⟨performed o ++ out, by rw [hout, List.append_assoc], fun pre => ?_⟩
        rw [Proc.run_call_ok (exec_noFaults o t c pre), perform_frame, hpre, List.append_assoc]
      · rw [Proc.run_call_error hx] at h
        cases h

/-- A program that does not raise returns when no call fails. -/
theorem run_noFaults {p : Handler α} (h : p.NoRaise) (t : Table Phikeia) (c : Context Phikeia)
    (log : List Effect) :
    ∃ a t' c' out, p.run exec (t, ⟨c, log, []⟩) = (.ok a, (t', ⟨c', log ++ out, []⟩)) := by
  obtain ⟨a, w, hrun, -⟩ := Proc.run_of_noRaise (P := fun w : World => w.2.faults = [])
    (fun o w hw => by
      obtain ⟨t, c, log, fs⟩ := w
      obtain rfl : fs = [] := hw
      exact ⟨_, _, exec_noFaults o t c log, by rw [perform_frame]⟩) h (s := (t, ⟨c, log, []⟩)) rfl
  obtain ⟨out, -, hpre⟩ := run_undisturbed p hrun
  exact ⟨a, w.1, w.2.ctx, out, hpre log⟩

/-! ## Which pieces return -/

/-- An attachment list that can be walked: it is there, and all its entries are. -/
def Listed (g : GroupmeBindingModel) : Prop :=
  ∃ attachments, g.attachments = some attachments ∧ none ∉ attachments

/-- The body of the loop of `findMentions`. -/
def keepMentions (acc : Option AttachmentBindingModel) (i : Option AttachmentBindingModel) :
    Handler (Option AttachmentBindingModel) := do
  let i ← deref i
  if i.type = some (utf16 "mentions") then return some i else return acc

theorem findMentions_eq (g : GroupmeBindingModel) :
    findMentions g = (deref g.attachments >>= fun as => as.foldlM keepMentions none) := rfl

/-- The last of a list of attachments of type `mentions`, or `acc` if it has none. -/
theorem keepMentions_some (acc : Option AttachmentBindingModel) (a : AttachmentBindingModel) :
    keepMentions acc (some a)
      = .ret (if a.type = some (utf16 "mentions") then some a else acc) := by
  unfold keepMentions
  show (if _ then _ else _) = _
  split
  · rfl
  · rfl

theorem foldlM_keepMentions (as : List (Option AttachmentBindingModel)) :
    ∀ acc, none ∉ as → as.foldlM keepMentions acc
      = .ret (((as.reduceOption.filter
          (fun a => a.type = some (utf16 "mentions"))).getLast?).or acc) := by
  induction as with
  | nil => intro acc _; rfl
  | cons x as ih =>
      intro acc hnone
      obtain ⟨hx, has⟩ := not_or.mp (mt List.mem_cons.mpr hnone)
      rcases x with _ | a
      · exact absurd rfl hx
      · rw [List.foldlM_cons, keepMentions_some, Proc.ret_bind, ih _ has,
          List.reduceOption_cons_of_some]
        by_cases ha : a.type = some (utf16 "mentions")
        · rw [if_pos ha, List.filter_cons_of_pos (by simpa using ha), List.getLast?_cons]
          cases (as.reduceOption.filter _).getLast? <;> rfl
        · rw [if_neg ha, List.filter_cons_of_neg (by simpa using ha)]

theorem findMentions_listed {g : GroupmeBindingModel} (h : Listed g) :
    findMentions g = .ret (lastMentions g) := by
  obtain ⟨as, has, hnone⟩ := h
  have hlast : lastMentions g = (as.reduceOption.filter
      (fun a => a.type = some (utf16 "mentions"))).getLast? := by
    unfold lastMentions; rw [has]; rfl
  rw [findMentions_eq, has, hlast]
  show as.foldlM keepMentions none = _
  rw [foldlM_keepMentions as none hnone, Option.or_none]

theorem findMentions_unlisted {g : GroupmeBindingModel} (h : ¬ Listed g) :
    findMentions g = .raise .nullReference := by
  rw [findMentions_eq]
  rcases has : g.attachments with _ | as
  · rfl
  · have hmem : none ∈ as := by
      by_contra hnone
      exact h ⟨as, has, hnone⟩
    show as.foldlM keepMentions none = _
    -- the loop raises at the first null entry
    obtain ⟨pre, post, hsplit, hpre⟩ := List.eq_append_cons_of_mem hmem
    rw [hsplit, List.foldlM_append, foldlM_keepMentions pre none hpre, Proc.ret_bind]
    rfl

theorem locus_some {a : AttachmentBindingModel} {i j : Nat} {v : Int32}
    (h : locusOf a i j = some v) : locus a i j = .ret v := by
  unfold locusOf at h
  obtain ⟨loci, hloci, h⟩ := Option.bind_eq_some_iff.mp h
  obtain ⟨pair, hpair, h⟩ := Option.bind_eq_some_iff.mp h
  obtain ⟨pair', hpair', h⟩ := Option.bind_eq_some_iff.mp h
  unfold locus at' deref
  rw [hloci]
  simp only [Proc.orRaise, Proc.ret_bind]
  rw [hpair]
  simp only [Proc.ret_bind]
  rw [hpair']
  simp only [Proc.ret_bind]
  rw [h]

/-- A name that is there has both its loci, and is inside the text. -/
theorem noRaise_named {α : Type} {a : AttachmentBindingModel} {i : Nat}
    (extract : Int32 → Int32 → Option Utf16) {f : Utf16 → Handler α} {name : Utf16}
    (h : ((locusOf a i 0).bind fun start => (locusOf a i 1).bind fun length =>
      extract start length) = some name) (hf : (f name).NoRaise) :
    Proc.NoRaise (do
      let start ← locus a i 0
      let length ← locus a i 1
      let name ← Proc.orRaise .argumentOutOfRange (extract start length)
      f name) := by
  obtain ⟨start, hstart, h⟩ := Option.bind_eq_some_iff.mp h
  obtain ⟨length, hlength, h⟩ := Option.bind_eq_some_iff.mp h
  rw [locus_some hstart, Proc.ret_bind, locus_some hlength, Proc.ret_bind, h]
  exact hf

theorem noRaise_registerAll {text : Utf16} {a : AttachmentBindingModel}
    {es : List (Int64 × Utf16)} (h : mentions (registerName text a) a = some es) :
    (registerAll text a).NoRaise := by
  unfold mentions at h
  obtain ⟨ids, hids, h⟩ := Option.bind_eq_some_iff.mp h
  unfold registerAll deref
  rw [hids]
  refine Proc.noRaise_foldlM fun x hx msg => ?_
  obtain ⟨y, -, hy⟩ := mem_of_mapM h hx
  obtain ⟨name, hname, -⟩ := Option.map_eq_some_iff.mp hy
  refine noRaise_named (fun start length =>
    text.substring (start + 1).toInt (length - 1).toInt) hname ?_
  show Proc.NoRaise (if _ then _ else _)
  split
  · exact Proc.noRaise_bind (Proc.noRaise_ask _) fun _ => trivial
  · trivial

theorem noRaise_score : score.NoRaise :=
  Proc.noRaise_bind (Proc.noRaise_ask _) fun _ => Proc.noRaise_ask _

theorem noRaise_register {text : Utf16} {g : GroupmeBindingModel} {es : List (Int64 × Utf16)}
    (hg : Listed g) (h : lastMentioned (registerName text) g = some es) :
    (register text g).NoRaise := by
  unfold register
  rw [findMentions_listed hg, Proc.ret_bind]
  unfold lastMentioned at h
  split
  · next a ha =>
    rw [ha] at h
    exact Proc.noRaise_bind (noRaise_registerAll h) fun _ => Proc.noRaise_ask _
  · exact Proc.noRaise_ask _

/-- A text with a command that looks at the attachments. -/
def Commands (text : Utf16) : Prop :=
  text.contains (utf16 "register") = true ∨ text.contains (utf16 "merit") = true

/-- Otherwise such a command is where the handler ends. -/
theorem branches_unlisted {g : GroupmeBindingModel} {text : Utf16} (hcmd : Commands text)
    (h : ¬ Listed g) : branches text g = .raise .nullReference := by
  rw [branches_eq]
  by_cases hr : text.contains (utf16 "register") = true
  · rw [if_pos hr]
    unfold register
    rw [findMentions_unlisted h]
    rfl
  · rw [if_neg hr, if_pos (hcmd.resolve_left hr)]
    unfold merit
    rw [findMentions_unlisted h]
    rfl

/-! ## The end of a message -/

/-- What is posted after the save. -/
def farewell (text : Utf16) : List Effect :=
  if text.contains (utf16 "Andre Re") then [.posted (utf16 "Andre you a bitch")] else []

theorem run_sendMsg (text : Utf16) (t : Table Phikeia) (c : Context Phikeia)
    (log : List Effect) : (sendMsg text).run exec (t, ⟨c, log, []⟩)
      = (.ok (), (t, ⟨c, log ++ [.posted text], []⟩)) := rfl

theorem run_saveChanges (t : Table Phikeia) (c : Context Phikeia) (log : List Effect) :
    saveChanges.run exec (t, ⟨c, log, []⟩)
      = (.ok (), (t.save c, ⟨c.accept, log ++ [.saved], []⟩)) := rfl

theorem run_finish (text : Utf16) (t : Table Phikeia) (c : Context Phikeia)
    (log : List Effect) : (finish text).run exec (t, ⟨c, log, []⟩)
      = (.ok (), (t.save c, ⟨c.accept, log ++ [.saved] ++ farewell text, []⟩)) := by
  unfold finish farewell
  rw [Proc.run_seq (run_saveChanges t c log)]
  by_cases ha : text.contains (utf16 "Andre Re") = true
  · rw [if_pos ha, if_pos ha, run_sendMsg]
  · rw [if_neg ha, if_neg ha, List.append_nil]
    rfl

end TacPac.Groupme
