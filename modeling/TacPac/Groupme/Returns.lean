import TacPac.Groupme.Runs
import TacPac.Groupme.Serial

/-!
# Which messages return

`Runs.lean` has pieces that return whatever their queries answer. The merit branch is not
one of them: an empty name is cut only for a row that is found. Here is the exact condition
for a message, on its payload and the ids in the table (`returns_msg`); and what a message
that does not return ends with.
-/

namespace TacPac.Groupme

open TacPac.Lib

/-- What a rule says of a run that returns, alone. -/
theorem run_of_meets {α : Type} {p : Handler α} {Q : α → Assn} {t : Table Phikeia}
    {c : Context Phikeia} {log : List Effect} {fs : List Fault} {a : α} {w : World}
    (h : Meets Eq (fun _ _ => True) (fun t' => t' = t) p Q c log)
    (hrun : p.run exec (t, ⟨c, log, fs⟩) = (.ok a, w)) : w.1 = t ∧ Q a w.2.ctx w.2.log := by
  have hwp := Proc.run_of_wp (S := setting Eq (fun _ _ => True)) (fun w => ⟨rfl, rfl⟩)
    (h t fs rfl)
  rw [setting_exec, hrun] at hwp
  exact hwp

/-- When no call fails, none will. -/
theorem faults_of_run {α : Type} {p : Handler α} {t : Table Phikeia} {c : Context Phikeia}
    {log : List Effect} {a : α} {w : World}
    (h : p.run exec (t, ⟨c, log, []⟩) = (.ok a, w)) : w.2.faults = [] := by
  obtain ⟨out, -, hpre⟩ := run_undisturbed p h
  rw [(Prod.mk.inj (h.symm.trans (hpre log))).2]

theorem returns_of_noRaise {α : Type} {p : Handler α} (h : p.NoRaise) (t : Table Phikeia)
    (c : Context Phikeia) (log : List Effect) : p.Returns exec (t, ⟨c, log, []⟩) := by
  obtain ⟨a, t', c', out, hrun⟩ := run_noFaults h t c log
  exact ⟨a, _, hrun⟩

/-! ## The payload -/

theorem returns_findMentions {α : Type} {g : GroupmeBindingModel}
    {f : Option AttachmentBindingModel → Handler α} {w : World} :
    (findMentions g >>= f).Returns exec w ↔ Listed g ∧ (f (lastMentions g)).Returns exec w := by
  by_cases hg : Listed g
  · rw [findMentions_listed hg, Proc.ret_bind]
    exact (and_iff_right hg).symm
  · rw [findMentions_unlisted hg, Proc.raise_bind]
    exact iff_of_false Proc.not_returns_raise fun h => hg h.1

theorem returns_locus {α : Type} {a : AttachmentBindingModel} {i j : Nat}
    {f : Int32 → Handler α} {w : World} :
    (locus a i j >>= f).Returns exec w ↔ ∃ v, locusOf a i j = some v ∧ (f v).Returns exec w := by
  unfold locus deref at' locusOf
  simp only [bind_assoc, Proc.returns_orRaise, Option.bind_eq_some_iff]
  constructor
  · rintro ⟨loci, hloci, pair, hpair, pair', hpair', v, hv, h⟩
    exact ⟨v, ⟨loci, hloci, pair, hpair, pair', hpair', hv⟩, h⟩
  · rintro ⟨v, ⟨loci, hloci, pair, hpair, pair', hpair', hv⟩, h⟩
    exact ⟨loci, hloci, pair, hpair, pair', hpair', v, hv, h⟩

/-- A name, cut out of the text at a mention's locus. -/
theorem returns_named {α : Type} {a : AttachmentBindingModel} {i : Nat}
    {extract : Int32 → Int32 → Option Utf16} {f : Utf16 → Handler α} {w : World} :
    (do
      let start ← locus a i 0
      let length ← locus a i 1
      let name ← Proc.orRaise .argumentOutOfRange (extract start length)
      f name : Handler α).Returns exec w
    ↔ ∃ name, ((locusOf a i 0).bind fun start => (locusOf a i 1).bind fun length =>
        extract start length) = some name ∧ (f name).Returns exec w := by
  simp only [returns_locus, Proc.returns_orRaise, Option.bind_eq_some_iff]
  constructor
  · rintro ⟨start, hstart, length, hlength, name, hname, h⟩
    exact ⟨name, ⟨start, hstart, length, hlength, hname⟩, h⟩
  · rintro ⟨name, ⟨start, hstart, length, hlength, hname⟩, h⟩
    exact ⟨start, hstart, length, hlength, name, hname, h⟩

/-! ## The register branch -/

theorem returns_register {text : Utf16} {g : GroupmeBindingModel} {t : Table Phikeia}
    {c : Context Phikeia} {log : List Effect} (hs : Effect.saved ∉ log) :
    (register text g).Returns exec (t, ⟨c, log, []⟩)
      ↔ Listed g ∧ (lastMentioned (registerName text) g).isSome := by
  constructor
  · intro h
    have hg : Listed g := by
      unfold register at h
      exact (returns_findMentions.mp h).1
    obtain ⟨u, w, hrun⟩ := h
    have hmeets : Meets Eq (fun _ _ => True) (fun t' => t' = t) (register text g)
        (fun _ _ _ => (lastMentioned (registerName text) g).isSome) c log :=
      meets_register (ambient_alone t) hs fun es hes => by rw [hes]; rfl
    exact ⟨hg, (run_of_meets hmeets hrun).2⟩
  · rintro ⟨hg, hsome⟩
    obtain ⟨es, hes⟩ := Option.isSome_iff_exists.mp hsome
    exact returns_of_noRaise (noRaise_register hg hes) t c log

/-! ## The merit branch -/

/-- Nobody in the table has this id. -/
def Unknown (t : Table Phikeia) (u : Int64) : Prop := ∀ r ∈ t.rows, r.groupmeId ≠ u

instance (t : Table Phikeia) (u : Int64) : Decidable (Unknown t u) :=
  inferInstanceAs (Decidable (∀ r ∈ t.rows, r.groupmeId ≠ u))

/-- The merit branch, between two mentions. -/
structure Crediting (t : Table Phikeia) (w : World) : Prop where
  table : w.1 = t
  faults : w.2.faults = []
  unsaved : Effect.saved ∉ w.2.log
  wellKeyed : w.2.ctx.WellKeyed
  /-- The ids are those of the table. -/
  ids : (w.2.ctx.view t).map Phikeia.groupmeId = t.rows.map Phikeia.groupmeId

section Merit

variable {t : Table Phikeia} {diff : Int} {text : Utf16}

theorem unknown_view {w : World} (h : Crediting t w) (u : Int64) :
    Unknown t u ↔ ∀ phi ∈ w.2.ctx.view t, phi.groupmeId ≠ u := by
  have hmem : ∀ phis : List Phikeia,
      (∀ phi ∈ phis, phi.groupmeId ≠ u) ↔ u ∉ phis.map Phikeia.groupmeId := by
    intro phis
    simp only [List.mem_map, not_exists, not_and]
  unfold Unknown
  rw [hmem, hmem, h.ids]

/-- `name.Substring(1)` -/
theorem substringFrom_one (name : Utf16) :
    (∃ stored, name.substringFrom 1 = some stored) ↔ name ≠ [] := by
  unfold Utf16.substringFrom Utf16.substring
  cases name with
  | nil => simp
  | cons u us =>
      refine iff_of_true ?_ (List.cons_ne_nil u us)
      rw [if_neg (by simp only [List.length_cons]; omega)]
      exact ⟨_, rfl⟩

theorem returns_credit {d : Int32} {u : Int64} {name : Utf16} {phis : List Phikeia} {w : World}
    (hw : w.2.faults = []) : (credit d u name phis).Returns exec w
      ↔ ∀ phi ∈ phis, phi.groupmeId = u → name ≠ [] := by
  unfold credit
  refine Proc.returns_foldlM (fun w : World => w.2.faults = []) (fun phi acc w hw => ?_)
    (fun phi acc w acc' w' hw hrun => ?_) phis _ w hw
  · show Proc.Returns exec (if phi.groupmeId = u then _ else _) w ↔ _
    by_cases hu : phi.groupmeId = u
    · rw [if_pos hu, Proc.returns_orRaise]
      refine Iff.trans ?_ (forall_prop_of_true hu).symm
      rw [← substringFrom_one]
      refine exists_congr fun stored => and_iff_left ?_
      obtain ⟨t, c, log, fs⟩ := w
      obtain rfl : fs = [] := hw
      exact ⟨_, _, rfl⟩
    · rw [if_neg hu]
      exact iff_of_true (Proc.returns_ret _ w) fun h => absurd h hu
  · obtain ⟨t, c, log, fs⟩ := w
    obtain rfl : fs = [] := hw
    exact faults_of_run hrun

/-- One turn of the loop over the mentions. -/
def meritTurn (d : Int32) (text : Utf16) (a : AttachmentBindingModel) (msg : Utf16)
    (x : Int64 × Nat) : Handler Utf16 := do
  let start ← locus a x.2 0
  let length ← locus a x.2 1
  let name ← Proc.orRaise .argumentOutOfRange (text.substring start.toInt length.toInt)
  let phis ← toList
  let r ← credit d x.1 name phis
  return msg ++ meritSentence d name r.1 r.2

theorem meritAll_eq (d : Int32) (text : Utf16) (a : AttachmentBindingModel) :
    meritAll d text a
      = deref a.userIds >>= fun userIds => userIds.zipIdx.foldlM (meritTurn d text a) [] := rfl

theorem returns_meritTurn {d : Int32} {a : AttachmentBindingModel} {msg : Utf16}
    {x : Int64 × Nat} {w : World} (h : Crediting t w) :
    (meritTurn d text a msg x).Returns exec w
      ↔ ∃ name, meritName text a x.2 = some name ∧ (name = [] → Unknown t x.1) := by
  unfold meritTurn
  refine (returns_named (w := w)).trans ?_
  refine exists_congr fun name => and_congr_right fun _ => ?_
  have hview := unknown_view h x.1
  have hkeys := h.table
  obtain ⟨t', c, log, fs⟩ := w
  obtain rfl : t' = t := hkeys
  obtain rfl : fs = [] := h.faults
  -- the query works, and the reply does
  have hask : ∀ f : List Phikeia → Handler Utf16, (toList >>= f).Returns exec (t', ⟨c, log, []⟩)
      ↔ (f (c.view t')).Returns exec (t', ⟨c.load t', log, []⟩) := fun f => Iff.rfl
  rw [hask, Proc.returns_bind, hview]
  have hcredit : (credit d x.1 name (c.view t')).Returns exec (t', ⟨c.load t', log, []⟩)
      ↔ ∀ phi ∈ c.view t', phi.groupmeId = x.1 → name ≠ [] := returns_credit rfl
  constructor
  · rintro ⟨r, w', hrun, -⟩ hname phi hphi hu
    exact hcredit.mp ⟨r, w', hrun⟩ phi hphi hu hname
  · intro hunknown
    obtain ⟨r, w', hrun⟩ := hcredit.mpr fun phi hphi hu hname => hunknown hname phi hphi hu
    exact ⟨r, w', hrun, Proc.returns_ret _ w'⟩

/-- Crediting keeps the ids. -/
theorem crediting_turn {a : AttachmentBindingModel} {msg msg' : Utf16} {x : Int64 × Nat}
    {w w' : World} (h : Crediting t w)
    (hrun : (meritTurn (Int32.ofInt diff) text a msg x).run exec w = (.ok msg', w')) :
    Crediting t w' := by
  have hkeys := h.table
  obtain ⟨t', c, log, fs⟩ := w
  obtain rfl : t' = t := hkeys
  obtain rfl : fs = [] := h.faults
  have hmeets : Meets Eq (fun _ _ => True) (fun t'' => t'' = t')
      (meritTurn (Int32.ofInt diff) text a msg x)
      (fun _ c' log' => log' = log ∧ ∃ name,
        c' = credited diff (x.1, name) (c.view t') (c.load t')) c log := by
    unfold meritTurn
    refine meets_bind (meets_locus h.unsaved fun start _ => ?_)
    refine meets_bind (meets_locus h.unsaved fun length _ => ?_)
    refine meets_bind (meets_orRaise h.unsaved fun name _ => ?_)
    refine meets_bind (meets_toList (ambient_alone t') h.unsaved fun t'' ht => ?_)
    refine meets_bind (meets_credit (ambient_alone t') h.unsaved ?_)
    obtain rfl : t'' = t' := ht
    exact meets_ret ⟨rfl, name, rfl⟩
  obtain ⟨htable, hlog, name, hctx⟩ := run_of_meets hmeets hrun
  refine ⟨htable, faults_of_run hrun, hlog ▸ h.unsaved, ?_, ?_⟩
  · rw [hctx]
    exact Context.wellKeyed_setAll _ (Context.wellKeyed_load h.wellKeyed _)
  · rw [hctx, credited_view h.wellKeyed, List.map_map, ← h.ids]
    exact List.map_congr_left fun r _ => Phikeia.mark_groupmeId diff r _

theorem returns_meritAll {a : AttachmentBindingModel} {w : World} (h : Crediting t w) :
    (meritAll (Int32.ofInt diff) text a).Returns exec w
      ↔ ∃ ms, mentions (meritName text a) a = some ms ∧ ∀ m ∈ ms, m.2 = [] → Unknown t m.1 := by
  rw [meritAll_eq, deref, Proc.returns_orRaise]
  unfold mentions
  simp only [Option.bind_eq_some_iff]
  have hloop : ∀ ids : List Int64,
      (ids.zipIdx.foldlM (meritTurn (Int32.ofInt diff) text a) []).Returns exec w
        ↔ ∃ ms, ids.zipIdx.mapM (named (meritName text a)) = some ms
          ∧ ∀ m ∈ ms, m.2 = [] → Unknown t m.1 := by
    intro ids
    rw [exists_mapM_iff]
    refine (Proc.returns_foldlM (Crediting t) (f := meritTurn (Int32.ofInt diff) text a)
      (fun x msg w hw => returns_meritTurn hw)
      (fun x msg w msg' w' hw hrun => crediting_turn hw hrun) _ [] w h).trans ?_
    refine forall₂_congr fun x _ => ?_
    unfold named
    simp only [Option.map_eq_some_iff]
    constructor
    · rintro ⟨name, hname, hunknown⟩
      exact ⟨_, ⟨name, hname, rfl⟩, hunknown⟩
    · rintro ⟨_, ⟨name, hname, rfl⟩, hunknown⟩
      exact ⟨name, hname, hunknown⟩
  constructor
  · rintro ⟨ids, hids, hrun⟩
    obtain ⟨ms, hms, hunknown⟩ := (hloop ids).mp hrun
    exact ⟨ms, ⟨ids, hids, hms⟩, hunknown⟩
  · rintro ⟨ms, ⟨ids, hids, hms⟩, hunknown⟩
    exact ⟨ids, hids, (hloop ids).mpr ⟨ms, hms, hunknown⟩⟩

/-- Which way the merit branch moves points, whatever the text. -/
def meritDiff (text : Utf16) : Int := if text.contains (utf16 "demerit") then -1 else 1

theorem merit_eq (text : Utf16) (g : GroupmeBindingModel) : merit text g
    = findMentions g >>= fun mentionsAttach => match mentionsAttach with
      | some a => meritAll (Int32.ofInt (meritDiff text)) text a >>= sendMsg
      | none => .ret () := by
  have hdiff : (if text.contains (utf16 "demerit") then -1 else 1 : Int32)
      = Int32.ofInt (meritDiff text) := by
    unfold meritDiff
    split <;> rfl
  unfold merit
  rw [hdiff]
  rfl

theorem returns_merit {g : GroupmeBindingModel} {w : World} (h : Crediting t w) :
    (merit text g).Returns exec w ↔ Listed g ∧ ∃ ms, lastMentioned (meritName text) g = some ms
      ∧ ∀ m ∈ ms, m.2 = [] → Unknown t m.1 := by
  rw [merit_eq, returns_findMentions]
  refine and_congr_right fun _ => ?_
  unfold lastMentioned
  cases lastMentions g with
  | none => exact iff_of_true (Proc.returns_ret () w) ⟨[], rfl, by simp⟩
  | some a =>
      have hall : (meritAll (Int32.ofInt (meritDiff text)) text a).Returns exec w ↔ _ :=
        returns_meritAll h
      refine Iff.trans ?_ hall
      show Proc.Returns exec (meritAll (Int32.ofInt (meritDiff text)) text a >>= sendMsg) w ↔ _
      rw [Proc.returns_bind]
      refine exists_congr fun msg => exists_congr fun w' => and_iff_left_of_imp fun hrun => ?_
      obtain ⟨t', c, log, fs⟩ := w
      obtain rfl : fs = [] := h.faults
      have hfaults := faults_of_run hrun
      obtain ⟨t₁, c₁, log₁, fs₁⟩ := w'
      obtain rfl : fs₁ = [] := hfaults
      exact ⟨_, _, run_sendMsg msg t₁ c₁ log₁⟩

end Merit

/-! ## The message -/

/-- A message that the handler comes to the end of. -/
structure Fit (t : Table Phikeia) (g : GroupmeBindingModel) (text : Utf16) : Prop where
  hasText : g.text = some text
  listed : Commands text → Listed g
  registers : text.contains (utf16 "register") = true →
    (lastMentioned (registerName text) g).isSome
  /-- A mention without a name is of nobody in the table. -/
  marks : text.contains (utf16 "merit") = true →
    ∃ ms, lastMentioned (meritName text) g = some ms ∧ ∀ m ∈ ms, m.2 = [] → Unknown t m.1

section Message

variable {t : Table Phikeia} {g : GroupmeBindingModel} {text : Utf16}

/-- Where the register branch leaves off. -/
theorem crediting_register {u : Unit} {w : World}
    (hrun : (if text.contains (utf16 "register") then register text g else pure ()).run exec
      (t, Session.start []) = (.ok u, w)) : Crediting t w := by
  have hmeets : Meets Eq (fun _ _ => True) (fun t' => t' = t)
      (if text.contains (utf16 "register") then register text g else pure ())
      (fun _ c log => (∃ es, c = addNew Context.new es) ∧ Effect.saved ∉ log)
      Context.new [] := by
    refine meets_whenRegister (ambient_alone t) (by simp) fun es _ => ⟨⟨es, rfl⟩, ?_⟩
    split <;> simp
  obtain ⟨htable, ⟨es, hctx⟩, hsaved⟩ := run_of_meets hmeets hrun
  refine ⟨htable, faults_of_run hrun, hsaved, ?_, ?_⟩
  · rw [hctx]
    exact Context.wellKeyed_new
  · rw [hctx]
    show ((Context.new : Context Phikeia).view t).map _ = _
    rw [Context.view_new]

theorem returns_when {b : Bool} {p : Handler Unit} {w : World} :
    (if b then p else pure () : Handler Unit).Returns exec w ↔ (b = true → p.Returns exec w) := by
  cases b with
  | false => exact iff_of_true (Proc.returns_ret () w) fun h => by cases h
  | true => exact ⟨fun h _ => h, fun h => h rfl⟩

/-- The score branch always returns. -/
theorem returns_then_score {p : Handler Unit} {w : World} (hw : w.2.faults = []) :
    (p >>= fun _ => if wantsScore text then score else pure ()).Returns exec w
      ↔ p.Returns exec w := by
  rw [Proc.returns_bind]
  refine exists_congr fun u => exists_congr fun w' => and_iff_left_of_imp fun hrun => ?_
  obtain ⟨t₀, c₀, log₀, fs₀⟩ := w
  obtain rfl : fs₀ = [] := hw
  have hfaults := faults_of_run hrun
  obtain ⟨t₁, c₁, log₁, fs₁⟩ := w'
  obtain rfl : fs₁ = [] := hfaults
  rw [returns_when]
  exact fun _ => returns_of_noRaise noRaise_score t₁ c₁ log₁

theorem returns_branches : (branches text g).Returns exec (t, Session.start [])
    ↔ (text.contains (utf16 "register") = true →
        Listed g ∧ (lastMentioned (registerName text) g).isSome)
      ∧ (text.contains (utf16 "merit") = true → Listed g ∧ ∃ ms,
        lastMentioned (meritName text) g = some ms ∧ ∀ m ∈ ms, m.2 = [] → Unknown t m.1) := by
  have hregister : (if text.contains (utf16 "register") then register text g else pure () :
      Handler Unit).Returns exec (t, Session.start [])
      ↔ (text.contains (utf16 "register") = true →
        Listed g ∧ (lastMentioned (registerName text) g).isSome) :=
    returns_when.trans (imp_congr_right fun _ => returns_register (by simp))
  have hmerit : ∀ w, Crediting t w → (Proc.Returns exec
      ((if text.contains (utf16 "merit") then merit text g else pure ())
        >>= fun _ => if wantsScore text then score else pure ()) w
      ↔ (text.contains (utf16 "merit") = true → Listed g ∧ ∃ ms,
        lastMentioned (meritName text) g = some ms ∧ ∀ m ∈ ms, m.2 = [] → Unknown t m.1)) :=
    fun w hw => (returns_then_score hw.faults).trans
      (returns_when.trans (imp_congr_right fun _ => returns_merit hw))
  rw [branches_eq, Proc.returns_bind, ← hregister]
  constructor
  · rintro ⟨u, w, hrun, hrest⟩
    exact ⟨⟨u, w, hrun⟩, (hmerit w (crediting_register hrun)).mp hrest⟩
  · rintro ⟨⟨u, w, hrun⟩, hrest⟩
    exact ⟨u, w, hrun, (hmerit w (crediting_register hrun)).mpr hrest⟩

/-- **When a message returns**, if no call fails. -/
theorem returns_msg : (msg (some g)).Returns exec (t, Session.start [])
    ↔ ∃ text, Fit t g text := by
  cases htext : g.text with
  | none =>
      rw [msg_noText htext]
      refine iff_of_false Proc.not_returns_raise ?_
      rintro ⟨text, hfit⟩
      cases htext.symm.trans hfit.hasText
  | some text =>
      rw [msg_text htext, Proc.returns_bind]
      have hfinish : ∀ u w, (branches text g).run exec (t, Session.start []) = (.ok u, w) →
          (finish text).Returns exec w := by
        intro u w hrun
        have hfaults := faults_of_run hrun
        obtain ⟨t₁, c₁, log₁, fs₁⟩ := w
        obtain rfl : fs₁ = [] := hfaults
        exact ⟨_, _, run_finish text t₁ c₁ log₁⟩
      have hbranches : (∃ u w, (branches text g).run exec (t, Session.start []) = (.ok u, w)
            ∧ (finish text).Returns exec w)
          ↔ (branches text g).Returns exec (t, Session.start []) :=
        exists_congr fun u => exists_congr fun w => and_iff_left_of_imp (hfinish u w)
      rw [hbranches, returns_branches]
      constructor
      · rintro ⟨hregisters, hmarks⟩
        exact ⟨text, htext, fun hcmd => hcmd.elim (fun hr => (hregisters hr).1)
          fun hm => (hmarks hm).1, fun hr => (hregisters hr).2, fun hm => (hmarks hm).2⟩
      · rintro ⟨text', hfit⟩
        obtain rfl := Option.some.inj (htext.symm.trans hfit.hasText)
        exact ⟨fun hr => ⟨hfit.listed (Or.inl hr), hfit.registers hr⟩,
          fun hm => ⟨hfit.listed (Or.inr hm), hfit.marks hm⟩⟩

/-- A message that has returned has saved. -/
theorem saved_of_run {fs : List Fault} {u : Unit} {w : World}
    (h : (msg (some g)).run exec (t, Session.start fs) = (.ok u, w)) : Effect.saved ∈ w.2.log := by
  have halone := msg_alone t (some g) fs
  rw [h] at halone
  obtain ⟨m, o, -, hc⟩ := halone
  obtain ⟨text, tail, -, hlog, -⟩ := hc.log
  rw [hlog]
  simp

/-- A message with nothing for the handler to raise on. -/
structure Clear (g : GroupmeBindingModel) (text : Utf16) (o : Order) : Prop where
  hasText : g.text = some text
  order : orderOf g = some o
  listed : Commands text → Listed g
  names : ∀ m ∈ o.marks, m.2 ≠ []

theorem fit_of_clear {o : Order} (h : Clear g text o) : Fit t g text := by
  obtain ⟨text', hread⟩ := orderOf_isSome (by rw [h.order]; rfl)
  obtain rfl := Option.some.inj (h.hasText.symm.trans hread.hasText)
  refine ⟨h.hasText, h.listed, fun hr => ?_, fun hm => ⟨o.marks, ?_, fun m hmem hnil => ?_⟩⟩
  · obtain ⟨es, hes, -⟩ := hread.registers hr
    rw [hes]
    rfl
  · have hmarks := marks_of_orderOf h.hasText h.order
    rwa [if_pos hm] at hmarks
  · exact absurd hnil (h.names m hmem)

/-- **A clear message is committed**, when no call fails. -/
theorem run_msg_clear {o : Order} (h : Clear g text o) (t : Table Phikeia) :
    ∃ w, (msg (some g)).run exec (t, Session.start []) = (.ok (), w)
      ∧ Effect.saved ∈ w.2.log := by
  obtain ⟨u, w, hrun⟩ := returns_msg.mpr ⟨text, fit_of_clear (t := t) h⟩
  exact ⟨w, hrun, saved_of_run hrun⟩

end Message

/-! ## The exceptions -/

/-- An exception of the handler itself: it has dereferenced null, or an index or an argument
is out of range. -/
def Exn.Local (e : Exn) : Prop := e = .nullReference ∨ e = .argumentOutOfRange

theorem not_local_exn (o : Op) : ¬ o.exn.Local := by
  cases o <;> rintro (h | h) <;> cases h

/-- What is left of a run that would return, once a call has failed in it. -/
theorem not_local_of_returns {α : Type} (p : Handler α) : ∀ {t : Table Phikeia}
    {c : Context Phikeia} {log : List Effect}, p.Returns exec (t, ⟨c, log, []⟩) →
      ∀ (log' : List Effect) (fs : List Fault) (e : Exn),
        (p.run exec (t, ⟨c, log', fs⟩)).1 = .error e → ¬ e.Local := by
  induction p with
  | ret a =>
      intro t c log _ log' fs e he
      cases he
  | raise e => exact fun h => (Proc.not_returns_raise h).elim
  | call o k ih =>
      rintro t c log ⟨a, w, h⟩ log' fs e he
      rw [Proc.run_call_ok (exec_noFaults o t c log), perform_frame] at h
      rcases exec_cases o t ⟨c, log', fs⟩ with ⟨fs', hx⟩ | ⟨f, fs', hx⟩
      · rw [Proc.run_call_ok hx, perform_frame] at he
        exact ih _ ⟨a, w, h⟩ _ fs' e he
      · rw [Proc.run_call_error hx] at he
        cases he
        exact not_local_exn o

section RaisesOnly

theorem raisesOnly_deref {α : Type} (o : Option α) : (deref o).RaisesOnly Exn.Local :=
  Proc.raisesOnly_orRaise fun _ => Or.inl rfl

theorem raisesOnly_argument {α : Type} (o : Option α) :
    Proc.RaisesOnly Exn.Local (Proc.orRaise .argumentOutOfRange o : Handler α) :=
  Proc.raisesOnly_orRaise fun _ => Or.inr rfl

theorem raisesOnly_locus (a : AttachmentBindingModel) (i j : Nat) :
    (locus a i j).RaisesOnly Exn.Local :=
  Proc.raisesOnly_bind (raisesOnly_deref _) fun _ =>
    Proc.raisesOnly_bind (raisesOnly_argument _) fun _ =>
      Proc.raisesOnly_bind (raisesOnly_deref _) fun _ => raisesOnly_argument _

/-- A name, and what is done with it. -/
theorem raisesOnly_named {α : Type} {a : AttachmentBindingModel} {i : Nat}
    {extract : Int32 → Int32 → Option Utf16} {f : Utf16 → Handler α}
    (h : ∀ name, (f name).RaisesOnly Exn.Local) :
    Proc.RaisesOnly Exn.Local (do
      let start ← locus a i 0
      let length ← locus a i 1
      let name ← Proc.orRaise .argumentOutOfRange (extract start length)
      f name) :=
  Proc.raisesOnly_bind (raisesOnly_locus a i 0) fun _ =>
    Proc.raisesOnly_bind (raisesOnly_locus a i 1) fun _ =>
      Proc.raisesOnly_bind (raisesOnly_argument _) h

theorem raisesOnly_findMentions (g : GroupmeBindingModel) :
    (findMentions g).RaisesOnly Exn.Local := by
  refine Proc.raisesOnly_bind (raisesOnly_deref _) fun as =>
    Proc.raisesOnly_foldlM fun i _ acc => Proc.raisesOnly_bind (raisesOnly_deref i) fun i => ?_
  split
  · trivial
  · trivial

theorem raisesOnly_registerAll (text : Utf16) (a : AttachmentBindingModel) :
    (registerAll text a).RaisesOnly Exn.Local := by
  refine Proc.raisesOnly_bind (raisesOnly_deref _) fun ids =>
    Proc.raisesOnly_foldlM fun x _ msg => raisesOnly_named fun name => ?_
  split
  · exact Proc.raisesOnly_bind (Proc.raisesOnly_ask _ _) fun _ => trivial
  · trivial

theorem raisesOnly_credit (d : Int32) (u : Int64) (name : Utf16) (phis : List Phikeia) :
    (credit d u name phis).RaisesOnly Exn.Local := by
  refine Proc.raisesOnly_foldlM fun phi _ acc => ?_
  show Proc.RaisesOnly _ (if phi.groupmeId = u then _ else _)
  split
  · exact Proc.raisesOnly_bind (raisesOnly_argument _) fun _ =>
      Proc.raisesOnly_bind (Proc.raisesOnly_ask _ _) fun _ => trivial
  · trivial

theorem raisesOnly_meritAll (d : Int32) (text : Utf16) (a : AttachmentBindingModel) :
    (meritAll d text a).RaisesOnly Exn.Local :=
  Proc.raisesOnly_bind (raisesOnly_deref _) fun _ =>
    Proc.raisesOnly_foldlM fun _ _ _ => raisesOnly_named fun name =>
      Proc.raisesOnly_bind (Proc.raisesOnly_ask _ _) fun phis =>
        Proc.raisesOnly_bind (raisesOnly_credit d _ name phis) fun _ => trivial

theorem raisesOnly_register (text : Utf16) (g : GroupmeBindingModel) :
    (register text g).RaisesOnly Exn.Local := by
  refine Proc.raisesOnly_bind (raisesOnly_findMentions g) fun mentionsAttach => ?_
  cases mentionsAttach with
  | none => exact Proc.raisesOnly_ask _ _
  | some a =>
      exact Proc.raisesOnly_bind (raisesOnly_registerAll text a) fun _ => Proc.raisesOnly_ask _ _

theorem raisesOnly_merit (text : Utf16) (g : GroupmeBindingModel) :
    (merit text g).RaisesOnly Exn.Local := by
  refine Proc.raisesOnly_bind (raisesOnly_findMentions g) fun mentionsAttach => ?_
  cases mentionsAttach with
  | none => trivial
  | some a =>
      exact Proc.raisesOnly_bind (raisesOnly_meritAll _ text a) fun _ => Proc.raisesOnly_ask _ _

theorem raisesOnly_when {b : Bool} {p : Handler Unit} (h : p.RaisesOnly Exn.Local) :
    Proc.RaisesOnly Exn.Local (if b then p else pure ()) := by
  cases b with
  | false => trivial
  | true => exact h

theorem raisesOnly_msg (g : Option GroupmeBindingModel) : (msg g).RaisesOnly Exn.Local := by
  refine Proc.raisesOnly_bind (raisesOnly_deref g) fun g =>
    Proc.raisesOnly_bind (raisesOnly_deref g.text) fun text => Proc.raisesOnly_bind ?_ fun _ =>
      Proc.raisesOnly_bind (Proc.raisesOnly_ask _ _) fun _ =>
        raisesOnly_when (Proc.raisesOnly_ask _ _)
  rw [branches_eq]
  exact Proc.raisesOnly_bind (raisesOnly_when (raisesOnly_register text g)) fun _ =>
    Proc.raisesOnly_bind (raisesOnly_when (raisesOnly_merit text g)) fun _ =>
      raisesOnly_when (Proc.raisesOnly_bind (Proc.raisesOnly_ask _ _) fun _ =>
        Proc.raisesOnly_ask _ _)

end RaisesOnly

/-- **When the handler raises an exception of its own**: exactly if it does not return when no
call fails. -/
theorem not_local_iff {t : Table Phikeia} {g : Option GroupmeBindingModel} :
    (∀ fs e, ((msg g).run exec (t, Session.start fs)).1 = .error e → ¬ e.Local)
      ↔ (msg g).Returns exec (t, Session.start []) := by
  constructor
  · intro h
    have hown := Proc.run_of_raisesOnly (P := fun w : World => w.2.faults = [])
      (fun o w hw => by
        obtain ⟨t, c, log, fs⟩ := w
        obtain rfl : fs = [] := hw
        exact ⟨_, _, exec_noFaults o t c log, by rw [perform_frame]⟩)
      (raisesOnly_msg g) (s := (t, Session.start [])) rfl
    rcases hrun : (msg g).run exec (t, Session.start []) with ⟨e | u, w⟩
    · rw [hrun] at hown
      exact absurd hown.1 (h [] e (by rw [hrun]))
    · exact ⟨u, w, hrun⟩
  · exact fun h fs e he => not_local_of_returns (msg g) h [] fs e he

end TacPac.Groupme
