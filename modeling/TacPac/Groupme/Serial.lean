import TacPac.Groupme.MsgProof
import TacPac.Lib.Generations

/-!
# One call after another

With nobody else writing, a call of `msg` either leaves the table alone or
commits exactly one order of the ledger (`msg_alone`). So the table after any
sequence of calls, aborted ones included, is the ledger after the orders of the
calls that committed (`serve_refines`), and the ledger has a closed form: every
row is an entry of a register message, aged by the messages committed later.
-/

namespace TacPac.Groupme

open TacPac.Lib

/-! ## One call -/

/-- The reply of the merit branch: each mention quotes the rows as the mentions
before it have left them. -/
def meritReply (diff : Int) : List (Int64 × Utf16) → List Phikeia → Utf16
  | [], _ => []
  | m :: ms, phis =>
      meritSentence (Int32.ofInt diff) m.2 (found m.1 phis) (total diff m.1 phis)
        ++ meritReply diff ms (phis.map (fun r => r.mark diff m))

theorem meritReply_snoc (diff : Int) (m : Int64 × Utf16) (ms : List (Int64 × Utf16)) :
    ∀ phis : List Phikeia, meritReply diff (ms ++ [m]) phis = meritReply diff ms phis
      ++ meritSentence (Int32.ofInt diff) m.2 (found m.1 (phis.map (Phikeia.markAll diff ms)))
        (total diff m.1 (phis.map (Phikeia.markAll diff ms))) := by
  induction ms with
  | nil =>
      intro phis
      have hid : phis.map (Phikeia.markAll diff []) = phis := List.map_id' phis
      rw [hid]
      simp [meritReply]
  | cons x ms ih =>
      intro phis
      rw [List.cons_append, meritReply, meritReply, ih, List.append_assoc, List.map_map]
      rfl

/-- What a call that saved has done. -/
structure Committed (t : Table Phikeia) (g : GroupmeBindingModel) (o : Order)
    (t' : Table Phikeia) (log : List Effect) : Prop where
  order : orderOf g = some o
  rows : t'.rows = t.rows.map (Phikeia.markAll o.diff o.marks)
    ++ Table.keyed t.nextKey (o.opened.map newPhikeia)
  log : ∃ text tail, g.text = some text
    ∧ log = repliesLog text g o (meritReply o.diff o.marks t.rows)
        (t.rows.map (Phikeia.markAll o.diff o.marks)) ++ .saved :: tail
    ∧ (tail = [] ∨ text.contains (utf16 "Andre Re") = true
        ∧ tail = [.posted (utf16 "Andre you a bitch")])

/-- A request with the table to itself. -/
theorem ambient_alone (t : Table Phikeia) : Ambient Eq (fun _ _ => True) (fun t' => t' = t) :=
  ⟨fun _ _ h hR => hR ▸ h, fun _ _ _ _ _ => trivial⟩

theorem credited_view {c : Context Phikeia} {t : Table Phikeia} (h : c.WellKeyed) (diff : Int)
    (m : Int64 × Utf16) : (credited diff m (c.view t) (c.load t)).view t
      = (c.view t).map (fun r => r.mark diff m) := by
  rw [credited, Context.setAll_view (fun r => Phikeia.mark_id diff r m) h]
  refine List.map_congr_left fun r _ => ?_
  by_cases hr : r.groupmeId = m.1
  · simp [hr]
  · simp [hr, Phikeia.mark]

theorem diff_of_orderOf {g : GroupmeBindingModel} {text : Utf16} {o : Order}
    (htext : g.text = some text) (ho : orderOf g = some o) : o.diff = diffOf text := by
  unfold orderOf at ho
  rw [htext, Option.bind_some] at ho
  obtain ⟨an, -, ho⟩ := Option.bind_eq_some_iff.mp ho
  obtain ⟨ms, -, ho⟩ := Option.map_eq_some_iff.mp ho
  rw [← ho]

/-- A context that is about to commit the order `o` on the table `t`. -/
structure Drafted (t : Table Phikeia) (o : Order) (c : Context Phikeia) : Prop where
  fresh : c.Fresh t
  view : c.view t = t.rows.map (Phikeia.markAll o.diff o.marks)
  added : c.added = o.opened.map newPhikeia

theorem save_drafted {t : Table Phikeia} {o : Order} {c : Context Phikeia} (h : Drafted t o c) :
    (t.save c).rows = t.rows.map (Phikeia.markAll o.diff o.marks)
      ++ Table.keyed t.nextKey (o.opened.map newPhikeia) := by
  rw [Table.save_rows_of_fresh h.fresh, h.view, h.added]

theorem drafted_load {t : Table Phikeia} {o : Order} {c : Context Phikeia} (h : Drafted t o c) :
    Drafted t o (c.load t) :=
  ⟨Context.fresh_load h.fresh, (Context.load_view c t).trans h.view, h.added⟩

theorem branches_alone (t : Table Phikeia) {m : GroupmeBindingModel} {text : Utf16}
    (htext : m.text = some text) :
    Meets Eq (fun _ _ => True) (fun t' => t' = t) (branches text m)
      (fun _ c log => ∃ o, orderOf m = some o ∧ Drafted t o c
        ∧ log = repliesLog text m o (meritReply o.diff o.marks t.rows)
            (t.rows.map (Phikeia.markAll o.diff o.marks))) Context.new [] := by
  refine meets_branches (ambient_alone t) (fun ms marked c => c.Fresh t
      ∧ c.view t = t.rows.map (Phikeia.markAll (diffOf text) ms)
      ∧ marked = meritReply (diffOf text) ms t.rows) htext ⟨t, rfl⟩ ?_ ?_ ?_
  · intro es
    refine ⟨⟨Context.wellKeyed_new, (Context.fresh_new t).original⟩, ?_, rfl⟩
    have hid : t.rows.map (Phikeia.markAll (diffOf text) []) = t.rows := List.map_id' t.rows
    rw [hid]
    exact Context.view_new t
  · rintro ms x msg c t' ⟨hf, hv, rfl⟩ rfl
    refine ⟨Context.fresh_setAll _ (Context.fresh_load hf), ?_, ?_⟩
    · rw [credited_view hf.wellKeyed, hv, List.map_map]
      refine List.map_congr_left fun r _ => ?_
      exact (Phikeia.markAll_snoc _ ms x r).symm
    · rw [meritReply_snoc, hv]
  · rintro o marked c t' ho ⟨hf, hv, rfl⟩ hadd rfl
    have hdiff := diff_of_orderOf htext ho
    rw [← hdiff] at hv
    have hd : Drafted t' o c := ⟨hf, hv, hadd⟩
    refine ⟨o, ho, ?_, by rw [hv, hdiff]⟩
    -- the score branch only reads
    split
    · exact drafted_load hd
    · exact hd

/-- **One call, alone.** It ends normally and has committed its order; or it raises
having changed nothing; or it has committed and only the post after the save failed. -/
theorem msg_alone (t : Table Phikeia) (g : Option GroupmeBindingModel) (fs : List Fault) :
    match (msg g).run exec (t, Session.start fs) with
    | (.ok _, w) => ∃ m o, g = some m ∧ Committed t m o w.1 w.2.log
    | (.error e, w) => (w.1 = t ∧ Effect.saved ∉ w.2.log)
        ∨ (e = .web ∧ ∃ m o, g = some m ∧ Committed t m o w.1 w.2.log) := by
  have hwp : Proc.wp (setting Eq (fun _ _ => True)) (msg g)
      (fun _ w => ∃ m o, g = some m ∧ Committed t m o w.1 w.2.log)
      (fun e w => (w.1 = t ∧ Effect.saved ∉ w.2.log)
        ∨ (e = .web ∧ ∃ m o, g = some m ∧ Committed t m o w.1 w.2.log))
      (t, Session.start fs) := by
    refine wp_msg (I := fun t' => t' = t) rfl (fun e w ht hs => Or.inl ⟨ht, hs⟩) ?_
    rintro m text rfl htext
    refine meets_mono (branches_alone t htext) ?_
    rintro - c log ⟨o, ho, hd, rfl⟩ t₁ fs₁ rfl
    have hdone : ∀ tail, Farewell text tail → Committed t₁ m o (t₁.save c)
        (repliesLog text m o (meritReply o.diff o.marks t₁.rows)
          (t₁.rows.map (Phikeia.markAll o.diff o.marks)) ++ [.saved] ++ tail) := by
      intro tail htail
      refine ⟨ho, save_drafted hd, text, tail, htext, ?_, htail⟩
      rw [List.append_assoc]
      rfl
    refine wp_finish (fun t₂ fs hR => ⟨trivial, Or.inl ⟨hR.symm, saved_notMem_repliesLog⟩⟩)
      (fun _ _ _ => trivial) (fun _ _ _ _ => trivial) ?_
    rintro t₂ t₃ tail fs rfl ht₃ htail
    -- alone, the table of the post is the one that was saved
    have hsaved : t₃ = t₁.save c := ht₃.elim id Eq.symm
    rw [hsaved]
    exact ⟨⟨m, o, rfl, hdone tail htail⟩, Or.inr ⟨rfl, m, o, rfl, hdone tail htail⟩⟩
  have hrun := Proc.run_of_wp (S := setting Eq (fun _ _ => True)) (fun w => ⟨rfl, rfl⟩) hwp
  rw [setting_exec] at hrun
  rcases hq : (msg g).run exec (t, Session.start fs) with ⟨r | r, w⟩
  · rw [hq] at hrun; exact hrun
  · rw [hq] at hrun; exact hrun

/-! ## Many calls -/

/-- One callback: the deserialised body, and what goes wrong while it is handled. -/
structure Call where
  body : Option GroupmeBindingModel
  faults : List Fault

/-- What one call comes to, with the table to itself. -/
def handle (t : Table Phikeia) (c : Call) : World :=
  ((msg c.body).run exec (t, Session.start c.faults)).2

/-- The messages whose `SaveChanges` succeeded: at most the one that was handled. -/
def committed (t : Table Phikeia) (c : Call) : List GroupmeBindingModel :=
  if Effect.saved ∈ (handle t c).2.log then c.body.toList else []

/-- Calls, one after another: the table they leave, and the messages committed. -/
def serve : Table Phikeia → List Call → Table Phikeia × List GroupmeBindingModel
  | t, [] => (t, [])
  | t, c :: cs =>
      let rest := serve (handle t c).1 cs
      (rest.1, committed t c ++ rest.2)

theorem handle_cases (t : Table Phikeia) (c : Call) :
    ((handle t c).1 = t ∧ committed t c = [])
    ∨ ∃ m o, committed t c = [m] ∧ Committed t m o (handle t c).1 (handle t c).2.log := by
  have h := msg_alone t c.body c.faults
  -- a call that has saved, whether or not the post after the save worked
  have hdone : ∀ {w : World} {m : GroupmeBindingModel} {o : Order}, handle t c = w →
      c.body = some m → Committed t m o w.1 w.2.log →
      ∃ m o, committed t c = [m] ∧ Committed t m o (handle t c).1 (handle t c).2.log := by
    intro w m o hw hm hc
    refine ⟨m, o, ?_, by rw [hw]; exact hc⟩
    obtain ⟨text, tail, -, hlog, -⟩ := hc.log
    have hs : Effect.saved ∈ w.2.log := by rw [hlog]; simp
    rw [committed, hw, if_pos hs, hm]
    rfl
  rcases hq : (msg c.body).run exec (t, Session.start c.faults) with ⟨r | r, w⟩
  · have hw : handle t c = w := congrArg Prod.snd hq
    rw [hq] at h
    rcases h with ⟨ht, hs⟩ | ⟨-, m, o, hm, hc⟩
    · refine Or.inl ⟨by rw [hw]; exact ht, ?_⟩
      rw [committed, hw, if_neg hs]
    · exact Or.inr (hdone hw hm hc)
  · have hw : handle t c = w := congrArg Prod.snd hq
    rw [hq] at h
    obtain ⟨m, o, hm, hc⟩ := h
    exact Or.inr (hdone hw hm hc)

/-- The call of a message that saved. -/
theorem committed_of_saved {t : Table Phikeia} {g : GroupmeBindingModel} {fs : List Fault}
    (h : Effect.saved ∈ (handle t ⟨some g, fs⟩).2.log) :
    ∃ o, Committed t g o (handle t ⟨some g, fs⟩).1 (handle t ⟨some g, fs⟩).2.log := by
  have hself : committed t ⟨some g, fs⟩ = [g] := if_pos h
  rcases handle_cases t ⟨some g, fs⟩ with ⟨-, hnone⟩ | ⟨m, o, hone, hc⟩
  · rw [hself] at hnone
    cases hnone
  · rw [hself] at hone
    cases hone
    exact ⟨o, hc⟩

/-- A message that did not save has changed nothing. -/
theorem unchanged_of_unsaved {t : Table Phikeia} {g : GroupmeBindingModel} {fs : List Fault}
    (h : Effect.saved ∉ (handle t ⟨some g, fs⟩).2.log) : (handle t ⟨some g, fs⟩).1 = t := by
  rcases handle_cases t ⟨some g, fs⟩ with ⟨ht, -⟩ | ⟨m, o, hone, -⟩
  · exact ht
  · have hnone : committed t ⟨some g, fs⟩ = [] := if_neg h
    rw [hnone] at hone
    cases hone

/-- What a committed message does to an account that is there. -/
def age (m : GroupmeBindingModel) (a : Account) : Account :=
  match orderOf m with
  | some o => a.markAll o.diff o.marks
  | none => a

/-- Whom a message registers, with the names extracted for them. -/
def registered (m : GroupmeBindingModel) : List (Int64 × Utf16) :=
  match m.text with
  | some text =>
      if text.contains (utf16 "register") then
        ((lastMentioned (registerName text) m).getD []).filter (fun e => !barred e)
      else []
  | none => []

theorem registered_eq {m : GroupmeBindingModel} {o : Order} (h : orderOf m = some o) :
    registered m = o.opened := by
  unfold orderOf at h
  obtain ⟨text, htext, h⟩ := Option.bind_eq_some_iff.mp h
  obtain ⟨announced, ha, h⟩ := Option.bind_eq_some_iff.mp h
  obtain ⟨marks, -, rfl⟩ := Option.map_eq_some_iff.mp h
  unfold registered
  rw [htext]
  show (if text.contains (utf16 "register") then
    ((lastMentioned (registerName text) m).getD []).filter (fun e => !barred e) else [])
      = announced.filter (fun e => !barred e)
  split at ha
  · next hr => rw [if_pos hr, ha]; rfl
  · next hr =>
      injection ha with ha
      rw [if_neg hr, ← ha]
      rfl

theorem keyed_account (es : List (Int64 × Utf16)) : ∀ k : Nat,
    (Table.keyed k (es.map newPhikeia)).map Phikeia.account = es.map openAccount := by
  induction es with
  | nil => intro k; rfl
  | cons e es ih =>
      intro k
      rw [List.map_cons, Table.keyed, List.map_cons, ih, List.map_cons]
      rfl

/-- A committed call carries its order out. -/
theorem committed_apply {t t' : Table Phikeia} {g : GroupmeBindingModel} {o : Order}
    {log : List Effect} (h : Committed t g o t' log) :
    t'.rows.map Phikeia.account = o.apply (t.rows.map Phikeia.account) := by
  unfold Order.apply
  rw [h.rows, List.map_append, keyed_account, List.map_map, List.map_map]
  refine congrArg (· ++ _) (List.map_congr_left fun r _ => ?_)
  exact Phikeia.account_markAll _ _ r

/-- **The table is the ledger** of the messages that were committed. -/
theorem serve_refines (cs : List Call) : ∀ t : Table Phikeia,
    (serve t cs).1.rows.map Phikeia.account
      = evolve age (fun m => (registered m).map openAccount) (serve t cs).2
          (t.rows.map Phikeia.account)
    ∧ ∀ m ∈ (serve t cs).2, (orderOf m).isSome = true := by
  induction cs with
  | nil =>
      intro t
      refine ⟨rfl, fun m hm => ?_⟩
      exact absurd hm (by simp [serve])
  | cons c cs ih =>
      intro t
      obtain ⟨hrows, hord⟩ := ih (handle t c).1
      rcases handle_cases t c with ⟨ht, hnone⟩ | ⟨m, o, hone, hc⟩
      · -- the call was aborted: the rest is served from the same table
        have hserve : serve t (c :: cs) = serve t cs := by
          rw [serve, hnone, ht]; rfl
        rw [hserve]
        exact ih t
      · have hserve : serve t (c :: cs)
            = ((serve (handle t c).1 cs).1, m :: (serve (handle t c).1 cs).2) := by
          rw [serve, hone]; rfl
        have hage : age m = Account.markAll o.diff o.marks := by
          funext a; unfold age; rw [hc.order]
        have hstep : (handle t c).1.rows.map Phikeia.account
            = (t.rows.map Phikeia.account).map (age m) ++ (registered m).map openAccount := by
          rw [committed_apply hc, hage, registered_eq hc.order]
          rfl
        rw [hserve]
        refine ⟨?_, fun m' hm' => ?_⟩
        · rw [hrows, hstep]
          rfl
        · rcases List.mem_cons.mp hm' with rfl | hm'
          · rw [hc.order]; rfl
          · exact hord m' hm'

/-! ## The balances -/

/-- What a message adds to every balance of `u`. -/
def pointsFor (u : Int64) (m : GroupmeBindingModel) : Int :=
  diffOf (m.text.getD []) * (mentionedIds m).count u

/-- The name a message gives `u`, if it moves points and mentions `u`. -/
def renamed (u : Int64) (m : GroupmeBindingModel) : Option Utf16 :=
  m.text.bind fun text =>
    if diffOf text = 0 then none
    else (lastMentioned (meritName text) m).bind (lastName u)

theorem mentions_fst {name : Nat → Option Utf16} {a : AttachmentBindingModel}
    {ms : List (Int64 × Utf16)} (h : mentions name a = some ms) :
    a.userIds = some (ms.map Prod.fst) := by
  obtain ⟨ids, hids, h⟩ := Option.bind_eq_some_iff.mp h
  -- extracting a name keeps the id
  have hkeep : ∀ x ∈ ids.zipIdx, (named name x).map Prod.fst = some x.1 := by
    intro x hx
    obtain ⟨y, -, hy⟩ := mem_of_mapM h hx
    obtain ⟨n, -, rfl⟩ := Option.map_eq_some_iff.mp hy
    rw [hy]
    rfl
  have hmap := congrArg (List.map (Option.map Prod.fst)) (mapM_eq_some_iff.mp h)
  rw [List.map_map, List.map_map, List.map_congr_left (g := fun x => some x.1) hkeep] at hmap
  have hsome : ids.map some = (ms.map Prod.fst).map some := by
    conv_lhs => rw [← List.zipIdx_map_fst 0 ids]
    rw [List.map_map, List.map_map]
    exact hmap
  rw [hids, List.map_injective_iff.mpr (Option.some_injective _) hsome]

/-- Names are extracted for exactly the mentioned ids, in their order. -/
theorem lastMentioned_fst {name : AttachmentBindingModel → Nat → Option Utf16}
    {m : GroupmeBindingModel} {ms : List (Int64 × Utf16)}
    (h : lastMentioned name m = some ms) : ms.map Prod.fst = mentionedIds m := by
  unfold lastMentioned at h
  unfold mentionedIds
  rcases ha : lastMentions m with _ | a
  · rw [ha] at h
    cases h
    rfl
  · rw [ha] at h
    rw [Option.bind_some, mentions_fst h]
    rfl

/-- A message that can be committed: whatever its triggers make the handler
extract is there. -/
structure WellRead (m : GroupmeBindingModel) (text : Utf16) : Prop where
  hasText : m.text = some text
  registers : text.contains (utf16 "register") = true →
    ∃ es, lastMentioned (registerName text) m = some es ∧ es.map Prod.fst = mentionedIds m
  marks : text.contains (utf16 "merit") = true →
    ∃ ms, lastMentioned (meritName text) m = some ms ∧ ms.map Prod.fst = mentionedIds m

theorem orderOf_isSome {m : GroupmeBindingModel} (h : (orderOf m).isSome = true) :
    ∃ text, WellRead m text := by
  obtain ⟨o, ho⟩ := Option.isSome_iff_exists.mp h
  unfold orderOf at ho
  obtain ⟨text, htext, ho⟩ := Option.bind_eq_some_iff.mp ho
  obtain ⟨announced, ha, ho⟩ := Option.bind_eq_some_iff.mp ho
  obtain ⟨marks, hm, -⟩ := Option.map_eq_some_iff.mp ho
  refine ⟨text, htext, fun hr => ?_, fun hr => ?_⟩
  · rw [if_pos hr] at ha
    exact ⟨announced, ha, lastMentioned_fst ha⟩
  · rw [if_pos hr] at hm
    exact ⟨marks, hm, lastMentioned_fst hm⟩

theorem marks_of_orderOf {m : GroupmeBindingModel} {text : Utf16} {o : Order}
    (htext : m.text = some text) (ho : orderOf m = some o) :
    (if text.contains (utf16 "merit") then lastMentioned (meritName text) m else some [])
      = some o.marks := by
  unfold orderOf at ho
  rw [htext, Option.bind_some] at ho
  obtain ⟨announced, -, ho⟩ := Option.bind_eq_some_iff.mp ho
  obtain ⟨marks, hm, ho⟩ := Option.map_eq_some_iff.mp ho
  rw [hm, ← ho]

/-- What an order adds to the balances of `u`. -/
theorem pointsFor_eq {m : GroupmeBindingModel} {o : Order} (ho : orderOf m = some o)
    (u : Int64) : pointsFor u m = o.diff * occurrences u o.marks := by
  obtain ⟨text, hread⟩ := orderOf_isSome (by rw [ho]; rfl)
  have hmarks := marks_of_orderOf hread.hasText ho
  unfold pointsFor occurrences
  rw [hread.hasText, Option.getD_some, diff_of_orderOf hread.hasText ho]
  by_cases hm : text.contains (utf16 "merit") = true
  · rw [if_pos hm] at hmarks
    rw [lastMentioned_fst hmarks]
  · rw [diffOf_eq_zero.mpr (Bool.eq_false_iff.mpr hm), Int.zero_mul, Int.zero_mul]

/-- The name an order gives `u`. -/
theorem renamed_eq {m : GroupmeBindingModel} {o : Order} (ho : orderOf m = some o)
    (u : Int64) : renamed u m = lastName u o.marks := by
  obtain ⟨text, hread⟩ := orderOf_isSome (by rw [ho]; rfl)
  have hmarks := marks_of_orderOf hread.hasText ho
  unfold renamed
  rw [hread.hasText, Option.bind_some]
  by_cases hm : text.contains (utf16 "merit") = true
  · have hne : diffOf text ≠ 0 := by
      intro h0
      rw [diffOf_eq_zero.mp h0] at hm
      exact absurd hm (by decide)
    rw [if_pos hm] at hmarks
    rw [if_neg hne, hmarks, Option.bind_some]
  · rw [if_neg hm] at hmarks
    injection hmarks with hmarks
    rw [if_pos (diffOf_eq_zero.mpr (Bool.eq_false_iff.mpr hm)), ← hmarks]
    rfl

/-- One committed message, one account. -/
theorem age_account {m : GroupmeBindingModel} (h : (orderOf m).isSome = true) (a : Account) :
    age m a = ⟨a.holder, (renamed a.holder m).getD a.name,
      a.balance + Int32.ofInt (pointsFor a.holder m)⟩ := by
  obtain ⟨o, ho⟩ := Option.isSome_iff_exists.mp h
  have hage : age m a = a.markAll o.diff o.marks := by unfold age; rw [ho]
  obtain ⟨hholder, hbalance⟩ := Account.markAll_balance o.diff o.marks a
  rw [hage, pointsFor_eq ho, renamed_eq ho]
  exact Account.ext hholder (Account.markAll_name o.diff o.marks a) hbalance

/-- The name somebody entered as `e` goes by after `later`. -/
def currentName (e : Int64 × Utf16) (later : List GroupmeBindingModel) : Utf16 :=
  ((later.filterMap (renamed e.1)).getLast?).getD e.2

/-- The points a row of `u` has after `later`. -/
def currentPoints (u : Int64) (later : List GroupmeBindingModel) : Int32 :=
  Int32.ofInt (later.map (pointsFor u)).sum

theorem aged_account (later : List GroupmeBindingModel) (e : Int64 × Utf16)
    (h : ∀ m ∈ later, (orderOf m).isSome = true) :
    aged age later (openAccount e)
      = ⟨e.1, currentName e later, currentPoints e.1 later⟩ := by
  induction later using List.reverseRecOn with
  | nil => rfl
  | append_singleton later m ih =>
      have ih := ih (fun x hx => h x (List.mem_append_left _ hx))
      have hm := h m (List.mem_append_right _ List.mem_cons_self)
      have hsnoc : aged age (later ++ [m]) (openAccount e)
          = age m (aged age later (openAccount e)) := by
        unfold aged; rw [List.foldl_append]; rfl
      -- the last message renames `e`, or `e` keeps the name it had
      have hname : currentName e (later ++ [m])
          = (renamed e.1 m).getD (currentName e later) := by
        unfold currentName
        rw [List.filterMap_append]
        rcases hr : renamed e.1 m with _ | n
        · simp [hr]
        · simp [hr]
      have hpoints : currentPoints e.1 (later ++ [m])
          = currentPoints e.1 later + Int32.ofInt (pointsFor e.1 m) := by
        unfold currentPoints
        rw [List.map_append, List.sum_append, Int32.ofInt_add]
        simp
      rw [hsnoc, ih, age_account hm, hname, hpoints]

/-- **The table after any sequence of calls.** One row for every entry a committed
message registers, and no others; each with the points and the name that the
messages committed after it have given it. -/
theorem serve_rows (cs : List Call) :
    (serve Table.empty cs).1.rows.map Phikeia.account
      = (births registered (serve Table.empty cs).2).map
          (fun b => ⟨b.1.1, currentName b.1 b.2, currentPoints b.1.1 b.2⟩)
    ∧ ∀ m ∈ (serve Table.empty cs).2, ∃ text, WellRead m text := by
  obtain ⟨hrows, hord⟩ := serve_refines cs Table.empty
  refine ⟨?_, fun m hm => orderOf_isSome (hord m hm)⟩
  rw [hrows, evolve_eq, births_map, Table.empty_rows, List.map_nil, List.map_nil,
    List.nil_append, List.map_map]
  refine List.map_congr_left fun b hb => ?_
  exact aged_account b.2 b.1 (fun m hm => hord m (mem_of_mem_births hb hm))

/-! ## Who holds the rows -/

/-- One call keeps every row's holder and appends one row for each entry it registers. -/
theorem handle_holders (t : Table Phikeia) (c : Call) :
    (handle t c).1.rows.map Phikeia.groupmeId
      = t.rows.map Phikeia.groupmeId ++ ((committed t c).flatMap registered).map Prod.fst := by
  rcases handle_cases t c with ⟨ht, hnone⟩ | ⟨m, o, hone, hc⟩
  · rw [ht, hnone]
    simp
  · have hkeep : (t.rows.map (Phikeia.markAll o.diff o.marks)).map Phikeia.groupmeId
        = t.rows.map Phikeia.groupmeId := by
      rw [List.map_map]
      exact List.map_congr_left fun r _ => Phikeia.markAll_groupmeId _ _ r
    have hnew : (Table.keyed t.nextKey (o.opened.map newPhikeia)).map Phikeia.groupmeId
        = o.opened.map Prod.fst := by
      have h := congrArg (List.map Account.holder) (keyed_account o.opened t.nextKey)
      rw [List.map_map, List.map_map] at h
      exact h
    rw [hc.rows, List.map_append, hkeep, hnew, hone, ← registered_eq hc.order]
    simp

theorem serve_holders_from (cs : List Call) : ∀ t : Table Phikeia,
    (serve t cs).1.rows.map Phikeia.groupmeId
      = t.rows.map Phikeia.groupmeId ++ ((serve t cs).2.flatMap registered).map Prod.fst := by
  induction cs with
  | nil => intro t; simp [serve]
  | cons c cs ih =>
      intro t
      show (serve (handle t c).1 cs).1.rows.map Phikeia.groupmeId = _
      rw [ih, handle_holders, List.append_assoc, ← List.map_append, ← List.flatMap_append]
      rfl

/-- **Who holds the rows of a reachable table**: whoever was registered, as many rows
each as registrations. Only the rows' keys are unique, and registering somebody
again adds a row. -/
theorem serve_holders (cs : List Call) :
    ((serve Table.empty cs).1.rows.map Phikeia.id).Nodup
    ∧ (serve Table.empty cs).1.rows.map Phikeia.groupmeId
        = ((serve Table.empty cs).2.flatMap registered).map Prod.fst
    ∧ (((serve Table.empty cs).1.rows.map Phikeia.groupmeId).Nodup
        ↔ (((serve Table.empty cs).2.flatMap registered).map Prod.fst).Nodup)
    ∧ ∀ c, (handle (serve Table.empty cs).1 c).1.rows.map Phikeia.groupmeId
        = (serve Table.empty cs).1.rows.map Phikeia.groupmeId
          ++ ((committed (serve Table.empty cs).1 c).flatMap registered).map Prod.fst := by
  have hrows := serve_holders_from cs Table.empty
  rw [Table.empty_rows, List.map_nil, List.nil_append] at hrows
  exact ⟨(serve Table.empty cs).1.keys_nodup, hrows, by rw [hrows], handle_holders _⟩

/-- `@A register`, tagging the id 1 once. -/
def registerA : GroupmeBindingModel :=
  ⟨some [some ⟨some (utf16 "mentions"), some [some [0, 2]], some [1]⟩],
    some (utf16 "@A register")⟩

/-- The table it leaves. -/
def tableA : Table Phikeia := (handle Table.empty ⟨some registerA, []⟩).1

theorem serve_registers_twice :
    ¬ ∀ cs, ((serve Table.empty cs).1.rows.map Phikeia.groupmeId).Nodup := by
  intro h
  have h2 := h [⟨some registerA, []⟩, ⟨some registerA, []⟩]
  revert h2
  decide +kernel

end TacPac.Groupme
