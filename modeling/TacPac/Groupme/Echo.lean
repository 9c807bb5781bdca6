import TacPac.Groupme.Returns

/-!
# The bot and its own messages

GroupMe delivers what the bot posts to the bot's callback, and `msg` does not look at who
sent a message. A post has no attachments, so it can register nobody and give nobody a
point; all it can do is make the bot speak again. It goes on for ever exactly if the
score listing asks for the score listing, which takes names with `@bot` and with `score`
in them (`endless_iff`).
-/

namespace TacPac.Groupme

open TacPac.Lib Utf16

/-- A post of the bot's, delivered to it. -/
def echo (text : Utf16) : GroupmeBindingModel := ⟨some [], some text⟩

/-- What the register branch says when nobody is tagged. -/
def untagged : Utf16 := utf16 "You fucked up! Please tag a Phikeia (or multiple!)"

/-- What the bot may say to its own post. -/
def answers (t : Table Phikeia) (text : Utf16) : List Utf16 :=
  (if text.contains (utf16 "register") then [untagged] else [])
  ++ (if wantsScore text then [scoreReply t.rows] else [])
  ++ (if text.contains (utf16 "Andre Re") then [utf16 "Andre you a bitch"] else [])

/-! ## What a post does -/

/-- The table is `t`, and nothing has been said but `texts`. -/
structure Told (t : Table Phikeia) (texts : List Utf16) (w : World) : Prop where
  table : w.1 = t
  told : ∀ y, .posted y ∈ w.2.log → y ∈ texts

/-- The same, with nothing yet to save. -/
structure Idle (t : Table Phikeia) (texts : List Utf16) (w : World) : Prop extends
    Told t texts w where
  ctx : w.2.ctx = Context.new ∨ w.2.ctx = Context.new.load t

section Posts

variable {t : Table Phikeia} {texts : List Utf16}

/-- A request alone. -/
abbrev Alone : Setting Op Op.Res Exn World := setting Eq (fun _ _ => True)

theorem save_idle {w : World} (h : Idle t texts w) : t.save w.2.ctx = t := by
  have hnew : t.save Context.new = t :=
    Table.save_unchanged (Context.fresh_new t) (Context.view_new t) rfl
  rcases h.ctx with hctx | hctx
  · rw [hctx, hnew]
  · rw [hctx, Table.save_load (Context.fresh_new t), hnew]

theorem told_post {l : Session} {text : Utf16} (htext : text ∈ texts)
    (h : ∀ y, .posted y ∈ l.log → y ∈ texts) :
    ∀ y, .posted y ∈ l.log ++ [.posted text] → y ∈ texts := by
  intro y hy
  rcases List.mem_append.mp hy with hy | hy
  · exact h y hy
  · cases List.mem_singleton.mp hy
    exact htext

theorem told_failLog {l : Session} {text : Utf16} (f : Fault) (htext : text ∈ texts)
    (h : ∀ y, .posted y ∈ l.log → y ∈ texts) :
    ∀ y, .posted y ∈ failLog (.post text) f l.log → y ∈ texts := by
  cases f with
  | none => exact h
  | before => exact h
  | after => exact told_post htext h

theorem wp_sendMsg {w : World} {text : Utf16} (htext : text ∈ texts) (h : Told t texts w) :
    Proc.wp Alone (sendMsg text)
      (fun _ w' => Told t texts w' ∧ w'.2.ctx = w.2.ctx) (fun _ w' => Told t texts w') w := by
  refine wp_ask (fun t₁ fs hR => ⟨trivial, ⟨?_, ?_⟩, rfl⟩) (fun t₁ f fs hR => ⟨trivial, ?_, ?_⟩)
  · exact hR.symm.trans h.table
  · exact told_post htext h.told
  · exact hR.symm.trans h.table
  · exact told_failLog f htext h.told

theorem wp_score {w : World} (htext : scoreReply t.rows ∈ texts) (h : Told t texts w)
    (hctx : w.2.ctx = Context.new) :
    Proc.wp Alone score (fun _ w' => Idle t texts w') (fun _ w' => Told t texts w') w := by
  obtain ⟨t₀, l⟩ := w
  obtain rfl : t₀ = t := h.table
  unfold score
  refine Proc.wp_seq (R := fun phis w' => phis = t₀.rows ∧ Idle t₀ texts w') ?_ ?_
  · refine wp_ask (fun t₁ fs hR => ⟨trivial, ?_⟩) (fun t₁ f fs hR => ⟨trivial, hR.symm, h.told⟩)
    subst hR
    have hview : l.ctx.view t₀ = t₀.rows := by rw [hctx, Context.view_new]
    exact ⟨hview, ⟨⟨rfl, h.told⟩, Or.inr (by rw [← hctx]; rfl)⟩⟩
  · intro phis w' hw'
    obtain ⟨rfl, hidle⟩ := hw'
    refine Proc.wp_mono (wp_sendMsg htext hidle.toTold) ?_ (fun _ _ hw => hw)
    intro _ w'' hw''
    exact ⟨hw''.1, by rw [hw''.2]; exact hidle.ctx⟩

theorem wp_finish_idle {text : Utf16} {w : World} (h : Idle t texts w)
    (htext : text.contains (utf16 "Andre Re") = true → utf16 "Andre you a bitch" ∈ texts) :
    Proc.wp Alone (finish text) (fun _ w' => Told t texts w') (fun _ w' => Told t texts w') w := by
  obtain ⟨t₀, l⟩ := w
  obtain rfl : t₀ = t := h.table
  have hsaved : ∀ y, Effect.posted y ∈ l.log ++ [.saved] → y ∈ texts := by
    intro y hy
    rcases List.mem_append.mp hy with hy | hy
    · exact h.told y hy
    · cases List.mem_singleton.mp hy
  unfold finish
  refine Proc.wp_seq (R := fun _ w' => Told t₀ texts w') ?_ ?_
  · refine wp_ask (fun t₁ fs hR => ⟨trivial, ?_, hsaved⟩)
      (fun t₁ f fs hR => ⟨trivial, hR.symm, h.told⟩)
    subst hR
    exact save_idle h
  · intro _ w' hw'
    split
    · next ha =>
      exact Proc.wp_mono (wp_sendMsg (htext ha) hw') (fun _ _ hw => hw.1) (fun _ _ hw => hw)
    · exact hw'

end Posts

theorem branches_echo (text : Utf16) : branches text (echo text) =
    ((if text.contains (utf16 "register") then sendMsg untagged else pure ()) >>= fun _ =>
      if wantsScore text then score else pure ()) := by
  have hregister : register text (echo text) = sendMsg untagged := rfl
  have hmerit : merit text (echo text) = pure () := rfl
  rw [branches_eq, hregister, hmerit, ite_self]
  rfl

/-- **What a post of the bot's does**: nothing to the table, whatever fails, and nothing is
said but `answers`. -/
theorem handle_echo (t : Table Phikeia) (text : Utf16) (fs : List Fault) :
    Told t (answers t text) (handle t ⟨some (echo text), fs⟩) := by
  have hstart : Told t (answers t text) (t, Session.start fs) :=
    ⟨rfl, fun y hy => by cases hy⟩
  have hwp : Proc.wp Alone (msg (some (echo text))) (fun _ w => Told t (answers t text) w)
      (fun _ w => Told t (answers t text) w) (t, Session.start fs) := by
    rw [msg_text (m := echo text) rfl, branches_echo, Proc.bind_assoc]
    refine Proc.wp_seq (R := fun _ w => Told t (answers t text) w ∧ w.2.ctx = Context.new) ?_ ?_
    · split
      · next hr =>
        exact wp_sendMsg (by simp [answers, hr]) hstart
      · exact ⟨hstart, rfl⟩
    · intro _ w hw
      refine Proc.wp_seq (R := fun _ w => Idle t (answers t text) w) ?_ ?_
      · split
        · next hscore =>
          exact wp_score (by simp [answers, hscore]) hw.1 hw.2
        · exact ⟨hw.1, Or.inl hw.2⟩
      · intro _ w hw
        exact wp_finish_idle hw fun ha => by simp [answers, ha]
  have hrun := Proc.run_of_wp (S := Alone) (fun w => ⟨rfl, rfl⟩) hwp
  unfold handle
  rw [setting_exec] at hrun
  rcases hq : (msg (some (echo text))).run exec (t, Session.start fs) with ⟨r | r, w⟩
  · rw [hq] at hrun; exact hrun
  · rw [hq] at hrun; exact hrun

/-- A post that asks for the score gets it, if nothing fails. -/
theorem posted_echo (t : Table Phikeia) {text : Utf16} (h : wantsScore text = true) :
    Effect.posted (scoreReply t.rows) ∈ (handle t ⟨some (echo text), []⟩).2.log := by
  have hclear : Clear (echo text) text ⟨[], diffOf text, []⟩ := by
    refine ⟨rfl, ?_, fun _ => ⟨[], rfl, by simp⟩, by simp⟩
    refine orderOf_eq rfl ?_ ?_
    · exact ite_self _
    · exact ite_self _
  obtain ⟨w, hw, hsaved⟩ := run_msg_clear hclear t
  have hhandle : handle t ⟨some (echo text), []⟩ = w := congrArg Prod.snd hw
  rw [← hhandle] at hsaved
  obtain ⟨o, hc⟩ := committed_of_saved hsaved
  obtain ⟨text', tail, htext', hlog, -⟩ := hc.log
  obtain rfl : text = text' := Option.some.inj htext'
  have ho := hclear.order.symm.trans hc.order
  cases ho
  have hrows : t.rows.map (Phikeia.markAll (diffOf text) []) = t.rows := List.map_id' t.rows
  rw [hlog]
  unfold repliesLog
  rw [hrows]
  simp [h]

/-! ## Which words the score listing has -/

/-- A number is digits, and a minus at most. -/
theorem intText_lt (n : Int32) : ∀ u ∈ intText n, u < 59 := by
  intro u hu
  have hrange := utf16_int_range n.toInt u hu
  rw [UInt16.lt_iff_toNat_lt]
  exact Nat.lt_of_le_of_lt hrange.2 (by decide)

/-- A word of the score listing that is not made of what it says of every row. -/
structure OfNames (w : Utf16) : Prop where
  ne : w ≠ []
  noSpace : (32 : UInt16) ∉ w
  noNewline : (10 : UInt16) ∉ w
  letter : ∃ u ∈ w, 59 ≤ u
  head : (utf16 "Score:").contains w = false

theorem contains_scoreLine {w : Utf16} (hw : OfNames w) (phi : Phikeia) (rest : Utf16) :
    (scoreLine phi ++ rest).contains w = (phi.name.contains w || rest.contains w) := by
  have hline : scoreLine phi ++ rest
      = phi.name ++ 32 :: ((utf16 ": " ++ intText phi.points) ++ 10 :: rest) := by
    have hcolon : utf16 " : " = 32 :: utf16 ": " := rfl
    have hnewline : utf16 "\n" = [10] := rfl
    unfold scoreLine
    rw [hcolon, hnewline]
    simp
  have hnumber : (utf16 ": " ++ intText phi.points).contains w = false := by
    obtain ⟨u, hu, hlarge⟩ := hw.letter
    refine contains_of_notMem hu fun hmem => ?_
    rcases List.mem_append.mp hmem with hmem | hmem
    · have hsmall : ∀ c ∈ utf16 ": ", c < 59 := by
        rw [show utf16 ": " = [58, 32] from rfl, List.forall_mem_cons, List.forall_mem_singleton]
        exact ⟨by decide, by decide⟩
      exact absurd hlarge (UInt16.not_le.mpr (hsmall u hmem))
    · exact absurd hlarge (UInt16.not_le.mpr (intText_lt phi.points u hmem))
  rw [hline, contains_append_cons hw.ne hw.noSpace, contains_append_cons hw.ne hw.noNewline,
    hnumber, Bool.false_or]

theorem contains_lines {w : Utf16} (hw : OfNames w) (phis : List Phikeia) :
    Utf16.contains (phis.flatMap scoreLine) w = phis.any (fun r => r.name.contains w) := by
  induction phis with
  | nil => exact contains_nil hw.ne
  | cons phi phis ih => rw [List.flatMap_cons, contains_scoreLine hw, List.any_cons, ih]

/-- **The listing has a word like that exactly if a name has.** -/
theorem contains_scoreReply {w : Utf16} (hw : OfNames w) (phis : List Phikeia) :
    (scoreReply phis).contains w = phis.any (fun r => r.name.contains w) := by
  have hreply : scoreReply phis = utf16 "Score:" ++ 10 :: phis.flatMap scoreLine := rfl
  rw [hreply, contains_append_cons hw.ne hw.noNewline, hw.head, Bool.false_or,
    contains_lines hw]

theorem ofNames_bot : OfNames (utf16 "@bot") :=
  ⟨by decide, by decide, by decide, by decide, by decide⟩

theorem ofNames_score : OfNames (utf16 "score") :=
  ⟨by decide, by decide, by decide, by decide, by decide⟩

theorem wantsScore_scoreReply (phis : List Phikeia) : wantsScore (scoreReply phis) = true
    ↔ (∃ r ∈ phis, r.name.contains (utf16 "@bot") = true)
      ∧ ∃ r ∈ phis, r.name.contains (utf16 "score") = true := by
  unfold wantsScore
  rw [contains_scoreReply ofNames_bot, contains_scoreReply ofNames_score, Bool.and_eq_true,
    List.any_eq_true, List.any_eq_true]

/-! ## Chains of messages -/

/-- A table, and a message about to be delivered. -/
abbrev Delivery : Type := Table Phikeia × GroupmeBindingModel

/-- One of the texts posted for a message, whatever fails, is delivered next. -/
def Feeds (d d' : Delivery) : Prop :=
  ∃ fs x, Effect.posted x ∈ (handle d.1 ⟨some d.2, fs⟩).2.log
    ∧ d' = ((handle d.1 ⟨some d.2, fs⟩).1, echo x)

/-- The bot can go on answering itself for ever. -/
def Endless (d : Delivery) : Prop :=
  ∃ f : Nat → Delivery, f 0 = d ∧ ∀ n, Feeds (f n) (f (n + 1))

/-- The last word of a chain: it makes the bot say nothing. -/
def Silent (text : Utf16) : Prop := ∀ t, answers t text = []

theorem silent_untagged : Silent untagged := fun _ => rfl

theorem silent_farewell : Silent (utf16 "Andre you a bitch") := fun _ => rfl

/-- What follows a post: the same table, and one of the answers to it. -/
theorem feeds_echo {t : Table Phikeia} {x : Utf16} {d : Delivery} (h : Feeds (t, echo x) d) :
    ∃ y ∈ answers t x, d = (t, echo y) := by
  obtain ⟨fs, y, hy, rfl⟩ := h
  have htold := handle_echo t x fs
  exact ⟨y, htold.told y hy, by rw [htold.table]⟩

/-- Only the score listing is answered again. -/
theorem answers_cases {t : Table Phikeia} {x y : Utf16} (h : y ∈ answers t x) :
    Silent y ∨ wantsScore x = true ∧ y = scoreReply t.rows := by
  unfold answers at h
  rcases List.mem_append.mp h with h | h
  · rcases List.mem_append.mp h with h | h
    · split at h
      · rw [List.mem_singleton.mp h]
        exact Or.inl silent_untagged
      · cases h
    · split at h
      · next hscore => exact Or.inr ⟨hscore, List.mem_singleton.mp h⟩
      · cases h
  · split at h
    · rw [List.mem_singleton.mp h]
      exact Or.inl silent_farewell
    · cases h

/-- Two posts that are answered, one after the other. -/
theorem feeds_feeds {t : Table Phikeia} {x : Utf16} {d d' : Delivery}
    (h : Feeds (t, echo x) d) (h' : Feeds d d') :
    wantsScore x = true ∧ d = (t, echo (scoreReply t.rows)) := by
  obtain ⟨y, hy, rfl⟩ := feeds_echo h
  rcases answers_cases hy with hsilent | ⟨hscore, rfl⟩
  · obtain ⟨z, hz, -⟩ := feeds_echo h'
    rw [hsilent t] at hz
    cases hz
  · exact ⟨hscore, rfl⟩

/-- A post that asks for the score, of a table whose listing asks for it again. -/
theorem feeds_score {t : Table Phikeia} {x : Utf16} (h : wantsScore x = true) :
    Feeds (t, echo x) (t, echo (scoreReply t.rows)) := by
  refine ⟨[], scoreReply t.rows, posted_echo t h, ?_⟩
  rw [(handle_echo t x []).table]

/-- The listing, asking for itself after a first message `d` and a first post `x`. -/
def looping (d : Delivery) (t : Table Phikeia) (x : Utf16) : Nat → Delivery
  | 0 => d
  | 1 => (t, echo x)
  | _ + 2 => (t, echo (scoreReply t.rows))

theorem endless_of_score {d : Delivery} {t : Table Phikeia} {x : Utf16}
    (h : Feeds d (t, echo x)) (hx : wantsScore x = true)
    (ht : wantsScore (scoreReply t.rows) = true) : Endless d := by
  refine ⟨looping d t x, rfl, fun n => ?_⟩
  match n with
  | 0 => exact h
  | 1 => exact feeds_score hx
  | _ + 2 => exact feeds_score ht

/-- **When the bot never stops**: exactly if a text it posts for the message asks for the
score, and the table that the message leaves has names with `@bot` and with `score`. -/
theorem endless_iff (t : Table Phikeia) (g : GroupmeBindingModel) :
    Endless (t, g) ↔ ∃ t' x, Feeds (t, g) (t', echo x) ∧ wantsScore x = true
      ∧ (∃ r ∈ t'.rows, r.name.contains (utf16 "@bot") = true)
      ∧ ∃ r ∈ t'.rows, r.name.contains (utf16 "score") = true := by
  constructor
  · intro h
    obtain ⟨f, hstart, hnext⟩ := h
    have h₀ := hnext 0
    rw [hstart] at h₀
    obtain ⟨fs, x, hx, hpost⟩ := h₀
    have h₁ := hnext 1
    rw [Nat.zero_add] at hpost
    rw [hpost] at h₁
    -- the second post is the listing, and it is answered as well
    obtain ⟨hscore, hlisting⟩ := feeds_feeds h₁ (hnext 2)
    have h₂ := hnext 2
    rw [hlisting] at h₂
    obtain ⟨hagain, -⟩ := feeds_feeds h₂ (hnext 3)
    exact ⟨_, x, ⟨fs, x, hx, rfl⟩, hscore, (wantsScore_scoreReply _).mp hagain⟩
  · intro h
    obtain ⟨t', x, hfeeds, hscore, hnames⟩ := h
    exact endless_of_score hfeeds hscore ((wantsScore_scoreReply _).mpr hnames)

/-- `@@bot score register`, tagging the id 1, whose nickname is `@bot score`. -/
def registerBot : GroupmeBindingModel :=
  ⟨some [some ⟨some (utf16 "mentions"), some [some [0, 11]], some [1]⟩],
    some (utf16 "@@bot score register")⟩

/-- Once that is registered, asking for the score never ends. -/
theorem endless_registered :
    ¬ ∀ (cs : List Call) (g : GroupmeBindingModel), ¬ Endless ((serve Table.empty cs).1, g) := by
  intro h
  refine h [⟨some registerBot, []⟩] (echo (utf16 "@bot score")) ?_
  have hscore : wantsScore (utf16 "@bot score") = true := by decide
  exact endless_of_score (feeds_score hscore) (by decide +kernel) (by decide +kernel)

end TacPac.Groupme
