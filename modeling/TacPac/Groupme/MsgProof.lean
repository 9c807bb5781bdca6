import TacPac.Groupme.Logic
import TacPac.Groupme.Ledger

/-!
# What each piece of `msg` does

One lemma per piece, in the order of the source: reading the payload, the
register branch, the merit branch, the score branch. They hold whatever else is
going on (`Meets`), because up to its save a request only touches its own
context. The merit branch is the one that looks at the table more than once, so
its lemma is a loop rule: an invariant that survives one mention, queried against
whatever the table is at that moment, survives them all.
-/

namespace TacPac.Groupme

open TacPac.Lib

section Pieces

variable {R : Table Phikeia → Table Phikeia → Prop} {G : World → World → Prop}
  {I : Table Phikeia → Prop} {c : Context Phikeia} {log : List Effect}

/-! ## Reading the payload -/

theorem meets_locus {a : AttachmentBindingModel} {i j : Nat} {Q : Int32 → Assn}
    (hs : Effect.saved ∉ log) (h : ∀ v, locusOf a i j = some v → Q v c log) :
    Meets R G I (locus a i j) Q c log := by
  unfold locus at'
  refine meets_bind (meets_orRaise hs fun loci hloci => ?_)
  refine meets_bind (meets_orRaise hs fun pair hpair => ?_)
  refine meets_bind (meets_orRaise hs fun pair' hpair' => ?_)
  refine meets_orRaise hs fun v hv => h v ?_
  unfold locusOf
  rw [hloci, Option.bind_some, hpair, Option.bind_some, hpair', Option.bind_some, hv]

theorem meets_findMentions {g : GroupmeBindingModel} {Q : Option AttachmentBindingModel → Assn}
    (hs : Effect.saved ∉ log) (h : Q (lastMentions g) c log) :
    Meets R G I (findMentions g) Q c log := by
  unfold findMentions
  refine meets_bind (meets_orRaise hs fun as has => ?_)
  have hlast : lastMentions g = (as.reduceOption.filter
      (fun a => a.type = some (utf16 "mentions"))).getLast? := by
    unfold lastMentions; rw [has]; rfl
  rw [hlast] at h
  -- the accumulator is the last of those the prefix has
  refine meets_mono (meets_foldlM
    (fun pre acc c' log' => c' = c ∧ log' = log ∧ acc = (pre.reduceOption.filter
      (fun a => a.type = some (utf16 "mentions"))).getLast?) ⟨rfl, rfl, rfl⟩ ?_) ?_
  · rintro pre x post - acc c' log' ⟨rfl, rfl, rfl⟩
    refine meets_bind (meets_orRaise hs fun a ha => ?_)
    subst ha
    have hsnoc : (pre ++ [some a]).reduceOption = pre.reduceOption ++ [a] := by
      rw [List.reduceOption_append, List.reduceOption_singleton]; rfl
    split
    · next ht =>
        refine meets_ret ⟨rfl, rfl, ?_⟩
        rw [hsnoc, List.filter_append]
        simp [ht]
    · next ht =>
        refine meets_ret ⟨rfl, rfl, ?_⟩
        rw [hsnoc, List.filter_append]
        simp [ht]
  · rintro acc c' log' ⟨rfl, rfl, rfl⟩
    exact h

/-! ## The register branch -/

/-- What a register reply says of the people it announces. -/
def registerReply (es : List (Int64 × Utf16)) : Utf16 :=
  es.flatMap (fun e => e.2 ++ utf16 " Registered!\n")

/-- The context with the new rows of these people added. -/
def addNew (c : Context Phikeia) (es : List (Int64 × Utf16)) : Context Phikeia :=
  { c with added := c.added ++ (es.filter (fun e => !barred e)).map newPhikeia }

theorem addNew_snoc (c : Context Phikeia) (es : List (Int64 × Utf16)) (e : Int64 × Utf16) :
    addNew c (es ++ [e]) = if barred e then addNew c es else (addNew c es).add (newPhikeia e) := by
  unfold addNew Context.add
  rw [List.filter_append]
  by_cases h : barred e = true
  · simp [h]
  · simp [h]

theorem meets_registerAll (hA : Ambient R G I) {text : Utf16} {a : AttachmentBindingModel}
    {Q : Utf16 → Assn} (hs : Effect.saved ∉ log)
    (h : ∀ es, mentions (registerName text a) a = some es →
      Q (registerReply es) (addNew c es) log) :
    Meets R G I (registerAll text a) Q c log := by
  unfold registerAll
  refine meets_bind (meets_orRaise hs fun userIds hids => ?_)
  refine meets_mono (meets_foldlM
    (fun pre msg c' log' => log' = log ∧ ∃ es,
      pre.mapM (named (registerName text a)) = some es
        ∧ msg = registerReply es ∧ c' = addNew c es)
    ⟨rfl, [], rfl, rfl, by simp [addNew]⟩ ?_) ?_
  · rintro pre ⟨u, i⟩ post - msg c' log' ⟨rfl, es, hes, rfl, rfl⟩
    refine meets_bind (meets_locus hs fun start hstart => ?_)
    refine meets_bind (meets_locus hs fun length hlength => ?_)
    refine meets_bind (meets_orRaise hs fun name hname => ?_)
    have hentry : named (registerName text a) (u, i) = some (u, name) := by
      unfold named registerName
      rw [hstart, Option.bind_some, hlength, Option.bind_some, hname]
      rfl
    have hes' : (pre ++ [(u, i)]).mapM (named (registerName text a))
        = some (es ++ [(u, name)]) := mapM_snoc hes hentry
    have hreply : registerReply es ++ name ++ utf16 " Registered!\n"
        = registerReply (es ++ [(u, name)]) := by
      simp [registerReply, List.append_assoc]
    by_cases hb : barred (u, name) = true
    · -- announced, and not entered
      have hc : name.contains (utf16 "abriel") = true := hb
      simp only [hc, Bool.not_true, Bool.false_eq_true, if_false]
      refine meets_ret ⟨rfl, es ++ [(u, name)], hes', hreply, ?_⟩
      rw [addNew_snoc, if_pos hb]
    · have hc : name.contains (utf16 "abriel") = false := Bool.eq_false_iff.mpr hb
      simp only [hc, Bool.not_false, if_true]
      refine meets_bind (meets_addPhi hA hs ?_)
      refine meets_ret ⟨rfl, es ++ [(u, name)], hes', hreply, ?_⟩
      rw [addNew_snoc, if_neg hb]
      rfl
  · rintro msg c' log' ⟨rfl, es, hes, rfl, rfl⟩
    refine h es ?_
    unfold mentions
    rw [hids]
    exact hes

/-- What the register branch posts. -/
def registerPost (g : GroupmeBindingModel) (es : List (Int64 × Utf16)) : Utf16 :=
  match lastMentions g with
  | some _ => registerReply es
  | none => utf16 "You fucked up! Please tag a Phikeia (or multiple!)"

theorem meets_register (hA : Ambient R G I) {text : Utf16} {g : GroupmeBindingModel}
    {Q : Unit → Assn} (hs : Effect.saved ∉ log)
    (h : ∀ es, lastMentioned (registerName text) g = some es →
      Q () (addNew c es) (log ++ [.posted (registerPost g es)])) :
    Meets R G I (register text g) Q c log := by
  unfold register
  refine meets_bind (meets_findMentions hs ?_)
  unfold lastMentioned registerPost at h
  split
  · next a ha =>
      rw [ha] at h
      refine meets_bind (meets_registerAll hA hs fun es hes => ?_)
      exact meets_sendMsg hA hs (h es hes)
  · next ha =>
      rw [ha] at h
      refine meets_sendMsg hA hs ?_
      have hc := h [] rfl
      simpa [addNew] using hc

/-! ## The merit branch -/

/-- Whether a mention of `u` finds anybody among these rows. -/
def found (u : Int64) (phis : List Phikeia) : Bool := phis.any (fun r => r.groupmeId = u)

/-- The points it then quotes: those of the last such row. -/
def total (diff : Int) (u : Int64) (phis : List Phikeia) : Int32 :=
  (((phis.filter (fun r => r.groupmeId = u)).getLast?).map
    (fun r => r.points + Int32.ofInt diff)).getD 0

/-- The context after the inner loop has credited one mention. -/
def credited (diff : Int) (m : Int64 × Utf16) (phis : List Phikeia) (c : Context Phikeia) :
    Context Phikeia :=
  c.setAll (fun r => r.groupmeId = m.1) (fun r => r.mark diff m) phis

theorem credited_snoc (diff : Int) (m : Int64 × Utf16) (phis : List Phikeia) (r : Phikeia)
    (c : Context Phikeia) : credited diff m (phis ++ [r]) c
      = if r.groupmeId = m.1 then (credited diff m phis c).set (r.mark diff m)
        else credited diff m phis c := by
  unfold credited Context.setAll
  rw [List.foldl_append]
  simp

theorem meets_credit (hA : Ambient R G I) {diff : Int} {u : Int64} {name : Utf16}
    {phis : List Phikeia} {Q : Bool × Int32 → Assn} (hs : Effect.saved ∉ log)
    (h : Q (found u phis, total diff u phis) (credited diff (u, name) phis c) log) :
    Meets R G I (credit (Int32.ofInt diff) u name phis) Q c log := by
  unfold credit
  refine meets_mono (meets_foldlM
    (fun pre acc c' log' => log' = log ∧ acc = (found u pre, total diff u pre)
      ∧ c' = credited diff (u, name) pre c) ⟨rfl, rfl, rfl⟩ ?_) ?_
  · rintro pre r post - acc c' log' ⟨rfl, rfl, rfl⟩
    show Meets R G I (if r.groupmeId = u then _ else _) _ _ _
    split
    · next hu =>
        refine meets_bind (meets_orRaise hs fun stored hstored => ?_)
        -- where `Substring(1)` does not raise it drops the `@`
        have hdrop : stored = name.drop 1 := by
          unfold Utf16.substringFrom Utf16.substring at hstored
          split at hstored
          · exact absurd hstored (by simp)
          · next hcond =>
              injection hstored with hstored
              rw [← hstored, List.take_of_length_le]
              · rfl
              · rw [List.length_drop]; omega
        have hmark : ({ r with points := r.points + Int32.ofInt diff, name := stored } : Phikeia)
            = r.mark diff (u, name) := by
          unfold Phikeia.mark; rw [if_pos hu, hdrop]
        refine meets_bind (meets_setPhi hA hs ?_)
        refine meets_ret ⟨rfl, ?_, ?_⟩
        · simp [found, total, hu]
        · rw [credited_snoc, if_pos hu, hmark]
    · next hu =>
        refine meets_ret ⟨rfl, ?_, ?_⟩
        · simp [found, total, hu]
        · rw [credited_snoc, if_neg hu]
  · rintro acc c' log' ⟨rfl, rfl, rfl⟩
    exact h

/-- **The merit loop.** `Inv` speaks of the mentions credited so far, the reply
so far and the context. -/
theorem meets_meritAll (hA : Ambient R G I)
    (Inv : List (Int64 × Utf16) → Utf16 → Context Phikeia → Prop) {diff : Int} {text : Utf16}
    {a : AttachmentBindingModel} {Q : Utf16 → Assn} (hs : Effect.saved ∉ log) (h0 : Inv [] [] c)
    (hstep : ∀ ms m msg c t, Inv ms msg c → I t →
      Inv (ms ++ [m]) (msg ++ meritSentence (Int32.ofInt diff) m.2 (found m.1 (c.view t))
        (total diff m.1 (c.view t))) (credited diff m (c.view t) (c.load t)))
    (h : ∀ ms msg c', mentions (meritName text a) a = some ms → Inv ms msg c' → Q msg c' log) :
    Meets R G I (meritAll (Int32.ofInt diff) text a) Q c log := by
  unfold meritAll
  refine meets_bind (meets_orRaise hs fun userIds hids => ?_)
  refine meets_mono (meets_foldlM
    (fun pre msg c' log' => log' = log ∧ ∃ ms,
      pre.mapM (named (meritName text a)) = some ms ∧ Inv ms msg c')
    ⟨rfl, [], rfl, h0⟩ ?_) ?_
  · rintro pre ⟨u, i⟩ post - msg c' log' ⟨rfl, ms, hms, hinv⟩
    refine meets_bind (meets_locus hs fun start hstart => ?_)
    refine meets_bind (meets_locus hs fun length hlength => ?_)
    refine meets_bind (meets_orRaise hs fun name hname => ?_)
    have hentry : named (meritName text a) (u, i) = some (u, name) := by
      unfold named meritName
      rw [hstart, Option.bind_some, hlength, Option.bind_some, hname]
      rfl
    refine meets_bind (meets_toList hA hs fun t ht => ?_)
    refine meets_bind (meets_credit hA hs ?_)
    exact meets_ret ⟨rfl, ms ++ [(u, name)], mapM_snoc hms hentry,
      hstep ms (u, name) msg c' t hinv ht⟩
  · rintro msg c' log' ⟨rfl, ms, hms, hinv⟩
    refine h ms msg c' ?_ hinv
    unfold mentions
    rw [hids]
    exact hms

/-- What the merit branch posts, if anything. -/
def meritPost (g : GroupmeBindingModel) (marked : Utf16) : List Effect :=
  if (lastMentions g).isSome then [.posted marked] else []

theorem meets_merit (hA : Ambient R G I)
    (Inv : List (Int64 × Utf16) → Utf16 → Context Phikeia → Prop) {text : Utf16}
    {g : GroupmeBindingModel} {Q : Unit → Assn} (hs : Effect.saved ∉ log)
    (hm : text.contains (utf16 "merit") = true) (h0 : Inv [] [] c)
    (hstep : ∀ ms m msg c t, Inv ms msg c → I t →
      Inv (ms ++ [m]) (msg ++ meritSentence (Int32.ofInt (diffOf text)) m.2
        (found m.1 (c.view t)) (total (diffOf text) m.1 (c.view t)))
        (credited (diffOf text) m (c.view t) (c.load t)))
    (h : ∀ ms marked c', lastMentioned (meritName text) g = some ms → Inv ms marked c' →
      Q () c' (log ++ meritPost g marked)) :
    Meets R G I (merit text g) Q c log := by
  have hdiff : (if text.contains (utf16 "demerit") then -1 else 1 : Int32)
      = Int32.ofInt (diffOf text) := by
    unfold diffOf
    split <;> rfl
  unfold merit
  rw [hdiff]
  refine meets_bind (meets_findMentions hs ?_)
  unfold lastMentioned meritPost at h
  split
  · next a ha =>
      rw [ha] at h
      refine meets_bind (meets_meritAll hA Inv hs h0 hstep fun ms marked c' hms hinv => ?_)
      exact meets_sendMsg hA hs (h ms marked c' hms hinv)
  · next ha =>
      rw [ha] at h
      -- nobody is tagged: nothing is credited and nothing is said
      refine meets_ret ?_
      have hc := h [] [] c rfl h0
      simpa using hc

/-! ## The three branches together -/

/-- The trigger of the score branch. -/
def wantsScore (text : Utf16) : Bool :=
  text.contains (utf16 "@bot") && text.contains (utf16 "score")

/-- What the score branch posts. -/
def scoreReply (phis : List Phikeia) : Utf16 := utf16 "Score:\n" ++ phis.flatMap scoreLine

/-- The entries a branch reads, when its trigger is there. -/
def whenHas (text : Utf16) (trigger : String) (o : Option (List (Int64 × Utf16))) :
    Option (List (Int64 × Utf16)) :=
  if text.contains (utf16 trigger) then o else some []

theorem orderOf_eq {g : GroupmeBindingModel} {text : Utf16}
    {announced marks : List (Int64 × Utf16)} (htext : g.text = some text)
    (ha : whenHas text "register" (lastMentioned (registerName text) g) = some announced)
    (hm : whenHas text "merit" (lastMentioned (meritName text) g) = some marks) :
    orderOf g = some ⟨announced, diffOf text, marks⟩ := by
  unfold whenHas at ha hm
  unfold orderOf
  rw [htext, Option.bind_some, ha, Option.bind_some, hm, Option.map_some]

theorem meets_whenRegister (hA : Ambient R G I) {text : Utf16} {g : GroupmeBindingModel}
    {Q : Unit → Assn} (hs : Effect.saved ∉ log)
    (h : ∀ es, whenHas text "register" (lastMentioned (registerName text) g) = some es →
      Q () (addNew c es) (log ++ if text.contains (utf16 "register") then
        [.posted (registerPost g es)] else [])) :
    Meets R G I (if text.contains (utf16 "register") then register text g else pure ())
      Q c log := by
  unfold whenHas at h
  split
  · next hr =>
      simp only [hr, if_true] at h
      exact meets_register hA hs h
  · next hr =>
      have hc := h [] (by rw [if_neg hr])
      have hnil : addNew c [] = c := by simp [addNew]
      rw [hnil, if_neg hr, List.append_nil] at hc
      exact meets_ret hc

theorem meets_whenMerit (hA : Ambient R G I)
    (Inv : List (Int64 × Utf16) → Utf16 → Context Phikeia → Prop) {text : Utf16}
    {g : GroupmeBindingModel} {Q : Unit → Assn} (hs : Effect.saved ∉ log) (h0 : Inv [] [] c)
    (hstep : ∀ ms m msg c t, Inv ms msg c → I t →
      Inv (ms ++ [m]) (msg ++ meritSentence (Int32.ofInt (diffOf text)) m.2
        (found m.1 (c.view t)) (total (diffOf text) m.1 (c.view t)))
        (credited (diffOf text) m (c.view t) (c.load t)))
    (h : ∀ ms marked c', whenHas text "merit" (lastMentioned (meritName text) g) = some ms →
      Inv ms marked c' → Q () c' (log ++ if text.contains (utf16 "merit") then
        meritPost g marked else [])) :
    Meets R G I (if text.contains (utf16 "merit") then merit text g else pure ()) Q c log := by
  unfold whenHas at h
  split
  · next hm =>
      simp only [hm, if_true] at h
      exact meets_merit hA Inv hs hm h0 hstep h
  · next hm =>
      have hc := h [] [] c (by rw [if_neg hm]) h0
      rw [if_neg hm, List.append_nil] at hc
      exact meets_ret hc

theorem meets_whenScore (hA : Ambient R G I) {text : Utf16} {Q : Unit → Assn}
    (hs : Effect.saved ∉ log) (hI : ∃ t, I t)
    (h : ∀ t, I t → Q () (if wantsScore text then c.load t else c)
      (log ++ if wantsScore text then [.posted (scoreReply (c.view t))] else [])) :
    Meets R G I (if wantsScore text then score else pure ()) Q c log := by
  split
  · next hw =>
      simp only [hw, if_true] at h
      unfold score
      refine meets_bind (meets_toList hA hs fun t ht => ?_)
      exact meets_sendMsg hA hs (h t ht)
  · next hw =>
      -- no query is made, so any table will do
      obtain ⟨t, ht⟩ := hI
      have hc := h t ht
      rw [if_neg hw, if_neg hw, List.append_nil] at hc
      exact meets_ret hc

theorem branches_eq (text : Utf16) (g : GroupmeBindingModel) : branches text g =
    ((if text.contains (utf16 "register") then register text g else pure ()) >>= fun _ =>
      (if text.contains (utf16 "merit") then merit text g else pure ()) >>= fun _ =>
        if wantsScore text then score else pure ()) := by
  unfold branches wantsScore
  split <;> split <;> split <;> rfl

/-- What the bot says before it saves: `marked` is the reply of the merit branch,
`phis` what the score branch lists. -/
def repliesLog (text : Utf16) (g : GroupmeBindingModel) (o : Order) (marked : Utf16)
    (phis : List Phikeia) : List Effect :=
  (if text.contains (utf16 "register") then [.posted (registerPost g o.announced)] else [])
  ++ (if text.contains (utf16 "merit") then meritPost g marked else [])
  ++ (if wantsScore text then [.posted (scoreReply phis)] else [])

theorem saved_notMem_repliesLog {text : Utf16} {g : GroupmeBindingModel} {o : Order}
    {marked : Utf16} {phis : List Phikeia} :
    Effect.saved ∉ repliesLog text g o marked phis := by
  unfold repliesLog meritPost
  split <;> split <;> split <;> try split
  all_goals simp

/-- **The branches.** They leave the rows to open added, an invariant of the merit
loop established, and their replies posted. -/
theorem meets_branches (hA : Ambient R G I)
    (Inv : List (Int64 × Utf16) → Utf16 → Context Phikeia → Prop) {text : Utf16}
    {g : GroupmeBindingModel} {Q : Unit → Assn} (htext : g.text = some text)
    (hI : ∃ t, I t) (h0 : ∀ es, Inv [] [] (addNew Context.new es))
    (hstep : ∀ ms m msg c t, Inv ms msg c → I t →
      Inv (ms ++ [m]) (msg ++ meritSentence (Int32.ofInt (diffOf text)) m.2
        (found m.1 (c.view t)) (total (diffOf text) m.1 (c.view t)))
        (credited (diffOf text) m (c.view t) (c.load t)))
    (h : ∀ o marked c t, orderOf g = some o → Inv o.marks marked c →
      c.added = o.opened.map newPhikeia → I t →
      Q () (if wantsScore text then c.load t else c)
        (repliesLog text g o marked (c.view t))) :
    Meets R G I (branches text g) Q Context.new [] := by
  rw [branches_eq]
  refine meets_bind (meets_whenRegister hA (by simp) fun announced hann => ?_)
  rw [List.nil_append]
  have hs₁ : Effect.saved ∉ (if text.contains (utf16 "register") then
      [Effect.posted (registerPost g announced)] else []) := by split <;> simp
  -- crediting adds no rows, so what the register branch added is still what is added
  refine meets_bind (meets_whenMerit hA
    (fun ms marked c => Inv ms marked c ∧ c.added = (addNew Context.new announced).added)
    hs₁ ⟨h0 announced, rfl⟩ ?_ ?_)
  · intro ms m msg c t hinv ht
    refine ⟨hstep ms m msg c t hinv.1 ht, ?_⟩
    rw [credited, Context.setAll_added, Context.load_added, hinv.2]
  · intro marks marked c' hmarks hinv
    have ho := orderOf_eq htext hann hmarks
    refine meets_whenScore hA ?_ hI fun t ht => ?_
    · unfold meritPost
      split <;> split <;> try split
      all_goals simp
    · exact h _ marked c' t ho hinv.1 hinv.2 ht

/-- What `msg` does after its branches. -/
def finish (text : Utf16) : Handler Unit := do
  saveChanges
  if text.contains (utf16 "Andre Re") then sendMsg (utf16 "Andre you a bitch")

theorem msg_noText {m : GroupmeBindingModel} (h : m.text = none) :
    msg (some m) = .raise .nullReference := by
  unfold msg
  simp only [deref, Proc.orRaise, h, Proc.ret_bind, Proc.raise_bind]

theorem msg_text {m : GroupmeBindingModel} {text : Utf16} (h : m.text = some text) :
    msg (some m) = (branches text m >>= fun _ => finish text) := by
  unfold msg finish
  simp only [deref, Proc.orRaise, h, Proc.ret_bind]

/-- **The whole handler.** It raises before its save, or it reaches `finish` as its
branches left things. -/
theorem wp_msg {g : Option GroupmeBindingModel} {Q : Unit → World → Prop}
    {E : Exn → World → Prop} {t : Table Phikeia} {fs : List Fault} (ht : I t)
    (herr : ∀ e w, I w.1 → Effect.saved ∉ w.2.log → E e w)
    (h : ∀ m text, g = some m → m.text = some text →
      Meets R G I (branches text m) (fun _ c log => ∀ t fs, I t →
        Proc.wp (setting R G) (finish text) Q E (t, ⟨c, log, fs⟩)) Context.new []) :
    Proc.wp (setting R G) (msg g) Q E (t, Session.start fs) := by
  cases g with
  | none => exact herr _ _ ht (by simp [Session.start])
  | some m =>
      cases htext : m.text with
      | none =>
          rw [msg_noText htext]
          exact herr _ _ ht (by simp [Session.start])
      | some text =>
          rw [msg_text htext, Proc.wp_bind]
          refine Proc.wp_mono (h m text rfl htext t fs ht) ?_ ?_
          · intro _ w hw
            exact hw.2 w.1 w.2.faults hw.1
          · intro e w hw
            exact herr e w hw.1 hw.2

/-- What may reach the group after the save. -/
def Farewell (text : Utf16) (tail : List Effect) : Prop :=
  tail = [] ∨ text.contains (utf16 "Andre Re") = true
    ∧ tail = [.posted (utf16 "Andre you a bitch")]

/-- The session of a request that has saved, and then posted `tail`. -/
def Session.saved (l : Session) (tail : List Effect) (fs : List Fault) : Session :=
  ⟨l.ctx.accept, l.log ++ [.saved] ++ tail, fs⟩

/-- A post that fails may or may not have reached the group. -/
theorem farewell_failLog {text : Utf16} (h : text.contains (utf16 "Andre Re") = true) (f : Fault)
    (log : List Effect) : ∃ tail, Farewell text tail
      ∧ failLog (.post (utf16 "Andre you a bitch")) f log = log ++ tail := by
  cases f with
  | none => exact ⟨[], Or.inl rfl, (List.append_nil log).symm⟩
  | before => exact ⟨[], Or.inl rfl, (List.append_nil log).symm⟩
  | after => exact ⟨_, Or.inr ⟨h, rfl⟩, rfl⟩

/-- The end of the message: the save, and then at most one more post. -/
theorem wp_finish {text : Utf16} {Q : Unit → World → Prop} {E : Exn → World → Prop}
    {t : Table Phikeia} {l : Session}
    (hfail : ∀ t₁ fs, R t t₁ → G (t₁, l) (t₁, { l with faults := fs })
      ∧ E .infrastructure (t₁, { l with faults := fs }))
    (hsave : ∀ t₁ fs, R t t₁ → G (t₁, l) (t₁.save l.ctx, l.saved [] fs))
    (hpost : ∀ t₂ tail fs fs', G (t₂, l.saved [] fs) (t₂, l.saved tail fs'))
    (hend : ∀ t₁ t₂ tail fs, R t t₁ → t₂ = t₁.save l.ctx ∨ R (t₁.save l.ctx) t₂ →
      Farewell text tail → Q () (t₂, l.saved tail fs) ∧ E .web (t₂, l.saved tail fs)) :
    Proc.wp (setting R G) (finish text) Q E (t, l) := by
  have hlog : ∀ fs, l.saved [] fs = ⟨l.ctx.accept, l.log ++ [.saved], fs⟩ := by
    intro fs
    unfold Session.saved
    rw [List.append_nil]
  unfold finish
  rw [Proc.wp_bind]
  refine wp_ask (fun t₁ fs hR => ⟨?_, ?_⟩) (fun t₁ f fs hR => hfail t₁ fs hR)
  · have hguar := hsave t₁ fs hR
    rw [hlog] at hguar
    exact hguar
  show Proc.wp (setting R G) (if text.contains (utf16 "Andre Re") then _ else _) Q E
    (t₁.save l.ctx, ⟨l.ctx.accept, l.log ++ [.saved], fs⟩)
  by_cases ha : text.contains (utf16 "Andre Re") = true
  · rw [if_pos ha, ← hlog]
    refine wp_ask (fun t₂ fs' hR' => ?_) (fun t₂ f fs' hR' => ?_)
    · have hdone : (perform (.post (utf16 "Andre you a bitch"))
          (t₂, { l.saved [] fs with faults := fs' })).2
          = (t₂, l.saved [.posted (utf16 "Andre you a bitch")] fs') := by
        simp [perform, Session.saved]
      rw [hdone]
      exact ⟨hpost t₂ _ fs fs', (hend t₁ t₂ _ fs' hR (Or.inr hR') (Or.inr ⟨ha, rfl⟩)).1⟩
    · obtain ⟨tail, htail, hfailed⟩ := farewell_failLog ha f (l.saved [] fs).log
      have hdone : { l.saved [] fs with
          log := failLog (.post (utf16 "Andre you a bitch")) f (l.saved [] fs).log, faults := fs' }
          = l.saved tail fs' := by
        rw [hfailed]
        simp [Session.saved]
      rw [hdone]
      exact ⟨hpost t₂ tail fs fs', (hend t₁ t₂ tail fs' hR (Or.inr hR') htail).2⟩
  · rw [if_neg ha, ← hlog]
    exact (hend t₁ _ [] fs hR (Or.inl rfl) (Or.inl rfl)).1

end Pieces

end TacPac.Groupme
