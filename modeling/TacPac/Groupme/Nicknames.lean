import TacPac.Groupme.Returns

/-!
# Words and nicknames

A GroupMe message has the nicknames of the people it mentions in its text, and the
commands are looked for in the whole of it. Two messages with the same typed words and
different nicknames do the same to the table as long as the nicknames do not make the
texts differ in which of the words `register`, `merit` and `demerit` they contain
(`msg_nicknames`).
-/

namespace TacPac.Groupme

open TacPac.Lib Utf16

/-- The text of a mention. -/
def mentionText (nick : Nat → Utf16) (i : Nat) : Utf16 := utf16 "@" ++ nick i

/-- The locus of the mention `x.2`, which is the piece `x.1` of the text. -/
def spanOf (nick : Nat → Utf16) (ps : List Piece) (x : Nat × Nat) : Option (List Int32) :=
  some [Int32.ofInt (start (mentionText nick) ps x.1), Int32.ofInt (mentionText nick x.2).length]

/-- A message with the typed words of `ps` and these nicknames. The mention `i` is the
piece `tags[i]`. -/
structure Writes (ps : List Piece) (tags : List Nat) (nick : Nat → Utf16)
    (g : GroupmeBindingModel) : Prop where
  text : g.text = some (fill (mentionText nick) ps)
  /-- No .NET string is longer. -/
  short : (fill (mentionText nick) ps).length < 2 ^ 31
  holes : ∀ i k : Nat, tags[i]? = some k → ps[k]? = some (Piece.hole i)
  loci : ∀ a, lastMentions g = some a → a.loci = some (tags.zipIdx.map (spanOf nick ps))
  admitted : ∀ i, (nick i).contains (utf16 "abriel") = false

/-- The attachments, but for the loci. -/
def AttachmentBindingModel.unplaced (a : AttachmentBindingModel) : AttachmentBindingModel :=
  { a with loci := none }

/-- The attachments, less the places of the mentions. -/
def shape (g : GroupmeBindingModel) : Option (List (Option AttachmentBindingModel)) :=
  g.attachments.map (List.map (Option.map AttachmentBindingModel.unplaced))

section Extraction

variable {ps : List Piece} {tags : List Nat} {nick : Nat → Utf16} {g : GroupmeBindingModel}
  {a : AttachmentBindingModel}

theorem locusOf_writes (h : Writes ps tags nick g) (ha : lastMentions g = some a) (i j : Nat) :
    locusOf a i j = tags[i]?.bind fun k =>
      ([Int32.ofInt (start (mentionText nick) ps k), Int32.ofInt (mentionText nick i).length] :
        List Int32)[j]? := by
  unfold locusOf
  rw [h.loci a ha, Option.bind_some, List.getElem?_map, List.getElem?_zipIdx]
  rcases tags[i]? with _ | k
  · rfl
  · simp [spanOf]

/-- A start or a length that fits. -/
theorem toInt_ofInt_natCast {n : Nat} (h : n < 2 ^ 31) : (Int32.ofInt n).toInt = n :=
  Int32.toInt_ofInt_of_le (by omega) (by omega)

theorem mentionText_length (nick : Nat → Utf16) (i : Nat) :
    (mentionText nick i).length = (nick i).length + 1 := by
  unfold mentionText
  rw [List.length_append]
  exact Nat.add_comm _ _

theorem meritName_writes (h : Writes ps tags nick g) (ha : lastMentions g = some a) (i : Nat) :
    meritName (fill (mentionText nick) ps) a i
      = tags[i]?.map fun _ => mentionText nick i := by
  unfold meritName
  rw [locusOf_writes h ha, locusOf_writes h ha]
  rcases hk : tags[i]? with _ | k
  · rfl
  · have hhole := h.holes i k hk
    have hend : start (mentionText nick) ps k + (mentionText nick i).length
        ≤ (fill (mentionText nick) ps).length := start_le hhole
    have hshort := h.short
    show Utf16.substring _ (Int32.ofInt _).toInt (Int32.ofInt _).toInt = _
    rw [toInt_ofInt_natCast (by omega), toInt_ofInt_natCast (by omega)]
    exact substring_hole hhole

theorem registerName_writes (h : Writes ps tags nick g) (ha : lastMentions g = some a)
    (i : Nat) : registerName (fill (mentionText nick) ps) a i = tags[i]?.map fun _ => nick i := by
  unfold registerName
  rw [locusOf_writes h ha, locusOf_writes h ha]
  rcases hk : tags[i]? with _ | k
  · rfl
  · have hhole := h.holes i k hk
    have hend : start (mentionText nick) ps k + (mentionText nick i).length
        ≤ (fill (mentionText nick) ps).length := start_le hhole
    have hshort := h.short
    have hlen := mentionText_length nick i
    -- the span without its `@`
    have hstart : (Int32.ofInt (start (mentionText nick) ps k) + 1 : Int32)
        = Int32.ofInt ((start (mentionText nick) ps k + 1 : Nat) : Int) := by
      rw [Int.natCast_add, Int32.ofInt_add]
      rfl
    have hlength : (Int32.ofInt (mentionText nick i).length - 1 : Int32)
        = Int32.ofInt ((nick i).length : Int) := by
      rw [hlen, Int.natCast_add, Int32.ofInt_add]
      exact Int32.add_sub_cancel _ _
    show Utf16.substring _ (Int32.ofInt _ + 1).toInt (Int32.ofInt _ - 1).toInt = _
    rw [hstart, hlength, toInt_ofInt_natCast (by omega), toInt_ofInt_natCast (by omega)]
    exact substring_hole_tail hhole rfl

end Extraction

/-! ## Messages of the same shape -/

section Shape

variable {g g' : GroupmeBindingModel}

theorem lastMentions_unplaced (g : GroupmeBindingModel) :
    (lastMentions g).map AttachmentBindingModel.unplaced
      = ((((shape g).getD []).reduceOption).filter
          (fun a => a.type = some (utf16 "mentions"))).getLast? := by
  have hlist : ((shape g).getD []).reduceOption
      = ((g.attachments.getD []).reduceOption).map AttachmentBindingModel.unplaced := by
    unfold shape
    rcases g.attachments with _ | as
    · rfl
    · exact List.reduceOption_map
  rw [hlist, List.filter_map, List.getLast?_map]
  rfl

theorem lastMentions_same (h : shape g = shape g') :
    (lastMentions g).map AttachmentBindingModel.unplaced
      = (lastMentions g').map AttachmentBindingModel.unplaced := by
  rw [lastMentions_unplaced, lastMentions_unplaced, h]

theorem listed_iff (g : GroupmeBindingModel) :
    Listed g ↔ ∃ as, shape g = some as ∧ none ∉ as := by
  unfold Listed shape
  rcases g.attachments with _ | as
  · simp
  · simp

theorem mentionedIds_same (h : shape g = shape g') : mentionedIds g = mentionedIds g' := by
  have hids : ∀ m : GroupmeBindingModel, mentionedIds m
      = ((((lastMentions m).map AttachmentBindingModel.unplaced).bind (·.userIds)).getD []) := by
    intro m
    unfold mentionedIds
    rw [Option.bind_map]
    rfl
  rw [hids, hids, lastMentions_same h]

theorem isSome_mapM_named (name : Nat → Option Utf16) (l : List (Int64 × Nat)) :
    (l.mapM (named name)).isSome = l.all fun x => (name x.2).isSome := by
  rw [Bool.eq_iff_iff, isSome_mapM_iff, List.all_eq_true]
  refine forall₂_congr fun x _ => ?_
  unfold named
  rw [Option.isSome_map]

/-- Names that are there for the same mentions. -/
theorem isSome_lastMentioned_same (h : shape g = shape g')
    {name name' : AttachmentBindingModel → Nat → Option Utf16}
    (hname : ∀ a a' i, lastMentions g = some a → lastMentions g' = some a' →
      (name a i).isSome = (name' a' i).isSome) :
    (lastMentioned name g).isSome = (lastMentioned name' g').isSome := by
  have hsame := lastMentions_same h
  unfold lastMentioned
  rcases ha : lastMentions g with _ | a
  · rw [ha] at hsame
    rw [Option.map_eq_none_iff.mp hsame.symm]
  · rw [ha] at hsame
    obtain ⟨a', ha', hunplaced⟩ := Option.map_eq_some_iff.mp hsame.symm
    rw [ha']
    have hunplacedIds := congrArg AttachmentBindingModel.userIds hunplaced
    have hids : a'.userIds = a.userIds := hunplacedIds
    show (mentions (name a) a).isSome = (mentions (name' a') a').isSome
    unfold mentions
    rw [hids]
    rcases a.userIds with _ | ids
    · rfl
    · show (ids.zipIdx.mapM (named (name a))).isSome = (ids.zipIdx.mapM (named (name' a'))).isSome
      rw [isSome_mapM_named, isSome_mapM_named]
      exact congrArg (fun p => ids.zipIdx.all p) (funext fun x => hname a a' x.2 ha ha')

/-- The same people are spoken of, under whatever names. -/
theorem whenHas_same (h : shape g = shape g') {text text' : Utf16} {trigger : String}
    {name : AttachmentBindingModel → Nat → Option Utf16}
    (name' : AttachmentBindingModel → Nat → Option Utf16)
    (htrigger : text.contains (utf16 trigger) = text'.contains (utf16 trigger))
    (hname : ∀ a a' i, lastMentions g = some a → lastMentions g' = some a' →
      (name a i).isSome = (name' a' i).isSome) {es : List (Int64 × Utf16)}
    (hes : whenHas text trigger (lastMentioned name g) = some es) :
    ∃ es', whenHas text' trigger (lastMentioned name' g') = some es'
      ∧ es'.map Prod.fst = es.map Prod.fst := by
  unfold whenHas at hes ⊢
  rw [← htrigger]
  split at hes
  · next ht =>
    have hsome := isSome_lastMentioned_same h hname
    rw [hes] at hsome
    obtain ⟨es', hes'⟩ := Option.isSome_iff_exists.mp hsome.symm
    rw [if_pos ht]
    exact ⟨es', hes', (lastMentioned_fst hes').trans
      ((mentionedIds_same h).symm.trans (lastMentioned_fst hes).symm)⟩
  · next ht =>
    cases hes
    rw [if_neg ht]
    exact ⟨[], rfl, rfl⟩

end Shape

/-! ## What two such messages do -/

theorem announced_of_orderOf {m : GroupmeBindingModel} {text : Utf16} {o : Order}
    (htext : m.text = some text) (ho : orderOf m = some o) :
    whenHas text "register" (lastMentioned (registerName text) m) = some o.announced := by
  unfold orderOf at ho
  rw [htext, Option.bind_some] at ho
  obtain ⟨announced, ha, ho⟩ := Option.bind_eq_some_iff.mp ho
  obtain ⟨marks, -, ho⟩ := Option.map_eq_some_iff.mp ho
  unfold whenHas
  rw [ha, ← ho]

/-- The commands, and what a text has of them. -/
def SameCommands (text text' : Utf16) : Prop :=
  ∀ word ∈ ["register", "merit", "demerit"],
    text.contains (utf16 word) = text'.contains (utf16 word)

instance (text text' : Utf16) : Decidable (SameCommands text text') :=
  inferInstanceAs (Decidable (∀ word ∈ _, _))

theorem diffOf_same {text text' : Utf16} (h : SameCommands text text') :
    diffOf text = diffOf text' := by
  unfold diffOf
  rw [h "demerit" (by simp), h "merit" (by simp)]

/-- Where a name spoken of comes from. -/
theorem name_of_whenHas {g : GroupmeBindingModel} {text : Utf16} {trigger : String}
    {name : AttachmentBindingModel → Nat → Option Utf16} {es : List (Int64 × Utf16)}
    (h : whenHas text trigger (lastMentioned name g) = some es) {e : Int64 × Utf16}
    (he : e ∈ es) : ∃ a i, lastMentions g = some a ∧ name a i = some e.2 := by
  unfold whenHas lastMentioned at h
  split at h
  · split at h
    · next a ha =>
      obtain ⟨ids, -, h⟩ := Option.bind_eq_some_iff.mp h
      obtain ⟨x, -, hx⟩ := source_of_mapM h he
      obtain ⟨n, hn, heq⟩ := Option.map_eq_some_iff.mp hx
      exact ⟨a, x.2, ha, by rw [hn, ← heq]⟩
    · cases h
      cases he
  · cases h
    cases he

/-- Two orders that speak of the same people. -/
structure SamePeople (o o' : Order) : Prop where
  diff : o.diff = o'.diff
  opened : o.opened.map Prod.fst = o'.opened.map Prod.fst
  marks : o.marks.map Prod.fst = o'.marks.map Prod.fst

section Orders

variable {ps : List Piece} {tags : List Nat} {nick nick' : Nat → Utf16}
  {g g' : GroupmeBindingModel}

/-- Nobody's name keeps them out. -/
theorem opened_writes (h : Writes ps tags nick g) {o : Order} (ho : orderOf g = some o) :
    o.opened = o.announced := by
  refine List.filter_eq_self.mpr fun e he => ?_
  obtain ⟨a, i, ha, hname⟩ := name_of_whenHas (announced_of_orderOf h.text ho) he
  rw [registerName_writes h ha] at hname
  obtain ⟨k, -, hnick⟩ := Option.map_eq_some_iff.mp hname
  unfold barred
  rw [← hnick, h.admitted i]
  rfl

/-- No mention is empty. -/
theorem marks_writes (h : Writes ps tags nick g) {o : Order} (ho : orderOf g = some o) :
    ∀ m ∈ o.marks, m.2 ≠ [] := by
  intro m hm hnil
  have hmarks : whenHas (fill (mentionText nick) ps) "merit"
      (lastMentioned (meritName (fill (mentionText nick) ps)) g) = some o.marks :=
    marks_of_orderOf h.text ho
  obtain ⟨a, i, ha, hname⟩ := name_of_whenHas hmarks hm
  rw [meritName_writes h ha] at hname
  obtain ⟨k, -, hnick⟩ := Option.map_eq_some_iff.mp hname
  have hlen := mentionText_length nick i
  rw [hnick, hnil] at hlen
  exact absurd hlen (by simp)

theorem order_same (h : Writes ps tags nick g) (h' : Writes ps tags nick' g')
    (hshape : shape g = shape g')
    (hwords : SameCommands (fill (mentionText nick) ps) (fill (mentionText nick') ps))
    {o : Order} (ho : orderOf g = some o) :
    ∃ o', orderOf g' = some o' ∧ SamePeople o o' := by
  obtain ⟨announced, hann, hannfst⟩ := whenHas_same hshape
    (registerName (fill (mentionText nick') ps)) (hwords "register" (by simp))
    (fun a a' i ha ha' => by
      rw [registerName_writes h ha, registerName_writes h' ha', Option.isSome_map,
        Option.isSome_map])
    (announced_of_orderOf h.text ho)
  obtain ⟨marks, hmarks, hmarksfst⟩ := whenHas_same hshape
    (meritName (fill (mentionText nick') ps)) (hwords "merit" (by simp))
    (fun a a' i ha ha' => by
      rw [meritName_writes h ha, meritName_writes h' ha', Option.isSome_map, Option.isSome_map])
    (marks_of_orderOf h.text ho)
  have ho' := orderOf_eq h'.text hann hmarks
  refine ⟨_, ho', ?_, ?_, hmarksfst.symm⟩
  · rw [diff_of_orderOf h.text ho]
    exact diffOf_same hwords
  · rw [opened_writes h ho, opened_writes h' ho']
    exact hannfst.symm

end Orders

/-- A row, less its name. -/
def Phikeia.standing (r : Phikeia) : Nat × Int64 × Int32 := (r.id, r.groupmeId, r.points)

theorem keyed_standing (es : List (Int64 × Utf16)) : ∀ {es' : List (Int64 × Utf16)} (k : Nat),
    es.map Prod.fst = es'.map Prod.fst →
      (Table.keyed k (es.map newPhikeia)).map Phikeia.standing
        = (Table.keyed k (es'.map newPhikeia)).map Phikeia.standing := by
  induction es with
  | nil =>
      intro es' k h
      rw [List.map_eq_nil_iff.mp h.symm]
  | cons e es ih =>
      intro es' k h
      rcases es' with _ | ⟨e', es'⟩
      · cases h
      · obtain ⟨hhead, htail⟩ := List.cons.inj h
        have hrow : (newPhikeia e : Phikeia).groupmeId = (newPhikeia e').groupmeId := hhead
        simp only [List.map_cons, Table.keyed]
        rw [ih (k + 1) htail]
        refine congrArg (· :: _) ?_
        show (k, (newPhikeia e).groupmeId, (0 : Int32)) = (k, (newPhikeia e').groupmeId, 0)
        rw [hrow]

theorem standing_markAll (diff : Int) (ms : List (Int64 × Utf16)) (r : Phikeia) :
    (r.markAll diff ms).standing = (r.id, r.groupmeId,
      r.points + Int32.ofInt (diff * (ms.map Prod.fst).count r.groupmeId)) := by
  unfold Phikeia.standing
  rw [Phikeia.markAll_id, Phikeia.markAll_groupmeId, Phikeia.markAll_points]
  rfl

theorem committed_standing {t t₁ t₂ : Table Phikeia} {g g' : GroupmeBindingModel}
    {o o' : Order} {log log' : List Effect} (h : Committed t g o t₁ log)
    (h' : Committed t g' o' t₂ log') (hsame : SamePeople o o') :
    t₁.rows.map Phikeia.standing = t₂.rows.map Phikeia.standing := by
  rw [h.rows, h'.rows, List.map_append, List.map_append, keyed_standing _ _ hsame.opened,
    List.map_map, List.map_map]
  refine congrArg (· ++ _) (List.map_congr_left fun r _ => ?_)
  show (r.markAll o.diff o.marks).standing = (r.markAll o'.diff o'.marks).standing
  rw [standing_markAll, standing_markAll, hsame.diff, hsame.marks]

theorem listed_of_saved {t : Table Phikeia} {g : GroupmeBindingModel} {fs : List Fault}
    {text : Utf16} (htext : g.text = some text) (hcmd : Commands text)
    (hs : Effect.saved ∈ (handle t ⟨some g, fs⟩).2.log) : Listed g := by
  by_contra hunlisted
  have hraise : msg (some g) = .raise .nullReference := by
    rw [msg_text htext, branches_unlisted hcmd hunlisted]
    rfl
  have hlog : (handle t ⟨some g, fs⟩).2.log = [] := by
    unfold handle
    rw [hraise]
    rfl
  rw [hlog] at hs
  cases hs

section Runs

variable {ps : List Piece} {tags : List Nat} {nick nick' : Nat → Utf16}
  {g g' : GroupmeBindingModel}

/-- If one of them is committed, so is the other, when no call fails. -/
theorem saved_same (h : Writes ps tags nick g) (h' : Writes ps tags nick' g')
    (hshape : shape g = shape g')
    (hwords : SameCommands (fill (mentionText nick) ps) (fill (mentionText nick') ps))
    {t : Table Phikeia} {fs : List Fault} (hs : Effect.saved ∈ (handle t ⟨some g, fs⟩).2.log) :
    Effect.saved ∈ (handle t ⟨some g', []⟩).2.log := by
  obtain ⟨o, hc⟩ := committed_of_saved hs
  obtain ⟨o', ho', -⟩ := order_same h h' hshape hwords hc.order
  have hlisted : Commands (fill (mentionText nick') ps) → Listed g' := by
    intro hcmd
    have hcmd₀ : Commands (fill (mentionText nick) ps) := by
      unfold Commands at hcmd ⊢
      rw [hwords "register" (by simp), hwords "merit" (by simp)]
      exact hcmd
    have hg := (listed_iff g).mp (listed_of_saved h.text hcmd₀ hs)
    rw [hshape] at hg
    exact (listed_iff g').mpr hg
  have hclear : Clear g' _ o' := ⟨h'.text, ho', hlisted, marks_writes h' ho'⟩
  obtain ⟨w, hw, hsaved⟩ := run_msg_clear hclear t
  have hhandle : (handle t ⟨some g', []⟩) = w := congrArg Prod.snd hw
  rw [hhandle]
  exact hsaved

theorem standing_of_saved (h : Writes ps tags nick g) (h' : Writes ps tags nick' g')
    (hshape : shape g = shape g')
    (hwords : SameCommands (fill (mentionText nick) ps) (fill (mentionText nick') ps))
    {t : Table Phikeia} {fs fs' : List Fault}
    (hs : Effect.saved ∈ (handle t ⟨some g, fs⟩).2.log)
    (hs' : Effect.saved ∈ (handle t ⟨some g', fs'⟩).2.log) :
    (handle t ⟨some g, fs⟩).1.rows.map Phikeia.standing
      = (handle t ⟨some g', fs'⟩).1.rows.map Phikeia.standing := by
  obtain ⟨o, hc⟩ := committed_of_saved hs
  obtain ⟨o', hc'⟩ := committed_of_saved hs'
  obtain ⟨o'', ho'', hsame⟩ := order_same h h' hshape hwords hc.order
  obtain rfl : o'' = o' := Option.some.inj (ho''.symm.trans hc'.order)
  exact committed_standing hc hc' hsame

end Runs

/-- **Words, not nicknames.** Two messages with the same typed words, and the same commands
in their texts, register the same ids and move the same rows' points alike, whenever both
are committed; and where nothing fails, in any case. -/
theorem msg_nicknames (t : Table Phikeia) (g g' : GroupmeBindingModel) (ps : List Piece)
    (tags : List Nat) (nick nick' : Nat → Utf16) (h : Writes ps tags nick g)
    (h' : Writes ps tags nick' g') (hshape : shape g = shape g')
    (hwords : SameCommands (fill (mentionText nick) ps) (fill (mentionText nick') ps)) :
    (∀ fs fs', Effect.saved ∈ (handle t ⟨some g, fs⟩).2.log →
      Effect.saved ∈ (handle t ⟨some g', fs'⟩).2.log →
        (handle t ⟨some g, fs⟩).1.rows.map Phikeia.standing
          = (handle t ⟨some g', fs'⟩).1.rows.map Phikeia.standing)
    ∧ (handle t ⟨some g, []⟩).1.rows.map Phikeia.standing
        = (handle t ⟨some g', []⟩).1.rows.map Phikeia.standing := by
  refine ⟨fun fs fs' hs hs' => standing_of_saved h h' hshape hwords hs hs', ?_⟩
  have hwords' : SameCommands (fill (mentionText nick') ps) (fill (mentionText nick) ps) :=
    fun word hword => (hwords word hword).symm
  by_cases hs : Effect.saved ∈ (handle t ⟨some g, []⟩).2.log
  · exact standing_of_saved h h' hshape hwords hs (saved_same h h' hshape hwords hs)
  · have hs' : Effect.saved ∉ (handle t ⟨some g', []⟩).2.log :=
      fun hsaved => hs (saved_same h' h hshape.symm hwords' hsaved)
    rw [unchanged_of_unsaved hs, unchanged_of_unsaved hs']

/-- A message that starts by mentioning the id 1. -/
def mentioning (nick words : String) : GroupmeBindingModel :=
  ⟨some [some ⟨some (utf16 "mentions"),
      some [some [0, Int32.ofInt (utf16 "@" ++ utf16 nick).length]], some [1]⟩],
    some (utf16 "@" ++ utf16 nick ++ utf16 words)⟩

theorem writes_mentioning {nick words : String}
    (hshort : (fill (mentionText fun _ => utf16 nick) [.hole 0, .typed (utf16 words)]).length
      < 2 ^ 31) (hadmitted : (utf16 nick).contains (utf16 "abriel") = false) :
    Writes [.hole 0, .typed (utf16 words)] [0] (fun _ => utf16 nick) (mentioning nick words) where
  text := by
    simp [mentioning, fill, Piece.text, mentionText]
  short := hshort
  holes := by
    intro i k hik
    rcases i with _ | i
    · cases hik
      rfl
    · cases hik
  loci := by
    intro a ha
    have hlast : lastMentions (mentioning nick words) = some ⟨some (utf16 "mentions"),
        some [some [0, Int32.ofInt (utf16 "@" ++ utf16 nick).length]], some [1]⟩ := rfl
    rw [hlast] at ha
    cases ha
    rfl
  admitted := fun _ => hadmitted

theorem msg_nicknames_merit :
    (handle tableA ⟨some (mentioning "A" " merit"), []⟩).1.rows.map Phikeia.standing
      = (handle tableA ⟨some (mentioning "Zoe" " merit"), []⟩).1.rows.map Phikeia.standing :=
  (msg_nicknames tableA (mentioning "A" " merit") (mentioning "Zoe" " merit") _ _ _ _
    (writes_mentioning (by decide) (by decide)) (writes_mentioning (by decide) (by decide)) rfl
    (by decide +kernel)).2

/-- Somebody whose nickname is a command. -/
theorem msg_reads_nicknames :
    ¬ ∀ (t : Table Phikeia) (g g' : GroupmeBindingModel) (ps : List Piece) (tags : List Nat)
      (nick nick' : Nat → Utf16), Writes ps tags nick g → Writes ps tags nick' g' →
        shape g = shape g' → (handle t ⟨some g, []⟩).1.rows.map Phikeia.standing
          = (handle t ⟨some g', []⟩).1.rows.map Phikeia.standing := by
  intro h
  have hsame := h tableA (mentioning "A" " is here") (mentioning "merit" " is here") _ _ _ _
    (writes_mentioning (by decide) (by decide)) (writes_mentioning (by decide) (by decide)) rfl
  exact absurd hsame (by decide +kernel)

end TacPac.Groupme
