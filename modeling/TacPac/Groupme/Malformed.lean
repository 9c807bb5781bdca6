import TacPac.Groupme.Loci

/-!
# Malformed messages

Every field of a callback is optional, and the handler checks one thing only: whether there
is a mentions attachment. A message without a text, or with a command and nothing to read
it from, ends in an exception of the handler's own; and what the handler does not read of a
malformed attachment does not stop it, so such a message can still be committed
(`msg_withstands_iff`).
-/

namespace TacPac.Groupme

open TacPac.Lib

/-- `Substring(startIndex, length)` of the text does not raise. -/
def Within (text : Utf16) (startIndex length : Int) : Prop :=
  0 ≤ startIndex ∧ 0 ≤ length ∧ startIndex + length ≤ text.length

/-- A locus in the text. -/
def InText (text : Utf16) (l : Option (List Int32)) : Prop :=
  ∃ s n rest, l = some (s :: n :: rest) ∧ Within text s.toInt n.toInt

/-- A mentions attachment with as many loci as ids, all of them in the text. -/
def WellFormed (text : Utf16) (a : AttachmentBindingModel) : Prop :=
  ∃ ids loci, a.userIds = some ids ∧ a.loci = some loci ∧ ids.length = loci.length
    ∧ ∀ l ∈ loci, InText text l

/-- Some mentions attachment of the message, the last one or not, is malformed. -/
def Malformed (g : GroupmeBindingModel) : Prop :=
  ∃ as a, g.attachments = some as ∧ some a ∈ as ∧ a.type = some (utf16 "mentions")
    ∧ ¬ WellFormed (g.text.getD []) a

/-- What a callback should not be able to do. -/
structure Withstands (t : Table Phikeia) (g : GroupmeBindingModel) : Prop where
  /-- The handler raises no null reference, index or argument exception. -/
  safe : ∀ fs e, ((msg (some g)).run exec (t, Session.start fs)).1 = .error e → ¬ e.Local
  /-- Malformed mentions change no row. -/
  harmless : Malformed g → ∀ fs, (handle t ⟨some g, fs⟩).1.rows = t.rows

/-! ## The loci that are read -/

/-- Every id of the last mentions attachment has a locus, which is as said. There may be
more loci than ids, and a locus may be longer than two. -/
def Placed (g : GroupmeBindingModel) (P : Int64 → Int32 → Int32 → Prop) : Prop :=
  ∀ a, lastMentions g = some a → ∃ userIds, a.userIds = some userIds ∧
    ∀ u i, userIds[i]? = some u →
      ∃ s n, locusOf a i 0 = some s ∧ locusOf a i 1 = some n ∧ P u s n

/-- What the handler reads of the message is there. -/
structure Readable (t : Table Phikeia) (g : GroupmeBindingModel) (text : Utf16) : Prop where
  hasText : g.text = some text
  /-- No command without a list of attachments, none of them null. -/
  listed : Commands text → Listed g
  registers : text.contains (utf16 "register") = true →
    Placed g fun _ s n => Within text (s + 1).toInt (n - 1).toInt
  /-- An empty mention has no `@` to leave out, which matters for those in the table. -/
  marks : text.contains (utf16 "merit") = true →
    Placed g fun u s n => Within text s.toInt n.toInt ∧ (n = 0 → Unknown t u)

/-- The message registers nobody who is not barred, and marks nobody in the table. -/
structure Inert (t : Table Phikeia) (g : GroupmeBindingModel) (text : Utf16) : Prop where
  registers : text.contains (utf16 "register") = true →
    Placed g fun _ s n => ∃ name, text.substring (s + 1).toInt (n - 1).toInt = some name
      ∧ name.contains (utf16 "abriel") = true
  marks : text.contains (utf16 "merit") = true → ∀ u ∈ mentionedIds g, Unknown t u

section Placed

variable {t : Table Phikeia} {g : GroupmeBindingModel} {text : Utf16}

theorem Placed.congr {P Q : Int64 → Int32 → Int32 → Prop} (h : ∀ u s n, P u s n ↔ Q u s n) :
    Placed g P ↔ Placed g Q := by
  have hPQ : P = Q := funext fun u => funext fun s => funext fun n => propext (h u s n)
  rw [hPQ]

/-- The names cut out of the text, mention by mention. -/
theorem placed_iff {f : Int32 → Int32 → Option Utf16} {P : Int64 × Utf16 → Prop} :
    (∃ es, lastMentioned (fun a i => (locusOf a i 0).bind fun s => (locusOf a i 1).bind fun n =>
        f s n) g = some es ∧ ∀ e ∈ es, P e)
      ↔ Placed g fun u s n => ∃ name, f s n = some name ∧ P (u, name) := by
  unfold lastMentioned Placed
  cases lastMentions g with
  | none => exact iff_of_true ⟨[], rfl, by simp⟩ fun a h => by cases h
  | some a =>
      simp only [Option.some.injEq, forall_eq', mentions, Option.bind_eq_some_iff]
      constructor
      · rintro ⟨es, ⟨userIds, hids, hes⟩, hP⟩
        refine ⟨userIds, hids, fun u i hu => ?_⟩
        obtain ⟨e, he, hPe⟩ := exists_mapM_iff.mp ⟨es, hes, hP⟩ (u, i)
          (List.mk_mem_zipIdx_iff_getElem?.mpr hu)
        obtain ⟨name, hname, rfl⟩ := Option.map_eq_some_iff.mp he
        obtain ⟨s, hs, hrest⟩ := Option.bind_eq_some_iff.mp hname
        obtain ⟨n, hn, hcut⟩ := Option.bind_eq_some_iff.mp hrest
        exact ⟨s, n, hs, hn, name, hcut, hPe⟩
      · rintro ⟨userIds, hids, h⟩
        have hall : ∀ x ∈ userIds.zipIdx, ∃ e, named (fun i => (locusOf a i 0).bind fun s =>
            (locusOf a i 1).bind fun n => f s n) x = some e ∧ P e := by
          rintro ⟨u, i⟩ hx
          obtain ⟨s, n, hs, hn, name, hcut, hPe⟩ :=
            h u i (List.mk_mem_zipIdx_iff_getElem?.mp hx)
          refine ⟨(u, name), ?_, hPe⟩
          show ((locusOf a i 0).bind fun s => (locusOf a i 1).bind fun n => f s n).map _ = _
          rw [hs, Option.bind_some, hn, Option.bind_some, hcut]
          rfl
        obtain ⟨es, hes, hP⟩ := exists_mapM_iff.mpr hall
        exact ⟨es, ⟨userIds, hids, hes⟩, hP⟩

theorem registers_iff : (lastMentioned (registerName text) g).isSome
    ↔ Placed g fun _ s n => Within text (s + 1).toInt (n - 1).toInt := by
  have hnames := placed_iff (g := g) (P := fun _ => True)
    (f := fun s n => text.substring (s + 1).toInt (n - 1).toInt)
  rw [Option.isSome_iff_exists]
  refine Iff.trans ?_ (hnames.trans (Placed.congr fun u s n => ?_))
  · exact exists_congr fun es => (and_iff_left fun _ _ => trivial).symm
  · refine Iff.trans ?_ substring_isSome
    rw [Option.isSome_iff_exists]
    exact exists_congr fun name => and_iff_left trivial

theorem marks_iff : (∃ ms, lastMentioned (meritName text) g = some ms
      ∧ ∀ m ∈ ms, m.2 = [] → Unknown t m.1)
    ↔ Placed g fun u s n => Within text s.toInt n.toInt ∧ (n = 0 → Unknown t u) := by
  refine Iff.trans (placed_iff (P := fun m => m.2 = [] → Unknown t m.1)
    (f := fun s n => text.substring s.toInt n.toInt)) (Placed.congr fun u s n => ?_)
  constructor
  · rintro ⟨name, hname, hu⟩
    exact ⟨substring_isSome.mp (Option.isSome_of_eq_some hname),
      fun hn => hu ((cut_empty hname).mpr hn)⟩
  · rintro ⟨hwithin, hu⟩
    obtain ⟨name, hname⟩ := Option.isSome_iff_exists.mp (substring_isSome.mpr hwithin)
    exact ⟨name, hname, fun hnil => hu ((cut_empty hname).mp hnil)⟩

theorem fit_iff : Fit t g text ↔ Readable t g text :=
  ⟨fun h => ⟨h.hasText, h.listed, fun hr => registers_iff.mp (h.registers hr),
      fun hm => marks_iff.mp (h.marks hm)⟩,
    fun h => ⟨h.hasText, h.listed, fun hr => registers_iff.mpr (h.registers hr),
      fun hm => marks_iff.mpr (h.marks hm)⟩⟩

/-- Everybody who would be registered is barred. -/
theorem registered_nil (h : Fit t g text) : registered g = []
    ↔ (text.contains (utf16 "register") = true →
      Placed g fun _ s n => ∃ name, text.substring (s + 1).toInt (n - 1).toInt = some name
        ∧ name.contains (utf16 "abriel") = true) := by
  unfold registered
  rw [h.hasText]
  by_cases hr : text.contains (utf16 "register") = true
  · obtain ⟨es, hes⟩ := Option.isSome_iff_exists.mp (h.registers hr)
    refine Iff.trans ?_ (forall_prop_of_true hr).symm
    refine Iff.trans ?_ (placed_iff (P := fun e => barred e = true)
      (f := fun s n => text.substring (s + 1).toInt (n - 1).toInt))
    show (if text.contains (utf16 "register") then
      ((lastMentioned (registerName text) g).getD []).filter (fun e => !barred e) else []) = [] ↔ _
    rw [if_pos hr, hes, Option.getD_some, List.filter_eq_nil_iff]
    constructor
    · intro hbarred
      exact ⟨es, hes, fun e he => by simpa using hbarred e he⟩
    · rintro ⟨es', hes', hbarred⟩ e he
      obtain rfl := Option.some.inj (hes.symm.trans hes')
      simp [hbarred e he]
  · exact iff_of_true (if_neg hr) fun h => absurd h hr

end Placed

/-! ## Orders that change nothing -/

section Unchanged

variable {t t' : Table Phikeia} {g : GroupmeBindingModel} {text : Utf16} {o : Order}

theorem markAll_of_not_marked {diff : Int} {r : Phikeia} (ms : List (Int64 × Utf16)) :
    (∀ m ∈ ms, r.groupmeId ≠ m.1) → r.markAll diff ms = r := by
  induction ms with
  | nil => exact fun _ => rfl
  | cons m ms ih =>
      intro h
      obtain ⟨hm, hms⟩ := List.forall_mem_cons.mp h
      show (r.mark diff m).markAll diff ms = r
      rw [Phikeia.mark, if_neg hm]
      exact ih hms

/-- Whom a merit is for. -/
theorem marks_known (htext : g.text = some text) (ho : orderOf g = some o) :
    (∀ m ∈ o.marks, Unknown t m.1)
      ↔ (text.contains (utf16 "merit") = true → ∀ u ∈ mentionedIds g, Unknown t u) := by
  have hmarks := marks_of_orderOf htext ho
  by_cases hm : text.contains (utf16 "merit") = true
  · rw [if_pos hm] at hmarks
    rw [← lastMentioned_fst hmarks, List.forall_mem_map]
    exact ⟨fun h _ => h, fun h => h hm⟩
  · rw [if_neg hm] at hmarks
    rw [← Option.some.inj hmarks]
    exact iff_of_true (by simp) fun h => absurd h hm

theorem ofInt_ne_zero {d : Int} (hd : d = 1 ∨ d = -1) {k : Nat} (hpos : 0 < k)
    (hlt : k < 2 ^ 31) : Int32.ofInt (d * k) ≠ 0 := by
  intro h
  have hzero : (Int32.ofInt (d * k)).toInt = 0 := congrArg Int32.toInt h
  rcases hd with rfl | rfl
  · rw [Int32.toInt_ofInt_of_le (by omega) (by omega)] at hzero
    omega
  · rw [Int32.toInt_ofInt_of_le (by omega) (by omega)] at hzero
    omega

theorem diffOf_of_merit (h : text.contains (utf16 "merit") = true) :
    diffOf text = 1 ∨ diffOf text = -1 := by
  unfold diffOf
  rw [if_pos h]
  split
  · exact Or.inr rfl
  · exact Or.inl rfl

/-- Some points are moved for everybody marked. -/
theorem marked_points (htext : g.text = some text) (ho : orderOf g = some o)
    (hlen : (mentionedIds g).length < 2 ^ 31) {r : Phikeia}
    (h : r.markAll o.diff o.marks = r) : ∀ m ∈ o.marks, r.groupmeId ≠ m.1 := by
  intro m hmem hid
  have hmarks := marks_of_orderOf htext ho
  by_cases hm : text.contains (utf16 "merit") = true
  · rw [if_pos hm] at hmarks
    have hfst := lastMentioned_fst hmarks
    have hpos : 0 < occurrences r.groupmeId o.marks :=
      List.count_pos_iff.mpr (List.mem_map.mpr ⟨m, hmem, hid.symm⟩)
    have hle : occurrences r.groupmeId o.marks ≤ (mentionedIds g).length := by
      rw [← hfst]
      exact List.count_le_length
    have hpoints := congrArg Phikeia.points h
    rw [Phikeia.markAll_points, diff_of_orderOf htext ho] at hpoints
    exact ofInt_ne_zero (diffOf_of_merit hm) hpos (by omega) (Int32.add_eq_left.mp hpoints)
  · rw [if_neg hm] at hmarks
    rw [← Option.some.inj hmarks] at hmem
    cases hmem

/-- **When a commit changes no row.** -/
theorem committed_same {log : List Effect} (h : Committed t g o t' log)
    (hlen : (mentionedIds g).length < 2 ^ 31) :
    t'.rows = t.rows ↔ o.opened = [] ∧ ∀ m ∈ o.marks, Unknown t m.1 := by
  obtain ⟨text, -, htext, -⟩ := h.log
  rw [h.rows]
  constructor
  · intro hrows
    have hopened : o.opened = [] := by
      have hlength := congrArg List.length hrows
      rw [List.length_append, List.length_map] at hlength
      cases hopened : o.opened with
      | nil => rfl
      | cons e es =>
          rw [hopened, List.map_cons, Table.keyed, List.length_cons] at hlength
          omega
    rw [hopened] at hrows
    have hmap : t.rows.map (Phikeia.markAll o.diff o.marks) = t.rows :=
      (List.append_nil _).symm.trans hrows
    refine ⟨hopened, fun m hm r hr => ?_⟩
    have hself : r.markAll o.diff o.marks = r :=
      List.map_inj_left.mp (hmap.trans (List.map_id _).symm) r hr
    exact marked_points htext h.order hlen hself m hm
  · rintro ⟨hopened, hunknown⟩
    have hmap : t.rows.map (Phikeia.markAll o.diff o.marks) = t.rows.map id :=
      List.map_congr_left fun r hr => markAll_of_not_marked _ fun m hm => hunknown m hm r hr
    rw [hopened, hmap, List.map_id]
    exact List.append_nil _

end Unchanged

/-- A commit of a message changes no row exactly when nothing comes of it. -/
theorem committed_inert {t t' : Table Phikeia} {g : GroupmeBindingModel} {text : Utf16}
    {o : Order} {log : List Effect} (h : Committed t g o t' log)
    (hlen : (mentionedIds g).length < 2 ^ 31) (hfit : Fit t g text) :
    t'.rows = t.rows ↔ Inert t g text := by
  rw [committed_same h hlen, marks_known hfit.hasText h.order, ← registered_eq h.order,
    registered_nil hfit]
  exact ⟨fun ⟨hr, hm⟩ => ⟨hr, hm⟩, fun hinert => ⟨hinert.registers, hinert.marks⟩⟩

/-- **Malformed messages**: which of all callbacks the handler withstands. -/
theorem msg_withstands_iff (t : Table Phikeia) (g : GroupmeBindingModel)
    (hlen : (mentionedIds g).length < 2 ^ 31) :
    Withstands t g ↔ ∃ text, Readable t g text ∧ (Malformed g → Inert t g text) := by
  constructor
  · rintro ⟨hsafe, hharmless⟩
    have hreturns := not_local_iff.mp hsafe
    obtain ⟨text, hfit⟩ := returns_msg.mp hreturns
    obtain ⟨u, w, hrun⟩ := hreturns
    have hsaved : Effect.saved ∈ (handle t ⟨some g, []⟩).2.log := by
      rw [handle, hrun]
      exact saved_of_run hrun
    obtain ⟨o, hc⟩ := committed_of_saved hsaved
    exact ⟨text, fit_iff.mp hfit, fun hmalformed =>
      (committed_inert hc hlen hfit).mp (hharmless hmalformed [])⟩
  · rintro ⟨text, hreadable, hinert⟩
    have hfit := fit_iff.mpr hreadable
    refine ⟨not_local_iff.mpr (returns_msg.mpr ⟨text, hfit⟩), fun hmalformed fs => ?_⟩
    by_cases hsaved : Effect.saved ∈ (handle t ⟨some g, fs⟩).2.log
    · obtain ⟨o, hc⟩ := committed_of_saved hsaved
      exact (committed_inert hc hlen hfit).mpr (hinert hmalformed)
    · rw [unchanged_of_unsaved hsaved]

theorem msg_withstands_register : Withstands Table.empty registerA := by
  have hfit : Fit Table.empty registerA (utf16 "@A register") :=
    ⟨rfl, fun _ => ⟨_, rfl, by simp⟩, fun _ => by decide +kernel,
      fun hm => absurd hm (by decide +kernel)⟩
  refine (msg_withstands_iff Table.empty registerA (by decide)).mpr
    ⟨utf16 "@A register", fit_iff.mp hfit, ?_⟩
  rintro ⟨as, a, has, ha, -, hbad⟩
  cases has
  cases List.mem_singleton.mp ha
  refine absurd ⟨[1], [some [0, 2]], rfl, rfl, rfl, fun l hl => ?_⟩ hbad
  obtain rfl := List.mem_singleton.mp hl
  exact ⟨0, 2, [], rfl, by decide, by decide, by decide⟩

/-- A picture, and no text. -/
def picture : GroupmeBindingModel := ⟨some [some ⟨some (utf16 "image"), none, none⟩], none⟩

theorem msg_picture :
    ¬ ∀ (t : Table Phikeia) (g : GroupmeBindingModel), (mentionedIds g).length < 2 ^ 31 →
      Withstands t g := by
  intro h
  have hlen : (mentionedIds picture).length < 2 ^ 31 := by decide +kernel
  exact (h Table.empty picture hlen).safe [] .nullReference rfl (Or.inl rfl)

end TacPac.Groupme
