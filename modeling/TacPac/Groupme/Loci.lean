import TacPac.Groupme.Returns

/-!
# One mention, cut out in two ways

The register branch cuts a name out of the text without its `@`, by
`Substring(s + 1, n - 1)`; the merit branch by `Substring(s, n)` and then `Substring(1)`.
They agree, on when they raise and on the name, except that the former also takes the locus
that starts just before the text (`cut_alike_iff`).
-/

namespace TacPac.Groupme

open TacPac.Lib

/-- The locus is in the text, and is not empty. -/
structure Spans (text : Utf16) (s n : Int32) : Prop where
  start : 0 ≤ s.toInt
  length : 1 ≤ n.toInt
  stop : s.toInt + n.toInt ≤ text.length

section Substring

variable {text name : Utf16} {s n : Int32}

theorem substring_isSome {startIndex length : Int} : (text.substring startIndex length).isSome
    ↔ 0 ≤ startIndex ∧ 0 ≤ length ∧ startIndex + length ≤ text.length := by
  unfold Utf16.substring
  split
  · next h =>
    refine iff_of_false Bool.false_ne_true ?_
    omega
  · next h =>
    refine iff_of_true rfl ?_
    omega

theorem substring_eq_some {startIndex length : Int}
    (h : text.substring startIndex length = some name) :
    name = (text.drop startIndex.toNat).take length.toNat := by
  unfold Utf16.substring at h
  split at h
  · cases h
  · exact (Option.some.inj h).symm

theorem toInt_add_one (s : Int32) :
    (s + 1).toInt = s.toInt + 1 ∨ s.toInt = 2 ^ 31 - 1 ∧ (s + 1).toInt = -2 ^ 31 := by
  have hge : -2 ^ 31 ≤ s.toInt := s.le_toInt
  have hlt : s.toInt < 2 ^ 31 := s.toInt_lt
  have hone : (1 : Int32).toInt = 1 := rfl
  rw [Int32.toInt_add, hone]
  by_cases hmax : s.toInt = 2 ^ 31 - 1
  · rw [hmax]
    exact Or.inr ⟨rfl, rfl⟩
  · exact Or.inl (Int.bmod_eq_of_le (by omega) (by omega))

theorem toInt_sub_one (n : Int32) :
    (n - 1).toInt = n.toInt - 1 ∨ n.toInt = -2 ^ 31 ∧ (n - 1).toInt = 2 ^ 31 - 1 := by
  have hge : -2 ^ 31 ≤ n.toInt := n.le_toInt
  have hlt : n.toInt < 2 ^ 31 := n.toInt_lt
  have hone : (1 : Int32).toInt = 1 := rfl
  rw [Int32.toInt_sub, hone]
  by_cases hmin : n.toInt = -2 ^ 31
  · rw [hmin]
    exact Or.inr ⟨rfl, rfl⟩
  · exact Or.inl (Int.bmod_eq_of_le (by omega) (by omega))

/-- A locus that only the register branch takes: just before the text, and no longer. -/
def Before (text : Utf16) (s n : Int32) : Prop :=
  s = -1 ∧ 0 ≤ (n - 1).toInt ∧ (n - 1).toInt ≤ text.length

theorem register_cut (hlen : text.length < 2 ^ 31) :
    (text.substring (s + 1).toInt (n - 1).toInt).isSome ↔ Spans text s n ∨ Before text s n := by
  have hminus : s = -1 ↔ s.toInt = -1 := Int32.toInt_inj.symm
  unfold Before
  rw [substring_isSome, hminus]
  constructor
  · rintro ⟨hstart, hlength, hstop⟩
    rcases toInt_add_one s with hs | ⟨-, hs⟩
    · rcases toInt_sub_one n with hn | ⟨-, hn⟩
      · by_cases hbefore : s.toInt = -1
        · exact Or.inr ⟨hbefore, hlength, by omega⟩
        · exact Or.inl ⟨by omega, by omega, by omega⟩
      · exact Or.inr ⟨by omega, hlength, by omega⟩
    · omega
  · rintro (⟨hstart, hlength, hstop⟩ | ⟨hbefore, hlength, hstop⟩)
    · rcases toInt_add_one s with hs | ⟨hmax, -⟩
      · rcases toInt_sub_one n with hn | ⟨hmin, -⟩
        · exact ⟨by omega, by omega, by omega⟩
        · omega
      · omega
    · rcases toInt_add_one s with hs | ⟨hmax, -⟩
      · exact ⟨by omega, hlength, by omega⟩
      · omega

/-- An empty locus, and no other, has an empty name. -/
theorem cut_empty (h : text.substring s.toInt n.toInt = some name) : name = [] ↔ n = 0 := by
  obtain ⟨hstart, hlength, hstop⟩ := substring_isSome.mp (Option.isSome_of_eq_some h)
  have hcut := congrArg List.length (substring_eq_some h)
  rw [List.length_take, List.length_drop] at hcut
  have hzero : n = 0 ↔ n.toInt = 0 := Int32.toInt_inj.symm
  rw [hzero, ← List.length_eq_zero_iff]
  omega

theorem merit_cut : (∃ name, text.substring s.toInt n.toInt = some name ∧ name ≠ [])
    ↔ Spans text s n := by
  have hzero : n = 0 ↔ n.toInt = 0 := Int32.toInt_inj.symm
  constructor
  · rintro ⟨name, hname, hne⟩
    obtain ⟨hstart, hlength, hstop⟩ := substring_isSome.mp (Option.isSome_of_eq_some hname)
    have hn : n.toInt ≠ 0 := fun h => hne ((cut_empty hname).mpr (hzero.mpr h))
    exact ⟨hstart, by omega, hstop⟩
  · rintro ⟨hstart, hlength, hstop⟩
    obtain ⟨name, hname⟩ := Option.isSome_iff_exists.mp
      (substring_isSome.mpr ⟨hstart, (by omega : (0 : Int) ≤ n.toInt), hstop⟩)
    refine ⟨name, hname, fun hnil => ?_⟩
    have hn : n.toInt = 0 := hzero.mp ((cut_empty hname).mp hnil)
    omega

/-- The name without its `@`, either way. -/
theorem cut_eq {whole : Utf16} (h : Spans text s n) (hlen : text.length < 2 ^ 31)
    (hname : text.substring (s + 1).toInt (n - 1).toInt = some name)
    (hwhole : text.substring s.toInt n.toInt = some whole) : name = whole.drop 1 := by
  have hstart := h.start
  have hlength := h.length
  have hstop := h.stop
  have hs : (s + 1).toInt.toNat = s.toInt.toNat + 1 := by
    rcases toInt_add_one s with hs | ⟨hmax, -⟩
    · omega
    · omega
  have hn : (n - 1).toInt.toNat = n.toInt.toNat - 1 := by
    rcases toInt_sub_one n with hn | ⟨hmin, -⟩
    · omega
    · omega
  rw [substring_eq_some hname, substring_eq_some hwhole, hs, hn, List.drop_take, List.drop_drop]

end Substring

/-! ## The two branches -/

/-- The attachment of a mention of `u` at the locus `[s, n]`. -/
def mentionsAt (u : Int64) (s n : Int32) : AttachmentBindingModel :=
  ⟨some (utf16 "mentions"), some [some [s, n]], some [u]⟩

/-- A message that mentions `u` at this place. -/
def mentionAt (text : Utf16) (u : Int64) (s n : Int32) : GroupmeBindingModel :=
  ⟨some [some (mentionsAt u s n)], some text⟩

/-- The two branches agree on a mention. -/
structure CutAlike (t : Table Phikeia) (text : Utf16) (u : Int64) (s n : Int32) : Prop where
  /-- They complete for the same loci. -/
  registers : (register text (mentionAt text u s n)).Returns exec (t, Session.start [])
    ↔ Spans text s n
  merits : (merit text (mentionAt text u s n)).Returns exec (t, Session.start [])
    ↔ Spans text s n
  /-- Then the name of the new row, if it is not barred, is the one that `u` goes by after
  the merit. -/
  names : ∀ w w', (register text (mentionAt text u s n)).run exec (t, Session.start [])
      = (.ok (), w) →
    (merit text (mentionAt text u s n)).run exec (t, Session.start []) = (.ok (), w') →
      ∃ name, w.2.ctx = addNew Context.new [(u, name)]
        ∧ ∀ phi ∈ w'.2.ctx.view t, phi.groupmeId = u → phi.name = name

section CutAlike

variable {t : Table Phikeia} {text : Utf16} {u : Int64} {s n : Int32}

theorem listed_mentionAt : Listed (mentionAt text u s n) := ⟨_, rfl, by simp⟩

theorem lastMentions_mentionAt :
    lastMentions (mentionAt text u s n) = some (mentionsAt u s n) := rfl

theorem mentions_mentionsAt (name : Nat → Option Utf16) : mentions name (mentionsAt u s n)
    = (name 0).map fun name => [(u, name)] := by
  show ((name 0).map (Prod.mk u)).bind (fun e => some [e]) = _
  cases name 0 with
  | none => rfl
  | some name => rfl

theorem register_mentionAt : lastMentioned (registerName text) (mentionAt text u s n)
    = (text.substring (s + 1).toInt (n - 1).toInt).map fun name => [(u, name)] :=
  mentions_mentionsAt _

theorem merit_mentionAt : lastMentioned (meritName text) (mentionAt text u s n)
    = (text.substring s.toInt n.toInt).map fun name => [(u, name)] :=
  mentions_mentionsAt _

theorem crediting_start (t : Table Phikeia) : Crediting t (t, Session.start []) :=
  ⟨rfl, rfl, by simp [Session.start], Context.wellKeyed_new, by
    show ((Context.new : Context Phikeia).view t).map _ = _
    rw [Context.view_new]⟩

theorem returns_register_mentionAt (hlen : text.length < 2 ^ 31) :
    (register text (mentionAt text u s n)).Returns exec (t, Session.start [])
      ↔ Spans text s n ∨ Before text s n := by
  refine (returns_register (by simp)).trans ((and_iff_right listed_mentionAt).trans ?_)
  rw [register_mentionAt, Option.isSome_map, register_cut hlen]

theorem returns_merit_mentionAt (hu : ¬ Unknown t u) :
    (merit text (mentionAt text u s n)).Returns exec (t, Session.start [])
      ↔ Spans text s n := by
  refine (returns_merit (crediting_start t)).trans ((and_iff_right listed_mentionAt).trans ?_)
  rw [merit_mentionAt, ← merit_cut]
  simp only [Option.map_eq_some_iff]
  constructor
  · rintro ⟨_, ⟨name, hname, rfl⟩, hunknown⟩
    exact ⟨name, hname, fun hnil => hu (hunknown (u, name) List.mem_cons_self hnil)⟩
  · rintro ⟨name, hname, hne⟩
    refine ⟨_, ⟨name, hname, rfl⟩, fun m hm hnil => ?_⟩
    obtain rfl := List.mem_singleton.mp hm
    exact absurd hnil hne

theorem register_name {w : World}
    (h : (register text (mentionAt text u s n)).run exec (t, Session.start []) = (.ok (), w)) :
    ∃ name, text.substring (s + 1).toInt (n - 1).toInt = some name
      ∧ w.2.ctx = addNew Context.new [(u, name)] := by
  have hmeets : Meets Eq (fun _ _ => True) (fun t' => t' = t)
      (register text (mentionAt text u s n)) (fun _ c _ => ∃ name,
        text.substring (s + 1).toInt (n - 1).toInt = some name
          ∧ c = addNew Context.new [(u, name)]) Context.new [] := by
    refine meets_register (ambient_alone t) (by simp) fun es hes => ?_
    rw [register_mentionAt] at hes
    obtain ⟨name, hname, rfl⟩ := Option.map_eq_some_iff.mp hes
    exact ⟨name, hname, rfl⟩
  exact (run_of_meets hmeets h).2

theorem merit_name {w : World}
    (h : (merit text (mentionAt text u s n)).run exec (t, Session.start []) = (.ok (), w)) :
    ∃ whole, text.substring s.toInt n.toInt = some whole
      ∧ ∀ phi ∈ w.2.ctx.view t, phi.groupmeId = u → phi.name = whole.drop 1 := by
  have hmeets : Meets Eq (fun _ _ => True) (fun t' => t' = t)
      (merit text (mentionAt text u s n)) (fun _ c _ => ∃ whole,
        text.substring s.toInt n.toInt = some whole
          ∧ c.view t = t.rows.map (Phikeia.markAll (meritDiff text) [(u, whole)]))
      Context.new [] := by
    rw [merit_eq]
    refine meets_bind (meets_findMentions (by simp) ?_)
    rw [lastMentions_mentionAt]
    refine meets_bind (meets_meritAll (ambient_alone t) (fun ms _ c => c.WellKeyed
      ∧ c.view t = t.rows.map (Phikeia.markAll (meritDiff text) ms)) (by simp) ?_ ?_ ?_)
    · refine ⟨Context.wellKeyed_new, ?_⟩
      rw [Context.view_new]
      exact (List.map_id' t.rows).symm
    · rintro ms m msg c t' ⟨hkeyed, hview⟩ rfl
      refine ⟨Context.wellKeyed_setAll _ (Context.wellKeyed_load hkeyed _), ?_⟩
      rw [credited_view hkeyed, hview, List.map_map]
      exact List.map_congr_left fun r _ => (Phikeia.markAll_snoc _ ms m r).symm
    · rintro ms msg c' hms ⟨-, hview⟩
      rw [mentions_mentionsAt] at hms
      obtain ⟨whole, hwhole, rfl⟩ := Option.map_eq_some_iff.mp hms
      exact meets_sendMsg (ambient_alone t) (by simp) ⟨whole, hwhole, hview⟩
  obtain ⟨-, whole, hwhole, hview⟩ := run_of_meets hmeets h
  refine ⟨whole, hwhole, fun phi hphi hu => ?_⟩
  rw [hview] at hphi
  obtain ⟨r, -, rfl⟩ := List.mem_map.mp hphi
  have hr : r.groupmeId = u := (Phikeia.markAll_groupmeId _ _ r).symm.trans hu
  show (r.mark (meritDiff text) (u, whole)).name = _
  rw [Phikeia.mark, if_pos hr]

theorem not_cutAlike_before (hlen : text.length < 2 ^ 31) (h : Before text s n) :
    ¬ CutAlike t text u s n := by
  intro halike
  have hspans := halike.registers.mp ((returns_register_mentionAt hlen).mpr (Or.inr h))
  have hstart := hspans.start
  rw [h.1] at hstart
  exact absurd hstart (by decide)

end CutAlike

/-- **One mention, cut out in two ways**: alike, for every text and locus but those that
start just before the text. -/
theorem cut_alike_iff (t : Table Phikeia) (text : Utf16) (u : Int64) (s n : Int32)
    (hlen : text.length < 2 ^ 31) (hu : ∃ r ∈ t.rows, r.groupmeId = u) :
    CutAlike t text u s n
      ↔ ¬ (s = -1 ∧ 0 ≤ (n - 1).toInt ∧ (n - 1).toInt ≤ text.length) := by
  have hknown : ¬ Unknown t u := by
    obtain ⟨r, hr, hru⟩ := hu
    exact fun h => h r hr hru
  constructor
  · exact fun halike hbefore => not_cutAlike_before hlen hbefore halike
  · intro hbefore
    refine ⟨?_, returns_merit_mentionAt hknown, fun w w' hregister hmerit => ?_⟩
    · exact (returns_register_mentionAt hlen).trans (or_iff_left hbefore)
    · obtain ⟨name, hname, hctx⟩ := register_name hregister
      obtain ⟨whole, hwhole, hmarked⟩ := merit_name hmerit
      have hspans := (returns_merit_mentionAt hknown).mp ⟨(), w', hmerit⟩
      exact ⟨name, hctx, fun phi hphi hphiu => by
        rw [hmarked phi hphi hphiu, cut_eq hspans hlen hname hwhole]⟩

theorem cut_alike_A : CutAlike tableA (utf16 "@A is here") 1 0 2 :=
  (cut_alike_iff tableA (utf16 "@A is here") 1 0 2 (by decide) (by decide +kernel)).mpr
    fun h => absurd h.1 (by decide)

/-- The locus just before the text: `@A` is registered, and cannot be given a point. -/
theorem cut_not_alike :
    ¬ ∀ (t : Table Phikeia) (text : Utf16) (u : Int64) (s n : Int32), text.length < 2 ^ 31 →
      (∃ r ∈ t.rows, r.groupmeId = u) → CutAlike t text u s n := by
  intro h
  have hlen : (utf16 "@A is here").length < 2 ^ 31 := by decide
  have hbefore : Before (utf16 "@A is here") (-1) 3 := ⟨rfl, by decide, by decide⟩
  exact not_cutAlike_before hlen hbefore
    (h tableA (utf16 "@A is here") 1 (-1) 3 hlen (by decide +kernel))

end TacPac.Groupme
