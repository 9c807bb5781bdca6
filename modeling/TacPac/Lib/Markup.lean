import Mathlib.Data.List.Infix

/-!
# Tables in markup

A table that is written cell by cell into markup, with nothing in its cells escaped, and
what a reader makes of that. The reader is a machine on the units of the text, which cuts
it into tags and what stands before them, and a machine on those, which knows rows and
cells and nothing else. It reads the table that was written exactly if every cell is inert:
no tag begins in it, and there is nothing in it to resolve (`read_write_iff`).
-/

namespace TacPac.Lib

/-- What the units of a text mean. -/
structure Markup (α : Type) where
  lt : α
  gt : α
  /-- Whether `lt` and this unit begin a tag. If they do not, the `lt` is text. -/
  opens : α → Bool
  /-- The text that character data stands for. -/
  resolve : List α → List α
  opens_lt : opens lt = false
  /-- A reference is no shorter than what it stands for. -/
  resolve_length : ∀ t, (resolve t).length ≤ t.length

namespace Markup

/-- A tag, by what is between its brackets. -/
structure Tag {α : Type} (M : Markup α) where
  name : List α
  opens : name.head?.any M.opens = true
  closed : M.gt ∉ name

/-- The tags of a table. -/
structure Tags {α : Type} (M : Markup α) where
  row : M.Tag
  rowEnd : M.Tag
  cell : M.Tag
  cellEnd : M.Tag
  tableEnd : M.Tag
  row_ne : tableEnd.name ≠ row.name
  cell_ne : rowEnd.name ≠ cell.name

/-- A tag, and the text before it. -/
structure Piece (α : Type) where
  text : List α
  tag : List α

/-- Where the scanner is. -/
inductive Mode (α : Type) where
  | text (read : List α)
  /-- The last unit was `lt`. -/
  | bracket (read : List α)
  | tag (read name : List α)

/-- Where the reader is. -/
inductive Place (α : Type) where
  | table (rows : List (List (List α)))
  | row (rows : List (List (List α))) (cells : List (List α))
  | cell (rows : List (List (List α))) (cells : List (List α))
  | done (rows : List (List (List α)))

variable {α : Type} (M : Markup α)

/-! ## Inert text -/

/-- No tag begins in the text. -/
def Plain (t : List α) : Prop := ∀ u, M.opens u = true → ¬ [M.lt, u] <:+: t

/-- A text that is read as it is. -/
def Inert (t : List α) : Prop := M.Plain t ∧ M.resolve t = t

section Plain

variable {M}

theorem plain_nil : M.Plain [] := by
  intro u _ h
  cases List.infix_nil.mp h

/-- A unit that is not `lt`, before a text. -/
theorem plain_cons {c : α} {t : List α} (h : c ≠ M.lt) : M.Plain (c :: t) ↔ M.Plain t := by
  refine forall₂_congr fun u _ => not_congr ?_
  rw [List.infix_cons_iff, List.cons_prefix_cons]
  exact or_iff_right fun hp => h hp.1.symm

theorem plain_singleton : M.Plain [M.lt] := by
  intro u _ h
  have hlen := h.length_le
  simp at hlen

/-- An `lt` and a unit that does not open a tag, before a text. -/
theorem plain_lt {c : α} {t : List α} (h : M.opens c = false) :
    M.Plain (M.lt :: c :: t) ↔ M.Plain (c :: t) := by
  refine forall₂_congr fun u hu => not_congr ?_
  rw [List.infix_cons_iff, List.cons_prefix_cons, List.cons_prefix_cons]
  refine or_iff_right ?_
  rintro ⟨-, rfl, -⟩
  rw [h] at hu
  cases hu

theorem not_plain_lt {c : α} {t : List α} (h : M.opens c = true) : ¬ M.Plain (M.lt :: c :: t) :=
  fun hp => hp c h (List.prefix_append [M.lt, c] t).isInfix

theorem Tag.name_eq (tag : M.Tag) : ∃ u us, tag.name = u :: us ∧ M.opens u = true := by
  have hopens := tag.opens
  cases hname : tag.name with
  | nil =>
      rw [hname] at hopens
      cases hopens
  | cons u us =>
      rw [hname] at hopens
      exact ⟨u, us, rfl, hopens⟩

end Plain

/-! ## Places -/

namespace Place

/-- What has been read so far is part of what will have been. -/
def Within (out : List (List (List α))) : Place α → Prop
  | .table rows => rows <+: out
  | .row rows cells | .cell rows cells =>
      ∃ more rest, out = rows ++ (cells ++ more) :: rest
  | .done rows => rows = out

end Place

/-- What was read first is there first. -/
theorem cell_of_within {rows later : List (List (List α))} {cells more : List (List α)}
    {a b : List α}
    (h : Place.Within (rows ++ (cells ++ b :: more) :: later) (.row rows (cells ++ [a]))) :
    a = b := by
  obtain ⟨more', rest, heq⟩ := h
  have hrow := (List.cons.inj (List.append_cancel_left heq)).1
  rw [List.append_assoc] at hrow
  exact (List.cons.inj (List.append_cancel_left hrow)).1.symm

/-! ## Reading -/

variable [DecidableEq α]

/-- One character. -/
def next : Mode α → α → Mode α × Option (Piece α)
  | .text read, u => if u = M.lt then (.bracket read, none) else (.text (read ++ [u]), none)
  | .bracket read, u =>
      if M.opens u then (.tag read [u], none)
      else if u = M.lt then (.bracket (read ++ [M.lt]), none)
      else (.text (read ++ [M.lt, u]), none)
  | .tag read name, u =>
      if u = M.gt then (.text [], some ⟨read, name⟩) else (.tag read (name ++ [u]), none)

/-- The pieces of a text. What follows the last tag is not one. -/
def pieces : Mode α → List α → List (Piece α)
  | _, [] => []
  | mode, u :: us => (M.next mode u).2.toList ++ pieces (M.next mode u).1 us

namespace Tags

variable {M}
variable (T : M.Tags)

/-- One piece, at this place of the table. -/
def enter : Place α → Piece α → Option (Place α)
  | .table rows, p =>
      if p.text ≠ [] then none
      else if p.tag = T.row.name then some (.row rows [])
      else if p.tag = T.tableEnd.name then some (.done rows) else none
  | .row rows cells, p =>
      if p.text ≠ [] then none
      else if p.tag = T.cell.name then some (.cell rows cells)
      else if p.tag = T.rowEnd.name then some (.table (rows ++ [cells])) else none
  | .cell rows cells, p =>
      if p.tag = T.cellEnd.name then some (.row rows (cells ++ [M.resolve p.text])) else none
  | .done _, _ => none

/-- The reader, from `place` on. -/
def follow (place : Place α) (t : List α) : Option (Place α) :=
  (M.pieces (.text []) t).foldlM T.enter place

/-- The rows of a table, and the cells of each. -/
def read (t : List α) : Option (List (List (List α))) :=
  match T.follow (.table []) t with
  | some (.done rows) => some rows
  | _ => none

end Tags

/-! ## Writing -/

/-- A tag, written out. -/
def Tag.write {M : Markup α} (tag : M.Tag) : List α := M.lt :: tag.name ++ [M.gt]

namespace Tags

variable {M}
variable (T : M.Tags)

/-- A cell between its tags. -/
def writeCell (c : List α) : List α := T.cell.write ++ c ++ T.cellEnd.write

/-- A row between its tags. -/
def writeRow (cells : List (List α)) : List α :=
  T.row.write ++ cells.flatMap T.writeCell ++ T.rowEnd.write

/-- A table, up to its end. -/
def write (table : List (List (List α))) : List α :=
  table.flatMap T.writeRow ++ T.tableEnd.write

end Tags

/-! ## What a text is cut into -/

section Pieces

variable {M}

theorem pieces_cons (mode : Mode α) (u : α) (us : List α) :
    M.pieces mode (u :: us) = (M.next mode u).2.toList ++ M.pieces (M.next mode u).1 us := rfl

theorem pieces_text {u : α} (h : u ≠ M.lt) (read us : List α) :
    M.pieces (.text read) (u :: us) = M.pieces (.text (read ++ [u])) us := by
  rw [pieces_cons, next, if_neg h]
  rfl

theorem pieces_lt (read us : List α) :
    M.pieces (.text read) (M.lt :: us) = M.pieces (.bracket read) us := by
  rw [pieces_cons, next, if_pos rfl]
  rfl

theorem pieces_opens {u : α} (h : M.opens u = true) (read us : List α) :
    M.pieces (.bracket read) (u :: us) = M.pieces (.tag read [u]) us := by
  rw [pieces_cons, next, if_pos h]
  rfl

theorem pieces_bracket_lt (read us : List α) :
    M.pieces (.bracket read) (M.lt :: us) = M.pieces (.bracket (read ++ [M.lt])) us := by
  rw [pieces_cons, next, if_neg (by simp [M.opens_lt]), if_pos rfl]
  rfl

theorem pieces_bracket_text {u : α} (h : M.opens u = false) (hu : u ≠ M.lt) (read us : List α) :
    M.pieces (.bracket read) (u :: us) = M.pieces (.text (read ++ [M.lt, u])) us := by
  rw [pieces_cons, next, if_neg (by simp [h]), if_neg hu]
  rfl

/-- The scanner goes over a text in which no tag begins, from either of the modes in which it
is not in a tag. -/
theorem pieces_plain (t rest : List α) :
    (M.Plain t → ∀ read, M.pieces (.text read) (t ++ M.lt :: rest)
        = M.pieces (.bracket (read ++ t)) rest)
    ∧ (M.Plain (M.lt :: t) → ∀ read, M.pieces (.bracket read) (t ++ M.lt :: rest)
        = M.pieces (.bracket (read ++ M.lt :: t)) rest) := by
  induction t with
  | nil =>
      refine ⟨fun _ read => ?_, fun _ read => pieces_bracket_lt read rest⟩
      rw [List.nil_append, pieces_lt, List.append_nil]
  | cons c t ih =>
      obtain ⟨ihText, ihBracket⟩ := ih
      constructor
      · intro h read
        rw [List.cons_append]
        by_cases hc : c = M.lt
        · subst hc
          rw [pieces_lt, ihBracket h]
        · rw [pieces_text hc, ihText ((plain_cons hc).mp h), List.append_assoc]
          rfl
      · intro h read
        have hopens : M.opens c = false := by
          by_contra hc
          exact not_plain_lt (by simpa using hc) h
        have ht := (plain_lt hopens).mp h
        rw [List.cons_append]
        by_cases hc : c = M.lt
        · subst hc
          rw [pieces_bracket_lt, ihBracket ht, List.append_assoc]
          rfl
        · rw [pieces_bracket_text hopens hc, ihText ((plain_cons hc).mp ht), List.append_assoc]
          rfl

/-- Once a tag has begun, the text before it is complete. -/
theorem head_of_tag (us : List α) : ∀ (read name : List α),
    ∀ p ∈ (M.pieces (.tag read name) us).head?, p.text = read := by
  induction us with
  | nil => intro read name p hp; cases hp
  | cons u us ih =>
      intro read name p hp
      rw [pieces_cons, next] at hp
      by_cases hu : u = M.gt
      · rw [if_pos hu] at hp
        obtain rfl := Option.some.inj hp
        rfl
      · rw [if_neg hu] at hp
        exact ih read _ p hp

/-- If a tag begins in the text, the first piece has less than all of it. -/
theorem head_of_not_plain (t rest : List α) :
    (¬ M.Plain t → ∀ read, ∀ p ∈ (M.pieces (.text read) (t ++ rest)).head?,
        p.text.length < read.length + t.length)
    ∧ (¬ M.Plain (M.lt :: t) → ∀ read, ∀ p ∈ (M.pieces (.bracket read) (t ++ rest)).head?,
        p.text.length < read.length + 1 + t.length) := by
  induction t with
  | nil => exact ⟨fun h => absurd plain_nil h, fun h => absurd plain_singleton h⟩
  | cons c t ih =>
      obtain ⟨ihText, ihBracket⟩ := ih
      constructor
      · intro h read p hp
        rw [List.cons_append] at hp
        rw [List.length_cons]
        by_cases hc : c = M.lt
        · subst hc
          rw [pieces_lt] at hp
          have hlt := ihBracket h read p hp
          omega
        · rw [pieces_text hc] at hp
          have hlt := ihText (mt (plain_cons hc).mpr h) _ p hp
          rw [List.length_append, List.length_singleton] at hlt
          omega
      · intro h read p hp
        rw [List.cons_append] at hp
        rw [List.length_cons]
        by_cases hopens : M.opens c = true
        · rw [pieces_opens hopens] at hp
          rw [head_of_tag _ _ _ p hp]
          omega
        · have hopens : M.opens c = false := by simpa using hopens
          have ht := mt (plain_lt hopens).mpr h
          by_cases hc : c = M.lt
          · subst hc
            rw [pieces_bracket_lt] at hp
            have hlt := ihBracket ht _ p hp
            rw [List.length_append, List.length_singleton] at hlt
            omega
          · rw [pieces_bracket_text hopens hc] at hp
            have hlt := ihText (mt (plain_cons hc).mpr ht) _ p hp
            rw [List.length_append] at hlt
            simp only [List.length_cons, List.length_nil] at hlt
            omega

theorem pieces_tag {us : List α} (h : M.gt ∉ us) (read rest : List α) : ∀ name,
    M.pieces (.tag read name) (us ++ M.gt :: rest)
      = ⟨read, name ++ us⟩ :: M.pieces (.text []) rest := by
  induction us with
  | nil =>
      intro name
      rw [List.nil_append, pieces_cons, next, if_pos rfl, List.append_nil]
      rfl
  | cons u us ih =>
      intro name
      obtain ⟨hu, hus⟩ := not_or.mp (mt List.mem_cons.mpr h)
      rw [List.cons_append, pieces_cons, next, if_neg (Ne.symm hu)]
      show M.pieces (.tag read (name ++ [u])) _ = _
      rw [ih hus, List.append_assoc]
      rfl

/-- A text in which no tag begins, and a tag. -/
theorem pieces_write {t : List α} (h : M.Plain t) (tag : M.Tag) (rest : List α) :
    M.pieces (.text []) (t ++ (tag.write ++ rest))
      = ⟨t, tag.name⟩ :: M.pieces (.text []) rest := by
  obtain ⟨u, us, hname, hopens⟩ := tag.name_eq
  have hgt : M.gt ∉ us := fun hmem => tag.closed (hname ▸ List.mem_cons_of_mem u hmem)
  have hwrite : tag.write ++ rest = M.lt :: u :: (us ++ M.gt :: rest) := by
    rw [Tag.write, hname]
    simp
  rw [hwrite, (pieces_plain t _).1 h, List.nil_append, pieces_opens hopens, pieces_tag hgt, hname]
  rfl

end Pieces

/-! ## What is read -/

section Read

variable {M}
variable {T : M.Tags}

theorem within_enter {out : List (List (List α))} {place place' : Place α} {p : Piece α}
    (h : T.enter place p = some place') (hw : place'.Within out) : place.Within out := by
  cases place with
  | table rows =>
      simp only [Tags.enter] at h
      split_ifs at h
      · cases h
        obtain ⟨more, rest, rfl⟩ := hw
        exact List.prefix_append _ _
      · cases h
        exact hw ▸ List.prefix_rfl
  | row rows cells =>
      simp only [Tags.enter] at h
      split_ifs at h
      · cases h
        exact hw
      · cases h
        obtain ⟨rest, rfl⟩ := hw
        exact ⟨[], rest, by simp⟩
  | cell rows cells =>
      simp only [Tags.enter] at h
      split_ifs at h
      cases h
      obtain ⟨more, rest, rfl⟩ := hw
      exact ⟨M.resolve p.text :: more, rest, by simp⟩
  | done rows => cases h

theorem within_run {out : List (List (List α))} (ps : List (Piece α)) : ∀ {place : Place α},
    ps.foldlM T.enter place = some (.done out) → place.Within out := by
  induction ps with
  | nil =>
      intro place h
      obtain rfl := Option.some.inj h
      rfl
  | cons p ps ih =>
      intro place h
      rw [List.foldlM_cons] at h
      obtain ⟨place', henter, hrun⟩ := Option.bind_eq_some_iff.mp h
      exact within_enter henter (ih hrun)

theorem follow_write {place : Place α} {t : List α} (h : M.Plain t) (tag : M.Tag)
    (rest : List α) : T.follow place (t ++ (tag.write ++ rest))
      = (T.enter place ⟨t, tag.name⟩).bind fun place' => T.follow place' rest := by
  unfold Tags.follow
  rw [pieces_write h, List.foldlM_cons]
  rfl

/-- A tag with nothing before it. -/
theorem follow_tag (place : Place α) (tag : M.Tag) (rest : List α) :
    T.follow place (tag.write ++ rest)
      = (T.enter place ⟨[], tag.name⟩).bind fun place' => T.follow place' rest :=
  follow_write plain_nil tag rest

/-- A cell in which a tag begins is not read as it is. -/
theorem cell_of_not_plain {rows later : List (List (List α))} {cells more : List (List α)}
    {c rest : List α} (h : ¬ M.Plain c) : T.follow (.cell rows cells) (c ++ rest)
      ≠ some (.done (rows ++ (cells ++ c :: more) :: later)) := by
  intro hrun
  unfold Tags.follow at hrun
  cases hps : M.pieces (.text []) (c ++ rest) with
  | nil =>
      rw [hps] at hrun
      cases hrun
  | cons p ps =>
      have hlt := (head_of_not_plain c rest).1 h [] p (by rw [hps]; rfl)
      rw [hps, List.foldlM_cons] at hrun
      obtain ⟨place', henter, hrun⟩ := Option.bind_eq_some_iff.mp hrun
      simp only [Tags.enter] at henter
      split_ifs at henter
      cases henter
      -- its text would have to be longer than what it has been resolved from
      have hc := cell_of_within (within_run ps hrun)
      have hle := M.resolve_length p.text
      rw [hc] at hle
      rw [List.length_nil] at hlt
      omega

/-- **The cells of one row.** -/
theorem follow_cells (rows later : List (List (List α))) (rest : List α)
    (cs : List (List α)) : ∀ cells : List (List α),
      T.follow (.row rows cells) (cs.flatMap T.writeCell ++ (T.rowEnd.write ++ rest))
          = some (.done (rows ++ (cells ++ cs) :: later))
        ↔ (∀ c ∈ cs, M.Inert c) ∧ T.follow (.table (rows ++ [cells ++ cs])) rest
          = some (.done (rows ++ (cells ++ cs) :: later)) := by
  induction cs with
  | nil =>
      intro cells
      rw [List.flatMap_nil, List.nil_append, follow_tag]
      simp only [Tags.enter, ne_eq, not_true_eq_false, if_false, if_neg T.cell_ne, if_true,
        Option.bind_some, List.not_mem_nil, List.append_nil, false_implies, implies_true,
        true_and]
  | cons c cs ih =>
      intro cells
      have hsplit : (c :: cs).flatMap T.writeCell ++ (T.rowEnd.write ++ rest)
          = T.cell.write ++ (c ++ (T.cellEnd.write
            ++ (cs.flatMap T.writeCell ++ (T.rowEnd.write ++ rest)))) := by
        simp [Tags.writeCell]
      rw [hsplit, follow_tag]
      simp only [Tags.enter, ne_eq, not_true_eq_false, if_false, if_true, Option.bind_some,
        List.forall_mem_cons]
      by_cases hplain : M.Plain c
      · rw [follow_write hplain]
        simp only [Tags.enter, if_true, Option.bind_some]
        by_cases hresolve : M.resolve c = c
        · have happend : cells ++ c :: cs = (cells ++ [c]) ++ cs := by simp
          rw [hresolve, happend, ih (cells ++ [c])]
          exact and_congr_left fun _ => (and_iff_right ⟨hplain, hresolve⟩).symm
        · exact iff_of_false (fun h => hresolve (cell_of_within (within_run _ h)))
            fun h => hresolve h.1.1.2
      · exact iff_of_false (cell_of_not_plain hplain) fun h => hplain h.1.1.1

/-- **The rows of a table.** -/
theorem follow_rows (table : List (List (List α))) : ∀ rows : List (List (List α)),
    T.follow (.table rows) (T.write table) = some (.done (rows ++ table))
      ↔ ∀ cells ∈ table, ∀ c ∈ cells, M.Inert c := by
  induction table with
  | nil =>
      intro rows
      have hwrite : T.write [] = T.tableEnd.write ++ [] := by simp [Tags.write]
      rw [hwrite, follow_tag]
      simp only [Tags.enter, ne_eq, not_true_eq_false, if_false, if_neg T.row_ne, if_true,
        Option.bind_some, List.not_mem_nil, List.append_nil, false_implies, implies_true,
        iff_true]
      rfl
  | cons cells table ih =>
      intro rows
      have hsplit : T.write (cells :: table) = T.row.write
          ++ (cells.flatMap T.writeCell ++ (T.rowEnd.write ++ T.write table)) := by
        simp [Tags.write, Tags.writeRow]
      rw [hsplit, follow_tag]
      simp only [Tags.enter, ne_eq, not_true_eq_false, if_false, if_true, Option.bind_some,
        List.forall_mem_cons]
      rw [show cells :: table = ([] ++ cells) :: table from rfl, follow_cells, List.nil_append]
      refine and_congr_right fun _ => ?_
      have happend : rows ++ cells :: table = rows ++ [cells] ++ table := by simp
      rw [happend]
      exact ih (rows ++ [cells])

theorem read_eq_some {t : List α} {table : List (List (List α))} :
    T.read t = some table ↔ T.follow (.table []) t = some (.done table) := by
  unfold Tags.read
  split
  · next rows h => simp [h]
  · next h => exact iff_of_false (Option.some_ne_none _).symm (h table)

/-- **When a table is read back.** -/
theorem read_write_iff (T : M.Tags) (table : List (List (List α))) :
    T.read (T.write table) = some table ↔ ∀ cells ∈ table, ∀ c ∈ cells, M.Inert c := by
  rw [read_eq_some]
  exact follow_rows table []

end Read

end Markup

end TacPac.Lib
