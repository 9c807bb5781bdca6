import TacPac.Lib.Utf16

/-!
# JSON strings

A body that is a JSON string, and what a reader gets from one whose contents were put
between the quotes as they are. Readers differ in the control characters they let stand
in a string and in what they let follow it. Either way, what is read is either all there
is between the quotes or shorter (`read_cases`), and so it is the string that was sent
exactly if that has nothing to escape (`read_quoted`).
-/

namespace TacPac.Lib.JsonString

/-- The quote. -/
def quote : UInt16 := 34
/-- `/` -/
def slash : UInt16 := 47
/-- The backslash. -/
def backslash : UInt16 := 92

/-- A text between quotes, with nothing in it escaped. -/
def quoted (v : Utf16) : Utf16 := quote :: (v ++ [quote])

/-- What the readers differ in. -/
structure Reader where
  /-- The units that may stand in a string, quote and backslash apart. -/
  raw : UInt16 → Bool
  /-- What may follow the string. -/
  after : Utf16 → Bool
  raw_printable : ∀ u, 0x20 ≤ u → raw u = true
  after_nil : after [] = true

/-- The unit that a two-character escape stands for. -/
def short (e : UInt16) : Option UInt16 :=
  if e = quote ∨ e = backslash ∨ e = slash then some e
  else if [e] = utf16 "b" then some 8
  else if [e] = utf16 "f" then some 12
  else if [e] = utf16 "n" then some 10
  else if [e] = utf16 "r" then some 13
  else if [e] = utf16 "t" then some 9
  else none

/-- What the escape at the start stands for, and what follows it. -/
def escape : Utf16 → Option (UInt16 × Utf16)
  | [] => none
  | e :: v =>
      if [e] = utf16 "u" then do
        let digits ← (v.take 4).mapM hexDigit
        if digits.length = 4 then return (digits.foldl (fun n x => 16 * n + x) 0, v.drop 4)
        else none
      else do
        let u ← short e
        return (u, v)

theorem escape_length {v w : Utf16} {u : UInt16} (h : escape v = some (u, w)) :
    w.length < v.length := by
  cases v with
  | nil => cases h
  | cons e v =>
      simp only [escape] at h
      split at h
      · obtain ⟨digits, -, h⟩ := Option.bind_eq_some_iff.mp h
        split at h
        · cases h
          rw [List.length_drop, List.length_cons]
          omega
        · cases h
      · obtain ⟨c, -, h⟩ := Option.bind_eq_some_iff.mp h
        cases h
        exact Nat.lt_succ_self _

/-- One more unit of the string. -/
def more (u : UInt16) (x : Utf16 × Utf16) : Utf16 × Utf16 := (u :: x.1, x.2)

/-- The string up to its closing quote, and what follows that. -/
def Reader.string (r : Reader) (text : Utf16) : Option (Utf16 × Utf16) :=
  match text with
  | [] => none
  | u :: v =>
      if u = quote then some ([], v)
      else if u = backslash then
        match _h : escape v with
        | none => none
        | some (c, w) => (r.string w).map (more c)
      else if r.raw u then (r.string v).map (more u)
      else none
termination_by text.length
decreasing_by
  · have hlen := escape_length _h
    simp only [List.length_cons]
    omega
  · simp

/-- The string that the text is. -/
def Reader.read (r : Reader) : Utf16 → Option Utf16
  | [] => none
  | u :: v =>
      if u = quote then do
        let x ← r.string v
        if r.after x.2 then return x.1 else none
      else none

/-- The strings with nothing to escape. -/
def Reader.Keeps (r : Reader) (v : Utf16) : Prop :=
  quote ∉ v ∧ backslash ∉ v ∧ ∀ u ∈ v, r.raw u = true

section Read

variable {r : Reader}

theorem keeps_cons {u : UInt16} {v : Utf16} :
    r.Keeps (u :: v) ↔ u ≠ quote ∧ u ≠ backslash ∧ r.raw u = true ∧ r.Keeps v := by
  unfold Reader.Keeps
  rw [List.forall_mem_cons]
  simp only [List.mem_cons, not_or, ne_eq, eq_comm (a := quote), eq_comm (a := backslash)]
  tauto

/-- What is kept is read. -/
theorem string_of_keeps {v : Utf16} (h : r.Keeps v) (w : Utf16) :
    r.string (v ++ quote :: w) = some (v, w) := by
  induction v with
  | nil =>
      rw [List.nil_append, Reader.string, if_pos rfl]
  | cons u v ih =>
      obtain ⟨hquote, hslash, hraw, hv⟩ := keeps_cons.mp h
      rw [List.cons_append, Reader.string, if_neg hquote, if_neg hslash, if_pos hraw, ih hv]
      rfl

/-- What is read is all that the quote ends, or shorter than it. -/
theorem string_cases {text : Utf16} : ∀ {v w : Utf16}, r.string text = some (v, w) →
    (text = v ++ quote :: w ∧ r.Keeps v) ∨ v.length + w.length + 1 < text.length := by
  fun_induction Reader.string r text with
  | case1 => intro v w h; cases h
  | case2 text =>
      intro v w h
      cases h
      exact Or.inl ⟨rfl, by simp [Reader.Keeps]⟩
  | case3 => intro v w h; cases h
  | case4 rest c after hescape hquote ih =>
      -- an escape is longer than what it stands for
      intro v w h
      obtain ⟨⟨v', w'⟩, h', hmore⟩ := Option.map_eq_some_iff.mp h
      cases hmore
      have hlen := escape_length hescape
      right
      rcases ih h' with ⟨hafter, -⟩ | hshort
      · rw [hafter] at hlen
        simp only [List.length_append, List.length_cons] at hlen ⊢
        omega
      · simp only [List.length_cons]
        omega
  | case5 u rest hquote hslash hraw ih =>
      intro v w h
      obtain ⟨⟨v', w'⟩, h', hmore⟩ := Option.map_eq_some_iff.mp h
      cases hmore
      rcases ih h' with ⟨hrest, hkeeps⟩ | hshort
      · exact Or.inl ⟨by rw [hrest]; rfl, keeps_cons.mpr ⟨hquote, hslash, hraw, hkeeps⟩⟩
      · right
        simp only [List.length_cons]
        omega
  | case6 => intro v w h; cases h

/-- **What comes back** of a string with nothing escaped: the string, exactly if there was
nothing to escape. -/
theorem read_quoted (v : Utf16) : r.read (quoted v) = some v ↔ r.Keeps v := by
  show (if quote = quote then (r.string (v ++ [quote])).bind fun x =>
    if r.after x.2 = true then some x.1 else none else none) = some v ↔ _
  rw [if_pos rfl]
  constructor
  · intro h
    obtain ⟨⟨v', w⟩, hstring, hafter⟩ := Option.bind_eq_some_iff.mp h
    split at hafter
    · cases hafter
      rcases string_cases hstring with ⟨-, hkeeps⟩ | hshort
      · exact hkeeps
      · simp only [List.length_append, List.length_singleton] at hshort
        omega
    · cases hafter
  · intro h
    rw [string_of_keeps h, Option.bind_some]
    show (if r.after [] = true then some v else none) = some v
    rw [if_pos r.after_nil]

end Read

end TacPac.Lib.JsonString
