import Mathlib.Data.List.Infix
import Mathlib.Data.UInt

/-!
# Strings as the runtime indexes them

A .NET string is a sequence of UTF-16 code units, and every index, length and
ordinal search counts code units, not characters. `Utf16` is that sequence.
-/

namespace TacPac.Lib

/-- A string, as its UTF-16 code units. -/
abbrev Utf16 : Type := List UInt16

/-- The code units of one character: itself, or a surrogate pair. -/
def utf16Char (c : Char) : List UInt16 :=
  if c.toNat < 0x10000 then [UInt16.ofNat c.toNat]
  else
    let v := c.toNat - 0x10000
    [UInt16.ofNat (0xD800 + v / 0x400), UInt16.ofNat (0xDC00 + v % 0x400)]

/-- The code units of a literal. -/
def utf16 (s : String) : Utf16 := s.toList.flatMap utf16Char

/-- The units of a text without surrogate pairs are its characters. -/
theorem utf16_chars {s : String} (h : ∀ c ∈ s.toList, c.toNat < 0x10000) :
    (utf16 s).map (fun u => Char.ofNat u.toNat) = s.toList := by
  unfold utf16
  revert h
  induction s.toList with
  | nil => exact fun _ => rfl
  | cons c cs ih =>
      intro h
      obtain ⟨hc, hcs⟩ := List.forall_mem_cons.mp h
      rw [List.flatMap_cons, List.map_append, ih hcs, utf16Char, if_pos hc, List.map_singleton,
        UInt16.toNat_ofNat_of_lt' hc, Char.ofNat_toNat]
      rfl

/-- A number is digits, and a minus at most. -/
theorem toString_int_range {n : Int} : ∀ c ∈ (toString n).toList, 45 ≤ c.toNat ∧ c.toNat ≤ 57 := by
  have hdigits : ∀ m : Nat, ∀ c ∈ m.repr.toList, 45 ≤ c.toNat ∧ c.toNat ≤ 57 := by
    intro m c hc
    rw [Nat.toList_repr] at hc
    have hdigit := Nat.isDigit_of_mem_toDigits (by decide) (by decide) hc
    obtain ⟨hle, hge⟩ := Char.isDigit_iff_toNat.mp hdigit
    exact ⟨le_trans (by decide) hle, hge⟩
  intro c hc
  rw [Int.toString_eq_repr, Int.repr_eq_if] at hc
  split at hc
  · exact hdigits _ c hc
  · rw [String.toList_append] at hc
    rcases List.mem_append.mp hc with hc | hc
    · obtain rfl : c = '-' := by simpa using hc
      decide
    · exact hdigits _ c hc

theorem utf16_int_range (n : Int) : ∀ u ∈ utf16 (toString n), 45 ≤ u.toNat ∧ u.toNat ≤ 57 := by
  intro u hu
  unfold utf16 at hu
  obtain ⟨c, hc, hu⟩ := List.mem_flatMap.mp hu
  have hrange := toString_int_range c hc
  have hsmall : c.toNat < 0x10000 := by omega
  rw [utf16Char, if_pos hsmall, List.mem_singleton] at hu
  rw [hu, UInt16.toNat_ofNat_of_lt' hsmall]
  exact hrange

/-- The value of a hexadecimal digit. -/
def hexDigit (u : UInt16) : Option UInt16 :=
  if 48 ≤ u ∧ u ≤ 57 then some (u - 48)
  else if 65 ≤ u ∧ u ≤ 70 then some (u - 55)
  else if 97 ≤ u ∧ u ≤ 102 then some (u - 87)
  else none

namespace Utf16

/-- `String.Contains`: the ordinal substring test. -/
def contains (s value : Utf16) : Bool := decide (value <:+: s)

/-- `String.Substring(startIndex, length)`; `none` is its `ArgumentOutOfRangeException`. -/
def substring (s : Utf16) (startIndex length : Int) : Option Utf16 :=
  if startIndex < 0 ∨ length < 0 ∨ (s.length : Int) - length < startIndex then none
  else some ((s.drop startIndex.toNat).take length.toNat)

/-- `String.Substring(startIndex)`. -/
def substringFrom (s : Utf16) (startIndex : Int) : Option Utf16 :=
  s.substring startIndex (s.length - startIndex)

theorem contains_iff {s value : Utf16} : s.contains value = true ↔ value <:+: s :=
  decide_eq_true_iff

/-- A string that contains `a` contains everything `a` contains. -/
theorem contains_trans {s a b : Utf16} (hs : s.contains a = true) (ha : a.contains b = true) :
    s.contains b = true :=
  contains_iff.mpr ((contains_iff.mp ha).trans (contains_iff.mp hs))

/-! ## Searching across a separator -/

/-- What starts before a separator and does not contain it ends before it. -/
theorem prefix_of_prefix_append_cons {w a b : Utf16} {s : UInt16} (hs : s ∉ w)
    (h : w <+: a ++ s :: b) : w <+: a := by
  have ha : a <+: a ++ s :: b := List.prefix_append _ _
  rcases Nat.lt_or_ge a.length w.length with hlen | hlen
  · -- otherwise `a` and the separator are part of `w`
    have hsep : a ++ [s] <+: a ++ s :: b := ⟨b, by simp⟩
    have hin : a ++ [s] <+: w :=
      List.prefix_of_prefix_length_le hsep h
        (by rw [List.length_append, List.length_singleton]; omega)
    exact absurd (hin.subset (by simp)) hs
  · exact List.prefix_of_prefix_length_le h ha hlen

theorem infix_append_cons {w b : Utf16} {s : UInt16} (hne : w ≠ []) (hs : s ∉ w)
    (a : Utf16) : w <:+: a ++ s :: b ↔ w <:+: a ∨ w <:+: b := by
  induction a with
  | nil =>
      have hno : ¬ w <+: s :: b := fun h => hne (List.prefix_nil.mp
        (prefix_of_prefix_append_cons (a := []) hs h))
      rw [List.nil_append, List.infix_cons_iff, List.infix_nil]
      simp [hno, hne]
  | cons x a ih =>
      rw [List.cons_append, List.infix_cons_iff, List.infix_cons_iff, ih, or_assoc]
      refine or_congr_left ⟨fun h => ?_, fun h => h.trans (List.prefix_append (x :: a) _)⟩
      exact prefix_of_prefix_append_cons (a := x :: a) hs h

/-- A word without the separator is found on one of its sides. -/
theorem contains_append_cons {w b : Utf16} {s : UInt16} (hne : w ≠ []) (hs : s ∉ w)
    (a : Utf16) : contains (a ++ s :: b) w = (contains a w || contains b w) := by
  rw [Bool.eq_iff_iff, Bool.or_eq_true, contains_iff, contains_iff, contains_iff]
  exact infix_append_cons hne hs a

theorem contains_nil {w : Utf16} (hne : w ≠ []) : contains [] w = false := by
  refine decide_eq_false fun h => hne (List.infix_nil.mp h)

/-- A word with a unit that the text has not. -/
theorem contains_of_notMem {s w : Utf16} {c : UInt16} (hw : c ∈ w) (hs : c ∉ s) :
    contains s w = false :=
  decide_eq_false fun h => hs (h.subset hw)

/-- The middle of three pieces. -/
theorem substring_middle (a b c : Utf16) :
    (a ++ b ++ c).substring a.length b.length = some b := by
  unfold substring
  rw [if_neg (by simp only [List.length_append]; omega)]
  simp

/-! ## Texts with holes -/

/-- A piece of a text: typed, or a hole that the `i`-th name is put into. -/
inductive Piece where
  | typed (text : Utf16)
  | hole (i : Nat)

/-- The text of a piece. -/
def Piece.text (names : Nat → Utf16) : Piece → Utf16
  | .typed text => text
  | .hole i => names i

/-- The text, with the names put in. -/
def fill (names : Nat → Utf16) (ps : List Piece) : Utf16 := ps.flatMap (Piece.text names)

/-- Where the `k`-th piece starts. -/
def start (names : Nat → Utf16) (ps : List Piece) (k : Nat) : Nat :=
  (fill names (ps.take k)).length

section Holes

variable {names : Nat → Utf16} {ps : List Piece} {k i : Nat}

theorem fill_hole (h : ps[k]? = some (.hole i)) : fill names ps
    = fill names (ps.take k) ++ names i ++ fill names (ps.drop (k + 1)) := by
  obtain ⟨hk, hget⟩ := List.getElem?_eq_some_iff.mp h
  have hsplit : ps = ps.take k ++ .hole i :: ps.drop (k + 1) := by
    rw [← hget, List.getElem_cons_drop, List.take_append_drop]
  unfold fill
  conv_lhs => rw [hsplit]
  rw [List.flatMap_append, List.flatMap_cons, List.append_assoc]
  rfl

/-- A hole ends where the text does, or before. -/
theorem start_le (h : ps[k]? = some (.hole i)) :
    start names ps k + (names i).length ≤ (fill names ps).length := by
  rw [fill_hole h, List.length_append, List.length_append]
  unfold start
  omega

/-- What stands in a hole. -/
theorem substring_hole (h : ps[k]? = some (.hole i)) :
    (fill names ps).substring (start names ps k) (names i).length = some (names i) := by
  rw [fill_hole h]
  exact substring_middle _ _ _

/-- What stands in a hole after its first character. -/
theorem substring_hole_tail (h : ps[k]? = some (.hole i)) {c : UInt16} {name : Utf16}
    (hname : names i = c :: name) :
    (fill names ps).substring (start names ps k + 1 : Nat) name.length = some name := by
  have hmiddle : fill names ps
      = (fill names (ps.take k) ++ [c]) ++ name ++ fill names (ps.drop (k + 1)) := by
    rw [fill_hole h, hname]
    simp
  have hstart : start names ps k + 1 = (fill names (ps.take k) ++ [c]).length := by
    rw [List.length_append, List.length_singleton]
    rfl
  rw [hmiddle, hstart]
  exact substring_middle _ _ _

end Holes

end Utf16

end TacPac.Lib
