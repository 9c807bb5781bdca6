import TacPac.Lib.Utf16

/-!
# Forms

A body in `application/x-www-form-urlencoded`, and what a decoder reads from one whose
values were put into it as they are. The decoders in use take the body apart at each `&`,
a part at its first `=`, and read a `+` as a space; they differ in how they undo percent
escapes and in what they make of a part without `=`. With that left open, the values that
come back as they were are exactly those that no decoder's syntax is in (`decode_joined`).
-/

namespace TacPac.Lib.Form

/-- A space. -/
def space : UInt16 := 32
/-- `%` -/
def percent : UInt16 := 37
/-- `&` -/
def ampersand : UInt16 := 38
/-- `+` -/
def plus : UInt16 := 43
/-- `=` -/
def equals : UInt16 := 61

/-- The names and values of a form, in order. -/
abbrev Fields : Type := List (Utf16 × Utf16)

/-- A part of a body. -/
def field (f : Utf16 × Utf16) : Utf16 := f.1 ++ equals :: f.2

/-- A body, with nothing in it escaped. -/
def joined : Fields → Utf16
  | [] => []
  | [f] => field f
  | f :: g :: fs => field f ++ ampersand :: joined (g :: fs)

/-- What the decoders differ in, and what they have in common there. -/
structure Decoder where
  /-- The text with its percent escapes undone. -/
  unescape : Utf16 → Utf16
  /-- What is made of a part without `=`. -/
  bare : Utf16 → Option (Utf16 × Utf16)
  /-- There is nothing to undo without a `%`. -/
  unescape_plain : ∀ v, percent ∉ v → unescape v = v
  /-- An escape is longer than what it stands for. -/
  unescape_length : ∀ v, (unescape v).length ≤ v.length
  /-- A space is no part of an escape. -/
  unescape_spaces : ∀ v, v.count space ≤ (unescape v).count space

namespace Decoder

variable (d : Decoder)

/-- What is read of a name or a value. -/
def text (v : Utf16) : Utf16 := d.unescape (v.map fun u => if u = plus then space else u)

/-- The name and the value of a part. -/
def pair (part : Utf16) : Option (Utf16 × Utf16) :=
  if equals ∈ part then
    some (d.text (part.takeWhile (· != equals)),
      d.text ((part.dropWhile (· != equals)).drop 1))
  else d.bare part

/-- The fields of a body. -/
def decode (body : Utf16) : Fields := (body.splitOn ampersand).filterMap d.pair

/-- The values that come back as they were. -/
def Keeps (v : Utf16) : Prop := ampersand ∉ v ∧ plus ∉ v ∧ d.unescape v = v

end Decoder

/-- The names that are in no way special. -/
def Plain (name : Utf16) : Prop :=
  ampersand ∉ name ∧ equals ∉ name ∧ plus ∉ name ∧ percent ∉ name

section Text

variable (d : Decoder)

theorem count_spaces (v : Utf16) :
    (v.map fun u => if u = plus then space else u).count space = v.count space + v.count plus := by
  induction v with
  | nil => rfl
  | cons u v ih =>
      rw [List.map_cons, List.count_cons, List.count_cons, List.count_cons, ih]
      by_cases hu : u = plus
      · obtain rfl := hu
        simp only [if_true, beq_self_eq_true, show (plus == space) = false from rfl,
          Bool.false_eq_true, if_false]
        omega
      · simp only [hu, if_false, beq_eq_false_iff_ne.mpr hu, Bool.false_eq_true]
        omega

theorem text_of_not_mem {v : Utf16} (h : plus ∉ v) : d.text v = d.unescape v := by
  have hid : (v.map fun u => if u = plus then space else u) = v := by
    conv_rhs => rw [← List.map_id v]
    exact List.map_congr_left fun u hu => if_neg fun (he : u = plus) => h (he ▸ hu)
  unfold Decoder.text
  rw [hid]

theorem text_length (v : Utf16) : (d.text v).length ≤ v.length :=
  (d.unescape_length _).trans (Nat.le_of_eq (List.length_map _))

/-- A value is read as it is exactly if it has no `+` and no escape. -/
theorem text_eq_iff (v : Utf16) : d.text v = v ↔ plus ∉ v ∧ d.unescape v = v := by
  constructor
  · intro h
    have hplus : plus ∉ v := by
      intro hmem
      -- each `+` has become a space, and spaces stay
      have hpos : 0 < v.count plus := List.count_pos_iff.mpr hmem
      have hle := d.unescape_spaces (v.map fun u => if u = plus then space else u)
      rw [count_spaces, show d.unescape _ = v from h] at hle
      omega
    exact ⟨hplus, (text_of_not_mem d hplus).symm.trans h⟩
  · rintro ⟨hplus, h⟩
    exact (text_of_not_mem d hplus).trans h

theorem text_plain {name : Utf16} (h : Plain name) : d.text name = name :=
  (text_eq_iff d name).mpr ⟨h.2.2.1, d.unescape_plain name h.2.2.2⟩

theorem pair_field {f : Utf16 × Utf16} (h : Plain f.1) :
    d.pair (field f) = some (f.1, d.text f.2) := by
  have hne : ∀ u ∈ f.1, (u != equals) = true := fun u hu =>
    bne_iff_ne.mpr fun he => h.2.1 (he ▸ hu)
  unfold Decoder.pair field
  rw [if_pos (by simp), List.takeWhile_append_of_pos hne, List.dropWhile_append_of_pos hne]
  simp [text_plain d h]

end Text

section Decode

variable (d : Decoder)

theorem ampersand_not_mem_field {f : Utf16 × Utf16} (h : Plain f.1) (hv : ampersand ∉ f.2) :
    ampersand ∉ field f := by
  unfold field
  rw [List.mem_append, List.mem_cons]
  rintro (hmem | heq | hmem)
  · exact h.1 hmem
  · exact absurd heq (by decide)
  · exact hv hmem

/-- The last part. -/
theorem decode_field {f : Utf16 × Utf16} (h : Plain f.1) (hv : ampersand ∉ f.2) :
    d.decode (field f) = [(f.1, d.text f.2)] := by
  unfold Decoder.decode
  rw [List.splitOn_eq_singleton (ampersand_not_mem_field h hv),
    List.filterMap_cons_some (pair_field d h), List.filterMap_nil]

/-- The first part of several. -/
theorem decode_field_append {f : Utf16 × Utf16} (h : Plain f.1) (hv : ampersand ∉ f.2)
    (body : Utf16) :
    d.decode (field f ++ ampersand :: body) = (f.1, d.text f.2) :: d.decode body := by
  unfold Decoder.decode
  rw [List.splitOn_append_cons_self_of_not_mem (ampersand_not_mem_field h hv),
    List.filterMap_cons_some (pair_field d h)]

/-- A value is cut off at its first `&`. -/
theorem decode_cut {f : Utf16 × Utf16} (h : Plain f.1) (hv : ampersand ∈ f.2) (more : Utf16)
    (fs : Fields) : d.decode (field f ++ more) ≠ f :: fs := by
  obtain ⟨name, value⟩ := f
  obtain ⟨v, w, rfl, hcut⟩ := List.eq_append_cons_of_mem hv
  have hbody : field (name, v ++ ampersand :: w) ++ more
      = field (name, v) ++ ampersand :: (w ++ more) := by
    simp [field]
  rw [hbody, decode_field_append d (f := (name, v)) h hcut]
  intro heq
  have hvalue : d.text v = v ++ ampersand :: w := congrArg Prod.snd (List.cons.inj heq).1
  have hlen := text_length d v
  rw [hvalue, List.length_append, List.length_cons] at hlen
  omega

/-- **What comes back** of a body with nothing escaped: the fields as they were, exactly
if every value is one that the decoder keeps. -/
theorem decode_joined : ∀ {fields : Fields}, fields ≠ [] → (∀ f ∈ fields, Plain f.1) →
    (d.decode (joined fields) = fields ↔ ∀ f ∈ fields, d.Keeps f.2)
  | [], hne, _ => absurd rfl hne
  | [f], _, h => by
      have hf := h f List.mem_cons_self
      rw [List.forall_mem_singleton]
      by_cases hv : ampersand ∈ f.2
      · refine ⟨fun heq => absurd heq ?_, fun hkeeps => absurd hv hkeeps.1⟩
        have hcut := decode_cut d hf hv [] []
        rwa [List.append_nil] at hcut
      · show d.decode (field f) = [f] ↔ _
        rw [decode_field d hf hv, List.cons_eq_cons, Prod.ext_iff, text_eq_iff]
        simp [Decoder.Keeps, hv]
  | f :: g :: fs, _, h => by
      have hf := h f List.mem_cons_self
      have ih := @decode_joined (g :: fs) (by simp)
        fun f' hf' => h f' (List.mem_cons_of_mem _ hf')
      rw [List.forall_mem_cons]
      by_cases hv : ampersand ∈ f.2
      · exact ⟨fun heq => absurd heq (decode_cut d hf hv _ _), fun hkeeps => absurd hv hkeeps.1.1⟩
      · show d.decode (field f ++ ampersand :: joined (g :: fs)) = _ ↔ _
        rw [decode_field_append d hf hv, List.cons_eq_cons, ih, Prod.ext_iff, text_eq_iff]
        simp [Decoder.Keeps, hv]

end Decode

/-! ## Percent decoding -/

/-- The ASCII escapes undone, and nothing else. -/
def percentDecode : Utf16 → Utf16
  | u :: a :: b :: v =>
      if u = percent then
        match hexDigit a, hexDigit b with
        | some x, some y =>
            if x < 8 then (16 * x + y) :: percentDecode v else u :: percentDecode (a :: b :: v)
        | _, _ => u :: percentDecode (a :: b :: v)
      else u :: percentDecode (a :: b :: v)
  | v => v

theorem percentDecode_plain (v : Utf16) (h : percent ∉ v) : percentDecode v = v := by
  fun_induction percentDecode v with
  | case1 => exact absurd List.mem_cons_self h
  | case2 => exact absurd List.mem_cons_self h
  | case3 => exact absurd List.mem_cons_self h
  | case4 u a b v hu ih => rw [ih fun hmem => h (List.mem_cons_of_mem _ hmem)]
  | case5 => rfl

theorem percentDecode_length (v : Utf16) : (percentDecode v).length ≤ v.length := by
  fun_induction percentDecode v with
  | case1 a b v x y hb ha hx ih =>
      simp only [List.length_cons]
      omega
  | case2 a b v x y hb ha hx ih => exact Nat.succ_le_succ ih
  | case3 a b v hnone ih => exact Nat.succ_le_succ ih
  | case4 u a b v hu ih => exact Nat.succ_le_succ ih
  | case5 => exact Nat.le_refl _

theorem hexDigit_space : hexDigit space = none := by decide

theorem spaces_cons {v w : Utf16} (u : UInt16) (h : v.count space ≤ w.count space) :
    (u :: v).count space ≤ (u :: w).count space := by
  rw [List.count_cons, List.count_cons]
  exact Nat.add_le_add_right h _

theorem percentDecode_spaces (v : Utf16) : v.count space ≤ (percentDecode v).count space := by
  fun_induction percentDecode v with
  | case1 a b v x y hb ha hx ih =>
      -- neither a `%` nor a digit is a space
      have hdigit : ∀ {c d : UInt16}, hexDigit c = some d → c ≠ space := by
        rintro c d hc rfl
        rw [hexDigit_space] at hc
        cases hc
      rw [List.count_cons_of_ne (by decide), List.count_cons_of_ne (hdigit ha),
        List.count_cons_of_ne (hdigit hb)]
      exact ih.trans List.count_le_count_cons
  | case2 a b v x y hb ha hx ih => exact spaces_cons percent ih
  | case3 a b v hnone ih => exact spaces_cons percent ih
  | case4 u a b v hu ih => exact spaces_cons u ih
  | case5 => exact Nat.le_refl _

/-- A decoder that drops what is no `name=value`. -/
def percentDecoder : Decoder where
  unescape := percentDecode
  bare _ := none
  unescape_plain := percentDecode_plain
  unescape_length := percentDecode_length
  unescape_spaces := percentDecode_spaces

end TacPac.Lib.Form
