import TacPac.Groupme.Msg
import Mathlib.Data.List.ReduceOption

/-!
# What the bot is for: a ledger of points

A message, read as an *order* on a ledger of accounts. The order marks accounts
(one point each way, and the name they go by from now on) and then opens new
ones at zero. `orderOf` reads it off the payload; it is `none` where the payload
is too malformed for the handler to get as far as its save.

Nothing here mentions a database context, a save or a reply's delivery. That
`msg` is this ledger, aborted calls aside, is proved in `MsgProof.lean`.
-/

namespace TacPac.Groupme

open TacPac.Lib

/-! ## Reading a message -/

/-- The last attachment of type `mentions`. -/
def lastMentions (g : GroupmeBindingModel) : Option AttachmentBindingModel :=
  ((g.attachments.getD []).reduceOption.filter
    (fun a => a.type = some (utf16 "mentions"))).getLast?

/-- Its `user_ids`. -/
def mentionedIds (g : GroupmeBindingModel) : List Int64 :=
  ((lastMentions g).bind (·.userIds)).getD []

/-- `loci[i][j]`, if there is one. -/
def locusOf (a : AttachmentBindingModel) (i j : Nat) : Option Int32 :=
  a.loci.bind fun loci => loci[i]?.bind fun pair => pair.bind fun pair => pair[j]?

/-- The name a registration stores: the mention without its `@`. -/
def registerName (text : Utf16) (a : AttachmentBindingModel) (i : Nat) : Option Utf16 :=
  (locusOf a i 0).bind fun start => (locusOf a i 1).bind fun length =>
    text.substring (start + 1).toInt (length - 1).toInt

/-- The name a merit quotes: the mention with its `@`. -/
def meritName (text : Utf16) (a : AttachmentBindingModel) (i : Nat) : Option Utf16 :=
  (locusOf a i 0).bind fun start => (locusOf a i 1).bind fun length =>
    text.substring start.toInt length.toInt

/-- One mention: the id, with the name at its place. -/
def named (name : Nat → Option Utf16) (x : Int64 × Nat) : Option (Int64 × Utf16) :=
  (name x.2).map (Prod.mk x.1)

/-- Every mention with its name, or `none` if one of them has none. -/
def mentions (name : Nat → Option Utf16) (a : AttachmentBindingModel) :
    Option (List (Int64 × Utf16)) :=
  a.userIds.bind fun userIds => userIds.zipIdx.mapM (named name)

/-- The same for the last mentions attachment, of a message that may have none. -/
def lastMentioned (name : AttachmentBindingModel → Nat → Option Utf16)
    (g : GroupmeBindingModel) : Option (List (Int64 × Utf16)) :=
  match lastMentions g with
  | some a => mentions (name a) a
  | none => some []

/-- Which way a text moves points: `-1`, `1`, or not at all. -/
def diffOf (text : Utf16) : Int :=
  if text.contains (utf16 "demerit") then -1
  else if text.contains (utf16 "merit") then 1
  else 0

theorem merit_of_demerit {text : Utf16} (h : text.contains (utf16 "demerit") = true) :
    text.contains (utf16 "merit") = true :=
  Utf16.contains_trans h (by decide)

theorem diffOf_eq_zero {text : Utf16} :
    diffOf text = 0 ↔ text.contains (utf16 "merit") = false := by
  unfold diffOf
  by_cases hd : text.contains (utf16 "demerit") = true
  · simp [hd, merit_of_demerit hd]
  · by_cases hm : text.contains (utf16 "merit") = true
    · simp [hd, hm]
    · simp [hd, hm]

/-! ## The ledger -/

/-- Somebody's balance. -/
@[ext]
structure Account where
  holder : Int64
  name : Utf16
  balance : Int32
  deriving DecidableEq

/-- A row, less its key. -/
def Phikeia.account (r : Phikeia) : Account := ⟨r.groupmeId, r.name, r.points⟩

/-- What one message asks for. `announced` is everybody it registers by name,
`marks` everybody it gives a point to or takes one from. -/
structure Order where
  announced : List (Int64 × Utf16)
  diff : Int
  marks : List (Int64 × Utf16)

/-- Nobody named like this is ever entered. -/
def barred (e : Int64 × Utf16) : Bool := e.2.contains (utf16 "abriel")

/-- Everybody an order opens an account for. -/
def Order.opened (o : Order) : List (Int64 × Utf16) := o.announced.filter (fun e => !barred e)

/-- A new account, and the row it is stored as until it gets its key. -/
def openAccount (e : Int64 × Utf16) : Account := ⟨e.1, e.2, 0⟩

/-- The row of a registration, without its key. -/
def newPhikeia (e : Int64 × Utf16) : Phikeia := ⟨0, e.1, e.2, 0⟩

/-- One mark: the point, and the name without the leading `@` of the mention. -/
def Account.mark (diff : Int) (a : Account) (m : Int64 × Utf16) : Account :=
  if a.holder = m.1 then
    { a with balance := a.balance + Int32.ofInt diff, name := m.2.drop 1 }
  else a

/-- The same of a row. -/
def Phikeia.mark (diff : Int) (r : Phikeia) (m : Int64 × Utf16) : Phikeia :=
  if r.groupmeId = m.1 then
    { r with points := r.points + Int32.ofInt diff, name := m.2.drop 1 }
  else r

/-- Marks, one after another. -/
def Account.markAll (diff : Int) (ms : List (Int64 × Utf16)) (a : Account) : Account :=
  ms.foldl (Account.mark diff) a

/-- The same of a row. -/
def Phikeia.markAll (diff : Int) (ms : List (Int64 × Utf16)) (r : Phikeia) : Phikeia :=
  ms.foldl (Phikeia.mark diff) r

/-- **One order.** -/
def Order.apply (o : Order) (as : List Account) : List Account :=
  as.map (Account.markAll o.diff o.marks) ++ o.opened.map openAccount

/-- The order a message gives. -/
def orderOf (g : GroupmeBindingModel) : Option Order :=
  g.text.bind fun text =>
    (if text.contains (utf16 "register") then lastMentioned (registerName text) g
      else some []).bind fun announced =>
    (if text.contains (utf16 "merit") then lastMentioned (meritName text) g
      else some []).map fun marks => ⟨announced, diffOf text, marks⟩

/-! ## Marks, one account at a time -/

theorem Phikeia.account_mark (diff : Int) (r : Phikeia) (m : Int64 × Utf16) :
    (r.mark diff m).account = r.account.mark diff m := by
  unfold Phikeia.mark Account.mark Phikeia.account
  split <;> rfl

theorem Phikeia.account_markAll (diff : Int) (ms : List (Int64 × Utf16)) : ∀ r : Phikeia,
    (r.markAll diff ms).account = r.account.markAll diff ms := by
  induction ms with
  | nil => intro r; rfl
  | cons m ms ih =>
      intro r
      show ((r.mark diff m).markAll diff ms).account = (r.account.mark diff m).markAll diff ms
      rw [ih, Phikeia.account_mark]

theorem Phikeia.mark_id (diff : Int) (r : Phikeia) (m : Int64 × Utf16) :
    (r.mark diff m).id = r.id := by
  unfold Phikeia.mark; split <;> rfl

theorem Phikeia.mark_groupmeId (diff : Int) (r : Phikeia) (m : Int64 × Utf16) :
    (r.mark diff m).groupmeId = r.groupmeId := by
  unfold Phikeia.mark; split <;> rfl

theorem Phikeia.markAll_snoc (diff : Int) (ms : List (Int64 × Utf16)) (m : Int64 × Utf16)
    (r : Phikeia) : r.markAll diff (ms ++ [m]) = (r.markAll diff ms).mark diff m := by
  unfold Phikeia.markAll
  rw [List.foldl_append]
  rfl

theorem Phikeia.markAll_id (diff : Int) (ms : List (Int64 × Utf16)) : ∀ r : Phikeia,
    (r.markAll diff ms).id = r.id := by
  induction ms with
  | nil => intro r; rfl
  | cons m ms ih =>
      intro r
      show ((r.mark diff m).markAll diff ms).id = r.id
      rw [ih, Phikeia.mark_id]

theorem Phikeia.markAll_groupmeId (diff : Int) (ms : List (Int64 × Utf16)) : ∀ r : Phikeia,
    (r.markAll diff ms).groupmeId = r.groupmeId := by
  induction ms with
  | nil => intro r; rfl
  | cons m ms ih =>
      intro r
      show ((r.mark diff m).markAll diff ms).groupmeId = r.groupmeId
      rw [ih, Phikeia.mark_groupmeId]

/-- How many of the mentions are of `u`. -/
def occurrences (u : Int64) (ms : List (Int64 × Utf16)) : Nat := (ms.map Prod.fst).count u

theorem occurrences_cons (u : Int64) (m : Int64 × Utf16) (ms : List (Int64 × Utf16)) :
    occurrences u (m :: ms) = occurrences u ms + if u = m.1 then 1 else 0 := by
  unfold occurrences
  rw [List.map_cons, List.count_cons]
  by_cases h : u = m.1
  · simp [h]
  · have h' : ¬ m.1 = u := fun e => h e.symm
    simp [h, h']

/-- **The balance after a list of marks**: one `diff` for every mention. -/
theorem Account.markAll_balance (diff : Int) (ms : List (Int64 × Utf16)) : ∀ a : Account,
    (a.markAll diff ms).holder = a.holder
      ∧ (a.markAll diff ms).balance
          = a.balance + Int32.ofInt (diff * occurrences a.holder ms) := by
  induction ms with
  | nil => intro a; simp [Account.markAll, occurrences]
  | cons m ms ih =>
      intro a
      obtain ⟨hh, hb⟩ := ih (a.mark diff m)
      have hhold : (a.mark diff m).holder = a.holder := by
        unfold Account.mark; split <;> rfl
      refine ⟨hh.trans hhold, ?_⟩
      have hcons : a.markAll diff (m :: ms) = (a.mark diff m).markAll diff ms := rfl
      rw [hcons, hb, hhold, occurrences_cons]
      unfold Account.mark
      by_cases h : a.holder = m.1
      · have hsum : diff * ((occurrences a.holder ms + 1 : Nat) : Int)
            = diff + diff * (occurrences a.holder ms : Int) := by
          rw [Int.natCast_add, Int.natCast_one, Int.mul_add, Int.mul_one, Int.add_comm]
        rw [if_pos h, if_pos h, hsum, Int32.ofInt_add, ← Int32.add_assoc]
      · rw [if_neg h, if_neg h, Nat.add_zero]

/-- The points of a row after a list of marks. -/
theorem Phikeia.markAll_points (diff : Int) (ms : List (Int64 × Utf16)) (r : Phikeia) :
    (r.markAll diff ms).points
      = r.points + Int32.ofInt (diff * occurrences r.groupmeId ms) := by
  have h := (Account.markAll_balance diff ms r.account).2
  rw [← Phikeia.account_markAll] at h
  exact h

/-- The name `u` goes by after a list of marks, if they mention it. -/
def lastName (u : Int64) (ms : List (Int64 × Utf16)) : Option Utf16 :=
  ((ms.filter (fun m => m.1 = u)).getLast?).map (fun m => m.2.drop 1)

theorem Account.markAll_name (diff : Int) (ms : List (Int64 × Utf16)) (a : Account) :
    (a.markAll diff ms).name = (lastName a.holder ms).getD a.name := by
  induction ms using List.reverseRecOn with
  | nil => rfl
  | append_singleton ms m ih =>
      have hsnoc : a.markAll diff (ms ++ [m]) = (a.markAll diff ms).mark diff m := by
        unfold Account.markAll; rw [List.foldl_append]; rfl
      have hh : (a.markAll diff ms).holder = a.holder := (Account.markAll_balance diff ms a).1
      rw [hsnoc, Account.mark, hh]
      unfold lastName
      rw [List.filter_append]
      by_cases h : a.holder = m.1
      · simp [h]
      · have h' : ¬ m.1 = a.holder := fun e => h e.symm
        simp only [if_neg h, List.filter_cons, h', decide_false, List.filter_nil,
          List.append_nil, Bool.false_eq_true, if_false]
        exact ih

end TacPac.Groupme
