import TacPac.Lib.Keyed
import Mathlib.Data.List.Pairwise

/-!
# A change-tracking database context

The unit-of-work pattern of an object-relational mapper. A `Table` is what is
committed. A `Context` is one session's private view of it: for every row it has
read it keeps the values read (`original`) and the values now (`current`), and
next to these the entities added and not yet saved.

* a query (`Context.view`) walks the committed rows, but a row already tracked
  comes back with its current values, and added entities do not come back at all;
* `Table.save` writes, for every tracked row, the columns whose current value
  differs from the original, as absolute values, and inserts the added entities
  under fresh keys.

Nothing compares the originals with what is committed at the time of the save:
the model has no concurrency token. While nobody else writes (`Context.Fresh`)
saving commits exactly what the context shows (`save_rows_of_fresh`).
-/

namespace TacPac.Lib

/-- A row type with a primary key and an update that writes only changed columns. -/
class Entity (ρ : Type) where
  key : ρ → Nat
  withKey : Nat → ρ → ρ
  /-- The stored row after the columns that differ between the two have been written to it. -/
  write : (original current stored : ρ) → ρ
  key_withKey : ∀ k r, key (withKey k r) = k
  key_write : ∀ o c s, key (write o c s) = key s
  write_same : ∀ o s, write o o s = s
  write_self : ∀ o c, key c = key o → write o c o = c

variable {ρ : Type} [Entity ρ]

open Entity (key withKey)

/-- Committed rows, in key order. Keys are unique and never handed out twice. -/
structure Table (ρ : Type) [Entity ρ] where
  rows : List ρ
  nextKey : Nat
  sorted : rows.Pairwise (fun a b => key a < key b)
  bound : ∀ r ∈ rows, key r < nextKey

namespace Table

/-- A table without rows. -/
def empty : Table ρ := ⟨[], 1, List.Pairwise.nil, by simp⟩

@[simp] theorem empty_rows : (empty : Table ρ).rows = [] := rfl

/-- A table is its rows and the next key. -/
theorem ext_rows {t t' : Table ρ} (hrows : t.rows = t'.rows) (hkey : t.nextKey = t'.nextKey) :
    t = t' := by
  cases t; cases t'; cases hrows; cases hkey; rfl

theorem keys_nodup (t : Table ρ) : (t.rows.map key).Nodup :=
  List.pairwise_map.mpr (t.sorted.imp (fun hab => Nat.ne_of_lt hab))

/-- A key names at most one row. -/
theorem key_inj (t : Table ρ) {a b : ρ} (ha : a ∈ t.rows) (hb : b ∈ t.rows)
    (h : key a = key b) : a = b :=
  List.inj_on_of_nodup_map t.keys_nodup ha hb h

/-- The committed row under a key. -/
def find (t : Table ρ) (k : Nat) : Option ρ := t.rows.find? (fun r => key r == k)

theorem find_key (t : Table ρ) {r : ρ} (h : r ∈ t.rows) : t.find (key r) = some r :=
  find_of_nodup t.keys_nodup h

theorem mem_of_find {t : Table ρ} {k : Nat} {r : ρ} (h : t.find k = some r) :
    r ∈ t.rows ∧ key r = k :=
  ⟨List.mem_of_find?_eq_some h, by simpa using List.find?_some h⟩

/-- One insert, under the next key. -/
def insert (t : Table ρ) (r : ρ) : Table ρ where
  rows := t.rows ++ [withKey t.nextKey r]
  nextKey := t.nextKey + 1
  sorted := by
    refine List.pairwise_append.mpr ⟨t.sorted, List.pairwise_singleton .., fun a ha b hb => ?_⟩
    rw [List.mem_singleton.mp hb, Entity.key_withKey]
    exact t.bound a ha
  bound := by
    intro a ha
    rcases List.mem_append.mp ha with h | h
    · exact Nat.lt_succ_of_lt (t.bound a h)
    · rw [List.mem_singleton.mp h, Entity.key_withKey]
      exact Nat.lt_succ_self _

/-- Rewriting every row in place, keys kept. -/
def update (t : Table ρ) (f : ρ → ρ) (hf : ∀ r, key (f r) = key r) : Table ρ where
  rows := t.rows.map f
  nextKey := t.nextKey
  sorted := List.pairwise_map.mpr (t.sorted.imp (fun h => by rw [hf, hf]; exact h))
  bound := by
    intro a ha
    obtain ⟨r, hr, rfl⟩ := List.mem_map.mp ha
    rw [hf]
    exact t.bound r hr

/-- Rows, inserted one after another. -/
def insertAll (t : Table ρ) (rs : List ρ) : Table ρ := rs.foldl insert t

/-- The rows `insertAll` appends: the given ones, under consecutive keys. -/
def keyed (k : Nat) : List ρ → List ρ
  | [] => []
  | r :: rs => withKey k r :: keyed (k + 1) rs

theorem insertAll_rows (rs : List ρ) : ∀ t : Table ρ,
    (t.insertAll rs).rows = t.rows ++ keyed t.nextKey rs := by
  induction rs with
  | nil => intro t; simp [insertAll, keyed]
  | cons r rs ih =>
      intro t
      show ((t.insert r).insertAll rs).rows = _
      rw [ih (t.insert r)]
      simp [insert, keyed, List.append_assoc]

theorem insertAll_nextKey (rs : List ρ) : ∀ t : Table ρ,
    (t.insertAll rs).nextKey = t.nextKey + rs.length := by
  induction rs with
  | nil => intro t; rfl
  | cons r rs ih =>
      intro t
      show ((t.insert r).insertAll rs).nextKey = _
      rw [ih (t.insert r), List.length_cons]
      show t.nextKey + 1 + rs.length = _
      omega

end Table

/-- A tracked row: the values read, and the values now. -/
structure Entry (ρ : Type) where
  original : ρ
  current : ρ

/-- One session's tracked rows, by key, and the entities it has added. -/
structure Context (ρ : Type) where
  tracked : Nat → Option (Entry ρ)
  added : List ρ

namespace Context

/-- A session that has read nothing yet. -/
def new : Context ρ := ⟨fun _ => none, []⟩

/-- The values under which the session sees a committed row. -/
def read (c : Context ρ) (r : ρ) : ρ :=
  match c.tracked (key r) with
  | some e => e.current
  | none => r

/-- What a query returns. -/
def view (c : Context ρ) (t : Table ρ) : List ρ := t.rows.map c.read

/-- After a query every committed row is tracked. -/
def load (c : Context ρ) (t : Table ρ) : Context ρ :=
  { c with tracked := fun k =>
      match c.tracked k with
      | some e => some e
      | none => (t.find k).map (fun r => ⟨r, r⟩) }

/-- Assigning to a tracked entity. -/
def set (c : Context ρ) (r : ρ) : Context ρ :=
  { c with tracked := fun k =>
      if k = key r then (c.tracked k).map (fun e => { e with current := r }) else c.tracked k }

/-- Adding an entity. -/
def add (c : Context ρ) (r : ρ) : Context ρ := { c with added := c.added ++ [r] }

/-- What the save makes of a committed row. -/
def write (c : Context ρ) (r : ρ) : ρ :=
  match c.tracked (key r) with
  | some e => Entity.write e.original e.current r
  | none => r

theorem key_write (c : Context ρ) (r : ρ) : key (c.write r) = key r := by
  unfold write
  split
  · exact Entity.key_write ..
  · rfl

@[simp] theorem view_new (t : Table ρ) : (new : Context ρ).view t = t.rows := by
  show t.rows.map (fun r => r) = t.rows
  exact List.map_id' _

@[simp] theorem load_added (c : Context ρ) (t : Table ρ) : (c.load t).added = c.added := rfl

/-- Loading tracks what was untracked and changes nothing that was. -/
theorem load_tracked_of_some {c : Context ρ} {t : Table ρ} {k : Nat} {e : Entry ρ}
    (h : c.tracked k = some e) : (c.load t).tracked k = some e := by
  simp only [load, h]

theorem load_tracked_of_none {c : Context ρ} {t : Table ρ} {r : ρ} (hr : r ∈ t.rows)
    (h : c.tracked (key r) = none) : (c.load t).tracked (key r) = some ⟨r, r⟩ := by
  simp only [load, h, t.find_key hr, Option.map_some]

theorem load_read {c : Context ρ} {t : Table ρ} {r : ρ} (hr : r ∈ t.rows) :
    (c.load t).read r = c.read r := by
  unfold read
  cases h : c.tracked (key r) with
  | some e => rw [load_tracked_of_some h]
  | none => rw [load_tracked_of_none hr h]

/-- A query shows the same before and after it is run. -/
theorem load_view (c : Context ρ) (t : Table ρ) : (c.load t).view t = c.view t :=
  List.map_congr_left fun _ hr => load_read hr

theorem set_tracked_self {c : Context ρ} {r : ρ} {e : Entry ρ}
    (h : c.tracked (key r) = some e) : (c.set r).tracked (key r) = some ⟨e.original, r⟩ := by
  simp only [set, if_pos, h, Option.map_some]

theorem set_tracked_ne {c : Context ρ} {r : ρ} {k : Nat} (h : k ≠ key r) :
    (c.set r).tracked k = c.tracked k := by
  simp only [set, if_neg h]

/-- Entities are tracked under their own keys. -/
def WellKeyed (c : Context ρ) : Prop :=
  ∀ k e, c.tracked k = some e → key e.original = k ∧ key e.current = k

theorem wellKeyed_new : (new : Context ρ).WellKeyed := by
  intro k e he
  exact absurd he (by simp [new])

theorem wellKeyed_load {c : Context ρ} (h : c.WellKeyed) (t : Table ρ) :
    (c.load t).WellKeyed := by
  intro k e he
  cases hc : c.tracked k with
  | some e' =>
      rw [load_tracked_of_some hc] at he
      exact h k e (hc.trans he)
  | none =>
      simp only [load, hc, Option.map_eq_some_iff] at he
      obtain ⟨r, hr, rfl⟩ := he
      exact ⟨(Table.mem_of_find hr).2, (Table.mem_of_find hr).2⟩

theorem wellKeyed_set {c : Context ρ} (h : c.WellKeyed) (x : ρ) : (c.set x).WellKeyed := by
  intro k e he
  by_cases hk : k = key x
  · subst hk
    cases hc : c.tracked (key x) with
    | none => simp [set, hc] at he
    | some e' =>
        rw [set_tracked_self hc] at he
        cases he
        exact ⟨(h _ e' hc).1, rfl⟩
  · rw [set_tracked_ne hk] at he
    exact h k e he

theorem key_read {c : Context ρ} (h : c.WellKeyed) (r : ρ) : key (c.read r) = key r := by
  unfold read
  split
  · next e he => exact (h _ e he).2
  · rfl

/-- A query returns the rows under their own keys, each once. -/
theorem view_nodup {c : Context ρ} (h : c.WellKeyed) (t : Table ρ) :
    ((c.view t).map key).Nodup := by
  have hk : (c.view t).map key = t.rows.map key := by
    rw [view, List.map_map]
    exact List.map_congr_left fun r _ => key_read h r
  rw [hk]
  exact t.keys_nodup

/-- After a query, what it returned is tracked with the values it returned. -/
theorem load_tracked_view {c : Context ρ} (h : c.WellKeyed) {t : Table ρ} {x : ρ}
    (hx : x ∈ c.view t) : ∃ o, (c.load t).tracked (key x) = some ⟨o, x⟩ := by
  obtain ⟨r, hr, rfl⟩ := List.mem_map.mp hx
  rw [key_read h]
  cases hc : c.tracked (key r) with
  | some e => exact ⟨e.original, by rw [load_tracked_of_some hc, read, hc]⟩
  | none => exact ⟨r, by rw [load_tracked_of_none hr hc, read, hc]⟩

/-- A loop over a query's result that assigns `f` to the entities `p` picks. -/
def setAll (p : ρ → Bool) (f : ρ → ρ) (xs : List ρ) (c : Context ρ) : Context ρ :=
  xs.foldl (fun c x => if p x then c.set (f x) else c) c

section SetAll

variable {p : ρ → Bool} {f : ρ → ρ}

theorem setAll_added (xs : List ρ) : ∀ c : Context ρ, (setAll p f xs c).added = c.added := by
  induction xs with
  | nil => intro c; rfl
  | cons x xs ih =>
      intro c
      show (setAll p f xs (if p x then c.set (f x) else c)).added = c.added
      rw [ih]
      split <;> rfl

theorem wellKeyed_setAll (xs : List ρ) : ∀ {c : Context ρ}, c.WellKeyed →
    (setAll p f xs c).WellKeyed := by
  induction xs with
  | nil => intro c h; exact h
  | cons x xs ih =>
      intro c h
      show (setAll p f xs (if p x then c.set (f x) else c)).WellKeyed
      refine ih ?_
      split
      · exact wellKeyed_set h _
      · exact h

/-- **What such a loop does**, entity by entity. -/
theorem setAll_tracked (hf : ∀ r, key (f r) = key r) (k : Nat) (xs : List ρ) :
    ∀ {c : Context ρ}, (xs.map key).Nodup →
      (∀ x ∈ xs, ∃ o, c.tracked (key x) = some ⟨o, x⟩) →
      (setAll p f xs c).tracked k = (c.tracked k).map (fun e =>
        if k ∈ xs.map key ∧ p e.current then ⟨e.original, f e.current⟩ else e) := by
  induction xs with
  | nil => intro c _ _; simp [setAll]
  | cons x xs ih =>
      intro c hn ht
      obtain ⟨hx, hn'⟩ := List.nodup_cons.mp hn
      obtain ⟨o, ho⟩ := ht x List.mem_cons_self
      show (setAll p f xs (if p x then c.set (f x) else c)).tracked k = _
      -- the rest of the list is tracked as before: its keys are not `x`'s
      have hrest : ∀ y ∈ xs, ∃ o, (if p x then c.set (f x) else c).tracked (key y)
          = some ⟨o, y⟩ := by
        intro y hy
        obtain ⟨o', ho'⟩ := ht y (List.mem_cons_of_mem _ hy)
        refine ⟨o', ?_⟩
        have hne : key y ≠ key (f x) := fun h => hx (by
          rw [← hf x, ← h]; exact List.mem_map_of_mem hy)
        split
        · rw [set_tracked_ne hne]; exact ho'
        · exact ho'
      rw [ih hn' hrest]
      by_cases hk : k = key x
      · subst hk
        -- `x` itself: its key does not come again
        have hnot : key x ∉ xs.map key := hx
        by_cases hp : p x = true
        · have hset : (c.set (f x)).tracked (key x) = some ⟨o, f x⟩ := by
            rw [← hf x]; exact set_tracked_self (by rw [hf x]; exact ho)
          simp [hp, hset, ho, hnot]
        · simp [hp, ho]
      · have hset : (if p x then c.set (f x) else c).tracked k = c.tracked k := by
          split
          · rw [set_tracked_ne (by rw [hf x]; exact hk)]
          · rfl
        rw [hset]
        simp [hk]

/-- The same loop, run over a query just made: every row seen is `f` of what it
was if `p` picks it, and otherwise as it was. -/
theorem setAll_load_tracked {c : Context ρ} (hf : ∀ r, key (f r) = key r) (h : c.WellKeyed)
    {t : Table ρ} {r : ρ} (hr : r ∈ t.rows) {e : Entry ρ}
    (he : (c.load t).tracked (key r) = some e) :
    (setAll p f (c.view t) (c.load t)).tracked (key r)
      = some (if p e.current then ⟨e.original, f e.current⟩ else e) := by
  have hmem : key r ∈ (c.view t).map key := by
    refine List.mem_map.mpr ⟨c.read r, List.mem_map_of_mem hr, key_read h r⟩
  rw [setAll_tracked hf (key r) (c.view t) (view_nodup h t) (fun x hx => load_tracked_view h hx),
    he]
  simp [hmem]

end SetAll

/-- Every tracked row was read as it is committed now. -/
structure Fresh (c : Context ρ) (t : Table ρ) : Prop where
  wellKeyed : c.WellKeyed
  original : ∀ r ∈ t.rows, ∀ e, c.tracked (key r) = some e → e.original = r

theorem fresh_new (t : Table ρ) : (new : Context ρ).Fresh t :=
  ⟨wellKeyed_new, fun r _ e he => absurd he (by simp [new])⟩

theorem fresh_load {c : Context ρ} {t : Table ρ} (h : c.Fresh t) : (c.load t).Fresh t := by
  refine ⟨wellKeyed_load h.wellKeyed t, fun r hr e he => ?_⟩
  cases hc : c.tracked (key r) with
  | some e' =>
      rw [load_tracked_of_some hc] at he
      exact h.original r hr e (hc.trans he)
  | none =>
      rw [load_tracked_of_none hr hc] at he
      cases he
      rfl

theorem fresh_set {c : Context ρ} {t : Table ρ} (h : c.Fresh t) (x : ρ) : (c.set x).Fresh t := by
  refine ⟨wellKeyed_set h.wellKeyed x, fun r hr e he => ?_⟩
  by_cases hk : key r = key x
  · rw [hk] at he
    cases hc : c.tracked (key x) with
    | none => simp [set, hc] at he
    | some e' =>
        rw [set_tracked_self hc] at he
        cases he
        exact h.original r hr e' (by rw [hk]; exact hc)
  · rw [set_tracked_ne hk] at he
    exact h.original r hr e he

theorem fresh_setAll {p : ρ → Bool} {f : ρ → ρ} {t : Table ρ} (xs : List ρ) :
    ∀ {c : Context ρ}, c.Fresh t → (setAll p f xs c).Fresh t := by
  induction xs with
  | nil => intro c h; exact h
  | cons x xs ih =>
      intro c h
      show (setAll p f xs (if p x then c.set (f x) else c)).Fresh t
      refine ih ?_
      split
      · exact fresh_set h _
      · exact h

/-- What a query shows after such a loop. -/
theorem setAll_view {p : ρ → Bool} {f : ρ → ρ} (hf : ∀ r, key (f r) = key r) {c : Context ρ}
    {t : Table ρ} (h : c.WellKeyed) :
    (setAll p f (c.view t) (c.load t)).view t
      = (c.view t).map (fun x => if p x then f x else x) := by
  -- both sides walk the committed rows
  show t.rows.map (setAll p f (c.view t) (c.load t)).read = (t.rows.map c.read).map _
  rw [List.map_map]
  refine List.map_congr_left fun r hr => ?_
  obtain ⟨o, ho⟩ := load_tracked_view h (List.mem_map_of_mem (f := c.read) hr)
  rw [key_read h] at ho
  have hs := setAll_load_tracked (p := p) hf h hr ho
  show read _ r = if p (c.read r) then f (c.read r) else c.read r
  rw [read, hs]
  by_cases hp : p (c.read r) = true
  · simp [hp]
  · simp [hp]

theorem write_eq_read {c : Context ρ} {t : Table ρ} (h : c.Fresh t) {r : ρ} (hr : r ∈ t.rows) :
    c.write r = c.read r := by
  unfold write read
  cases hc : c.tracked (key r) with
  | none => rfl
  | some e =>
      show Entity.write e.original e.current r = e.current
      rw [h.original r hr e hc]
      exact Entity.write_self r e.current (h.wellKeyed _ e hc).2

/-- What is tracked after a save: what was, with its values accepted. -/
def accept (c : Context ρ) : Context ρ :=
  ⟨fun k => (c.tracked k).map (fun e => ⟨e.current, e.current⟩), []⟩

end Context

namespace Table

/-- `SaveChanges`: one transaction. -/
def save (t : Table ρ) (c : Context ρ) : Table ρ :=
  (t.update c.write c.key_write).insertAll c.added

theorem save_rows (t : Table ρ) (c : Context ρ) :
    (t.save c).rows = t.rows.map c.write ++ keyed t.nextKey c.added := by
  rw [save, insertAll_rows]
  rfl

/-- **A save with no interference commits what the session sees.** -/
theorem save_rows_of_fresh {t : Table ρ} {c : Context ρ} (h : c.Fresh t) :
    (t.save c).rows = c.view t ++ keyed t.nextKey c.added := by
  rw [save_rows]
  exact congrArg (· ++ _) (List.map_congr_left fun _ hr => Context.write_eq_read h hr)

theorem save_nextKey (t : Table ρ) (c : Context ρ) :
    (t.save c).nextKey = t.nextKey + c.added.length :=
  insertAll_nextKey c.added _

/-- Saving a session that has changed nothing. -/
theorem save_unchanged {t : Table ρ} {c : Context ρ} (h : c.Fresh t) (hview : c.view t = t.rows)
    (hadded : c.added = []) : t.save c = t := by
  refine ext_rows ?_ ?_
  · rw [save_rows_of_fresh h, hview, hadded]
    exact List.append_nil _
  · rw [save_nextKey, hadded]
    rfl

/-- Reading the table once more before a save makes no difference to it. -/
theorem save_load {t : Table ρ} {c : Context ρ} (h : c.Fresh t) :
    t.save (c.load t) = t.save c := by
  refine ext_rows ?_ ?_
  · rw [save_rows_of_fresh h, save_rows_of_fresh (Context.fresh_load h), Context.load_view]
    rfl
  · rw [save_nextKey, save_nextKey]
    rfl

/-- Whatever is saved, no row disappears. -/
theorem mem_save {t : Table ρ} (c : Context ρ) {r : ρ} (h : r ∈ t.rows) :
    c.write r ∈ (t.save c).rows := by
  rw [save_rows]
  exact List.mem_append_left _ (List.mem_map_of_mem h)

end Table

end TacPac.Lib
